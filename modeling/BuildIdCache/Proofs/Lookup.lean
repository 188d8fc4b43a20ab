import BuildIdCache.CommandLine.Commands
import BuildIdCache.Proofs.BuildId.Canonical
import BuildIdCache.Proofs.Index.Listed
import BuildIdCache.Proofs.Index.Load
import BuildIdCache.Proofs.World

set_option autoImplicit false

namespace BuildIdCache

open Text

namespace BuildId

structure Spelling (digits : List Char) (raw : String) : Prop where
  hex : ∀ c ∈ digits, c ∈ hexDigits
  notEmpty : digits ≠ []
  spelled : ∃ front text back, raw.toList = front ++ (text ++ back) ∧
    (∀ c ∈ front, isBlank c = true) ∧ (∀ c ∈ back, isBlank c = true) ∧ SpellsDigits digits text

theorem Spelling.normalize {digits : List Char} {raw : String} (spelling : Spelling digits raw) :
    (normalize raw).toList = '0' :: 'x' :: shown digits := by
  obtain ⟨front, text, back, same, blank, blank', spells⟩ := spelling.spelled
  rw [BuildId.normalize, String.toList_ofList, same,
    normalizeChars_spellsDigits spelling.hex spelling.notEmpty spells blank blank', shown_eq]

theorem mem_hexDigits {c : Char} (hex : isLowerHex c = true) : c ∈ hexDigits := by
  have each : ∀ c : Char, c.toNat < 128 → isLowerHex c = true → c ∈ hexDigits :=
    forall_char_lt (by decide)
  refine each c ?_ hex
  simp only [isLowerHex, Char.isDigit, Bool.or_eq_true, Bool.and_eq_true, decide_eq_true_eq] at hex
  rcases hex with ⟨-, below⟩ | ⟨-, below⟩
  · exact Nat.lt_of_le_of_lt below (by decide)
  · exact Nat.lt_of_le_of_lt below (by decide)

theorem IsNormal.normalize {id : String} (normal : IsNormal id) : normalize id = id := by
  obtain ⟨digits, text, full, hex⟩ := normal
  have hex' : ∀ c ∈ digits, c ∈ hexDigits := fun c member => mem_hexDigits (hex c member)
  have lower : ∀ d ∈ hexDigits, d.toLower = d := by decide
  have same : digits.map Char.toLower = digits :=
    (List.map_congr_left fun c member => lower c (hex' c member)).trans (List.map_id _)
  have spelling : Spelling digits id :=
    { hex := hex'
      notEmpty := List.ne_nil_of_length_pos (by rw [full]; decide)
      spelled := ⟨[], '0' :: 'x' :: digits, [], by simpa using text, by simp, by simp,
        ['0', 'x'], digits, by simp, same, rfl⟩ }
  have whole : shown digits = digits := by
    rw [shown, List.rightpad, full, Nat.sub_self, List.replicate_zero, List.append_nil, ← full,
      List.take_length]
  rw [← String.toList_inj, spelling.normalize, whole, text]

end BuildId

variable {σ : Type}

theorem Index.load_leaves (cache : Cache) (world : World σ) :
    (Index.load cache world).2 = world := by
  have ends : (Index.load cache).Ends world (fun _ after => after = world)
      fun after => after = world := by
    rw [Index.load, Action.ends_bind, Action.ends_isFile]
    split
    · simp only [Action.readText, Action.read, Action.ends_bind, Action.ends_files]
      cases world.files.read cache.listPath with
      | error e => rfl
      | ok content =>
        rw [Action.ends_pure]
        cases decodeStrict? content <;> rfl
    · rfl
  unfold Action.Ends at ends
  split at ends
  next ran => rw [ran, ends]
  next ran => rw [ran, ends]

namespace CommandLine

open BuildId

theorem Command.bind_of_ok {α β : Type} {command : Command σ β} {next : β → Command σ α}
    {world between : World σ} {first : β} (ran : command world = (.ok first, between)) :
    (command >>= next) world = next first between := by
  simp only [bind, ExceptT.bind, ExceptT.mk, StateT.bind, ran]
  rfl

theorem Command.ofAction_of_ok {α : Type} {wrap : CacheError → CommandError} {action : Action σ α}
    {world after : World σ} {answer : α} (ran : action world = (.ok answer, after)) :
    Command.ofAction wrap action world = (.ok answer, after) := by
  simp only [Command.ofAction, ran]

theorem resolveConfig_leaves (args : CommonArgs) (world : World σ) :
    (resolveConfig args world).2 = world := by
  unfold resolveConfig
  cases args.config with
  | none => rfl
  | some path =>
    simp only [bind, ExceptT.bind, ExceptT.mk, StateT.bind, Command.files, ExceptT.bindCont]
    cases Config.load world.files path <;> rfl

variable {args : CommonArgs} {world : World σ} {config : Config} {index : Index}

theorem lookup_eq (resolved : (resolveConfig args world).1 = .ok config)
    (loaded : (Index.load ⟨config.cacheDir⟩ world).1 = .ok index) (raw : String) :
    lookup args raw world =
      (match index.lookup? raw with
        | some path => .ok ⟨raw, path⟩
        | none => match index.lookup? (normalize raw) with
          | some path => .ok ⟨normalize raw, path⟩
          | none => .error (.notIndexed raw (Cache.listPath ⟨config.cacheDir⟩)), world) := by
  have resolves : resolveConfig args world = (.ok config, world) :=
    Prod.ext resolved (resolveConfig_leaves args world)
  have loads : Index.load ⟨config.cacheDir⟩ world = (.ok index, world) :=
    Prod.ext loaded (Index.load_leaves _ world)
  rw [lookup, Command.bind_of_ok resolves, Command.bind_of_ok (Command.ofAction_of_ok loads)]
  cases index.lookup? raw with
  | some path => rfl
  | none => cases index.lookup? (normalize raw) <;> rfl

theorem lookup_normal (resolved : (resolveConfig args world).1 = .ok config)
    (loaded : (Index.load ⟨config.cacheDir⟩ world).1 = .ok index)
    (normal : ∀ record ∈ index.records, IsNormal record.buildId) (raw : String) :
    lookup args raw world =
      (match index.lookup? (normalize raw) with
        | some path => .ok ⟨normalize raw, path⟩
        | none => .error (.notIndexed raw (Cache.listPath ⟨config.cacheDir⟩)), world) := by
  rw [lookup_eq resolved loaded]
  cases found : index.lookup? raw with
  | none => rfl
  | some path =>
    obtain ⟨before, after, split, -⟩ := (index.lookup?_eq_some raw path).1 found
    have same : normalize raw = raw := (normal ⟨raw, path⟩ (by simp [split])).normalize
    rw [same, found]

theorem lookup_eq_ok (resolved : (resolveConfig args world).1 = .ok config)
    (loaded : (Index.load ⟨config.cacheDir⟩ world).1 = .ok index)
    (normal : ∀ record ∈ index.records, IsNormal record.buildId) (raw : String)
    (found : IndexRecord) :
    (lookup args raw world).1 = .ok found ↔
      found.buildId = normalize raw ∧ index.lookup? (normalize raw) = some found.path := by
  rw [lookup_normal resolved loaded normal]
  obtain ⟨id, path⟩ := found
  cases index.lookup? (normalize raw) with
  | none => simp
  | some first => simp [eq_comm]

theorem lookup_by_normal_form (resolved : (resolveConfig args world).1 = .ok config)
    (loaded : (Index.load ⟨config.cacheDir⟩ world).1 = .ok index)
    (normal : ∀ record ∈ index.records, IsNormal record.buildId) :
    (∀ raw, (∃ found, (lookup args raw world).1 = .ok found) ↔
        ∃ record ∈ index.records, record.buildId = normalize raw) ∧
      (∀ raw found, (lookup args raw world).1 = .ok found ↔
        found.buildId = normalize raw ∧ ∃ before after, index.records = before ++ found :: after ∧
          ∀ earlier ∈ before, earlier.buildId ≠ normalize raw) ∧
      (∀ raw other, normalize raw = normalize other →
        ∀ found, (lookup args raw world).1 = .ok found ↔ (lookup args other world).1 = .ok found) ∧
      (∀ raw other digits digits', Spelling digits raw → Spelling digits' other →
        shown digits = shown digits' → normalize raw = normalize other) ∧
      ∀ raw, normalize raw = "" →
        lookup args raw world =
          (.error (.notIndexed raw (Cache.listPath ⟨config.cacheDir⟩)), world) := by
  have answers := lookup_eq_ok resolved loaded normal
  refine ⟨fun raw => ?_, fun raw found => ?_, fun raw other same found => ?_, ?_,
    fun raw empty => ?_⟩
  · constructor
    · rintro ⟨found, ran⟩
      obtain ⟨id, first⟩ := (answers raw found).1 ran
      obtain ⟨before, after, split, -⟩ := (index.lookup?_eq_some _ _).1 first
      exact ⟨⟨normalize raw, found.path⟩, by simp [split], rfl⟩
    · rintro ⟨record, member, id⟩
      cases first : index.lookup? (normalize raw) with
      | none => exact absurd id ((index.lookup?_eq_none _).1 first record member)
      | some path => exact ⟨⟨normalize raw, path⟩, (answers raw _).2 ⟨rfl, first⟩⟩
  · rw [answers, index.lookup?_eq_some]
    refine and_congr_right fun id => ?_
    rw [← id]
  · rw [answers, answers, same]
  · intro raw other digits digits' spelling spelling' same
    rw [← String.toList_inj, spelling.normalize, spelling'.normalize, same]
  · have none : index.lookup? (normalize raw) = none := by
      refine (index.lookup?_eq_none _).2 fun record member id => ?_
      have known := (normal record member).clear.2.2
      simp [id, empty] at known
    rw [lookup_normal resolved loaded normal, none]

def shortId : String := "0xab00000000000000000000000000000000000000"

def listed : World Unit where
  files := (FileSystem.empty.put [] Sample.cacheName .dir).put [Sample.cacheName] listName
    (.file (shortId ++ "=a\nbroken\n").toUTF8)
  rest := ()

def listedArgs : CommonArgs := { CommonArgs.none with cacheDir := some Sample.cache.root }

theorem lookup_by_normal_form_sample :
    (lookup listedArgs " 0XAB" listed).1 = .ok ⟨shortId, "a"⟩ ∧
      (lookup listedArgs "AB0 " listed).1 = .ok ⟨shortId, "a"⟩ := by
  have read : listed.files.read Sample.cache.listPath = .ok (shortId ++ "=a\nbroken\n").toUTF8 := by
    cbv
  have parsed : Index.parse (shortId ++ "=a\nbroken\n") = ⟨[⟨shortId, "a"⟩]⟩ := by cbv
  have loaded : (Index.load Sample.cache listed).1 = .ok ⟨[⟨shortId, "a"⟩]⟩ := by
    rw [Index.load_of_read listed _ read, parsed]
  have normal : IsNormal shortId :=
    ⟨shortId.toList.drop 2, by cbv, by cbv, List.all_eq_true.1 (by cbv)⟩
  have id : shortId = normalize " 0XAB" := by decide
  have spelling : Spelling ['a', 'b'] " 0XAB" :=
    ⟨by decide, by decide, [' '], "0XAB".toList, [], by decide, by decide, by decide,
      ['0', 'X'], ['A', 'B'], by decide, by decide, by decide⟩
  have spelling' : Spelling ['a', 'b', '0'] "AB0 " :=
    ⟨by decide, by decide, [], "AB0".toList, [' '], by decide, by decide, by decide,
      [], ['A', 'B', '0'], by decide, by decide, by decide⟩
  obtain ⟨-, first, same, spelled, -⟩ :=
    @lookup_by_normal_form Unit listedArgs listed
      { Config.default with cacheDir := Sample.cache.root } _ rfl loaded (by simpa using normal)
  have found := (first " 0XAB" ⟨shortId, "a"⟩).2 ⟨id, [], [], rfl, by simp⟩
  have alike := spelled _ _ _ _ spelling spelling' (by decide)
  exact ⟨found, (same _ _ alike _).1 found⟩

end CommandLine

end BuildIdCache
