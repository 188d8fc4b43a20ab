import BuildIdCache.Json.Decode
import BuildIdCache.Proofs.Json.Text

set_option autoImplicit false

namespace BuildIdCache.Json

theorem chars?_unit {code : Nat} (plain : code < 0xD800) (rest : List Piece) :
    chars? (.unit code :: rest) = (chars? rest).map (Char.ofNat code :: ·) := by
  have high : isHighUnit code = false := by
    simp only [isHighUnit, Bool.and_eq_false_iff, decide_eq_false_iff_not]
    omega
  have low : isLowUnit code = false := by
    simp only [isLowUnit, Bool.and_eq_false_iff, decide_eq_false_iff_not]
    omega
  match rest with
  | [] | .char _ :: _ | .unit _ :: _ => simp [chars?, high, low]

theorem control_of_unit {c : Char} (written : writeChar c = '\\' :: 'u' :: hexUnit c.toNat) :
    c.toNat < 0x20 := by
  rcases writeChar_cases c with ⟨letter, escaped, -⟩ | ⟨-, control⟩ | ⟨same, -⟩
  · simp [escaped, hexUnit] at written
  · exact control
  · simp [same] at written

theorem chars?_reread (chars : List Char) :
    chars? ((chars.map Piece.char).map Piece.reread) = some chars := by
  induction chars with
  | nil => rfl
  | cons c rest ih =>
    rw [List.map_cons, List.map_cons, Piece.reread]
    split
    next written =>
      have control := control_of_unit written
      rw [chars?_unit (by omega), ih, Option.map_some, Char.ofNat_toNat]
    next => rw [chars?, ih, Option.map_some]

theorem text?_reread (text : String) :
    text? ((text.toList.map Piece.char).map Piece.reread) = some text := by
  rw [text?, chars?_reread, Option.map_some, String.ofList_toList]

theorem digitsValue_toDigits (n : Nat) : digitsValue (Nat.toDigits 10 n) = n := by
  have same : digitsValue (Nat.toDigits 10 n) = Nat.ofDigitChars 10 (Nat.toDigits 10 n) 0 := by
    simp only [digitsValue, Nat.ofDigitChars, Nat.mul_comm]
  rw [same, Nat.ofDigitChars_toDigits (by decide) (by decide)]

namespace Value

variable {α β : Type}

/-- A value is written so that it is read as what it stands for. -/
structure Means (read? : Value → Option α) (v : Value) (a : α) : Prop where
  natural : v.Natural
  reads : read? v.reread = some a

theorem Means.parse {read? : Value → Option α} {v : Value} {a : α} (means : v.Means read? a) :
    (parse? v.compact).bind read? = some a := by
  rw [parse?_compact means.natural, Option.bind_some, means.reads]

theorem Means.map {read? : Value → Option α} {v : Value} {a : α} (means : v.Means read? a)
    (f : α → β) : v.Means (fun v => (read? v).map f) (f a) :=
  ⟨means.natural, by simp [means.reads]⟩

theorem means_ofString (text : String) : (ofString text).Means string? text :=
  ⟨.string _, text?_reread text⟩

theorem means_name (name : String) : (ofString name).Means alternative? name :=
  ⟨.string _, text?_reread name⟩

theorem means_bool (b : Bool) : (bool b).Means bool? b := ⟨.bool b, rfl⟩

theorem means_ofNat {n : Nat} (fits : n < integerLimit) : (ofNat n).Means nat? n := by
  refine ⟨.number n, ?_⟩
  have digits : Lexer.isDigits (Nat.toDigits 10 n) = true := by
    simpa [Lexer.isDigits] using fun c member => Lexer.isDigit_of_mem_toDigits (n := n) member
  simp [ofNat, reread, nat?, digitsValue_toDigits, fits, digits]

theorem rereadItems_eq_map (items : List Value) : rereadItems items = items.map reread := by
  induction items with
  | nil => rfl
  | cons item rest ih => rw [rereadItems, ih, List.map_cons]

theorem rereadMembers_eq_map (members : List (List Piece × Value)) :
    rereadMembers members = members.map fun m => (m.1.map Piece.reread, m.2.reread) := by
  induction members with
  | nil => rfl
  | cons member rest ih => rw [rereadMembers, ih, List.map_cons]

theorem mapM_of_each {read? : α → Option β} {answer : α → β} {items : List α}
    (each : ∀ item ∈ items, read? item = some (answer item)) :
    items.mapM read? = some (items.map answer) := by
  induction items with
  | nil => rfl
  | cons item rest ih =>
    simp [each item (by simp), ih fun item member => each item (by simp [member])]

theorem means_array {write : α → Value} {read? : Value → Option α} {items : List α}
    (each : ∀ item ∈ items, (write item).Means read? item) :
    (array (items.map write)).Means (list? read?) items := by
  refine ⟨.array ?_, ?_⟩
  · intro v member
    obtain ⟨item, there, rfl⟩ := List.mem_map.1 member
    exact (each item there).natural
  · have found : items.mapM ((read? ∘ reread) ∘ write) = some (items.map id) :=
      mapM_of_each fun item member => (each item member).reads
    rw [reread, rereadItems_eq_map, list?, List.mapM_map, List.mapM_map, found, List.map_id]

theorem means_ofStrings (texts : List String) : (ofStrings texts).Means (list? string?) texts :=
  means_array fun text _ => means_ofString text

theorem natural_ofMembers {members : List (String × Value)}
    (natural : ∀ member ∈ members, member.2.Natural) : (ofMembers members).Natural := by
  refine .object ?_
  intro written there
  obtain ⟨member, named, rfl⟩ := List.mem_map.1 there
  exact natural member named

theorem members?_reread (members : List (String × Value)) :
    (ofMembers members).reread.members? = some (members.map fun m => (m.1, m.2.reread)) := by
  rw [ofMembers, reread, rereadMembers_eq_map, members?, List.mapM_map, List.mapM_map]
  exact mapM_of_each fun member _ => by rw [Function.comp, Function.comp, text?_reread,
    Option.map_some]

def present (fields : List (String × Option Value)) : List (String × Value) :=
  fields.filterMap fun field => field.2.map fun v => (field.1, v)

theorem key_of_present {fields : List (String × Option Value)} {member : String × Value}
    (there : member ∈ present fields) : member.1 ∈ fields.map Prod.fst := by
  obtain ⟨field, listed, written⟩ := List.mem_filterMap.1 there
  obtain ⟨v, -, rfl⟩ := Option.map_eq_some_iff.1 written
  exact List.mem_map_of_mem listed

theorem map_present (change : Value → Value) (fields : List (String × Option Value)) :
    (present fields).map (fun m => (m.1, change m.2)) =
      present (fields.map fun field => (field.1, field.2.map change)) := by
  simp [present, List.map_filterMap, List.filterMap_map, Function.comp_def]

theorem field?_present {fields : List (String × Option Value)}
    (nodup : (fields.map Prod.fst).Nodup) {field : String × Option Value} (there : field ∈ fields) :
    field? (present fields) field.1 = some field.2 := by
  obtain ⟨before, rest, rfl⟩ := List.append_of_mem there
  have apart : field.1 ∉ before.map Prod.fst ∧ field.1 ∉ rest.map Prod.fst := by
    simp only [List.map_append, List.map_cons, List.nodup_append, List.nodup_cons] at nodup
    exact ⟨fun same => nodup.2.2 _ same _ (by simp) rfl, nodup.2.1.1⟩
  -- No other field has the name, so only this one is found by it.
  have none : ∀ others : List (String × Option Value), field.1 ∉ others.map Prod.fst →
      (present others).filter (fun m => m.1 = field.1) = [] := by
    intro others other
    refine List.filter_eq_nil_iff.2 fun member there same => other ?_
    rw [← of_decide_eq_true same]
    exact key_of_present there
  have found : (present (before ++ field :: rest)).filter (fun m => m.1 = field.1) =
      (present [field]).filter fun m => m.1 = field.1 := by
    have split : present (before ++ field :: rest) =
        present before ++ (present [field] ++ present rest) := by
      rw [present, List.filterMap_append, ← List.singleton_append, List.filterMap_append]
      rfl
    simp [split, none before apart.1, none rest apart.2]
  rw [field?, found]
  obtain ⟨name, _ | v⟩ := field <;> simp [present]

theorem means_present {fields : List (String × Option Value)} (nodup : (fields.map Prod.fst).Nodup)
    (natural : ∀ field ∈ fields, ∀ v ∈ field.2, v.Natural) :
    (ofMembers (present fields)).Means (fields? (fields.map Prod.fst))
      (fields.map fun field => field.2.map reread) := by
  refine ⟨natural_ofMembers fun member there => ?_, ?_⟩
  · obtain ⟨field, listed, written⟩ := List.mem_filterMap.1 there
    obtain ⟨v, is, rfl⟩ := Option.map_eq_some_iff.1 written
    exact natural field listed v is
  · let written := fields.map fun field => (field.1, field.2.map Value.reread)
    have names : written.map Prod.fst = fields.map Prod.fst := by simp [written]
    have each : ∀ field ∈ written, field? (present written) field.1 = some field.2 :=
      fun field => field?_present (names ▸ nodup)
    have members := members?_reread (present fields)
    rw [map_present] at members
    have found : written.mapM (field? (present written) ∘ Prod.fst) = some (written.map Prod.snd) :=
      mapM_of_each each
    calc (ofMembers (present fields)).reread.fields? (fields.map Prod.fst)
        = (ofMembers (present fields)).reread.members?.bind fun members =>
            (fields.map Prod.fst).mapM (field? members) := rfl
      _ = some (written.map Prod.snd) := by
        rw [members, Option.bind_some, ← names, List.mapM_map, found]
      _ = some (fields.map fun field => field.2.map Value.reread) := by simp [written]

end Value

end BuildIdCache.Json
