import BuildIdCache.Proofs.FileSystem.Listing
import BuildIdCache.Proofs.Index.Store

set_option autoImplicit false

namespace BuildIdCache

open FileSystem

variable {σ : Type}

namespace Index

variable {inspector : Inspector σ} {cache : Cache}

def Gathered (inspector : Inspector σ) (cache : Cache) (fs : FileSystem) (listed : List (List Name))
    (records : List IndexRecord) : Prop :=
  ∃ idOf : List Name → String,
    (∀ names ∈ listed, names ≠ [listName] →
      inspector.Answers fs (cache.root.extend names) (idOf names)) ∧
    records = listed.filterMap fun names => recordWith cache (idOf names) (cache.root.extend names)

theorem Gathered.cons {fs : FileSystem} {names : List Name} {rest : List (List Name)} {id : String}
    {records : List IndexRecord} (more : Gathered inspector cache fs rest records)
    (new : names ∉ rest)
    (answers : names ≠ [listName] → inspector.Answers fs (cache.root.extend names) id) :
    Gathered inspector cache fs (names :: rest)
      ((recordWith cache id (cache.root.extend names)).toList ++ records) := by
  obtain ⟨idOf, known, rfl⟩ := more
  have others : ∀ other ∈ rest, Function.update idOf names id other = idOf other := by
    rintro other member
    have apart : other ≠ names := by
      rintro rfl
      exact new member
    exact Function.update_of_ne apart id idOf
  refine ⟨Function.update idOf names id, fun other member listed => ?_, ?_⟩
  · rcases List.mem_cons.1 member with rfl | member
    · simpa using answers listed
    · simpa [others other member] using known other member listed
  · have same : rest.filterMap (fun other =>
          recordWith cache (idOf other) (cache.root.extend other)) =
        rest.filterMap fun other =>
          recordWith cache (Function.update idOf names id other) (cache.root.extend other) :=
      List.filterMap_congr fun other member => by rw [others other member]
    rw [same, List.filterMap_cons, Function.update_self]
    cases recordWith cache id (cache.root.extend names) <;> rfl

section

variable (keeps : inspector.KeepsFiles)

include keeps

theorem ends_visitAll (listed : List (List Name)) (once : listed.Nodup)
    (start : List IndexRecord) (world : World σ) :
    (visitAll cache.root (addRecord inspector cache) start listed).Ends world
      (fun last after => after.files = world.files ∧ ∃ records,
        Gathered inspector cache world.files listed records ∧ last = start ++ records)
      fun _ => False := by
  induction listed generalizing start world with
  | nil => exact ⟨rfl, [], ⟨fun _ => "", by simp, rfl⟩, by simp⟩
  | cons names rest ih =>
    rw [visitAll, List.foldlM_cons, Action.ends_bind]
    refine (ends_addRecord keeps start (cache.root.extend names) world).mono ?_
      fun _ never => never
    rintro next between ⟨same, id, answers, rfl⟩
    obtain ⟨new, once⟩ := List.nodup_cons.1 once
    refine (ih once _ between).mono ?_ fun _ never => never
    rintro last after ⟨same', records, gathered, rfl⟩
    rw [same] at same' gathered
    refine ⟨same', _, gathered.cons new fun other => answers ?_, by simp⟩
    rwa [cache.listPath_eq_extend, Ne, Path.components_extend_inj]

theorem ends_gather (world : World σ) (place : Location)
    (isDir : world.files.resolve true cache.root = .ok (.dir place)) :
    (walk cache.root (addRecord inspector cache) []).Ends world
      (fun records after => after.files = world.files ∧ ∃ listed,
        world.files.listing cache.root pathLimit [] = some listed ∧
        Gathered inspector cache world.files listed records)
      fun _ => world.files.listing cache.root pathLimit [] = none := by
  have leads := world.files.aimAt_of_resolve cache.root _ isDir
  have visits := visits_walkDir world.files cache.root (addRecord inspector cache) pathLimit []
    (fun records names between _ same =>
      (ends_addRecord keeps records (cache.root.extend names) between).mono
        (fun _ _ added => added.1.trans same) fun _ never => never)
    [] world rfl
  have walks := walk_of_dir cache.root (addRecord inspector cache) [] world place isDir
  rw [Action.Ends, walks]
  refine visits.mono ?_ fun _ failed => failed
  rintro records after ⟨same, listed, lists, visited⟩
  have found := lists_listing _ _ place leads _ _ lists
  obtain ⟨-, gathered, complete, rfl⟩ := (ends_visitAll keeps listed found.1 [] world).of_ok visited
  exact ⟨same, listed, lists, by simpa using complete⟩

theorem ends_store_gather (world : World σ) (made : FileSystem) (place : Location)
    (making : world.files.makeDirAll cache.root = (made, .ok ()))
    (isDir : made.resolve true cache.root = .ok (.dir place))
    (lists : made.listing cache.root pathLimit [] ≠ none)
    (writes : ∀ content, ∃ written, made.write cache.listPath content = .ok written) :
    (store inspector cache).Ends world
      (fun records after => ∃ listed, made.listing cache.root pathLimit [] = some listed ∧
        Gathered inspector cache made listed records ∧
        made.write cache.listPath (render records).toUTF8 = .ok after.files)
      fun _ => False := by
  rw [store, Action.ends_bind]
  refine Action.ends_makeDirAll_of_ok _ world made making _ ?_
  rw [Action.ends_bind]
  refine (ends_gather keeps { world with files := made } place isDir).mono ?_
    fun _ unlisted => lists unlisted
  rintro records walked ⟨same, listed, found, gathered⟩
  obtain ⟨written, writing⟩ := writes (render records).toUTF8
  rw [Action.ends_bind]
  refine Action.ends_change_of_ok _ _ walked written (by rw [same]; exact writing) _ ?_
  exact ⟨listed, found, gathered, writing⟩

theorem store_eq_ok (world after : World σ) (records : List IndexRecord)
    (ran : store inspector cache world = (.ok records, after)) :
    ∃ made place listed, world.files.makeDirAll cache.root = (made, .ok ()) ∧
      made.resolve true cache.root = .ok (.dir place) ∧
      made.listing cache.root pathLimit [] = some listed ∧
      Gathered inspector cache made listed records ∧
      made.write cache.listPath (render records).toUTF8 = .ok after.files := by
  obtain ⟨_, begun, making, ran⟩ := Action.bind_eq_ok _ _ _ _ _ ran
  obtain ⟨gathered, walked, walking, ran⟩ := Action.bind_eq_ok _ _ _ _ _ ran
  obtain ⟨_, last, writing, ran⟩ := Action.bind_eq_ok _ _ _ _ _ ran
  obtain ⟨answer, rfl⟩ := Prod.mk.inj ran
  obtain rfl := Except.ok.inj answer
  have made := Action.makeDirAll_eq_ok _ _ _ making
  have written := Action.change_eq_ok _ _ _ _ writing
  have unchanged : walked.files = begun.files := by
    have kept := ends_walk cache.root (addRecord inspector cache)
      (fun _ between => between.files = begun.files) (fun _ => True)
      (fun records names between same _ =>
        (ends_addRecord keeps records _ between).mono
          (fun _ _ added => ⟨added.1.trans same, added.1 ▸ .refl _⟩) fun _ _ => trivial)
      (fun _ _ _ => trivial) [] begun rfl
    exact (kept.of_ok walking).1
  rw [unchanged] at written
  -- The list could be written, so the root could be entered and is no file.
  obtain ⟨filled, target, -⟩ := write_sameBut _ _ _ _ written
  obtain ⟨_, resolved⟩ := resolve_of_target? _ _ _ target
  obtain ⟨place, entered⟩ := begun.files.enters_of_extend true cache.root [listName] _
    (by simp) resolved
  obtain ⟨found, top⟩ := resolve_of_walk _ _ _ _ _ _ walking
  have isDir : begun.files.resolve true cache.root = .ok (.dir place) := by
    have there := begun.files.resolve_holds true _ _ top
    have leads := begun.files.aimAt_of_resolve _ _ top
    rw [entered.aimAt] at leads
    have known := entered.isDir
    obtain rfl := Option.some.inj leads
    cases found <;> simp_all [Holds, Place.location]
  obtain ⟨-, listed, lists, complete⟩ := (ends_gather keeps begun place isDir).of_ok walking
  exact ⟨begun.files, place, listed, made, isDir, lists, complete, written⟩

end

theorem read_stored {made after : FileSystem} {content : ByteArray}
    (h : made.write cache.listPath content = .ok after) :
    after.read cache.listPath = .ok content := by
  obtain ⟨filled, target, same⟩ := made.write_sameBut after _ _ h
  exact (same.steady_of_target? target (by simp)).read_target _ filled content target
    (by rw [same.at?, if_pos rfl])

end Index

end BuildIdCache
