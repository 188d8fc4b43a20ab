import BuildIdCache.Index.Store
import BuildIdCache.Proofs.Cache

set_option autoImplicit false

namespace BuildIdCache

open FileSystem

variable {σ : Type}

namespace Inspector

def Answers (inspector : Inspector σ) (fs : FileSystem) (path : Path) (id : String) : Prop :=
  ∃ world, world.files = fs ∧ (inspector.buildId path world).1 = id

theorem Reads.answer {inspector : Inspector σ} {reading : Reading}
    (reads : inspector.Reads reading) {fs : FileSystem} {path : Path} {id : String}
    (answers : inspector.Answers fs path id) : id = reading.buildIdAt fs path := by
  obtain ⟨world, rfl, rfl⟩ := answers
  exact (reads.buildId path world).1

end Inspector

namespace Index

variable {inspector : Inspector σ} {cache : Cache}

def recordWith (cache : Cache) (id : String) (path : Path) : Option IndexRecord :=
  if path.components = cache.listPath.components ∨ id = "" then none
  else (cache.relativeString? path).map fun relative => ⟨id, relative⟩

theorem recordWith_eq_some (id : String) (names : List Name) (further : names ≠ [])
    (record : IndexRecord) : recordWith cache id (cache.root.extend names) = some record ↔
      names ≠ [listName] ∧ record.buildId = id ∧ record.buildId ≠ "" ∧
        renderNames names = some record.path := by
  obtain ⟨buildId, path⟩ := record
  rw [recordWith, cache.relativeString?_extend names further]
  simp only [cache.listPath_eq_extend, Path.components_extend_inj]
  split_ifs <;> simp <;> grind

theorem ends_addRecord (keeps : inspector.KeepsFiles) (records : List IndexRecord) (path : Path)
    (world : World σ) :
    (addRecord inspector cache records path).Ends world
      (fun next after => after.files = world.files ∧ ∃ id,
        (path.components ≠ cache.listPath.components →
          inspector.Answers world.files path id) ∧
        next = records ++ (recordWith cache id path).toList) fun _ => False := by
  simp only [addRecord]
  split
  next itself => exact ⟨rfl, "", fun other => absurd itself other, by simp [recordWith]⟩
  next other =>
    rw [Action.ends_bind, Action.ends_lift]
    have asked : (inspector.buildId path).After world fun id after =>
        after.files = world.files ∧ inspector.Answers world.files path id :=
      ⟨keeps _ world, world, rfl, rfl⟩
    refine asked.mono fun id after answering => ?_
    obtain ⟨same, answers⟩ := answering
    split
    next empty =>
      obtain rfl := String.isEmpty_iff.1 empty
      exact ⟨same, "", fun _ => answers, by simp [recordWith]⟩
    next known =>
      have record : recordWith cache id path =
          (cache.relativeString? path).map fun relative => ⟨id, relative⟩ := by
        rw [recordWith, if_neg]
        simpa [other] using fun empty : id = "" => known (by simp [empty])
      split
      next relative there => exact ⟨same, id, fun _ => answers, by simp [record, there]⟩
      next absent => exact ⟨same, id, fun _ => answers, by simp [record, absent]⟩

section

variable {inv : World σ → Prop}

structure Closed (inspector : Inspector σ) (cache : Cache) (inv : World σ → Prop) : Prop where
  buildId : ∀ path world, inv world → (inspector.buildId path).After world fun _ => inv
  made : ∀ world, inv world → inv { world with files := (world.files.makeDirAll cache.root).1 }
  written : ∀ content (world : World σ) fs, inv world →
    world.files.write cache.listPath content = .ok fs → inv { world with files := fs }

theorem Closed.rest {τ : Type} {view : σ → τ}
    (leaves : inspector.Leaves fun world => view world.rest) (holds : τ → Prop) :
    Closed inspector cache fun world => holds (view world.rest) where
  buildId path world kept := (leaves.buildId path world).mono fun _ _ same => same ▸ kept
  made _ kept := kept
  written _ _ _ kept _ := kept

variable (closed : Closed inspector cache inv)

include closed

theorem Closed.ends_addRecord (records : List IndexRecord) (path : Path) (world : World σ)
    (holds : inv world) :
    (addRecord inspector cache records path).Ends world (fun _ => inv) inv := by
  rw [addRecord]
  split
  · exact holds
  rw [Action.ends_bind, Action.ends_lift]
  refine (closed.buildId path world holds).mono fun id after holds => ?_
  split
  · exact holds
  · split <;> exact holds

theorem Closed.ends_store (quiet : inspector.KeepsFiles) (world : World σ) (holds : inv world) :
    (store inspector cache).Ends world (fun _ => inv) inv := by
  rw [store, Action.ends_bind]
  have made := closed.made world holds
  refine Action.ends_makeDirAll _ world _ (fun _ => ?_) fun _ _ => made
  rw [Action.ends_bind]
  refine (ends_walk cache.root _ (fun _ => inv) inv ?_ (fun _ _ holds => holds) [] _ made).mono
    (fun records after walked => ?_) fun _ left => left
  · intro records names between holds _
    refine ((closed.ends_addRecord records _ between holds).and
      (Index.ends_addRecord quiet records (cache.root.extend names) between)).mono ?_
      fun _ never => never.2.elim
    exact fun _ after kept => ⟨kept.1, kept.2.1 ▸ .refl _⟩
  · rw [Action.ends_bind]
    exact Action.ends_change _ _ after _ (fun fs => closed.written _ after fs walked.1) walked.1

end

theorem closed_stocks (keeps : inspector.KeepsFiles) {kept : String → Prop}
    {good : String → ByteArray → Prop}
    (others : ∀ path, kept path → (cacheRelative path).names ≠ [listName]) :
    Closed inspector cache fun world => cache.Stocks kept good world.files where
  buildId path world stocks := (keeps path world).mono fun _ _ same => same ▸ stocks
  made world stocks := stocks.sprouts (world.files.makeDirAll_sprouts cache.root)
  written content world fs stocks written := by
    obtain ⟨place, filled, same⟩ := world.files.write_sameBut fs _ _ written
    exact stocks.touches [listName] others (.inr ⟨place, _, filled, by simp, same⟩)

end Index

end BuildIdCache
