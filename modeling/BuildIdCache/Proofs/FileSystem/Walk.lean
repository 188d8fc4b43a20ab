import BuildIdCache.FileSystem.Walk
import BuildIdCache.Proofs.FileSystem.Spare
import BuildIdCache.Proofs.World

set_option autoImplicit false

namespace BuildIdCache.FileSystem

variable {σ α : Type}

structure Grows (before after : FileSystem) : Prop where
  steady : Steady before after
  files : ∀ place content, before.at? place = some (.file content) →
    ∃ new, after.at? place = some (.file new)

theorem Grows.refl (fs : FileSystem) : Grows fs fs := ⟨.refl fs, fun _ content h => ⟨content, h⟩⟩

theorem Grows.trans {first second third : FileSystem} (a : Grows first second)
    (b : Grows second third) : Grows first third where
  steady := a.steady.trans b.steady
  files place content h := by
    obtain ⟨new, there⟩ := a.files place content h
    exact b.files place new there

theorem Sprouts.grows {before after : FileSystem} (sprouts : Sprouts before after) :
    Grows before after :=
  ⟨sprouts.steady, fun place content h => ⟨content, (sprouts.file place content).2 h⟩⟩

theorem SameBut.grows {before after : FileSystem} {path : Path} {place : Location}
    {content : ByteArray} (same : SameBut before after place (some (.file content)))
    (target : before.target? path = some place) : Grows before after := by
  refine ⟨same.steady_of_target? target (by simp), fun other old h => ?_⟩
  rw [same.at?]
  split
  · exact ⟨content, rfl⟩
  · exact ⟨old, h⟩

-- A path that cannot be read is none that could be read if only files were written.
def Settled (fs : FileSystem) (path : Path) : Prop :=
  ∀ after content, Grows fs after → after.read path = .ok content → ∃ old, fs.read path = .ok old

theorem settled_of_isFile (fs : FileSystem) (path : Path) (file : fs.isFile path = true) :
    fs.Settled path :=
  fun _ _ _ _ => (fs.isFile_iff path).1 file

theorem settled_push (fs : FileSystem) (base : Path) (place : Location) (name : Name)
    (content : ByteArray) (entered : fs.Enters base place)
    (there : fs.at? (place ++ [name]) = some (.file content)) : fs.Settled (base.push name) := by
  intro after new grows readable
  obtain ⟨parent, last, found⟩ := (after.read_eq_ok _ new).1 readable
  obtain ⟨other, later⟩ := grows.files _ _ there
  have resolved := entered.resolve_file (grows.steady.enters entered) [name] (by simp)
    content other _ true there later found
  exact ⟨content, (fs.read_eq_ok _ content).2 ⟨_, _, resolved⟩⟩

theorem list_eq_ok (fs : FileSystem) (path : Path) (entries : List (Name × Entry))
    (h : fs.list path = .ok entries) :
    ∃ place, fs.resolve true path = .ok (.dir place) ∧ entries = fs.children place := by
  unfold list at h
  split at h
  next place found => exact ⟨place, found, (Except.ok.inj h).symm⟩
  all_goals cases h

section

variable (root : Path) (visit : α → Path → Action σ α) (inv : α → World σ → Prop)
  (failed : World σ → Prop)
  (each : ∀ answer names between, inv answer between →
    between.files.Settled (root.extend names) → (visit answer (root.extend names)).Ends between
      (fun next after => inv next after ∧ Grows between.files after.files) failed)
  (stops : ∀ answer between, inv answer between → failed between)

include each stops

theorem ends_walkDir (room : Nat) (answer : α) (above : List Name) (world : World σ)
    (holds : inv answer world) :
    (walkDir root visit room answer (root.extend above)).Ends world
      (fun next after => inv next after ∧ Grows world.files after.files) failed := by
  induction room generalizing answer above world with
  | zero => exact stops answer world holds
  | succ room ih =>
    simp only [walkDir, Action.ends_bind, Action.ends_files]
    split
    next => exact stops answer world holds
    next entries listed =>
      obtain ⟨place, found, rfl⟩ := world.files.list_eq_ok _ entries listed
      have entered := world.files.enters_of_resolve _ place found
      refine Action.ends_foldlM _
        (fun _ next after => inv next after ∧ Grows world.files after.files) _ _ _
        ⟨holds, .refl _⟩ ?_
      rintro before ⟨name, entry⟩ rest next between split ⟨holds, grows⟩
      have there : world.files.at? (place ++ [name]) = some entry :=
        (world.files.mem_children place name entry).1 (by simp [split])
      -- What one child adds comes on top of what the children before it have added.
      have onward : ∀ step : Action σ α, step.Ends between
          (fun next after => inv next after ∧ Grows between.files after.files) failed →
          step.Ends between
            (fun next after => inv next after ∧ Grows world.files after.files) failed :=
        fun step h => h.mono (fun _ _ kept => ⟨kept.1, grows.trans kept.2⟩) fun _ left => left
      rw [← Path.extend_concat]
      cases entry with
      | dir => exact onward _ (ih next (above ++ [name]) between holds)
      | file content =>
        obtain ⟨new, now⟩ := grows.files _ _ there
        refine onward _ (each next _ between holds ?_)
        rw [Path.extend_concat]
        exact between.files.settled_push _ place name new (grows.steady.enters entered) now
      | link target =>
        simp only [Action.ends_bind, Action.ends_isFile]
        split
        next file =>
          exact onward _ (each next _ between holds (between.files.settled_of_isFile _ file))
        next => exact ⟨holds, grows⟩

theorem ends_walk (start : α) (world : World σ) (holds : inv start world) :
    (walk root visit start).Ends world
      (fun next after => inv next after ∧ Grows world.files after.files) failed := by
  have enter := ends_walkDir root visit inv failed each stops pathLimit start [] world holds
  have visited (file : world.files.isFile root = true) :=
    each start [] world holds (world.files.settled_of_isFile root file)
  simp only [walk, Action.ends_bind, Action.ends_files]
  split
  · exact stops start world holds
  · exact stops start world holds
  next found =>
    have through := world.files.resolve_through root _ found (by simp)
    exact visited (by simp [isFile, lookup, through])
  · exact enter
  · split
    · exact stops start world holds
    · exact enter
    next found => exact visited (by simp [isFile, found])
    · exact ⟨holds, .refl _⟩

end

end BuildIdCache.FileSystem
