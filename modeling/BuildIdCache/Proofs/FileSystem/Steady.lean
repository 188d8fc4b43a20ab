import BuildIdCache.FileSystem.Change
import BuildIdCache.Proofs.FileSystem.Aim

set_option autoImplicit false

namespace BuildIdCache.FileSystem

/-- A change that a path does not notice on its way: directories stay, links stay, and no link
comes. Files may come, go and change. -/
structure Steady (before after : FileSystem) : Prop where
  workingDir : after.workingDir = before.workingDir
  dirs : ∀ place, before.at? place = some .dir → after.at? place = some .dir
  links : ∀ place target,
    after.at? place = some (.link target) ↔ before.at? place = some (.link target)

theorem Steady.refl (fs : FileSystem) : Steady fs fs :=
  ⟨rfl, fun _ h => h, fun _ _ => Iff.rfl⟩

theorem Steady.trans {first second third : FileSystem} (a : Steady first second)
    (b : Steady second third) : Steady first third where
  workingDir := b.workingDir.trans a.workingDir
  dirs place isDir := b.dirs place (a.dirs place isDir)
  links place target := (b.links place target).trans (a.links place target)

section

variable {before after : FileSystem} (steady : Steady before after)

include steady

theorem Steady.start (path : Path) : after.start path = before.start path := by
  simp [FileSystem.start, steady.workingDir]

theorem Steady.aim (links : Nat) (place : Location) (steps : List Step) :
    after.aim links place steps = before.aim links place steps := by
  have sameLinks := steady.links
  fun_induction FileSystem.aim before links place steps <;> grind -linarith [FileSystem.aim]

theorem Steady.aimAt (path : Path) : after.aimAt path = before.aimAt path := by
  rw [FileSystem.aimAt, FileSystem.aimAt, steady.start, steady.aim]

theorem Steady.place_of_resolve {root : Path} {place reached : Location} {names : List Name}
    (leads : before.aimAt root = some place) (clear : before.ClearTo place names)
    (h : after.resolve true (root.extend names) = .ok (.dir reached)) :
    reached = place ++ names := by
  have aimed := after.aimAt_of_resolve _ _ h
  rw [steady.aimAt, before.aimAt_extend_of_clear root place names leads clear] at aimed
  exact (Option.some.inj aimed).symm

theorem Steady.plainBelow {root : Path} (plain : before.PlainBelow root) :
    after.PlainBelow root := by
  intro place rest target leads notEmpty link
  rw [steady.aimAt] at leads
  exact plain place rest target leads notEmpty ((steady.links _ _).1 link)

end

-- Where a path ended before, with what is there now.
def settle (fs : FileSystem) : Place → Place
  | .dir place => .dir place
  | .file parent name _ | .link parent name _ | .free parent name =>
    match fs.at? (parent ++ [name]) with
    | none => .free parent name
    | some .dir => .dir (parent ++ [name])
    | some (.file content) => .file parent name content
    | some (.link target) => .link parent name target

theorem Steady.follow {before after : FileSystem} (steady : Steady before after) (links : Nat)
    (place : Location) (steps : List Step) (found : Place)
    (h : before.follow true links place steps = .ok found) :
    after.follow true links place steps = .ok (after.settle found) := by
  have dirs := steady.dirs
  have sameLinks := steady.links
  fun_induction FileSystem.follow before true links place steps <;>
    grind -linarith [FileSystem.follow, settle]

theorem Steady.resolve {before after : FileSystem} (steady : Steady before after) (path : Path)
    (found : Place) (h : before.resolve true path = .ok found) :
    after.resolve true path = .ok (after.settle found) := by
  unfold FileSystem.resolve at h ⊢
  split_ifs at h with empty nul long gone
  rw [if_neg empty, if_neg nul, if_neg long, steady.start]
  rw [if_neg fun missing => missing (steady.dirs _ (not_not.1 gone))]
  exact steady.follow _ _ _ _ h

theorem read_eq_ok (fs : FileSystem) (path : Path) (content : ByteArray) :
    fs.read path = .ok content ↔
      ∃ parent name, fs.resolve true path = .ok (.file parent name content) := by
  unfold read lookup
  cases h : fs.resolve true path with
  | error e => simp
  | ok found => cases found <;> simp

theorem isFile_iff (fs : FileSystem) (path : Path) :
    fs.isFile path = true ↔ ∃ content, fs.read path = .ok content := by
  unfold isFile read
  rcases fs.lookup path with e | ⟨content⟩ | _ | target <;> simp

/-- There is a file where a path leads, if maybe behind directories that are missing on the way. -/
def Had (fs : FileSystem) (path : Path) (content : ByteArray) : Prop :=
  ∃ place, fs.aimAt path = some place ∧ fs.at? place = some (.file content)

theorem place_of_read (fs : FileSystem) (path : Path) (content : ByteArray)
    (h : fs.read path = .ok content) : fs.Had path content := by
  obtain ⟨parent, name, found⟩ := (fs.read_eq_ok path content).1 h
  exact ⟨parent ++ [name], fs.aimAt_of_resolve path _ found, fs.resolve_holds true path _ found⟩

theorem Steady.read {before after : FileSystem} (steady : Steady before after) (path : Path)
    (place : Location) (old new : ByteArray) (h : before.read path = .ok old)
    (leads : before.aimAt path = some place) (there : after.at? place = some (.file new)) :
    after.read path = .ok new := by
  obtain ⟨parent, name, found⟩ := (before.read_eq_ok path old).1 h
  have same : parent ++ [name] = place := by
    simpa [before.aimAt_of_resolve path _ found, Place.location] using leads
  refine (after.read_eq_ok path new).2 ⟨parent, name, ?_⟩
  rw [steady.resolve path _ found]
  simp [settle, same, there]

def target? (fs : FileSystem) (path : Path) : Option Location :=
  match fs.resolve true path with
  | .ok (.file parent name _) | .ok (.free parent name) => some (parent ++ [name])
  | _ => none

theorem resolve_of_target? (fs : FileSystem) (path : Path) (place : Location)
    (h : fs.target? path = some place) : ∃ found, fs.resolve true path = .ok found := by
  unfold target? at h
  split at h
  next found => exact ⟨_, found⟩
  next found => exact ⟨_, found⟩
  next => cases h

theorem aimAt_of_target? (fs : FileSystem) (path : Path) (place : Location)
    (h : fs.target? path = some place) : fs.aimAt path = some place := by
  unfold target? at h
  split at h
  next found => simpa [fs.aimAt_of_resolve path _ found, Place.location] using h
  next found => simpa [fs.aimAt_of_resolve path _ found, Place.location] using h
  next => cases h

theorem at?_target? (fs : FileSystem) (path : Path) (place : Location)
    (h : fs.target? path = some place) :
    fs.at? place = none ∨ ∃ content, fs.at? place = some (.file content) := by
  unfold target? at h
  split at h
  next content found =>
    obtain rfl := Option.some.inj h
    exact .inr ⟨content, fs.resolve_holds true path _ found⟩
  next found =>
    obtain rfl := Option.some.inj h
    exact .inl (fs.resolve_holds true path _ found).2
  next => cases h

theorem Steady.read_target {before after : FileSystem} (steady : Steady before after) (path : Path)
    (place : Location) (content : ByteArray) (h : before.target? path = some place)
    (there : after.at? place = some (.file content)) : after.read path = .ok content := by
  unfold target? at h
  split at h
  next parent name _ found =>
    obtain rfl := Option.some.inj h
    exact (after.read_eq_ok path content).2 ⟨parent, name, by
      simp [steady.resolve path _ found, settle, there]⟩
  next parent name found =>
    obtain rfl := Option.some.inj h
    exact (after.read_eq_ok path content).2 ⟨parent, name, by
      simp [steady.resolve path _ found, settle, there]⟩
  next => cases h

structure SameBut (before after : FileSystem) (place : Location) (entry : Option Entry) : Prop where
  workingDir : after.workingDir = before.workingDir
  at? : ∀ other, after.at? other = if other = place then entry else before.at? other

theorem SameBut.steady {before after : FileSystem} {place : Location} {entry : Option Entry}
    (same : SameBut before after place entry)
    (old : before.at? place = none ∨ ∃ content, before.at? place = some (.file content))
    (new : ∀ target, entry ≠ some (.link target)) : Steady before after where
  workingDir := same.workingDir
  dirs other isDir := by
    have apart : other ≠ place := by
      rintro rfl
      rcases old with h | ⟨_, h⟩ <;> simp [h] at isDir
    simpa [same.at? other, apart] using isDir
  links other target := by
    rw [same.at? other]
    by_cases here : other = place
    · subst here
      rcases old with h | ⟨_, h⟩ <;> simp [h, new target]
    · simp [here]

theorem Steady.target? {before after : FileSystem} (steady : Steady before after) (path : Path)
    (place : Location) (target : before.target? path = some place)
    (now : after.at? place = none ∨ ∃ content, after.at? place = some (.file content)) :
    after.target? path = some place := by
  unfold FileSystem.target? at target ⊢
  split at target
  next found =>
    obtain rfl := Option.some.inj target
    rw [steady.resolve path _ found]
    rcases now with absent | ⟨content, there⟩ <;> simp [settle, *]
  next found =>
    obtain rfl := Option.some.inj target
    rw [steady.resolve path _ found]
    rcases now with absent | ⟨content, there⟩ <;> simp [settle, *]
  next => cases target

theorem target?_of_read (fs : FileSystem) (path : Path) (content : ByteArray)
    (h : fs.read path = .ok content) :
    ∃ place, fs.target? path = some place ∧ fs.at? place = some (.file content) := by
  obtain ⟨parent, name, found⟩ := (fs.read_eq_ok path content).1 h
  exact ⟨parent ++ [name], by simp [target?, found], fs.resolve_holds true path _ found⟩

theorem SameBut.symm {before after : FileSystem} {place : Location} {entry : Option Entry}
    (same : SameBut before after place entry) : SameBut after before place (before.at? place) where
  workingDir := same.workingDir.symm
  at? other := by
    rw [same.at? other]
    grind

section

variable {before after : FileSystem} {place : Location} {entry : Option Entry}
  (same : SameBut before after place entry)
  (old : before.at? place = none ∨ ∃ content, before.at? place = some (.file content))
  (new : entry = none ∨ ∃ content, entry = some (.file content))

include same old new

theorem SameBut.steady_fill : Steady before after :=
  same.steady old fun target link => by rcases new with h | ⟨_, h⟩ <;> simp [h] at link

theorem SameBut.read_iff (path : Path) (apart : before.target? path ≠ some place)
    (content : ByteArray) : after.read path = .ok content ↔ before.read path = .ok content := by
  have now : after.at? place = none ∨ ∃ content, after.at? place = some (.file content) := by
    rwa [same.at?, if_pos rfl]
  have back := same.symm.steady_fill now old
  constructor
  · intro readable
    obtain ⟨filled, target, there⟩ := after.target?_of_read path content readable
    have elsewhere : filled ≠ place := fun here =>
      apart (back.target? path place (here ▸ target) old)
    have kept : before.at? filled = some (.file content) := by
      rwa [same.at?, if_neg elsewhere] at there
    exact back.read path filled content content readable (after.aimAt_of_target? path filled target)
      kept
  · intro readable
    obtain ⟨filled, target, there⟩ := before.target?_of_read path content readable
    have elsewhere : filled ≠ place := fun here => apart (here ▸ target)
    exact (same.steady_fill old new).read path filled content content readable
      (before.aimAt_of_target? path filled target) (by rw [same.at?, if_neg elsewhere, there])

end

structure Sprouts (before after : FileSystem) : Prop where
  workingDir : after.workingDir = before.workingDir
  at? : ∀ place, after.at? place = before.at? place ∨
    (before.at? place = none ∧ after.at? place = some .dir)

theorem Sprouts.refl (fs : FileSystem) : Sprouts fs fs := ⟨rfl, fun _ => .inl rfl⟩

theorem Sprouts.trans {first second third : FileSystem} (a : Sprouts first second)
    (b : Sprouts second third) : Sprouts first third where
  workingDir := b.workingDir.trans a.workingDir
  at? place := by grind [a.at? place, b.at? place]

theorem Sprouts.steady {before after : FileSystem} (sprouts : Sprouts before after) :
    Steady before after where
  workingDir := sprouts.workingDir
  dirs place isDir := by grind [sprouts.at? place]
  links place target := by grind [sprouts.at? place]

theorem Sprouts.file {before after : FileSystem} (sprouts : Sprouts before after) (place : Location)
    (content : ByteArray) :
    after.at? place = some (.file content) ↔ before.at? place = some (.file content) := by
  grind [sprouts.at? place]

theorem Had.of_sprouts {before after : FileSystem} {path : Path} {content : ByteArray}
    (had : after.Had path content) (sprouts : Sprouts before after) : before.Had path content := by
  obtain ⟨place, leads, there⟩ := had
  exact ⟨place, by rwa [← sprouts.steady.aimAt], (sprouts.file place content).1 there⟩

end BuildIdCache.FileSystem
