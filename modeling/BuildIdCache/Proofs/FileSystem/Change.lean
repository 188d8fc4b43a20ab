import BuildIdCache.Proofs.FileSystem.Steady

set_option autoImplicit false

namespace BuildIdCache.FileSystem

theorem put_sameBut (fs : FileSystem) (parent : Location) (name : Name) (entry : Entry)
    (isDir : fs.at? parent = some .dir) (notDir : fs.at? (parent ++ [name]) ≠ some .dir) :
    SameBut fs (fs.put parent name entry) (parent ++ [name]) (some entry) where
  workingDir := by
    unfold put
    split <;> rfl
  at? other := by
    rw [fs.at?_put parent name entry other isDir (.inl notDir)]
    grind

theorem write_sameBut (fs after : FileSystem) (path : Path) (content : ByteArray)
    (h : fs.write path content = .ok after) :
    ∃ place, fs.target? path = some place ∧ SameBut fs after place (some (.file content)) := by
  unfold write at h
  split at h
  · split at h <;> cases h
  · split at h
    next parent name old found =>
      have there : fs.at? (parent ++ [name]) = some (.file old) :=
        fs.resolve_holds true path _ found
      cases h
      exact ⟨parent ++ [name], by simp [target?, found],
        fs.put_sameBut parent name _ (fs.at?_parent parent name (by simp [there]))
          (by simp [there])⟩
    next parent name found =>
      have there := fs.resolve_holds true path _ found
      cases h
      exact ⟨parent ++ [name], by simp [target?, found],
        fs.put_sameBut parent name _ there.1 (by simp [there.2])⟩
    all_goals cases h

theorem Steady.write {before made after : FileSystem} (steady : Steady before after) (path : Path)
    (place : Location) (old content : ByteArray) (h : before.write path old = .ok made)
    (target : before.target? path = some place)
    (now : after.at? place = none ∨ ∃ other, after.at? place = some (.file other)) :
    ∃ written, after.write path content = .ok written ∧
      SameBut after written place (some (.file content)) := by
  have again := steady.target? path place target now
  have writes : ∃ written, after.write path content = .ok written := by
    unfold FileSystem.write at h ⊢
    split at h
    · split at h <;> cases h
    next noSlash =>
      rw [if_neg noSlash]
      unfold FileSystem.target? at again
      split at again
      next found => exact ⟨_, by rw [found]⟩
      next found => exact ⟨_, by rw [found]⟩
      next => cases again
  obtain ⟨written, done⟩ := writes
  obtain ⟨filled, target', same⟩ := after.write_sameBut written path content done
  rw [again] at target'
  obtain rfl := Option.some.inj target'
  exact ⟨written, done, same⟩

theorem SameBut.steady_of_target? {before after : FileSystem} {path : Path} {place : Location}
    {entry : Option Entry} (same : SameBut before after place entry)
    (target : before.target? path = some place) (new : ∀ link, entry ≠ some (.link link)) :
    Steady before after :=
  same.steady (before.at?_target? path place target) new

theorem copy_sameBut (fs after : FileSystem) (source target : Path)
    (h : fs.copy source target = .ok after) :
    ∃ place content, fs.target? target = some place ∧
      SameBut fs after place (some (.file content)) ∧
      ∃ old, fs.read source = .ok old ∧ (fs.aimAt source ≠ some place → content = old) ∧
        (fs.aimAt source = some place → content = ByteArray.empty) := by
  unfold copy at h
  split at h
  next old found =>
    have readable : fs.read source = .ok old := by simp [read, found]
    obtain ⟨from_, leads, there⟩ := fs.place_of_read source old readable
    simp only [bind, Except.bind] at h
    split at h
    · cases h
    next emptied emptying =>
      split at h
      · cases h
      next content reading =>
        -- The first write empties the target and the second one fills the same place.
        obtain ⟨place, filled, first⟩ := fs.write_sameBut emptied target _ emptying
        obtain ⟨place', filled', second⟩ := emptied.write_sameBut after target content h
        have steady := first.steady_of_target? filled (by simp)
        have same : place' = place := by
          have before := fs.aimAt_of_target? target place filled
          have later := emptied.aimAt_of_target? target place' filled'
          rw [steady.aimAt, before] at later
          exact (Option.some.inj later).symm
        subst same
        refine ⟨place', content, filled, ⟨?_, ?_⟩, old, readable, ?_, ?_⟩
        · rw [second.workingDir, first.workingDir]
        · intro other
          rw [second.at? other, first.at? other]
          split <;> rfl
        · intro apart
          have other : from_ ≠ place' := fun h => apart (h ▸ leads)
          have kept : emptied.read source = .ok old :=
            steady.read source from_ old old readable leads (by rw [first.at?, if_neg other, there])
          rw [reading] at kept
          exact Except.ok.inj kept
        · intro here
          have lost : emptied.read source = .ok ByteArray.empty :=
            steady.read source place' old _ readable here (by rw [first.at?, if_pos rfl])
          rw [reading] at lost
          exact Except.ok.inj lost
  all_goals cases h

theorem removeTree_sameBut (fs : FileSystem) (place : Location)
    (notDir : fs.at? place ≠ some .dir) : SameBut fs (fs.removeTree place) place none where
  workingDir := rfl
  at? other := fs.at?_removeTree place other notDir

theorem removeFile_sameBut (fs after : FileSystem) (path : Path)
    (h : fs.removeFile path = .ok after) :
    (∃ place, fs.target? path = some place ∧ SameBut fs after place none) ∨
      ∃ parent name target, fs.resolve false path = .ok (.link parent name target) ∧
        SameBut fs after (parent ++ [name]) none := by
  unfold removeFile at h
  split at h
  next parent name content found =>
    have there := fs.resolve_holds false path _ found
    have through := fs.resolve_through path _ found (by simp)
    cases h
    exact .inl ⟨parent ++ [name], by simp [target?, through],
      fs.removeTree_sameBut _ (by rw [there]; simp)⟩
  next parent name target found =>
    have there := fs.resolve_holds false path _ found
    cases h
    exact .inr ⟨parent, name, target, found, fs.removeTree_sameBut _ (by rw [there]; simp)⟩
  all_goals cases h

theorem removeFile_of_isFile (fs : FileSystem) (path : Path) (file : fs.isFile path = true) :
    ∃ after, fs.removeFile path = .ok after := by
  obtain ⟨content, readable⟩ := (fs.isFile_iff path).1 file
  obtain ⟨parent, name, found⟩ := (fs.read_eq_ok path content).1 readable
  obtain ⟨last, stops⟩ := fs.resolve_stops path _ found
  cases last with
  | file | link => exact ⟨_, by rw [removeFile, stops]⟩
  | dir | free =>
    rw [fs.resolve_through path _ stops (by simp)] at found
    cases found

def Cleared (before after : FileSystem) (path : Path) : Prop :=
  before.isFile path = false ∧ after = before ∨
    before.isFile path = true ∧ before.removeFile path = .ok after

theorem makeDir_sameBut (fs after : FileSystem) (path : Path) (h : fs.makeDir path = .ok after) :
    ∃ parent name, fs.resolve true path.withoutTrailingSlashes = .ok (.free parent name) ∧
      SameBut fs after (parent ++ [name]) (some .dir) := by
  simp only [makeDir] at h
  split_ifs at h
  split at h
  next parent name found =>
    have there := fs.resolve_holds false _ _ found
    cases h
    exact ⟨parent, name, fs.resolve_through _ _ found (by simp),
      fs.put_sameBut parent name _ there.1 (by simp [there.2])⟩
  all_goals cases h

def MadeFor (before : FileSystem) (paths : List Path) (place : Location) : Prop :=
  ∃ path ∈ paths, ∃ between parent name, Sprouts before between ∧
    between.resolve true path.withoutTrailingSlashes = .ok (.free parent name) ∧
    place = parent ++ [name]

theorem makeDir_madeFor (before fs after : FileSystem) (path : Path) (paths : List Path)
    (so_far : Sprouts before fs) (member : path ∈ paths) (h : fs.makeDir path = .ok after) :
    Sprouts fs after ∧
      ∀ place, after.at? place ≠ fs.at? place → before.MadeFor paths place := by
  obtain ⟨parent, name, found, same⟩ := fs.makeDir_sameBut after path h
  have there := fs.resolve_holds true _ _ found
  refine ⟨⟨same.workingDir, fun place => ?_⟩, fun place changed => ?_⟩
  · rw [same.at? place]
    split
    next here => exact .inr ⟨here ▸ there.2, rfl⟩
    next => exact .inl rfl
  · rw [same.at? place] at changed
    split at changed
    next here => exact ⟨path, member, fs, parent, name, so_far, found, here⟩
    next => exact absurd rfl changed

theorem makeDirs_sprouts (fs : FileSystem) (paths : List Path) :
    Sprouts fs (fs.makeDirs paths).1 ∧
      ∀ place, (fs.makeDirs paths).1.at? place ≠ fs.at? place → fs.MadeFor paths place := by
  induction paths with
  | nil => exact ⟨.refl fs, fun place changed => absurd rfl changed⟩
  | cons path above ih =>
    have unchanged : Sprouts fs fs ∧
        ∀ place, fs.at? place ≠ fs.at? place → fs.MadeFor (path :: above) place :=
      ⟨.refl fs, fun place changed => absurd rfl changed⟩
    have wider : ∀ place, fs.MadeFor above place → fs.MadeFor (path :: above) place := by
      rintro place ⟨other, member, rest⟩
      exact ⟨other, List.mem_cons_of_mem path member, rest⟩
    obtain ⟨sprouts, made⟩ := ih
    simp only [makeDirs]
    split
    next after h => exact fs.makeDir_madeFor fs after path _ (.refl fs) (by simp) h
    next =>
      split
      next reached answer =>
        rw [answer] at sprouts made
        split
        next after h =>
          obtain ⟨more, madeHere⟩ := fs.makeDir_madeFor reached after path (path :: above) sprouts
            (by simp) h
          refine ⟨sprouts.trans more, fun place changed => ?_⟩
          by_cases here : after.at? place = reached.at? place
          · exact wider place (made place (here ▸ changed))
          · exact madeHere place here
        next => split <;> exact ⟨sprouts, fun place changed => wider place (made place changed)⟩
      next reached e answer =>
        rw [answer] at sprouts made
        exact ⟨sprouts, fun place changed => wider place (made place changed)⟩
    next => split <;> exact unchanged

theorem makeDirAll_sprouts (fs : FileSystem) (path : Path) : Sprouts fs (fs.makeDirAll path).1 :=
  (fs.makeDirs_sprouts path.ancestors).1

def withParents (fs : FileSystem) (path : Path) : FileSystem :=
  match path.parent? with
  | some dir => (fs.makeDirAll dir).1
  | none => fs

theorem withParents_sprouts (fs : FileSystem) (path : Path) : Sprouts fs (fs.withParents path) := by
  unfold withParents
  split
  · exact fs.makeDirAll_sprouts _
  · exact .refl fs

end BuildIdCache.FileSystem
