import BuildIdCache.Proofs.FileSystem.Made

set_option autoImplicit false

namespace BuildIdCache.FileSystem

theorem begun_of_resolve (fs : FileSystem) (through : Bool) (path : Path) (found : Place)
    (h : fs.resolve through path = .ok found) : fs.at? (fs.start path) = some .dir := by
  unfold resolve at h
  split_ifs at h with _ _ _ gone
  exact not_not.1 gone

theorem makeDir_of_gone (fs : FileSystem) (path : Path)
    (gone : fs.at? (fs.start path) ≠ some .dir) : ∃ e, fs.makeDir path = .error e := by
  unfold makeDir
  split_ifs
  · exact ⟨_, rfl⟩
  · exact ⟨_, rfl⟩
  · dsimp only
    split_ifs with rootOnly
    · exact ⟨_, rfl⟩
    · split
      next found =>
        have begun := fs.begun_of_resolve _ _ _ found
        rw [fs.start_congr (path.isAbsolute_withoutTrailingSlashes rootOnly)] at begun
        exact absurd begun gone
      next => exact ⟨_, rfl⟩
      next => exact ⟨_, rfl⟩

theorem makeDirs_of_gone (fs : FileSystem) (paths : List Path)
    (gone : ∀ path ∈ paths, fs.at? (fs.start path) ≠ some .dir) : (fs.makeDirs paths).1 = fs := by
  induction paths with
  | nil => rfl
  | cons path above ih =>
    have unmade := ih fun other member => gone other (by simp [member])
    obtain ⟨e, failed⟩ := fs.makeDir_of_gone path (gone path (by simp))
    rw [makeDirs, failed]
    dsimp only
    split
    next made done => cases done
    next =>
      split
      next reached answer =>
        obtain rfl : reached = fs := by simpa [answer] using unmade
        rw [failed]
        dsimp only
        split <;> rfl
      next reached e answer => simpa [answer] using unmade
    next => split <;> rfl

theorem makeDirAll_of_gone (fs : FileSystem) (path : Path)
    (gone : fs.at? (fs.start path) ≠ some .dir) : (fs.makeDirAll path).1 = fs := by
  refine fs.makeDirs_of_gone path.ancestors fun other member => ?_
  rwa [fs.start_congr (path.moves_ancestors other member).2]

theorem withParents_of_gone (fs : FileSystem) (path : Path)
    (gone : fs.at? (fs.start path) ≠ some .dir) : fs.withParents path = fs := by
  unfold withParents
  split
  next dir parent =>
    refine fs.makeDirAll_of_gone dir ?_
    rwa [fs.start_congr (path.moves_parent dir parent).2]
  next => rfl

/-- A root that can be entered, unless the directory that it starts in is gone. -/
def Reached (fs : FileSystem) (root : Path) : Prop :=
  fs.at? (fs.start root) = some .dir → ∃ top, fs.Enters root top

structure Rereads (before after : FileSystem) (root : Path) (names : List Name) : Prop where
  reached : after.Reached root
  read : ∀ content, after.read (root.extend names) = .ok content ↔
    before.read (root.extend names) = .ok content

theorem Rereads.trans {first second third : FileSystem} {root : Path} {names : List Name}
    (a : Rereads first second root names) (b : Rereads second third root names) :
    Rereads first third root names :=
  ⟨b.reached, fun content => (b.read content).trans (a.read content)⟩

section

variable {fs after : FileSystem} {root : Path}

theorem Reached.steady (reached : fs.Reached root) (steady : Steady fs after)
    (gone : fs.at? (fs.start root) ≠ some .dir → after = fs) : after.Reached root := by
  by_cases begun : fs.at? (fs.start root) = some .dir
  · obtain ⟨top, entered⟩ := reached begun
    exact fun _ => ⟨top, steady.enters entered⟩
  · rwa [gone begun]

theorem TouchesOnly.of_gone {names : List Name} (touches : fs.TouchesOnly after (root.extend names))
    (gone : fs.at? (fs.start root) ≠ some .dir) : after = fs := by
  obtain same | ⟨place, -, target, -⟩ := touches
  · exact same
  · obtain ⟨found, resolved⟩ := fs.resolve_of_target? _ place target
    have begun := fs.begun_of_resolve _ _ _ resolved
    rw [start_extend] at begun
    exact absurd begun gone

theorem Reached.touches {names : List Name} (reached : fs.Reached root)
    (touches : fs.TouchesOnly after (root.extend names)) : after.Reached root :=
  reached.steady touches.steady touches.of_gone

theorem Reached.unread (reached : fs.Reached root) (content : ByteArray) :
    fs.read root ≠ .ok content := by
  intro readable
  obtain ⟨parent, name, found⟩ := (fs.read_eq_ok root content).1 readable
  obtain ⟨top, entered⟩ := reached (fs.begun_of_resolve _ _ _ found)
  obtain ⟨place, leads, there⟩ := fs.place_of_read root content readable
  obtain rfl := Option.some.inj (entered.aimAt.symm.trans leads)
  simp [entered.isDir] at there

theorem reached_of_withParents (names : List Name) (further : names ≠ [])
    (made : ∀ dir, (root.extend names).parent? = some dir → (fs.makeDirAll dir).2 = .ok ()) :
    (fs.withParents (root.extend names)).Reached root := by
  intro begun
  by_cases begun' : fs.at? (fs.start root) = some .dir
  · obtain ⟨dir, parent, -⟩ := root.parent_extend names further
    refine fs.enters_of_parent _ root dir names further parent begun' ?_
    rw [withParents, parent, ← made dir parent]
  · rw [fs.withParents_of_gone _ (by rwa [start_extend])] at begun
    exact absurd begun begun'

theorem not_had_of_removed (path : Path) (file : fs.isFile path = true)
    (removed : fs.removeFile path = .ok after) (content : ByteArray) : ¬after.Had path content := by
  rintro ⟨place', leads, there⟩
  rcases fs.removeFile_sameBut after path removed with
    ⟨place, target, same⟩ | ⟨parent, name, target, last, same⟩
  · rw [(same.steady_of_target? target (by simp)).aimAt, fs.aimAt_of_target? _ place target]
      at leads
    obtain rfl := Option.some.inj leads
    simp [same.at?] at there
  · have gone := fs.nothing_below_unlinked after path parent name target last file same
      place' [] leads
    rw [List.append_nil, there] at gone
    cases gone

theorem absent_of_cleared (path : Path) (cleared : fs.Cleared after path) :
    after.isFile path = false := by
  obtain ⟨absent, rfl⟩ | ⟨file, removed⟩ := cleared
  · exact absent
  · by_contra present
    obtain ⟨content, readable⟩ := (after.isFile_iff path).1 (by simpa using present)
    exact not_had_of_removed path file removed content (after.place_of_read path content readable)

variable (plain : fs.PlainBelow root)

include plain

theorem sameBut_of_removeFile (names : List Name) (further : names ≠ [])
    (removed : fs.removeFile (root.extend names) = .ok after) :
    ∃ place, fs.target? (root.extend names) = some place ∧ SameBut fs after place none := by
  rcases fs.removeFile_sameBut after _ removed with taken | ⟨parent, name, link, last, -⟩
  · exact taken
  · exact absurd last (fs.resolve_extend_ne_link false root names parent name link plain further)

theorem touchesOnly_of_cleared (names : List Name) (further : names ≠ [])
    (cleared : fs.Cleared after (root.extend names)) :
    fs.TouchesOnly after (root.extend names) := by
  obtain ⟨-, same⟩ | ⟨-, removed⟩ := cleared
  · exact .inl same
  · obtain ⟨place, target, same⟩ := sameBut_of_removeFile plain names further removed
    exact .inr ⟨place, none, target, by simp, same⟩

theorem reached_of_replaced {ready : FileSystem} (names : List Name) (further : names ≠ [])
    (made : ∀ dir, (root.extend names).parent? = some dir → (fs.makeDirAll dir).2 = .ok ())
    (cleared : (fs.withParents (root.extend names)).Cleared ready (root.extend names))
    (touches : ready.TouchesOnly after (root.extend names)) : after.Reached root := by
  have plainMade := (fs.withParents_sprouts (root.extend names)).steady.plainBelow plain
  have gone := touchesOnly_of_cleared plainMade names further cleared
  exact ((reached_of_withParents names further made).touches gone).touches touches

theorem Reached.touches_cleared (reached : fs.Reached root) (names : List Name)
    (cleared : fs.Cleared after (root.extend names)) :
    fs.TouchesOnly after (root.extend names) := by
  by_cases atRoot : names = []
  · -- The root is no file, so nothing is removed.
    subst atRoot
    obtain ⟨-, same⟩ | ⟨file, -⟩ := cleared
    · exact .inl same
    · obtain ⟨content, readable⟩ := (fs.isFile_iff root).1 file
      exact absurd readable (reached.unread content)
  · exact touchesOnly_of_cleared plain names atRoot cleared

variable (reached : fs.Reached root) {names : List Name} (further : names ≠ [])

include reached further

theorem rereads_of_steady (steady : Steady fs after)
    (gone : fs.at? (fs.start root) ≠ some .dir → after = fs)
    (same : ∀ top content, fs.Enters root top →
      (after.at? (top ++ names) = some (.file content) ↔
        fs.at? (top ++ names) = some (.file content))) : Rereads fs after root names := by
  refine ⟨reached.steady steady gone, fun content => ?_⟩
  by_cases begun : fs.at? (fs.start root) = some .dir
  · obtain ⟨top, entered⟩ := reached begun
    have leads : fs.aimAt (root.extend names) = some (top ++ names) := by
      rw [fs.aimAt_extend root names plain, entered.aimAt]
      rfl
    constructor
    · intro readable
      obtain ⟨place, leads', later⟩ := after.place_of_read _ content readable
      rw [steady.aimAt, leads] at leads'
      obtain rfl := Option.some.inj leads'
      obtain ⟨parent, name, found⟩ := (after.read_eq_ok _ content).1 readable
      have there := (same top content entered).1 later
      exact (fs.read_eq_ok _ content).2
        ⟨_, _, entered.resolve_file (steady.enters entered) names further content content _ true
          there later found⟩
    · intro readable
      obtain ⟨place, leads', there⟩ := fs.place_of_read _ content readable
      obtain rfl := Option.some.inj (leads.symm.trans leads')
      exact steady.read _ _ content content readable leads ((same top content entered).2 there)
  · rw [gone begun]

theorem rereads_of_sprouts (sprouts : Sprouts fs after)
    (gone : fs.at? (fs.start root) ≠ some .dir → after = fs) : Rereads fs after root names :=
  rereads_of_steady plain reached further sprouts.steady gone
    fun top content _ => sprouts.file (top ++ names) content

theorem rereads_of_withParents (others : List Name) :
    Rereads fs (fs.withParents (root.extend others)) root names :=
  rereads_of_sprouts plain reached further (fs.withParents_sprouts _) fun gone =>
    fs.withParents_of_gone _ (by rwa [start_extend])

theorem rereads_of_makeDirAll : Rereads fs (fs.makeDirAll root).1 root names :=
  rereads_of_sprouts plain reached further (fs.makeDirAll_sprouts root) (fs.makeDirAll_of_gone root)

variable {others : List Name} (apart : others ≠ names)

include apart

theorem rereads_of_touchesOnly (touches : fs.TouchesOnly after (root.extend others)) :
    Rereads fs after root names := by
  refine rereads_of_steady plain reached further touches.steady touches.of_gone
    fun top content entered => ?_
  obtain rfl | ⟨place, entry, target, -, same⟩ := touches
  · rfl
  · have leads := fs.aimAt_of_target? _ place target
    rw [fs.aimAt_extend root others plain, entered.aimAt] at leads
    obtain rfl : top ++ others = place := Option.some.inj leads
    rw [same.at?, if_neg (by simpa using apart.symm)]

theorem rereads_of_cleared (cleared : fs.Cleared after (root.extend others)) :
    Rereads fs after root names :=
  rereads_of_touchesOnly plain reached further apart (reached.touches_cleared plain others cleared)

theorem rereads_of_replaced {ready : FileSystem}
    (cleared : (fs.withParents (root.extend others)).Cleared ready (root.extend others))
    (touches : ready.TouchesOnly after (root.extend others)) : Rereads fs after root names := by
  have made := rereads_of_withParents plain reached further others
  have plainMade := (fs.withParents_sprouts (root.extend others)).steady.plainBelow plain
  have gone := rereads_of_cleared plainMade made.reached further apart cleared
  have plainReady := (spares_of_cleared _ ready root others plainMade cleared).plain
  have written := rereads_of_touchesOnly plainReady gone.reached further apart touches
  exact (made.trans gone).trans written

end

end BuildIdCache.FileSystem
