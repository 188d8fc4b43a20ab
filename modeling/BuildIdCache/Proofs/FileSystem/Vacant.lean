import BuildIdCache.Proofs.FileSystem.Made

set_option autoImplicit false

namespace BuildIdCache.FileSystem

def EntersVacant (fs : FileSystem) (path : Path) : Prop :=
  ∃ place, fs.Enters path place ∧ ∀ name, fs.at? (place ++ [name]) = none

theorem makeDir_vacant (fs after : FileSystem) (path : Path) (h : fs.makeDir path = .ok after) :
    after.EntersVacant path := by
  obtain ⟨place, entered, free, same⟩ := fs.makeDir_fills after path h
  refine ⟨place, entered, fun name => ?_⟩
  rw [same.at?, if_neg (by simp)]
  exact fs.at?_below place [name] (by simp) (by simp [free])

section

variable {fs : FileSystem} {path : Path}

theorem EntersVacant.of_parent {parent : Path} (vacant : fs.EntersVacant parent)
    (noUp : .up ∉ path.moves) (isParent : path.parent? = some parent)
    (isDir : fs.isDir path = true) : fs.EntersVacant path := by
  obtain ⟨within, same⟩ := path.moves_parent parent isParent
  obtain ⟨place, entered, empty⟩ := vacant
  by_cases goes : path.moves = []
  · have stays : parent.moves = [] := List.prefix_nil.1 (goes ▸ within)
    exact ⟨place, entered.congr (goes.trans stays.symm) same.symm, empty⟩
  · exfalso
    obtain ⟨dir, step, isParent', moves⟩ := path.parent?_of_moves goes
    obtain rfl := Option.some.inj (isParent.symm.trans isParent')
    obtain ⟨inner, beyond⟩ := fs.enters_of_isDir path isDir
    obtain ⟨-, reached⟩ := (fs.enters_iff parent place).1 entered
    obtain ⟨-, found⟩ := (fs.enters_iff path inner).1 beyond
    obtain ⟨left, onward⟩ := fs.follow_from _ _ _ _ reached
    rw [moves, fs.start_congr same.symm, onward true [step] (by simp)] at found
    have moving : step ∈ path.moves := by simp [moves]
    cases step with
    | stay => simp [Path.moves, Step.moves] at moving
    | up => exact noUp moving
    | into name =>
      rw [follow, empty] at found
      split at found <;> simp at found

theorem makeDirs_singleton_vacant (fs after : FileSystem) (path : Path)
    (h : fs.makeDirs [path] = (after, .ok ())) : after = fs ∨ after.EntersVacant path := by
  rcases fs.makeDirs_eq_ok after path [] h with
    made | ⟨unchanged, -⟩ | ⟨reached, missing, before, last⟩
  · exact .inr (fs.makeDir_vacant after path made)
  · exact .inl unchanged
  · obtain rfl : fs = reached := congrArg Prod.fst before
    rcases last with made | ⟨-, unchanged, -⟩
    · simp [missing] at made
    · exact .inl unchanged

theorem makeDirAll_vacant (fs after : FileSystem) (path : Path) (noUp : .up ∉ path.moves)
    (h : fs.makeDirAll path = (after, .ok ())) : after = fs ∨ after.EntersVacant path := by
  rw [makeDirAll] at h
  fun_induction Path.ancestors path generalizing after
  case case1 => exact .inl (congrArg Prod.fst h).symm
  case case2 path _ _ | case4 path _ _ _ _ => exact fs.makeDirs_singleton_vacant after path h
  case case3 path _ parent isParent _ ih =>
    have within := (path.moves_parent parent isParent).1
    rcases fs.makeDirs_eq_ok after path _ h with
      made | ⟨unchanged, -⟩ | ⟨reached, missing, before, last⟩
    · exact .inr (fs.makeDir_vacant after path made)
    · exact .inl unchanged
    rcases ih reached (fun up => noUp (within.subset up)) before with
      rfl | vacant
    · rcases last with made | ⟨-, unchanged, -⟩
      · simp [missing] at made
      · exact .inl unchanged
    · rcases last with made | ⟨-, rfl, isDir⟩
      · exact .inr (reached.makeDir_vacant after path made)
      · exact .inr (vacant.of_parent noUp isParent isDir)

theorem withParents_vacant (fs : FileSystem) (root : Path) (names : List Name)
    (further : names ≠ []) (noUp : .up ∉ root.components)
    (made : ∀ dir, (root.extend names).parent? = some dir → (fs.makeDirAll dir).2 = .ok ()) :
    fs.withParents (root.extend names) = fs ∨
      ∀ content, (fs.withParents (root.extend names)).read (root.extend names) ≠ .ok content := by
  obtain ⟨dir, parent, moves, same⟩ := root.parent_extend names further
  have stays : .up ∉ dir.moves := by
    rw [moves, List.mem_append, not_or, Path.up_mem_moves]
    exact ⟨noUp, fun up => by simpa using (List.mem_map.1 up)⟩
  have making : fs.makeDirAll dir = (fs.withParents (root.extend names), .ok ()) := by
    rw [withParents, parent]
    exact Prod.ext rfl (made dir parent)
  generalize fs.withParents (root.extend names) = after at making ⊢
  refine (fs.makeDirAll_vacant after dir stays making).imp_right fun vacant content readable => ?_
  obtain ⟨above, last, rfl⟩ : ∃ above last, names = above ++ [last] :=
    ⟨_, _, (List.dropLast_append_getLast further).symm⟩
  obtain ⟨place, entered, empty⟩ := vacant
  have entered : after.Enters (root.extend above) place := by
    refine entered.congr ?_ ?_
    · rw [moves, Path.moves_extend, List.dropLast_concat]
    · rw [same, Path.isAbsolute_extend]
  obtain ⟨found, leads, there⟩ := after.place_of_read _ content readable
  have aimed : after.aimAt ((root.extend above).extend [last]) = some (place ++ [last]) := by
    refine after.aimAt_extend_of_clear _ place [last] entered.aimAt (clearTo_singleton fun _ => ?_)
    simp [empty last]
  rw [Path.extend_append] at leads
  obtain rfl : place ++ [last] = found := Option.some.inj (aimed.symm.trans leads)
  simp [empty last] at there

end

end BuildIdCache.FileSystem
