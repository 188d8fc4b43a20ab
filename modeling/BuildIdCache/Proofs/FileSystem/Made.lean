import BuildIdCache.Proofs.FileSystem.Passes

set_option autoImplicit false

namespace BuildIdCache.FileSystem

theorem follow_stays (fs : FileSystem) (through : Bool) (links : Nat) (place : Location)
    (front rest : List Step) (still : ∀ step ∈ front, ¬step.moves = true) :
    fs.follow through links place (front ++ rest) = fs.follow through links place rest := by
  induction front with
  | nil => rfl
  | cons step front ih =>
    have further := ih fun other member => still other (by simp [member])
    have here := still step (by simp)
    cases step with
    | stay => simpa [follow] using further
    | up | into name => exact absurd rfl here

theorem follow_of_moves (fs : FileSystem) (links : Nat) (place reached : Location)
    (steps others : List Step) (same : others.filter Step.moves = steps.filter Step.moves)
    (h : fs.follow true links place steps = .ok (.dir reached)) :
    fs.follow true links place others = .ok (.dir reached) := by
  fun_induction follow fs true links place steps generalizing others
  case case1 links place =>
    have still : ∀ step ∈ others, ¬step.moves = true := by simpa [List.filter_eq_nil_iff] using same
    have stays := fs.follow_stays true links place others [] still
    rw [List.append_nil] at stays
    rw [stays, follow, h]
  case case2 ih => exact ih others (by simpa [Step.moves] using same) h
  case case3 links place rest ih =>
    obtain ⟨front, more, rfl, still, -, rest'⟩ := List.filter_eq_cons_iff.1 same
    rw [fs.follow_stays true _ _ _ _ still, follow]
    exact ih more rest' h
  case case4 => cases h
  all_goals obtain ⟨front, more, rfl, still, -, rest'⟩ := List.filter_eq_cons_iff.1 same
  all_goals rw [fs.follow_stays true _ _ _ _ still]
  case case7 isDir ih =>
    have onward := ih more rest' h
    simp [follow, *]
  case case13 target isLink _ _ present ih =>
    simpa [follow, *] using ih (target.steps ++ more) (by simp [rest']) h
  all_goals grind

theorem start_congr (fs : FileSystem) {a b : Path} (same : a.isAbsolute = b.isAbsolute) :
    fs.start a = fs.start b := by
  rw [start, start, same]

theorem enters_iff (fs : FileSystem) (base : Path) (place : Location) :
    fs.Enters base place ↔ fs.at? (fs.start base) = some .dir ∧
      fs.follow true linkLimit (fs.start base) base.moves = .ok (.dir place) := by
  constructor
  · rintro ⟨front, moves, -, entered, begun⟩
    exact ⟨begun, fs.follow_of_moves _ _ _ front _ (by simp [← moves]) entered⟩
  · rintro ⟨begun, entered⟩
    obtain ⟨front, spelled, pushed⟩ := base.steps_push
    refine ⟨front, front_moves spelled, pushed, ?_, begun⟩
    exact fs.follow_of_moves _ _ _ _ front (by simp [front_moves spelled, Path.moves]) entered

theorem Enters.congr {fs : FileSystem} {base other : Path} {place : Location}
    (entered : fs.Enters base place) (moves : other.moves = base.moves)
    (same : other.isAbsolute = base.isAbsolute) : fs.Enters other place := by
  rw [enters_iff, moves, fs.start_congr same]
  exact (fs.enters_iff base place).1 entered

theorem Enters.front {fs : FileSystem} {dir base : Path} {place : Location}
    (entered : fs.Enters dir place) (within : base.moves <+: dir.moves)
    (same : base.isAbsolute = dir.isAbsolute) : ∃ above, fs.Enters base above := by
  obtain ⟨begun, reached⟩ := (fs.enters_iff dir place).1 entered
  obtain ⟨rest, moves⟩ := within
  by_cases last : rest = []
  · exact ⟨place, entered.congr (by simp [← moves, last]) same⟩
  · rw [← moves] at reached
    obtain ⟨above, passed⟩ := fs.follow_front true _ _ _ rest _ last reached
    exact ⟨above, (fs.enters_iff base above).2 (by rw [fs.start_congr same]; exact ⟨begun, passed⟩)⟩

theorem resolve_withoutTrailingSlashes (fs : FileSystem) (path : Path) (place : Location)
    (notEmpty : path.withoutTrailingSlashes.bytes ≠ [])
    (h : fs.resolve true path = .ok (.dir place)) :
    fs.resolve true path.withoutTrailingSlashes = .ok (.dir place) := by
  have front := path.front_withoutTrailingSlashes
  unfold resolve at h ⊢
  split_ifs at h with empty nul long gone
  have shorter := front.length_le
  have begun : fs.start path.withoutTrailingSlashes = fs.start path :=
    fs.start_congr (path.isAbsolute_withoutTrailingSlashes notEmpty)
  rw [if_neg notEmpty, if_neg fun member => nul (front.subset member), if_neg (by omega), begun,
    if_neg gone]
  exact fs.follow_of_moves _ _ _ _ _ path.moves_withoutTrailingSlashes h

theorem isDir_of_resolve (fs : FileSystem) (path : Path) (place : Location)
    (h : fs.resolve true path = .ok (.dir place)) : fs.isDir path = true := by
  simp [isDir, lookup, h]

theorem resolve_of_isDir (fs : FileSystem) (path : Path) (h : fs.isDir path = true) :
    ∃ place, fs.resolve true path = .ok (.dir place) := by
  rcases found : fs.resolve true path with e | (place | _ | _ | _)
  · simp [isDir, lookup, found] at h
  · exact ⟨place, rfl⟩
  all_goals simp [isDir, lookup, found] at h

theorem makeDirAll_of_resolve (fs : FileSystem) (path : Path) (place : Location)
    (h : fs.resolve true path = .ok (.dir place)) : fs.makeDirAll path = (fs, .ok ()) := by
  have isDir := fs.isDir_of_resolve path place h
  have exists_ : fs.makeDir path = .error .alreadyExists := by
    have trimmed := fs.resolve_withoutTrailingSlashes path place
    unfold resolve at h
    split_ifs at h with empty nul
    simp only [makeDir, if_neg empty, if_neg nul]
    split_ifs with rootOnly
    · rfl
    · have found := trimmed rootOnly (by rw [resolve]; simp [*])
      obtain ⟨last, stops⟩ := fs.resolve_stops _ _ found
      rw [stops]
      cases last with
      | free parent name =>
        rw [fs.resolve_through _ _ stops (by simp)] at found
        cases found
      | _ => rfl
  have notEmpty : path.bytes ≠ [] := by
    intro empty
    simp [resolve, empty] at h
  obtain ⟨above, ancestors⟩ := path.ancestors_eq_cons notEmpty
  simp [makeDirAll, ancestors, makeDirs, exists_, isDir]

section

variable {fs : FileSystem} {path : Path} {place : Location} (entered : fs.Enters path place)

include entered

theorem Enters.resolve_stops (notEmpty : path.bytes ≠ []) :
    (∃ e, fs.resolve false path = .error e ∧ e ≠ .notFound) ∨
      ∃ found, fs.resolve false path = .ok found ∧ ∀ parent name, found ≠ .free parent name := by
  obtain ⟨begun, reached⟩ := (fs.enters_iff path place).1 entered
  unfold resolve
  rw [if_neg notEmpty]
  split
  next => exact .inl ⟨_, rfl, by simp⟩
  split
  next => exact .inl ⟨_, rfl, by simp⟩
  rw [if_neg (not_not.2 begun)]
  have goes := fs.follow_of_moves _ _ _ _ path.steps (by simp [Path.moves]) reached
  obtain ⟨last, stops⟩ := fs.follow_stops _ _ _ _ goes
  refine .inr ⟨last, stops, ?_⟩
  rintro parent name rfl
  rw [fs.follow_through _ _ _ _ stops (by simp)] at goes
  cases goes

theorem Enters.makeDir (notEmpty : path.bytes ≠ []) :
    ∃ e, fs.makeDir path = .error e ∧ e ≠ .notFound := by
  rw [FileSystem.makeDir, if_neg notEmpty]
  split
  next => exact ⟨_, rfl, by simp⟩
  dsimp only
  split
  next => exact ⟨_, rfl, by simp⟩
  next rooted =>
    have trimmed := entered.congr path.moves_withoutTrailingSlashes
      (path.isAbsolute_withoutTrailingSlashes rooted)
    rcases trimmed.resolve_stops rooted with ⟨e, lost, other⟩ | ⟨found, stops, notFree⟩
    · exact ⟨e, by rw [lost], other⟩
    · rw [stops]
      cases found with
      | free parent name => exact absurd rfl (notFree parent name)
      | _ => exact ⟨_, rfl, by simp⟩

theorem Enters.makeDirAll : (fs.makeDirAll path).1 = fs := by
  by_cases empty : path.bytes = []
  · rw [FileSystem.makeDirAll, Path.ancestors, if_pos empty]
    rfl
  · obtain ⟨above, ancestors⟩ := path.ancestors_eq_cons empty
    obtain ⟨e, stops, other⟩ := entered.makeDir empty
    rw [FileSystem.makeDirAll, ancestors]
    simp only [makeDirs, stops]
    cases e with
    | notFound => exact absurd rfl other
    | _ => split <;> rfl

end

theorem makeDir_fills (fs after : FileSystem) (path : Path) (h : fs.makeDir path = .ok after) :
    ∃ place, after.Enters path place ∧ fs.at? place = none ∧
      SameBut fs after place (some .dir) := by
  obtain ⟨parent, name, found, same⟩ := fs.makeDir_sameBut after path h
  have there := fs.resolve_holds true _ _ found
  have notEmpty : path.withoutTrailingSlashes.bytes ≠ [] := by
    intro empty
    simp [resolve, empty] at found
  have now : after.at? (parent ++ [name]) = some .dir := by rw [same.at?, if_pos rfl]
  have reached := (same.steady (.inl there.2) (by simp)).resolve _ _ found
  simp only [settle, now] at reached
  exact ⟨_, (after.enters_of_resolve _ _ reached).congr path.moves_withoutTrailingSlashes.symm
    (path.isAbsolute_withoutTrailingSlashes notEmpty).symm, there.2, same⟩

theorem makeDir_enters (fs after : FileSystem) (path : Path) (h : fs.makeDir path = .ok after) :
    ∃ place, after.Enters path place := by
  obtain ⟨place, entered, -⟩ := fs.makeDir_fills after path h
  exact ⟨place, entered⟩

theorem enters_of_isDir (fs : FileSystem) (path : Path) (h : fs.isDir path = true) :
    ∃ place, fs.Enters path place := by
  obtain ⟨place, resolved⟩ := fs.resolve_of_isDir path h
  exact ⟨place, fs.enters_of_resolve path place resolved⟩

theorem makeDirs_eq_ok (fs after : FileSystem) (path : Path) (above : List Path)
    (h : fs.makeDirs (path :: above) = (after, .ok ())) :
    fs.makeDir path = .ok after ∨ (after = fs ∧ fs.isDir path = true) ∨
      ∃ reached, fs.makeDir path = .error .notFound ∧ fs.makeDirs above = (reached, .ok ()) ∧
        (reached.makeDir path = .ok after ∨
          ((∃ e, reached.makeDir path = .error e) ∧ after = reached ∧
            reached.isDir path = true)) := by
  -- Made at once, made after what is above it, or there already.
  simp only [makeDirs] at h
  split at h
  next made making =>
    obtain rfl := congrArg Prod.fst h
    exact .inl making
  next missing =>
    split at h
    next reached before =>
      split at h
      next made making =>
        obtain rfl := congrArg Prod.fst h
        exact .inr (.inr ⟨reached, missing, before, .inl making⟩)
      next e stops =>
        split at h
        next there =>
          obtain rfl := congrArg Prod.fst h
          exact .inr (.inr ⟨reached, missing, before, .inr ⟨⟨e, stops⟩, rfl, there⟩⟩)
        next => cases h
    next => cases h
  next =>
    split at h
    next there =>
      obtain rfl := congrArg Prod.fst h
      exact .inr (.inl ⟨rfl, there⟩)
    next => cases h

theorem makeDirAll_enters (fs after : FileSystem) (path : Path) (notEmpty : path.bytes ≠ [])
    (h : fs.makeDirAll path = (after, .ok ())) : ∃ place, after.Enters path place := by
  obtain ⟨above, ancestors⟩ := path.ancestors_eq_cons notEmpty
  rw [makeDirAll, ancestors] at h
  rcases fs.makeDirs_eq_ok after path above h with
    made | ⟨rfl, there⟩ | ⟨reached, -, -, made | ⟨-, rfl, there⟩⟩
  · exact fs.makeDir_enters after path made
  · exact after.enters_of_isDir path there
  · exact reached.makeDir_enters after path made
  · exact after.enters_of_isDir path there

theorem enters_of_parent (fs after : FileSystem) (root dir : Path) (names : List Name)
    (further : names ≠ []) (parent : (root.extend names).parent? = some dir)
    (begun : fs.at? (fs.start root) = some .dir) (h : fs.makeDirAll dir = (after, .ok ())) :
    ∃ place, after.Enters root place := by
  obtain ⟨dir', parent', moves, same⟩ := root.parent_extend names further
  obtain rfl : dir = dir' := Option.some.inj (parent.symm.trans parent')
  have within : root.moves <+: dir.moves := ⟨_, moves.symm⟩
  by_cases empty : dir.bytes = []
  · have noMoves : root.moves = [] := List.prefix_nil.1 (dir.moves_of_empty empty ▸ within)
    have unchanged : after = fs := by
      rw [makeDirAll, Path.ancestors, if_pos empty] at h
      exact (congrArg Prod.fst h).symm
    rw [unchanged]
    exact ⟨fs.start root, (fs.enters_iff _ _).2 ⟨begun, by simp [noMoves, follow]⟩⟩
  · obtain ⟨place, entered⟩ := fs.makeDirAll_enters after dir empty h
    exact entered.front within same.symm

end BuildIdCache.FileSystem
