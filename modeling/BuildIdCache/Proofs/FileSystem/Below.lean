import BuildIdCache.Proofs.FileSystem.Change

set_option autoImplicit false

namespace BuildIdCache.FileSystem

theorem follow_stay (fs : FileSystem) (links : Nat) (place : Location) (steps : List Step)
    (found : Place) (h : fs.follow true links place (steps ++ [.stay]) = .ok found) :
    fs.follow true links place steps = .ok found := by
  fun_induction follow fs true links place steps <;>
    grind -linarith [follow, List.isEmpty_iff, List.append_eq_nil_iff]

theorem follow_front (fs : FileSystem) (through : Bool) (links : Nat) (place : Location)
    (steps more : List Step) (found : Place) (further : more ≠ [])
    (h : fs.follow through links place (steps ++ more) = .ok found) :
    ∃ reached, fs.follow true links place steps = .ok (.dir reached) := by
  fun_induction follow fs true links place steps <;>
    grind -linarith [follow, List.isEmpty_iff, List.append_eq_nil_iff]

theorem follow_from_aim (fs : FileSystem) (links : Nat) (place reached : Location)
    (steps : List Step) (h : fs.follow true links place steps = .ok (.dir reached)) :
    ∃ left, fs.aim links place (steps.filter Step.moves) = some (reached, left) ∧
      ∀ through more, more ≠ [] →
        fs.follow through links place (steps ++ more) = fs.follow through left reached more := by
  fun_induction follow fs true links place steps
  case case1 links place =>
    simp only [Except.ok.injEq, Place.dir.injEq] at h
    exact ⟨links, by simp [aim, h], fun through more _ => by simp [h]⟩
  all_goals first | cases h | skip
  all_goals
    next ih =>
      obtain ⟨left, aimed, same⟩ := ih h
      refine ⟨left, ?_, fun through more further => ?_⟩
      · grind -linarith [aim, Step.moves, Path.moves]
      · rw [← same through more further]
        simp [follow, *]

theorem follow_from (fs : FileSystem) (links : Nat) (place reached : Location) (steps : List Step)
    (h : fs.follow true links place steps = .ok (.dir reached)) :
    ∃ left, ∀ through more, more ≠ [] →
      fs.follow through links place (steps ++ more) = fs.follow through left reached more := by
  obtain ⟨left, -, same⟩ := fs.follow_from_aim links place reached steps h
  exact ⟨left, same⟩

/-- Paths that go on from a base go on from a directory. Unlike `resolve` this lets the base be
empty, for the directory that is worked in. -/
def Enters (fs : FileSystem) (base : Path) (place : Location) : Prop :=
  ∃ front, front.filter Step.moves = base.moves ∧
    (∀ name, (base.push name).steps = front ++ [.into name]) ∧
    fs.follow true linkLimit (fs.start base) front = .ok (.dir place) ∧
    fs.at? (fs.start base) = some .dir

theorem front_moves {base : Path} {front : List Step}
    (spelled : base.steps = front ∨ base.steps = front ++ [.stay]) :
    front.filter Step.moves = base.moves := by
  rcases spelled with same | same <;> simp [Path.moves, same, Step.moves]

theorem enters_of_resolve (fs : FileSystem) (base : Path) (place : Location)
    (h : fs.resolve true base = .ok (.dir place)) : fs.Enters base place := by
  obtain ⟨front, spelled, pushed⟩ := base.steps_push
  unfold resolve at h
  split_ifs at h with _ _ _ gone
  refine ⟨front, front_moves spelled, pushed, ?_, not_not.1 gone⟩
  rcases spelled with same | same
  · rwa [same] at h
  · exact fs.follow_stay _ _ _ _ (same ▸ h)

theorem steps_extend {base : Path} {front : List Step}
    (pushed : ∀ name, (base.push name).steps = front ++ [.into name]) (names : List Name)
    (further : names ≠ []) : (base.extend names).steps = front ++ names.map .into := by
  obtain ⟨name, rest, rfl⟩ := List.exists_cons_of_ne_nil further
  rw [Path.extend_cons, Path.steps_extend_push, pushed]
  simp

theorem enters_of_extend (fs : FileSystem) (through : Bool) (base : Path) (names : List Name)
    (found : Place) (further : names ≠ []) (h : fs.resolve through (base.extend names) =
    .ok found) :
    ∃ place, fs.Enters base place := by
  obtain ⟨front, spelled, pushed⟩ := base.steps_push
  unfold resolve at h
  split_ifs at h with _ _ _ gone
  rw [start_extend] at gone h
  rw [steps_extend pushed names further] at h
  obtain ⟨place, entered⟩ := fs.follow_front through _ _ front _ found (by simpa using further) h
  exact ⟨place, front, front_moves spelled, pushed, entered, not_not.1 gone⟩

theorem Steady.enters {before after : FileSystem} (steady : Steady before after) {base : Path}
    {place : Location} (h : before.Enters base place) : after.Enters base place := by
  obtain ⟨front, moves, pushed, entered, begun⟩ := h
  rw [← steady.start base] at entered begun
  exact ⟨front, moves, pushed, steady.follow _ _ _ _ entered, steady.dirs _ begun⟩

theorem Enters.aimAt {fs : FileSystem} {base : Path} {place : Location}
    (h : fs.Enters base place) : fs.aimAt base = some place := by
  obtain ⟨front, moves, -, entered, -⟩ := h
  rw [FileSystem.aimAt, ← moves]
  exact fs.aim_of_follow _ _ _ _ entered

theorem Enters.isDir {fs : FileSystem} {base : Path} {place : Location}
    (h : fs.Enters base place) : fs.at? place = some .dir := by
  obtain ⟨front, -, -, entered, begun⟩ := h
  exact fs.follow_holds true _ _ _ _ begun entered

theorem follow_names (fs : FileSystem) (through : Bool) (links : Nat) (place : Location)
    (names : List Name) (content : ByteArray) (further : names ≠ [])
    (there : fs.at? (place ++ names) = some (.file content)) :
    fs.follow through links place (names.map .into) =
      if ∃ name ∈ names, nameLimit < name.bytes.length then .error .nameTooLong
      else .ok (.file (place ++ names.dropLast) (names.getLast further) content) := by
  induction names generalizing place with
  | nil => exact absurd rfl further
  | cons name rest ih =>
    by_cases long : nameLimit < name.bytes.length
    · simp [follow, long]
    · cases rest with
      | nil => simp [follow, long, there]
      | cons next rest =>
        have isDir : fs.at? (place ++ [name]) = some .dir :=
          fs.at?_above _ (next :: rest) (by simp) (by simp [there])
        have down : fs.follow through links place ((name :: next :: rest).map .into) =
            fs.follow through links (place ++ [name]) ((next :: rest).map .into) := by
          rw [List.map_cons, follow, if_neg long, isDir]
        rw [down, ih (place ++ [name]) (by simp) (by simpa using there)]
        simp [long]

theorem Enters.resolve_file {before after : FileSystem} {base : Path} {place top : Location}
    (entered : before.Enters base place) (again : after.Enters base top) (names : List Name)
    (further : names ≠ []) (content other : ByteArray) (found : Place) (through : Bool)
    (there : before.at? (place ++ names) = some (.file content))
    (later : after.at? (top ++ names) = some (.file other))
    (h : after.resolve true (base.extend names) = .ok found) :
    before.resolve through (base.extend names) =
      .ok (.file (place ++ names.dropLast) (names.getLast further) content) := by
  obtain ⟨front, -, pushed, reached, begun⟩ := entered
  obtain ⟨front', -, pushed', reached', -⟩ := again
  have moreSteps : names.map Step.into ≠ [] := by simpa using further
  obtain ⟨left, same⟩ := before.follow_from _ _ _ _ reached
  obtain ⟨left', same'⟩ := after.follow_from _ _ _ _ reached'
  unfold resolve at h ⊢
  rw [start_extend] at h ⊢
  rw [steps_extend pushed' names further] at h
  rw [steps_extend pushed names further]
  split_ifs at h with empty nul long gone
  rw [same' true _ moreSteps, after.follow_names true left' top names other further later] at h
  rw [if_neg empty, if_neg nul, if_neg long, if_neg (not_not.2 begun), same through _ moreSteps,
    before.follow_names through left place names content further there]
  split_ifs at h with tooLong
  rw [if_neg tooLong]

theorem entered_of_read (fs : FileSystem) (root : Path) (names : List Name) (content : ByteArray)
    (plain : fs.PlainBelow root) (further : names ≠ [])
    (readable : fs.read (root.extend names) = .ok content) :
    ∃ place, fs.Enters root place ∧ fs.at? (place ++ names) = some (.file content) := by
  obtain ⟨parent, name, found⟩ := (fs.read_eq_ok _ content).1 readable
  obtain ⟨place, entered⟩ := fs.enters_of_extend true root names _ further found
  obtain ⟨reached, leads, there⟩ := fs.place_of_read _ content readable
  rw [fs.aimAt_extend root names plain, entered.aimAt] at leads
  obtain rfl : place ++ names = reached := Option.some.inj leads
  exact ⟨place, entered, there⟩

theorem resolve_of_read (fs : FileSystem) (root : Path) (names : List Name) (content : ByteArray)
    (plain : fs.PlainBelow root) (further : names ≠ [])
    (readable : fs.read (root.extend names) = .ok content) :
    ∃ parent name, fs.resolve false (root.extend names) = .ok (.file parent name content) := by
  obtain ⟨place, entered, there⟩ := fs.entered_of_read root names content plain further readable
  obtain ⟨parent, name, found⟩ := (fs.read_eq_ok _ content).1 readable
  exact ⟨_, _, entered.resolve_file entered names further content content _ false there there found⟩

end BuildIdCache.FileSystem
