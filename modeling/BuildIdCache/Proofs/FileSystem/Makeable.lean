import BuildIdCache.Proofs.FileSystem.Made

set_option autoImplicit false

namespace BuildIdCache.FileSystem

/-- On the way of some steps, as far as they lead, there is nothing but directories and links to
directories; what is missing has a name that is short enough. -/
def Open (fs : FileSystem) : Nat → Location → List Step → Prop
  | _, _, [] => True
  | links, place, .stay :: rest => fs.Open links place rest
  | links, place, .up :: rest => fs.Open links place.dropLast rest
  | links, place, .into name :: rest =>
    ∃ reached left, fs.aim links place [.into name] = some (reached, left) ∧
      (fs.at? (place ++ [name]) = none ∧ name.bytes.length ≤ nameLimit ∨
        fs.follow true links place [.into name] = .ok (.dir reached)) ∧
      fs.Open left reached rest

theorem open_moves (fs : FileSystem) (links : Nat) (place : Location) (steps : List Step) :
    fs.Open links place (steps.filter Step.moves) ↔ fs.Open links place steps := by
  induction steps generalizing links place with
  | nil => rfl
  | cons step rest ih => cases step <;> simp [List.filter_cons, Step.moves, Open, ih]

theorem Open.front {fs : FileSystem} {links : Nat} {place : Location} {front more : List Step}
    (h : fs.Open links place (front ++ more)) : fs.Open links place front := by
  induction front generalizing links place with
  | nil => trivial
  | cons step rest ih =>
    cases step with
    | stay | up => exact ih h
    | into name =>
      obtain ⟨reached, left, aimed, way, onward⟩ := h
      exact ⟨reached, left, aimed, way, ih onward⟩

theorem Open.onward {fs : FileSystem} {links left : Nat} {place reached : Location}
    {front more : List Step} (h : fs.Open links place (front ++ more))
    (aimed : fs.aim links place (front.filter Step.moves) = some (reached, left)) :
    fs.Open left reached more := by
  induction front generalizing links place with
  | nil =>
    obtain ⟨rfl, rfl⟩ : place = reached ∧ links = left := by simpa [aim] using aimed
    exact h
  | cons step rest ih =>
    cases step with
    | stay => exact ih h (by simpa [List.filter_cons, Step.moves] using aimed)
    | up => exact ih h (by simpa [List.filter_cons, Step.moves, aim] using aimed)
    | into name =>
      obtain ⟨next, room, first, -, further⟩ := h
      refine ih further ?_
      have split := fs.aim_append links place [.into name] (rest.filter Step.moves)
      rw [first] at split
      exact split.symm.trans (by simpa [List.filter_cons, Step.moves] using aimed)

theorem Open.follow {fs : FileSystem} {links : Nat} {place : Location} {steps : List Step}
    (h : fs.Open links place steps) :
    (∃ reached, fs.follow true links place steps = .ok (.dir reached)) ∨
      ∀ through more, more ≠ [] →
        fs.follow through links place (steps ++ more) = .error .notFound := by
  induction steps generalizing links place with
  | nil => exact .inl ⟨place, by simp [FileSystem.follow]⟩
  | cons step rest ih =>
    cases step with
    | stay | up => simpa [FileSystem.follow] using ih h
    | into name =>
      obtain ⟨reached, left, aimed, ⟨absent, short⟩ | entered, onward⟩ := h
      · refine .inr fun through more further => ?_
        simp [FileSystem.follow, absent, Nat.not_lt.2 short, further]
      · obtain ⟨left', aimed', same⟩ := fs.follow_from_aim _ _ _ _ entered
        obtain rfl : left = left' := by simpa [List.filter_cons, Step.moves, aimed] using aimed'
        rcases ih onward with ⟨last, followed⟩ | missing
        · by_cases ends : rest = []
          · exact .inl ⟨reached, by rw [ends, entered]⟩
          · exact .inl ⟨last, (same true rest ends).trans followed⟩
        · exact .inr fun through more further =>
            (same through (rest ++ more) (by simp [further])).trans (missing through more further)

theorem Open.last {fs : FileSystem} {links : Nat} {place : Location} {front : List Step}
    {step : Step} (moves : step.moves = true) (h : fs.Open links place (front ++ [step])) :
    (∃ reached, fs.follow true links place (front ++ [step]) = .ok (.dir reached)) ∨
      (∃ parent name, fs.follow false links place (front ++ [step]) = .ok (.free parent name)) ∨
      fs.follow false links place (front ++ [step]) = .error .notFound ∧
        ∀ reached, fs.follow true links place front ≠ .ok (.dir reached) := by
  rcases h.front.follow with ⟨reached, entered⟩ | missing
  · obtain ⟨left, aimed, same⟩ := fs.follow_from_aim _ _ _ _ entered
    rw [same true _ (by simp), same false _ (by simp)]
    cases step with
    | stay => cases moves
    | up => exact .inl ⟨_, by simp [FileSystem.follow]; rfl⟩
    | into name =>
      have here : fs.Open left reached [.into name] := h.onward aimed
      obtain ⟨next, left', -, ⟨absent, short⟩ | further, -⟩ := here
      · exact .inr (.inl ⟨reached, name, by simp [FileSystem.follow, absent, Nat.not_lt.2 short]⟩)
      · exact .inl ⟨next, further⟩
  · refine .inr (.inr ⟨missing false _ (by simp), fun reached entered => ?_⟩)
    obtain ⟨left, same⟩ := fs.follow_from _ _ _ _ entered
    have stuck := missing true [.up] (by simp)
    rw [same true _ (by simp)] at stuck
    simp [FileSystem.follow] at stuck

theorem Open.steady {before after : FileSystem} (steady : Steady before after) {links : Nat}
    {place : Location} {steps : List Step} (h : before.Open links place steps)
    (noFile : ∀ front reached left content, front <+: steps →
      before.aim links place front = some (reached, left) →
        after.at? reached ≠ some (.file content)) : after.Open links place steps := by
  induction steps generalizing links place with
  | nil => trivial
  | cons step rest ih =>
    cases step with
    | stay | up =>
      refine ih h fun front reached left content within aimed => ?_
      exact noFile (_ :: front) reached left content (List.cons_prefix_cons.2 ⟨rfl, within⟩)
        (by simpa [aim] using aimed)
    | into name =>
      obtain ⟨reached, left, aimed, way, onward⟩ := h
      have further : after.Open left reached rest := by
        refine ih onward fun front last room content within aimed' => ?_
        refine noFile (.into name :: front) last room content
          (List.cons_prefix_cons.2 ⟨rfl, within⟩) ?_
        have split := before.aim_append links place [.into name] front
        rw [aimed] at split
        exact split.trans aimed'
      refine ⟨reached, left, by rw [steady.aim, aimed], ?_, further⟩
      rcases way with ⟨absent, short⟩ | entered
      · have here : place ++ [name] = reached := by
          have same : some (place ++ [name], links) = some (reached, left) := by
            simpa [aim, absent] using aimed
          exact congrArg Prod.fst (Option.some.inj same)
        rcases now : after.at? (place ++ [name]) with _ | (content | _ | target)
        · exact .inl ⟨rfl, short⟩
        · exact absurd (here ▸ now)
            (noFile [.into name] reached left content (by simp) aimed)
        · exact .inr (by rw [← here]; simp [FileSystem.follow, Nat.not_lt.2 short, now])
        · simp [(steady.links _ _).1 now] at absent
      · exact .inr (steady.follow _ _ _ _ entered)

theorem Open.aimed {fs : FileSystem} {links left : Nat} {place reached : Location}
    {steps : List Step} (h : fs.Open links place steps)
    (below : ∀ front, front <+: place → fs.at? front = none ∨ fs.at? front = some .dir)
    (aimed : fs.aim links place steps = some (reached, left)) :
    ∀ front, front <+: reached → fs.at? front = none ∨ fs.at? front = some .dir := by
  induction steps generalizing links place with
  | nil =>
    obtain ⟨rfl, -⟩ : place = reached ∧ links = left := by simpa [aim] using aimed
    exact below
  | cons step rest ih =>
    cases step with
    | stay => exact ih h below (by simpa [aim] using aimed)
    | up =>
      exact ih h (fun front within => below front (within.trans (List.dropLast_prefix _)))
        (by simpa [aim] using aimed)
    | into name =>
      obtain ⟨next, room, first, way, onward⟩ := h
      have split := fs.aim_append links place [.into name] rest
      rw [first] at split
      refine ih onward (fun front within => ?_) (split.symm.trans aimed)
      rcases way with ⟨absent, -⟩ | entered
      · obtain rfl : place ++ [name] = next := by
          have same : some (place ++ [name], links) = some (next, room) := by
            simpa [aim, absent] using first
          exact congrArg Prod.fst (Option.some.inj same)
        rcases List.prefix_concat_iff.1 within with rfl | above
        · exact .inl absent
        · exact below front above
      · have begun : fs.at? place = some .dir := by
          by_contra missing
          have absent := fs.at?_below place [name] (by simp) missing
          simp only [FileSystem.follow, absent, List.isEmpty_nil, if_true] at entered
          split_ifs at entered
          cases entered
        exact .inr (fs.at?_front next front within (fs.follow_holds _ _ _ _ _ begun entered))

/-- A directory that is there or can be made with all that is missing above it. -/
structure Makeable (fs : FileSystem) (path : Path) : Prop where
  clear : 0 ∉ path.bytes
  short : path.bytes.length < pathLimit
  begun : path.bytes ≠ [] → fs.at? (fs.start path) = some .dir
  way : fs.Open linkLimit (fs.start path) path.moves
  dotless : path.EndsInDot → fs.isDir path = true

theorem Enters.passed {fs : FileSystem} {base : Path} {top place : Location}
    (entered : fs.Enters base top) (passes : fs.Passes base place) :
    fs.at? place = some .dir := by
  obtain ⟨begun, reached⟩ := (fs.enters_iff base top).1 entered
  obtain ⟨front, left, ⟨rest, within⟩, aimed⟩ := passes
  obtain ⟨mid, followed⟩ : ∃ mid, fs.follow true linkLimit (fs.start base) front =
    .ok (.dir mid) := by
    rw [← within] at reached
    by_cases last : rest = []
    · exact ⟨top, by simpa [last] using reached⟩
    · exact fs.follow_front true _ _ front rest _ last reached
  have moves : front.filter Step.moves = front := by
    refine List.filter_eq_self.2 fun step member => ?_
    have among : step ∈ base.moves := within ▸ List.mem_append_left rest member
    exact (List.mem_filter.1 among).2
  have leads := fs.aim_of_follow _ _ _ _ followed
  rw [moves, aimed] at leads
  obtain rfl : place = mid := Option.some.inj leads
  exact fs.follow_holds true _ _ _ _ begun followed

section

variable {fs after : FileSystem} {path : Path}

theorem Makeable.resolve (makeable : fs.Makeable path) (notEmpty : path.bytes ≠ [])
    (place : Location) (h : fs.follow true linkLimit (fs.start path) path.moves =
    .ok (.dir place)) :
    fs.resolve true path = .ok (.dir place) := by
  rw [FileSystem.resolve, if_neg notEmpty, if_neg makeable.clear,
    if_neg (Nat.not_le.2 makeable.short), if_neg (not_not.2 (makeable.begun notEmpty))]
  exact fs.follow_of_moves _ _ _ _ _ (by simp [Path.moves]) h

theorem Makeable.makeDir (makeable : fs.Makeable path) (notEmpty : path.bytes ≠ []) :
    (∃ place, fs.resolve true path = .ok (.dir place)) ∨
      (∃ made, fs.makeDir path = .ok made) ∨
      fs.makeDir path = .error .notFound ∧ path.moves ≠ [] ∧
        ∀ dir, path.parent? = some dir → ∀ place, ¬fs.Enters dir place := by
  by_cases still : path.moves = []
  · exact .inl ⟨fs.start path, makeable.resolve notEmpty _ (by simp [still, follow])⟩
  by_cases ends : path.EndsInDot
  · exact .inl (fs.resolve_of_isDir path (makeable.dotless ends))
  have trimmed : path.withoutTrailingSlashes.bytes ≠ [] := by
    intro empty
    rw [← path.moves_withoutTrailingSlashes] at still
    exact still (Path.moves_of_empty _ empty)
  have front := path.front_withoutTrailingSlashes
  have begun := fs.start_congr (path.isAbsolute_withoutTrailingSlashes trimmed)
  obtain ⟨above, step, steps, moves⟩ := path.steps_withoutTrailingSlashes trimmed ends
  have whole : path.moves = (above ++ [step]).filter Step.moves := by
    rw [← path.moves_withoutTrailingSlashes, Path.moves, steps]
  have resolves : ∀ through, fs.resolve through path.withoutTrailingSlashes =
      fs.follow through linkLimit (fs.start path) (above ++ [step]) := by
    intro through
    have shorter := front.length_le
    rw [FileSystem.resolve, if_neg trimmed,
      if_neg fun member => makeable.clear (front.subset member),
      if_neg (Nat.not_le.2 (Nat.lt_of_le_of_lt shorter makeable.short)), begun,
      if_neg (not_not.2 (makeable.begun notEmpty)), steps]
  have way := (fs.open_moves _ _ (above ++ [step])).1 (whole ▸ makeable.way)
  -- The last step of an open way finds a directory, a free name in one, or nothing to start from.
  rcases way.last moves with ⟨reached, followed⟩ | ⟨parent, name, followed⟩ | ⟨missing, gone⟩
  · refine .inl ⟨reached, makeable.resolve notEmpty reached ?_⟩
    exact fs.follow_of_moves _ _ _ _ _ (by simp [whole]) followed
  · exact .inr (.inl ⟨fs.put parent name .dir, by
      simp [FileSystem.makeDir, notEmpty, makeable.clear, trimmed, resolves, followed]⟩)
  · have makes : fs.makeDir path = .error .notFound := by
      simp [FileSystem.makeDir, notEmpty, makeable.clear, trimmed, resolves, missing]
    refine .inr (.inr ⟨makes, still, fun dir isParent place entered => ?_⟩)
    obtain ⟨dir', last, isParent', split⟩ := path.parent?_of_moves still
    obtain rfl : dir = dir' := Option.some.inj (isParent.symm.trans isParent')
    obtain ⟨-, reached⟩ := (fs.enters_iff dir place).1 entered
    rw [whole, List.filter_append, List.filter_cons_of_pos moves, List.filter_nil] at split
    rw [← (List.append_singleton_inj.1 split).1,
      fs.start_congr (path.moves_parent dir isParent).2] at reached
    exact gone place (fs.follow_of_moves _ _ _ _ _ (by simp) reached)

theorem Makeable.steady (makeable : fs.Makeable path) (steady : Steady fs after)
    (noFile : ∀ place content, path.bytes ≠ [] → fs.Passes path place →
      after.at? place ≠ some (.file content)) : after.Makeable path where
  clear := makeable.clear
  short := makeable.short
  begun notEmpty := by
    rw [steady.start]
    exact steady.dirs _ (makeable.begun notEmpty)
  way := by
    by_cases empty : path.bytes = []
    · rw [path.moves_of_empty empty]
      trivial
    · rw [steady.start]
      refine makeable.way.steady steady fun front reached left content within aimed => ?_
      exact noFile reached content empty ⟨front, left, within, aimed⟩
  dotless ends := by
    obtain ⟨place, resolved⟩ := fs.resolve_of_isDir path (makeable.dotless ends)
    exact after.isDir_of_resolve path place (steady.resolve path _ resolved)

theorem Makeable.noFile (makeable : fs.Makeable path) (notEmpty : path.bytes ≠ [])
    (place : Location) (content : ByteArray) (passes : fs.Passes path place) :
    fs.at? place ≠ some (.file content) := by
  obtain ⟨front, left, ⟨rest, within⟩, aimed⟩ := passes
  have way := makeable.way
  rw [← within] at way
  have below : ∀ above, above <+: fs.start path →
      fs.at? above = none ∨ fs.at? above = some .dir := fun above inside =>
    .inr (fs.at?_front (fs.start path) above inside (makeable.begun notEmpty))
  rcases way.front.aimed below aimed place (List.prefix_refl _) with absent | isDir <;> simp [*]

theorem Makeable.sprouts (makeable : fs.Makeable path) (sprouts : Sprouts fs after) :
    after.Makeable path :=
  makeable.steady sprouts.steady fun place content notEmpty passes there =>
    makeable.noFile notEmpty place content passes ((sprouts.file place content).1 there)

theorem Makeable.parent (makeable : fs.Makeable path) (goes : path.moves ≠ []) (dir : Path)
    (parent : path.parent? = some dir) : fs.Makeable dir := by
  have front := path.bytes_parent dir parent
  have begun : dir.bytes ≠ [] → fs.at? (fs.start dir) = some .dir := by
    intro notEmpty
    rw [fs.start_congr (path.moves_parent dir parent).2]
    exact makeable.begun fun empty => notEmpty (List.prefix_nil.1 (empty ▸ front))
  have short := Nat.lt_of_le_of_lt front.length_le makeable.short
  obtain ⟨dir', step, parent', split⟩ := path.parent?_of_moves goes
  obtain rfl : dir = dir' := Option.some.inj (parent.symm.trans parent')
  have clear : 0 ∉ dir.bytes := fun member => makeable.clear (front.subset member)
  refine ⟨clear, short, begun, ?_, fun ends => ?_⟩
  · rw [fs.start_congr (path.moves_parent dir parent).2]
    exact (split ▸ makeable.way).front
  · have notEmpty : dir.bytes ≠ [] := by
      intro empty
      obtain ⟨bytes⟩ := dir
      obtain rfl : bytes = [] := empty
      simp [Path.EndsInDot, Path.parts, splitBy] at ends
    have still := path.moves_of_endsInDot_parent dir parent ends
    refine fs.isDir_of_resolve dir (fs.start dir) ?_
    rw [FileSystem.resolve, if_neg notEmpty, if_neg clear, if_neg (Nat.not_le.2 short),
      if_neg (not_not.2 (begun notEmpty))]
    exact fs.follow_of_moves _ _ _ [] _ (by rw [← Path.moves, still]; rfl) (by simp [follow])

end

theorem Makeable.touches {fs after : FileSystem} {root dir : Path} {names above : List Name}
    (makeable : fs.Makeable dir) (plain : fs.PlainBelow root)
    (spelled : dir.moves = root.moves ++ above.map .into) (same : dir.isAbsolute = root.isAbsolute)
    (apart : ¬names <+: above) (further : names ≠ [])
    (touches : fs.TouchesOnly after (root.extend names)) : after.Makeable dir := by
  have steady := touches.steady
  refine makeable.steady steady fun place content notEmpty passes there => ?_
  have before := makeable.noFile notEmpty place content passes
  obtain rfl | ⟨filled, entry, target, -, change⟩ := touches
  · exact before there
  rw [change.at?] at there
  split_ifs at there with here
  · subst here
    have onWay : fs.Passes (root.extend above) place := by
      rwa [Passes, Path.moves_extend, ← spelled, start_extend, ← fs.start_congr same]
    have leads := fs.aimAt_of_target? _ place target
    rcases fs.passes_extend root above place plain onWay with toRoot
      | ⟨top, front, reached, within, rfl⟩
    · obtain ⟨found, resolved⟩ := fs.resolve_of_target? _ place target
      obtain ⟨top, entered⟩ := fs.enters_of_extend true root names found further resolved
      have isDir := entered.passed toRoot
      rcases fs.at?_target? _ place target with absent | ⟨old, isFile⟩ <;> simp [*] at isDir
    · rw [fs.aimAt_extend root names plain, reached] at leads
      have whole : names = front := by simpa using leads
      exact apart (whole ▸ within)
  · exact before there

theorem Makeable.touches_root {fs after : FileSystem} {root : Path} {names : List Name}
    (makeable : fs.Makeable root) (plain : fs.PlainBelow root) (further : names ≠ [])
    (touches : fs.TouchesOnly after (root.extend names)) : after.Makeable root := by
  have spelled : root.moves = root.moves ++ ([] : List Name).map .into := by simp
  exact makeable.touches plain spelled rfl (by simpa using further) further touches

theorem makeDirAll_of_makeable (fs : FileSystem) (path : Path) (makeable : fs.Makeable path) :
    (fs.makeDirAll path).2 = .ok () := by
  by_cases empty : path.bytes = []
  · simp [makeDirAll, Path.ancestors, empty, makeDirs]
  rcases makeable.makeDir empty with ⟨place, there⟩ | ⟨made, makes⟩ | ⟨missing, goes, -⟩
  · rw [fs.makeDirAll_of_resolve path place there]
  · obtain ⟨above, ancestors⟩ := path.ancestors_eq_cons empty
    simp [makeDirAll, ancestors, makeDirs, makes]
  · obtain ⟨dir, step, parent, split⟩ := path.parent?_of_moves goes
    have front := path.bytes_parent dir parent
    have shorter : dir.bytes.length < path.bytes.length := by
      refine Nat.lt_of_le_of_ne front.length_le fun same => ?_
      have whole : dir = path := congrArg Path.mk (front.eq_of_length same)
      simp [whole] at split
    have ancestors : path.ancestors = path :: dir.ancestors := by
      rw [Path.ancestors, if_neg empty, parent]
      exact if_pos shorter
    -- What is missing above is made first, and is shorter; then the last directory can be made.
    have made := makeDirAll_of_makeable fs dir (makeable.parent goes dir parent)
    rcases answer : fs.makeDirAll dir with ⟨reached, result⟩
    obtain rfl : result = .ok () := by simpa [answer] using made
    have sprouts : Sprouts fs reached := by simpa [answer] using fs.makeDirAll_sprouts dir
    rw [makeDirAll] at answer
    simp only [makeDirAll, ancestors, makeDirs, missing, answer]
    rcases (makeable.sprouts sprouts).makeDir empty with ⟨place, there⟩ | ⟨last, makes⟩ |
      ⟨-, -, unreached⟩
    · split
      · rfl
      · simp [reached.isDir_of_resolve path place there]
    · simp [makes]
    · exfalso
      by_cases top : dir.bytes = []
      · have begun := (makeable.sprouts sprouts).begun empty
        rw [← reached.start_congr (path.moves_parent dir parent).2] at begun
        exact unreached dir parent (reached.start dir) ((reached.enters_iff dir _).2
          ⟨begun, by simp [dir.moves_of_empty top, follow]⟩)
      · obtain ⟨place, entered⟩ := fs.makeDirAll_enters reached dir top answer
        exact unreached dir parent place entered
termination_by path.bytes.length

end BuildIdCache.FileSystem
