import BuildIdCache.FileSystem.Change
import BuildIdCache.Proofs.Path

set_option autoImplicit false

namespace BuildIdCache

theorem joinBy_concat (separator : UInt8) (front : List (List UInt8)) (part : List UInt8)
    (further : front ≠ []) :
    joinBy separator (front ++ [part]) = joinBy separator front ++ separator :: part := by
  induction front with
  | nil => exact absurd rfl further
  | cons first rest ih =>
    cases rest with
    | nil => rfl
    | cons next rest =>
      have onward := ih (by simp)
      simp only [List.cons_append, joinBy] at onward ⊢
      rw [onward, List.append_assoc, List.cons_append]

theorem Step.moves_ofPart (part : List UInt8) (clear : slash ∉ part) :
    (Step.ofPart part).moves = true ↔ part ≠ [] ∧ part ≠ [dot] := by
  unfold Step.ofPart
  by_cases up : part = [dot, dot]
  · simp [up, Step.moves]
  · by_cases isName : IsName part
    · simp [up, Name.ofBytes?, isName, Step.moves, isName.2.1, isName.2.2.1]
    · have still : part = [] ∨ part = [dot] := by
        by_contra other
        push Not at other
        exact isName ⟨clear, other.1, other.2, up⟩
      simp only [up, Name.ofBytes?, isName, Step.moves, if_false, dite_false]
      rcases still with rfl | rfl <;> simp

namespace Path

theorem movesOf_append (a b : List (List UInt8)) : movesOf (a ++ b) = movesOf a ++ movesOf b := by
  simp [movesOf]

theorem movesOf_trimParts (parts : List (List UInt8)) :
    movesOf (trimParts parts) = movesOf parts := by
  suffices trim : ∀ reversed : List (List UInt8),
      movesOf (reversed.dropWhile fun part => part = [] ∨ part = [dot]).reverse =
        movesOf reversed.reverse by
    simpa [trimParts] using trim parts.reverse
  intro reversed
  induction reversed with
  | nil => rfl
  | cons part rest ih =>
    by_cases still : part = [] ∨ part = [dot]
    · have stays : (Step.ofPart part).moves = false := by
        rcases still with rfl | rfl <;> decide
      have onward : movesOf (part :: rest).reverse = movesOf rest.reverse := by
        simp [movesOf, stays]
      rw [List.dropWhile_cons_of_pos (by simpa using still), ih, onward]
    · rw [List.dropWhile_cons_of_neg (by simpa using still)]

theorem trimParts_last (parts front : List (List UInt8)) (last : List UInt8)
    (trimmed : trimParts parts = front ++ [last]) : last ≠ [] ∧ last ≠ [dot] := by
  have stops :=
    List.head?_dropWhile_not (fun part : List UInt8 => decide (part = [] ∨ part = [dot]))
      parts.reverse
  have reversed : parts.reverse.dropWhile (fun part => decide (part = [] ∨ part = [dot])) =
      last :: front.reverse := by
    have whole := congrArg List.reverse trimmed
    simpa [trimParts] using whole
  rw [reversed] at stops
  simpa using stops

theorem parent?_eq_some (path dir : Path) (h : path.parent? = some dir) :
    (trimParts path.lead.2 = [] ∧ dir = ⟨[]⟩) ∨
      ∃ front last, trimParts path.lead.2 = front ++ [last] ∧
        dir = spelled path.lead.1 (trimParts front) := by
  cases kept : trimParts path.lead.2 using List.reverseRecOn with
  | nil =>
    simp only [parent?, kept] at h
    split_ifs at h
    exact .inl ⟨rfl, (Option.some.inj h).symm⟩
  | append_singleton front last =>
    obtain ⟨part, more, cons⟩ := List.exists_cons_of_ne_nil
      (List.append_ne_nil_of_right_ne_nil front (List.cons_ne_nil last []))
    rw [path.parent?_of_kept part more (by rw [kept, cons]), ← cons, List.dropLast_concat] at h
    exact .inr ⟨front, last, rfl, (Option.some.inj h).symm⟩

theorem clear_trimmed (path : Path) (front : List (List UInt8)) (last : List UInt8)
    (kept : trimParts path.lead.2 = front ++ [last]) :
    ∀ part ∈ front ++ [last], slash ∉ part := fun part member =>
  path.lead_parts.1 part ((trimParts_front _).subset (kept ▸ member))

theorem parent?_of_moves (path : Path) (goes : path.moves ≠ []) :
    ∃ dir step, path.parent? = some dir ∧ path.moves = dir.moves ++ [step] := by
  have moves := path.moves_eq_lead
  rw [← movesOf_trimParts] at moves
  cases kept : trimParts path.lead.2 using List.reverseRecOn with
  | nil => exact absurd (by rw [moves, kept]; rfl) goes
  | append_singleton front last =>
    obtain ⟨part, more, cons⟩ := List.exists_cons_of_ne_nil
      (List.append_ne_nil_of_right_ne_nil front (List.cons_ne_nil last []))
    have parent := path.parent?_of_kept part more (by rw [kept, cons])
    rw [← cons, List.dropLast_concat] at parent
    have clear := path.clear_trimmed front last kept
    have moving := (Step.moves_ofPart last (clear last (by simp))).2
      (trimParts_last _ front last kept)
    refine ⟨_, Step.ofPart last, parent, ?_⟩
    rw [moves_spelled _ _ fun part member =>
      clear part (by simp [(trimParts_front front).subset member]), movesOf_trimParts, moves, kept]
    simp [movesOf, moving]

theorem parent_push (base : Path) (name : Name) :
    ∃ dir, (base.push name).parent? = some dir ∧ dir.moves = base.moves ∧
      dir.isAbsolute = base.isAbsolute := by
  have moves := base.moves_push name
  obtain ⟨dir, step, parent, split⟩ := (base.push name).parent?_of_moves (by simp [moves])
  rw [moves] at split
  refine ⟨dir, parent, (List.append_singleton_inj.1 split).1.symm, ?_⟩
  rw [((base.push name).moves_parent dir parent).2, isAbsolute_push]

theorem parent_extend (root : Path) (names : List Name) (further : names ≠ []) :
    ∃ dir, (root.extend names).parent? = some dir ∧
      dir.moves = root.moves ++ names.dropLast.map .into ∧ dir.isAbsolute = root.isAbsolute := by
  cases names using List.reverseRecOn with
  | nil => exact absurd rfl further
  | append_singleton above name =>
    obtain ⟨dir, parent, moves, same⟩ := (root.extend above).parent_push name
    rw [moves_extend] at moves
    rw [isAbsolute_extend] at same
    exact ⟨dir, by rw [extend_concat, parent], by rw [moves, List.dropLast_concat], same⟩

theorem bytes_of_lead (path : Path) :
    (path.lead.1 = some .root ∧ path.bytes = joinBy slash ([] :: path.lead.2) ∧
        path.isAbsolute = true) ∨
      (path.lead.1 = some .here ∧ path.bytes = joinBy slash ([dot] :: path.lead.2)) ∨
      path.lead.1 = none ∧ path.bytes = joinBy slash path.lead.2 := by
  have whole : joinBy slash path.parts = path.bytes := joinBy_splitBy slash path.bytes
  unfold lead
  cases parts : path.parts with
  | nil => exact absurd parts path.parts_ne_nil
  | cons first rest =>
    rw [parts] at whole
    simp only
    split_ifs with absolute here
    · obtain rfl := first_of_isAbsolute absolute parts
      exact .inl ⟨rfl, whole.symm, absolute⟩
    · exact .inr (.inl ⟨rfl, by rw [← here]; exact whole.symm⟩)
    · exact .inr (.inr ⟨rfl, whole.symm⟩)

theorem bytes_parent (path dir : Path) (h : path.parent? = some dir) :
    dir.bytes <+: path.bytes := by
  rcases path.parent?_eq_some dir h with ⟨-, rfl⟩ | ⟨front, last, kept, rfl⟩
  · exact List.nil_prefix
  · have within : trimParts front <+: path.lead.2 :=
      (trimParts_front front).trans ((List.prefix_append front [last]).trans
        (kept ▸ trimParts_front _))
    generalize trimParts front = body at within
    rcases path.bytes_of_lead with ⟨root, bytes, absolute⟩ | ⟨here, bytes⟩ | ⟨none, bytes⟩
    · rw [root, spelled]
      cases body with
      | nil =>
        obtain ⟨more, whole⟩ := bytes_of_isAbsolute absolute
        exact ⟨more, whole.symm⟩
      | cons part rest =>
        rw [bytes]
        exact joinBy_front (a := [] :: part :: rest) (List.cons_prefix_cons.2 ⟨rfl, within⟩)
    · rw [here, bytes]
      exact joinBy_front (a := [dot] :: body) (List.cons_prefix_cons.2 ⟨rfl, within⟩)
    · rw [none, bytes]
      exact joinBy_front within

def EndsInDot (path : Path) : Prop := (path.parts.filter (· ≠ [])).getLast? = some [dot]

theorem moves_of_endsInDot_parent (path dir : Path) (h : path.parent? = some dir)
    (ends : dir.EndsInDot) : dir.moves = [] := by
  rcases path.parent?_eq_some dir h with ⟨-, rfl⟩ | ⟨front, last, kept, rfl⟩
  · rfl
  · have clear : ∀ part ∈ trimParts front, slash ∉ part := fun part member =>
      path.clear_trimmed front last kept part (by simp [(trimParts_front front).subset member])
    rw [moves_spelled _ _ clear]
    cases body : trimParts front using List.reverseRecOn with
    | nil => rfl
    | append_singleton rest final =>
      exfalso
      obtain ⟨notEmpty, notDot⟩ := trimParts_last _ _ _ body
      rw [body] at clear ends
      have parts : ∃ before, (spelled path.lead.1 (rest ++ [final])).parts = before ++ [final] := by
        unfold spelled
        split
        · refine ⟨[] :: rest, ?_⟩
          have slashed := splitBy_append_separator slash [] (joinBy slash (rest ++ [final]))
          rw [splitBy_joinBy slash _ (by simp) clear] at slashed
          simpa [Path.parts, splitBy] using slashed
        · refine ⟨[dot] :: rest, ?_⟩
          refine splitBy_joinBy slash _ (by simp) fun part member => ?_
          rcases List.mem_cons.1 member with rfl | member
          · decide
          · exact clear part member
        · exact ⟨rest, splitBy_joinBy slash _ (by simp) clear⟩
      obtain ⟨before, parts⟩ := parts
      rw [EndsInDot, parts, List.filter_append, List.filter_cons_of_pos (by simpa using notEmpty)]
        at ends
      exact notDot (by simpa using ends)

theorem ancestors_eq_cons (path : Path) (notEmpty : path.bytes ≠ []) :
    ∃ above, path.ancestors = path :: above := by
  rw [ancestors, if_neg notEmpty]
  split
  · exact ⟨[], rfl⟩
  · split
    · exact ⟨_, rfl⟩
    · exact ⟨[], rfl⟩

theorem moves_ancestors (path other : Path) (member : other ∈ path.ancestors) :
    other.moves <+: path.moves ∧ other.isAbsolute = path.isAbsolute := by
  fun_induction ancestors path
  case case1 => simp at member
  case case2 | case4 =>
    obtain rfl := by simpa using member
    exact ⟨List.prefix_refl _, rfl⟩
  case case3 path _ parent h shorter ih =>
    obtain ⟨within, same⟩ := path.moves_parent parent h
    rcases List.mem_cons.1 member with rfl | above
    · exact ⟨List.prefix_refl _, rfl⟩
    · obtain ⟨within', same'⟩ := ih above
      exact ⟨within'.trans within, same'.trans same⟩

theorem front_withoutTrailingSlashes (path : Path) :
    path.withoutTrailingSlashes.bytes <+: path.bytes := by
  have suffix := List.dropWhile_suffix (fun b : UInt8 => decide (b = slash))
    (l := path.bytes.reverse)
  simpa [withoutTrailingSlashes] using List.reverse_prefix.2 suffix

theorem isAbsolute_withoutTrailingSlashes (path : Path)
    (notEmpty : path.withoutTrailingSlashes.bytes ≠ []) :
    path.withoutTrailingSlashes.isAbsolute = path.isAbsolute :=
  isAbsolute_of_front path.front_withoutTrailingSlashes notEmpty

theorem parts_withoutTrailingSlashes (path : Path) :
    path.withoutTrailingSlashes.parts.filter (· ≠ []) = path.parts.filter (· ≠ []) := by
  obtain ⟨bytes⟩ := path
  suffices trim : ∀ reversed : List UInt8,
      (Path.parts ⟨(reversed.dropWhile (· = slash)).reverse⟩).filter (· ≠ []) =
        (Path.parts ⟨reversed.reverse⟩).filter (· ≠ []) by
    simpa [withoutTrailingSlashes] using trim bytes.reverse
  intro reversed
  induction reversed with
  | nil => rfl
  | cons b rest ih =>
    by_cases trailing : b = slash
    · have onward : (Path.parts ⟨(b :: rest).reverse⟩).filter (· ≠ []) =
          (Path.parts ⟨rest.reverse⟩).filter (· ≠ []) := by
        simp [parts, trailing, splitBy_append_separator, splitBy]
      rw [List.dropWhile_cons_of_pos (by simpa using trailing), ih, onward]
    · rw [List.dropWhile_cons_of_neg (by simpa using trailing)]

theorem moves_withoutTrailingSlashes (path : Path) :
    path.withoutTrailingSlashes.moves = path.moves := by
  have filled : ∀ parts : List (List UInt8), movesOf (parts.filter (· ≠ [])) = movesOf parts := by
    intro parts
    induction parts with
    | nil => rfl
    | cons part rest ih =>
      have split : movesOf (part :: rest) = movesOf [part] ++ movesOf rest :=
        movesOf_append [part] rest
      by_cases empty : part = []
      · rw [List.filter_cons_of_neg (by simpa using empty), ih, split, empty]
        rfl
      · rw [List.filter_cons_of_pos (by simpa using empty), split, ← ih]
        exact movesOf_append [part] _
  have whole : ∀ path : Path, path.moves = movesOf path.parts := fun _ => rfl
  rw [whole, whole, ← filled, parts_withoutTrailingSlashes, filled]

theorem steps_withoutTrailingSlashes (path : Path)
    (notEmpty : path.withoutTrailingSlashes.bytes ≠ []) (dotless : ¬path.EndsInDot) :
    ∃ front step, path.withoutTrailingSlashes.steps = front ++ [step] ∧ step.moves = true := by
  rw [EndsInDot, ← parts_withoutTrailingSlashes] at dotless
  have unslashed : path.withoutTrailingSlashes.bytes.getLast? ≠ some slash := by
    have stops := List.head?_dropWhile_not (fun b : UInt8 => decide (b = slash)) path.bytes.reverse
    rw [withoutTrailingSlashes, List.getLast?_reverse]
    intro trailing
    rw [trailing] at stops
    simp at stops
  generalize path.withoutTrailingSlashes = trimmed at notEmpty dotless unslashed ⊢
  have whole : joinBy slash trimmed.parts = trimmed.bytes := joinBy_splitBy slash trimmed.bytes
  have clear : ∀ part ∈ trimmed.parts, slash ∉ part := notMem_of_mem_splitBy slash trimmed.bytes
  cases parts : trimmed.parts using List.reverseRecOn with
  | nil => exact absurd parts trimmed.parts_ne_nil
  | append_singleton front last =>
    rw [parts] at whole clear dotless
    have filled : last ≠ [] := by
      rintro rfl
      cases front with
      | nil => exact notEmpty whole.symm
      | cons first rest =>
        rw [joinBy_concat slash _ _ (by simp)] at whole
        exact unslashed (by simp [← whole])
    have notDot : last ≠ [dot] := by
      rintro rfl
      exact dotless (by simp)
    exact ⟨front.map Step.ofPart, Step.ofPart last, by simp [steps, parts],
      (Step.moves_ofPart last (clear last (by simp))).2 ⟨filled, notDot⟩⟩

theorem moves_of_empty (path : Path) (empty : path.bytes = []) : path.moves = [] := by
  obtain ⟨bytes⟩ := path
  obtain rfl : bytes = [] := empty
  rfl

end Path

end BuildIdCache
