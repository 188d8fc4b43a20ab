import BuildIdCache.Text.Lines

set_option autoImplicit false

namespace BuildIdCache.Text

def fullLines : List Char → List (List Char)
  | [] => []
  | c :: s =>
    if c = '\n' then [c] :: fullLines s
    else
      match fullLines s with
      | [] => [[c]]
      | line :: rest => (c :: line) :: rest

def withoutEnd (line : List Char) : List Char :=
  match line.reverse with
  | '\n' :: back => closeLine back
  | _ => line

theorem withoutEnd_newline (front : List Char) :
    withoutEnd (front ++ ['\n']) = closeLine front.reverse := by
  simp [withoutEnd]

theorem withoutEnd_other (front : List Char) (c : Char) (other : c ≠ '\n') :
    withoutEnd (front ++ [c]) = front ++ [c] := by
  simp [withoutEnd, other]

theorem linesFrom_eq (line s : List Char) :
    linesFrom [] line s =
      match fullLines s with
      | [] => if line.isEmpty then [] else [line.reverse]
      | first :: rest => withoutEnd (line.reverse ++ first) :: rest.map withoutEnd := by
  induction s generalizing line with
  | nil => simp [linesFrom, fullLines]
  | cons c s ih =>
    by_cases ends : c = '\n'
    · subst ends
      have further : linesFrom [] [] s = (fullLines s).map withoutEnd := by
        rw [ih]
        cases fullLines s <;> rfl
      rw [linesFrom, linesFrom_done, further, fullLines, if_pos rfl]
      simp [withoutEnd_newline]
    · rw [linesFrom, ih, fullLines, if_neg ends]
      · cases fullLines s with
        | nil => simp [withoutEnd_other _ _ ends]
        | cons first rest => simp
      · simpa using ends

theorem lines_eq (s : List Char) : lines s = (fullLines s).map withoutEnd := by
  rw [lines, linesFrom_eq]
  cases fullLines s <;> rfl

/-- Lines that can stand in a text in this order: each ends with its only line feed, but the last
one may have none. -/
inductive AreLines : List (List Char) → Prop
  | none : AreLines []
  | last {line : List Char} (notEmpty : line ≠ []) (clear : '\n' ∉ line) : AreLines [line]
  | ended {front : List Char} {rest : List (List Char)} (clear : '\n' ∉ front)
      (further : AreLines rest) : AreLines ((front ++ ['\n']) :: rest)

theorem areLines_fullLines (s : List Char) : AreLines (fullLines s) := by
  induction s with
  | nil => exact .none
  | cons c s ih =>
    by_cases ends : c = '\n'
    · subst ends
      rw [fullLines, if_pos rfl]
      exact @AreLines.ended [] _ (by simp) ih
    · rw [fullLines, if_neg ends]
      generalize fullLines s = lines at ih ⊢
      cases ih with
      | none => exact .last (by simp) (by simpa using Ne.symm ends)
      | last notEmpty clear => exact .last (by simp) (by simp [Ne.symm ends, clear])
      | ended clear further =>
        exact @AreLines.ended (c :: _) _ (by simp [Ne.symm ends, clear]) further

theorem flatten_fullLines (s : List Char) : (fullLines s).flatten = s := by
  induction s with
  | nil => rfl
  | cons c s ih =>
    rw [fullLines]
    split
    · simp [ih]
    · split
      next empty =>
        rw [empty] at ih
        simpa using ih
      next line rest more =>
        rw [more] at ih
        simpa using ih

theorem fullLines_newline (front s : List Char) (clear : '\n' ∉ front) :
    fullLines (front ++ '\n' :: s) = (front ++ ['\n']) :: fullLines s := by
  induction front with
  | nil => simp [fullLines]
  | cons c front ih =>
    have apart : c ≠ '\n' := fun same => clear (by simp [same])
    rw [List.cons_append, fullLines, if_neg apart, ih fun member => clear (by simp [member])]
    rfl

theorem fullLines_last (line : List Char) (notEmpty : line ≠ []) (clear : '\n' ∉ line) :
    fullLines line = [line] := by
  induction line with
  | nil => exact absurd rfl notEmpty
  | cons c line ih =>
    have apart : c ≠ '\n' := fun same => clear (by simp [same])
    rw [fullLines, if_neg apart]
    cases line with
    | nil => rfl
    | cons d line => rw [ih (by simp) fun member => clear (by simp [member])]

theorem AreLines.fullLines_flatten {lines : List (List Char)} (areLines : AreLines lines) :
    fullLines lines.flatten = lines := by
  induction areLines with
  | none => rfl
  | last notEmpty clear => simpa using fullLines_last _ notEmpty clear
  | ended clear further ih =>
    rw [List.flatten_cons, List.append_assoc, List.singleton_append, fullLines_newline _ _
      clear, ih]

theorem AreLines.sublist {lines kept : List (List Char)} (areLines : AreLines lines)
    (sublist : kept.Sublist lines) : AreLines kept := by
  induction sublist with
  | slnil => exact .none
  | cons line sublist ih =>
    cases areLines with
    | last notEmpty clear =>
      obtain rfl := List.sublist_nil.1 sublist
      exact .none
    | ended clear further => exact ih further
  | cons_cons line sublist ih =>
    cases areLines with
    | last notEmpty clear =>
      obtain rfl := List.sublist_nil.1 sublist
      exact .last notEmpty clear
    | ended clear further => exact .ended clear (ih further)

def joined (lines : List (List Char)) : String := String.ofList lines.flatten

theorem fullLines_joined {text : String} {kept : List (List Char)}
    (sublist : kept.Sublist (fullLines text.toList)) : fullLines (joined kept).toList = kept := by
  rw [joined, String.toList_ofList]
  exact ((areLines_fullLines text.toList).sublist sublist).fullLines_flatten

def keepLines (kept : List Char → Bool) (text : String) : String :=
  joined ((fullLines text.toList).filter kept)

theorem fullLines_keepLines (kept : List Char → Bool) (text : String) :
    fullLines (keepLines kept text).toList = (fullLines text.toList).filter kept :=
  fullLines_joined List.filter_sublist

end BuildIdCache.Text
