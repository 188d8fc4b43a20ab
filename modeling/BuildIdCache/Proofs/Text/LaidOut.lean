import BuildIdCache.Proofs.Text.Lines

set_option autoImplicit false

namespace BuildIdCache.Text

/-- A text that is written line by line. Each line ends with a line feed, or with a carriage return
and a line feed; the last one may be left without an end. -/
inductive LaidOut : List (List Char) → List Char → Prop
  | nil : LaidOut [] []
  | last {line : List Char} (clear : '\n' ∉ line) : LaidOut [line] line
  | ended {line ending : List Char} {rest : List (List Char)} {text : List Char}
      (clear : '\n' ∉ line) (ends : ending ∈ [['\n'], ['\r', '\n']]) (further : LaidOut rest text) :
      LaidOut (line :: rest) (line ++ (ending ++ text))

inductive Interspersed {α : Type} (shows : α → List Char → Prop) (silent : List Char → Prop) :
    List α → List (List Char) → Prop
  | nil : Interspersed shows silent [] []
  | silent {items : List α} {line : List Char} {lines : List (List Char)} (still : silent line)
      (further : Interspersed shows silent items lines) :
      Interspersed shows silent items (line :: lines)
  | shows {item : α} {items : List α} {line : List Char} {lines : List (List Char)}
      (told : shows item line) (further : Interspersed shows silent items lines) :
      Interspersed shows silent (item :: items) (line :: lines)

theorem lines_last (line : List Char) (clear : '\n' ∉ line) :
    lines line = if line = [] then [] else [line] := by
  by_cases empty : line = []
  · rw [if_pos empty, empty]
    rfl
  · have other : '\n' ≠ line.getLast empty := fun same => clear (same ▸ List.getLast_mem empty)
    rw [if_neg empty, lines_eq, fullLines_last line empty clear, List.map_singleton,
      ← List.dropLast_concat_getLast empty, withoutEnd_other _ _ other.symm]

variable {α β : Type} {read : List Char → Option β}

theorem LaidOut.filterMap_lines {laid : List (List Char)} {text : List Char}
    (laidOut : LaidOut laid text) (nothing : read [] = none)
    (closed : ∀ line ∈ laid, read (closeLine line.reverse) = read line) :
    (lines text).filterMap read = laid.filterMap read := by
  induction laidOut with
  | nil => rfl
  | @last line clear =>
    rw [lines_last line clear]
    split
    next empty => simp [empty, nothing]
    next => rfl
  | @ended line ending rest text clear ends further ih =>
    have later := ih fun other member => closed other (by simp [member])
    simp only [List.mem_cons, List.not_mem_nil, or_false] at ends
    rcases ends with rfl | rfl
    · rw [List.singleton_append, lines_newline _ _ clear, List.filterMap_cons, List.filterMap_cons,
        closed line (by simp), later]
    · have clear' : '\n' ∉ line ++ ['\r'] := by simpa using clear
      have split : line ++ (['\r', '\n'] ++ text) = (line ++ ['\r']) ++ '\n' :: text := by simp
      have whole : closeLine (line ++ ['\r']).reverse = line := by simp [closeLine]
      rw [split, lines_newline _ _ clear', List.filterMap_cons, List.filterMap_cons, whole, later]

theorem Interspersed.filterMap {shows : α → List Char → Prop} {silent : List Char → Prop}
    {items : List α} {lines : List (List Char)}
    (interspersed : Interspersed shows silent items lines)
    {of : α → Option β} (told : ∀ item ∈ items, ∀ line, shows item line → read line = of item)
    (still : ∀ line, silent line → read line = none) :
    lines.filterMap read = items.filterMap of := by
  induction interspersed with
  | nil => rfl
  | silent quiet further ih => rw [List.filterMap_cons, still _ quiet, ih told]
  | shows shown further ih =>
    have later := ih fun item member => told item (by simp [member])
    rw [List.filterMap_cons, List.filterMap_cons, told _ (by simp) _ shown, later]

theorem Interspersed.forall_line {shows : α → List Char → Prop} {silent : List Char → Prop}
    {items : List α} {lines : List (List Char)}
    (interspersed : Interspersed shows silent items lines)
    {p : List Char → Prop} (told : ∀ item ∈ items, ∀ line, shows item line → p line)
    (still : ∀ line, silent line → p line) : ∀ line ∈ lines, p line := by
  induction interspersed with
  | nil => simp
  | silent quiet further ih => exact List.forall_mem_cons.2 ⟨still _ quiet, ih told⟩
  | shows shown further ih =>
    have later := ih fun item member => told item (by simp [member])
    exact List.forall_mem_cons.2 ⟨told _ (by simp) _ shown, later⟩

end BuildIdCache.Text
