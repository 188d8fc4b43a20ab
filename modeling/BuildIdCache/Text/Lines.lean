set_option autoImplicit false

namespace BuildIdCache.Text

def closeLine : List Char → List Char
  | '\r' :: line => line.reverse
  | line => line.reverse

def linesFrom (done : List (List Char)) (line : List Char) : List Char → List (List Char)
  | [] => if line.isEmpty then done.reverse else (line.reverse :: done).reverse
  | '\n' :: rest => linesFrom (closeLine line :: done) [] rest
  | c :: rest => linesFrom done (c :: line) rest

def lines (s : List Char) : List (List Char) := linesFrom [] [] s

theorem linesFrom_done (done : List (List Char)) (line s : List Char) :
    linesFrom done line s = done.reverse ++ linesFrom [] line s := by
  induction s generalizing done line with
  | nil => by_cases h : line.isEmpty <;> simp [linesFrom, h]
  | cons c rest ih =>
    by_cases h : c = '\n'
    · subst h
      rw [linesFrom, linesFrom, ih, ih [closeLine line]]
      simp
    · rw [linesFrom, linesFrom, ih]
      · simpa using h
      · simpa using h

theorem linesFrom_newline (line s rest : List Char) (h : '\n' ∉ s) :
    linesFrom [] line (s ++ '\n' :: rest) = closeLine (s.reverse ++ line) :: lines rest := by
  induction s generalizing line with
  | nil => simp [linesFrom, linesFrom_done [closeLine line], lines]
  | cons c s ih =>
    have other : c ≠ '\n' := fun e => h (by simp [e])
    have step := ih (c :: line) fun m => h (by simp [m])
    rw [List.cons_append, linesFrom]
    · simpa using step
    · simpa using other

theorem lines_newline (s rest : List Char) (h : '\n' ∉ s) :
    lines (s ++ '\n' :: rest) = closeLine s.reverse :: lines rest := by
  simpa [lines] using linesFrom_newline [] s rest h

end BuildIdCache.Text
