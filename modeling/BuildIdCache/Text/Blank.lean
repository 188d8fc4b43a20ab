set_option autoImplicit false

namespace BuildIdCache.Text

def blankRanges : List (Nat × Nat) :=
  [(0x9, 0xD), (0x20, 0x20), (0x85, 0x85), (0xA0, 0xA0), (0x1680, 0x1680), (0x2000, 0x200A),
    (0x2028, 0x2029), (0x202F, 0x202F), (0x205F, 0x205F), (0x3000, 0x3000)]

def isBlank (c : Char) : Bool :=
  blankRanges.any fun range => range.1 ≤ c.toNat && c.toNat ≤ range.2

def trimStart (s : List Char) : List Char := s.dropWhile isBlank

def trimEnd (s : List Char) : List Char := (s.reverse.dropWhile isBlank).reverse

def trim (s : List Char) : List Char := trimEnd (trimStart s)

def firstWord? (s : List Char) : Option (List Char) :=
  match (trimStart s).takeWhile fun c => !isBlank c with
  | [] => none
  | word => some word

def after? : List Char → List Char → Option (List Char)
  | [], s => some s
  | _ :: _, [] => none
  | m :: mark, c :: s => if m = c then after? mark s else none

def afterFirst? (mark : List Char) : List Char → Option (List Char)
  | [] => after? mark []
  | c :: s =>
    match after? mark (c :: s) with
    | some rest => some rest
    | none => afterFirst? mark s

def cut? (mark : Char) : List Char → Option (List Char × List Char)
  | [] => none
  | c :: s =>
    if c = mark then some ([], s) else (cut? mark s).map fun sides => (c :: sides.1, sides.2)

theorem after?_append (mark rest : List Char) : after? mark (mark ++ rest) = some rest := by
  induction mark with
  | nil => simp [after?]
  | cons m mark ih => simp [after?, ih]

theorem eq_append_of_after? {mark s rest : List Char} (h : after? mark s = some rest) :
    s = mark ++ rest := by
  induction mark generalizing s with
  | nil => simpa [after?] using h
  | cons m mark ih =>
    cases s with
    | nil => simp [after?] at h
    | cons c s =>
      simp only [after?] at h
      split at h
      next same => simp [← same, ih h]
      next => simp at h

end BuildIdCache.Text
