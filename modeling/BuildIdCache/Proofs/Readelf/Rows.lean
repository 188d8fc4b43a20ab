import BuildIdCache.Proofs.SortedMap
import BuildIdCache.Proofs.Text.LaidOut
import BuildIdCache.Proofs.Text.Word
import BuildIdCache.Readelf.Output

set_option autoImplicit false

namespace BuildIdCache.Readelf

open Text

theorem digitValue?_eq (c : Char) :
    digitValue? c = if c.isDigit = true then some (c.toNat - '0'.toNat) else none := by
  have digit : ('0' ≤ c ∧ c ≤ '9') ↔ c.isDigit = true := by
    simp only [Char.isDigit, Bool.and_eq_true, decide_eq_true_eq]
    rfl
  simp only [digitValue?, digit]

theorem foldlM_digits {digits : List Char} (each : ∀ c ∈ digits, c.isDigit = true) (n : Nat) :
    digits.foldlM (fun n c => (digitValue? c).map (n * 10 + ·)) n =
      some (Nat.ofDigitChars 10 digits n) := by
  induction digits generalizing n with
  | nil => rfl
  | cons c digits ih =>
    have further := ih fun d member => each d (by simp [member])
    rw [List.foldlM_cons, digitValue?_eq, if_pos (each c (by simp)), Nat.ofDigitChars_cons,
      Nat.mul_comm]
    exact further _

theorem isDigit_of_foldlM {digits : List Char} {n value : Nat}
    (read : digits.foldlM (fun n c => (digitValue? c).map (n * 10 + ·)) n = some value) :
    ∀ c ∈ digits, c.isDigit = true := by
  induction digits generalizing n with
  | nil => simp
  | cons c digits ih =>
    rw [List.foldlM_cons, Option.bind_eq_bind, Option.bind_eq_some_iff] at read
    obtain ⟨m, first, further⟩ := read
    have digit : c.isDigit = true := by
      by_contra other
      simp [digitValue?_eq, other] at first
    exact List.forall_mem_cons.2 ⟨digit, ih further⟩

def IsInteger (text : List Char) : Prop :=
  ∃ sign digits, sign ∈ [[], ['+'], ['-']] ∧ digits ≠ [] ∧ (∀ c ∈ digits, c.isDigit = true) ∧
    text = sign ++ digits

theorem isInteger_of_isRowIndex {text : List Char} (isIndex : isRowIndex text = true) :
    IsInteger text := by
  have digits : ∀ digits : List Char,
      (!digits.isEmpty && (decimal? digits).any (· < rowLimit)) = true →
      digits ≠ [] ∧ ∀ c ∈ digits, c.isDigit = true := by
    intro digits number
    obtain ⟨notEmpty, value⟩ := Bool.and_eq_true_iff.1 number
    refine ⟨by simpa using notEmpty, ?_⟩
    cases read : decimal? digits with
    | none => simp [read] at value
    | some n => exact isDigit_of_foldlM read
  unfold isRowIndex at isIndex
  split at isIndex
  next rest =>
    obtain ⟨notEmpty, each⟩ := digits rest isIndex
    exact ⟨['+'], rest, by simp, notEmpty, each, rfl⟩
  next =>
    obtain ⟨notEmpty, each⟩ := digits text isIndex
    exact ⟨[], text, by simp, notEmpty, each, rfl⟩

theorem isRowIndex_toDigits {n : Nat} (small : n < rowLimit) :
    isRowIndex (Nat.toDigits 10 n) = true := by
  have each : ∀ c ∈ Nat.toDigits 10 n, c.isDigit = true :=
    fun c => Nat.isDigit_of_mem_toDigits (by decide) (by decide)
  have value : decimal? (Nat.toDigits 10 n) = some n := by
    rw [decimal?, foldlM_digits each, Nat.ofDigitChars_toDigits (by decide) (by decide)]
  unfold isRowIndex
  split
  next rest plus => exact absurd (each '+' (by simp [plus])) (by decide)
  next => simp [value, small, Nat.toDigits_ne_nil]

theorem digit_plain {c : Char} (digit : c.isDigit = true) : isBlank c = false ∧ c ≠ ']' := by
  have each : ∀ c : Char, c.toNat < 58 → c.isDigit = true → isBlank c = false ∧ c ≠ ']' :=
    forall_char_lt (by decide)
  refine each c ?_ digit
  simp only [Char.isDigit, Bool.and_eq_true, decide_eq_true_eq] at digit
  exact Nat.lt_succ_of_le digit.2

structure Indexed (front : List Char) (index : Nat) : Prop where
  small : index < rowLimit
  written : ∃ indent pad pad', (∀ c ∈ indent ++ pad ++ pad', isBlank c = true) ∧
    front = indent ++ '[' :: (pad ++ (Nat.toDigits 10 index ++ (pad' ++ [']'])))

inductive Row : String → List Char → Prop
  | named {front rest : List Char} {index : Nat} {blank : Char} {name : String}
      (indexed : Indexed front index) (apart : isBlank blank = true) (known : name ≠ "")
      (visible : ∀ c ∈ name.toList, isBlank c = false) (ends : ∀ c ∈ rest.head?, isBlank c = true) :
      Row name (front ++ blank :: (name.toList ++ rest))
  | unnamed {front gap rest : List Char} {index : Nat} {blank : Char}
      (indexed : Indexed front index) (apart : isBlank blank = true) (further : gap ≠ [])
      (blanks : ∀ c ∈ gap, isBlank c = true) :
      Row "" (front ++ blank :: (gap ++ rest))

def Other (line : List Char) : Prop :=
  ∀ index rest, trim line = '[' :: (index ++ ']' :: rest) → ¬IsInteger (trim index)

theorem rowName?_indexed {front : List Char} {index : Nat} (indexed : Indexed front index)
    (rest : List Char) : rowName? (front ++ rest) = nameAfterBracket? rest := by
  obtain ⟨indent, pad, pad', blanks, rfl⟩ := indexed.written
  simp only [List.mem_append, or_imp, forall_and] at blanks
  obtain ⟨⟨before, inside⟩, behind⟩ := blanks
  have each : ∀ c ∈ Nat.toDigits 10 index, c.isDigit = true :=
    fun c => Nat.isDigit_of_mem_toDigits (by decide) (by decide)
  have visible : ∀ c ∈ Nat.toDigits 10 index, isBlank c = false :=
    fun c member => (digit_plain (each c member)).1
  have clear : ']' ∉ pad ++ (Nat.toDigits 10 index ++ pad') := by
    simp only [List.mem_append, not_or]
    refine ⟨fun member => ?_, fun member => ?_, fun member => ?_⟩
    · exact absurd (inside ']' member) (by decide)
    · exact (digit_plain (each ']' member)).2 rfl
    · exact absurd (behind ']' member) (by decide)
  have opened :
    trimStart (indent ++ '[' :: (pad ++ (Nat.toDigits 10 index ++ (pad' ++ [']']))) ++ rest) =
      ['['] ++ ((pad ++ (Nat.toDigits 10 index ++ pad')) ++ ']' :: rest) := by
    rw [List.append_assoc, trimStart_append before, List.cons_append, trimStart_cons (by decide)]
    simp
  have read : trim (pad ++ (Nat.toDigits 10 index ++ pad')) = Nat.toDigits 10 index :=
    trim_around inside visible behind
  simp only [rowName?, opened, after?_append, cut?_append _ _ _ clear, Option.bind_eq_bind,
    Option.bind_some, read, isRowIndex_toDigits indexed.small, if_true]

theorem rowName?_row {name : String} {line : List Char} (row : Row name line) :
    rowName? line = if name = "" then none else some name.toList := by
  cases row with
  | @named front rest index blank _ indexed apart known visible ends =>
    have notEmpty : name.toList ≠ [] := by simpa using known
    have word : firstWord? (name.toList ++ rest) = some name.toList :=
      (firstWord?_eq_some _ _).2 ⟨[], rest, rfl, by simp, notEmpty, visible, ends⟩
    rw [rowName?_indexed indexed, if_neg known]
    generalize name.toList = text at notEmpty visible word
    obtain ⟨c, more, rfl⟩ := List.exists_cons_of_ne_nil notEmpty
    rw [List.cons_append, nameAfterBracket?, apart, visible c (by simp)]
    exact word
  | @unnamed front gap rest index blank indexed apart further blanks =>
    rw [rowName?_indexed indexed, if_pos rfl]
    obtain ⟨c, gap, rfl⟩ := List.exists_cons_of_ne_nil further
    simp [nameAfterBracket?, blanks c]

theorem rowName?_other {line : List Char} (other : Other line) : rowName? line = none := by
  cases read : rowName? line with
  | none => rfl
  | some name =>
    simp only [rowName?, Option.bind_eq_bind, Option.bind_eq_some_iff, after?_eq_some] at read
    obtain ⟨inner, opened, ⟨index, rest⟩, sides, named⟩ := read
    obtain ⟨-, rfl⟩ := (cut?_eq_some _ _ _ _).1 sides
    split at named
    next isIndex =>
      have whole : trim line = '[' :: (index ++ ']' :: trimEnd rest) := by
        rw [trim, opened]
        exact trimEnd_past (by decide) ('[' :: index) rest
      exact absurd (isInteger_of_isRowIndex isIndex) (other index _ whole)
    next => cases named

theorem nameAfterBracket?_blanks {back : List Char} (blank : ∀ c ∈ back, isBlank c = true)
    (rest : List Char) : nameAfterBracket? (rest ++ back) = nameAfterBracket? rest := by
  match rest, back with
  | [], [] => rfl
  | [], [b] => rfl
  | [], b :: c :: back => simp [nameAfterBracket?, blank c]
  | [b], [] => rfl
  | [b], c :: back => simp [nameAfterBracket?, blank c]
  | b :: c :: rest, back =>
    have word := firstWord?_blanks blank (c :: rest)
    rw [List.cons_append] at word
    simp only [List.cons_append, nameAfterBracket?, word]

theorem rowName?_blanks {back : List Char} (blank : ∀ c ∈ back, isBlank c = true)
    (line : List Char) : rowName? (line ++ back) = rowName? line := by
  unfold rowName?
  rw [trimStart_blanks blank]
  split
  next empty => rw [empty]
  next notEmpty =>
    obtain ⟨c, inner, opened⟩ := List.exists_cons_of_ne_nil notEmpty
    rw [opened]
    by_cases opens : '[' = c
    · subst opens
      have taken : ∀ s : List Char, after? ['['] ('[' :: s) = some s :=
        fun s => after?_append ['['] s
      simp only [List.cons_append, taken, Option.bind_eq_bind, Option.bind_some]
      cases sides : cut? ']' inner with
      | none =>
        have clear := (cut?_eq_none _ _).1 sides
        have clear' : ']' ∉ back := fun member => absurd (blank _ member) (by decide)
        rw [(cut?_eq_none _ _).2 (by simp [clear, clear'])]
      | some parts =>
        obtain ⟨index, rest⟩ := parts
        obtain ⟨clear, rfl⟩ := (cut?_eq_some _ _ _ _).1 sides
        rw [List.append_assoc, List.cons_append, cut?_append _ _ _ clear]
        simp only [Option.bind_some, nameAfterBracket?_blanks blank]
    · simp [after?, opens]

theorem rowName?_closeLine (line : List Char) :
    rowName? (closeLine line.reverse) = rowName? line := by
  cases line using List.reverseRecOn with
  | nil => rfl
  | append_singleton line last =>
    by_cases ends : last = '\r'
    · subst ends
      have blank : ∀ c ∈ ['\r'], isBlank c = true := by decide
      simpa [closeLine] using (rowName?_blanks blank line).symm
    · simp [closeLine, ends]

/-- The rows of a table of sections in turn, with any other lines among them. -/
def Table (names : List String) (lines : List (List Char)) : Prop :=
  Interspersed Row Other names lines

theorem mem_sectionNames {names : List String} {laid : List (List Char)} {output : String}
    (table : Table names laid) (laidOut : LaidOut laid output.toList) (name : String) :
    name ∈ sectionNames output ↔ name ∈ names ∧ name ≠ "" := by
  have read : (lines output.toList).filterMap rowName? =
      names.filterMap fun name => if name = "" then none else some name.toList :=
    calc (lines output.toList).filterMap rowName? = laid.filterMap rowName? :=
          laidOut.filterMap_lines rfl fun line _ => rowName?_closeLine line
      _ = _ := table.filterMap (fun _ _ _ => rowName?_row) fun _ => rowName?_other
  rw [sectionNames, SortedMap.mem_keys_ofList, read]
  simp only [List.map_filterMap, List.mem_filterMap]
  constructor
  · rintro ⟨other, member, told⟩
    by_cases empty : other = ""
    · simp [empty] at told
    · obtain rfl : other = name := by simpa [empty] using told
      exact ⟨member, empty⟩
  · rintro ⟨member, known⟩
    exact ⟨name, member, by simp [known]⟩

end BuildIdCache.Readelf
