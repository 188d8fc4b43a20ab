import BuildIdCache.Text.Blank
import BuildIdCache.Text.Lines
import Mathlib.Data.List.Induction
import Mathlib.Data.List.TakeWhile

set_option autoImplicit false

namespace BuildIdCache.Text

-- Decided along the characters of the list, and not for each character there is.
instance decidableChars (s : List Char) (p : Char → Prop) [DecidablePred p] :
    Decidable (∀ c ∈ s, p c) :=
  List.decidableBAll p s

theorem forall_char_lt {bound : Nat} {p : Char → Prop} (each : ∀ n < bound, p (Char.ofNat n)) :
    ∀ c : Char, c.toNat < bound → p c := by
  intro c below
  have known := each c.toNat below
  rwa [Char.ofNat_toNat] at known

theorem trimStart_append {front : List Char} (blank : ∀ c ∈ front, isBlank c = true)
    (s : List Char) :
    trimStart (front ++ s) = trimStart s :=
  List.dropWhile_append_of_pos blank

theorem trimStart_cons {c : Char} (visible : isBlank c = false) (s : List Char) :
    trimStart (c :: s) = c :: s :=
  List.dropWhile_cons_of_neg (by simp [visible])

theorem trimEnd_append {back : List Char} (blank : ∀ c ∈ back, isBlank c = true) (s : List Char) :
    trimEnd (s ++ back) = trimEnd s := by
  rw [trimEnd, List.reverse_append, List.dropWhile_append_of_pos (by simpa using blank), trimEnd]

theorem trimEnd_cons {c : Char} (visible : isBlank c = false) (s : List Char) :
    trimEnd (c :: s) = c :: trimEnd s := by
  rw [trimEnd, List.reverse_cons, List.dropWhile_append]
  split
  next blank => simp [trimEnd, visible, List.isEmpty_iff.1 blank]
  next => simp [trimEnd]

theorem trimEnd_before (c : Char) {s : List Char} (notBlank : trimEnd s ≠ []) :
    trimEnd (c :: s) = c :: trimEnd s := by
  have more : (s.reverse.dropWhile isBlank).isEmpty = false := by simpa [trimEnd] using notBlank
  rw [trimEnd, List.reverse_cons, List.dropWhile_append, more]
  simp [trimEnd]

theorem trimEnd_past {c : Char} (visible : isBlank c = false) (front s : List Char) :
    trimEnd (front ++ c :: s) = front ++ c :: trimEnd s := by
  induction front with
  | nil => exact trimEnd_cons visible s
  | cons d front ih =>
    have notBlank : trimEnd (front ++ c :: s) ≠ [] := by simp [ih]
    rw [List.cons_append, trimEnd_before d notBlank, ih, List.cons_append]

theorem trim_indented {indent : List Char} (blank : ∀ c ∈ indent, isBlank c = true) {c : Char}
    (visible : isBlank c = false) (s : List Char) : trim (indent ++ c :: s) = c :: trimEnd s := by
  rw [trim, trimStart_append blank, trimStart_cons visible, trimEnd_cons visible]

theorem trimEnd_word {word : List Char} (visible : ∀ c ∈ word, isBlank c = false) (s : List Char) :
    trimEnd (word ++ s) = word ++ trimEnd s := by
  induction word with
  | nil => rfl
  | cons c word ih =>
    rw [List.cons_append, trimEnd_cons (visible c (by simp)),
      ih fun other member => visible other (by simp [member]), List.cons_append]

theorem trimEnd_ending {word : List Char} (visible : ∀ c ∈ word, isBlank c = false)
    (notEmpty : word ≠ []) (s : List Char) : trimEnd (s ++ word) = s ++ word := by
  cases word using List.reverseRecOn with
  | nil => exact absurd rfl notEmpty
  | append_singleton front last =>
    have lastVisible : isBlank last = false := visible last (by simp)
    simp [trimEnd, lastVisible]

def Trimmed (s : List Char) : Prop := trim s = s

instance (s : List Char) : Decidable (Trimmed s) := inferInstanceAs (Decidable (trim s = s))

theorem Trimmed.trimStart {s : List Char} (trimmed : Trimmed s) : trimStart s = s := by
  have front : (Text.trimStart s).length ≤ s.length := (List.dropWhile_sublist isBlank).length_le
  have back : (trim s).length ≤ (Text.trimStart s).length := by
    simpa [trim, trimEnd] using
      (@List.dropWhile_sublist _ (Text.trimStart s).reverse isBlank).length_le
  rw [trimmed] at back
  exact (List.dropWhile_sublist isBlank).eq_of_length (Nat.le_antisymm front back)

theorem Trimmed.trimEnd {s : List Char} (trimmed : Trimmed s) : trimEnd s = s := by
  have both : trim s = s := trimmed
  rwa [trim, trimmed.trimStart] at both

theorem trim_trimEnd_space {s : List Char} (trimmed : Trimmed s) :
    trim (trimEnd (' ' :: s)) = s := by
  by_cases empty : s = []
  · subst empty
    decide
  · have notBlank : trimEnd s ≠ [] := by rwa [trimmed.trimEnd]
    rw [trimEnd_before ' ' notBlank, trimmed.trimEnd]
    exact trimmed

theorem trim_append {back : List Char} (blank : ∀ c ∈ back, isBlank c = true) (s : List Char) :
    trim (s ++ back) = trim s := by
  rw [trim, trim, trimStart, List.dropWhile_append]
  split
  next empty =>
    have none : back.dropWhile isBlank = [] := List.dropWhile_eq_nil_iff.2 blank
    rw [none, trimStart, List.isEmpty_iff.1 empty]
  next => exact trimEnd_append blank _

theorem mem_of_mem_trim {s : List Char} {c : Char} (member : c ∈ trim s) : c ∈ s := by
  have behind : c ∈ trimStart s := by
    simpa using List.dropWhile_subset _ (List.mem_reverse.1 member)
  exact List.dropWhile_subset _ behind

theorem trim_around {front word back : List Char} (blank : ∀ c ∈ front, isBlank c = true)
    (visible : ∀ c ∈ word, isBlank c = false) (blank' : ∀ c ∈ back, isBlank c = true) :
    trim (front ++ (word ++ back)) = word := by
  have whole : trimEnd word = word := by simpa [trimEnd] using trimEnd_word visible []
  rw [← List.append_assoc, trim_append blank', trim, trimStart_append blank]
  cases word with
  | nil => rfl
  | cons c word => rw [trimStart_cons (visible c (by simp)), whole]

theorem trim_closeLine (s : List Char) : trim (closeLine s.reverse) = trim s := by
  cases s using List.reverseRecOn with
  | nil => rfl
  | append_singleton s last =>
    by_cases ends : last = '\r'
    · subst ends
      have blank : ∀ c ∈ ['\r'], isBlank c = true := by decide
      simpa [closeLine] using (trim_append blank s).symm
    · simp [closeLine, ends]

def isWordChar (c : Char) : Bool := !isBlank c && c ≠ ':'

theorem after?_word {mark key : List Char} (markWord : ∀ c ∈ mark, isWordChar c = true)
    (keyWord : ∀ c ∈ key, isWordChar c = true) {stop last : Char}
    (markStops : isWordChar stop = false)
    (keyStops : isWordChar last = false) (rest : List Char) :
    after? (mark ++ [stop]) (key ++ last :: rest) =
      if mark = key ∧ stop = last then some rest else none := by
  induction mark generalizing key with
  | nil =>
    cases key with
    | nil => simp [after?]
    | cons k key =>
      have unlike : stop ≠ k := fun same => by simp [same, keyWord k (by simp)] at markStops
      simp [after?, unlike]
  | cons m mark ih =>
    cases key with
    | nil =>
      have unlike : m ≠ last := fun same => by simp [← same, markWord m (by simp)] at keyStops
      simp [after?, unlike]
    | cons k key =>
      have further := @ih key (fun c member => markWord c (by simp [member]))
        fun c member => keyWord c (by simp [member])
      by_cases same : m = k <;> simp [after?, same, further]

end BuildIdCache.Text
