import Mathlib
import BuildIdCache.BuildId
import BuildIdCache.Proofs.Text.Blank

set_option autoImplicit false

namespace BuildIdCache.BuildId

open Text

def hexDigits : List Char := "0123456789abcdef".toList

theorem hexDigit_mem {n : Nat} (small : n < 16) : hexDigit n ∈ hexDigits := by
  have each : ∀ n : Fin 16, hexDigit n ∈ hexDigits := by decide
  exact each ⟨n, small⟩

theorem hexDigit_inj {m n : Nat} (small : m < 16) (small' : n < 16) :
    hexDigit m = hexDigit n ↔ m = n := by
  have each : ∀ m n : Fin 16, hexDigit m = hexDigit n → m = n := by decide
  exact ⟨fun same => Fin.mk.inj (each ⟨m, small⟩ ⟨n, small'⟩ same), congrArg hexDigit⟩

@[simp] theorem hexChars_nil : hexChars [] = [] := rfl

@[simp] theorem hexChars_cons (b : UInt8) (bytes : List UInt8) :
    hexChars (b :: bytes) =
      hexDigit (b.toNat / 16) :: hexDigit (b.toNat % 16) :: hexChars bytes := by
  simp [hexChars]

theorem hexChars_append (bytes more : List UInt8) :
    hexChars (bytes ++ more) = hexChars bytes ++ hexChars more :=
  List.flatMap_append

theorem hexChars_replicate (n : Nat) :
    hexChars (List.replicate n 0) = List.replicate (2 * n) '0' := by
  induction n with
  | zero => rfl
  | succ n ih => simp [List.replicate_succ, Nat.mul_succ, ih, hexDigit]

@[simp] theorem length_hexChars (bytes : List UInt8) :
    (hexChars bytes).length = 2 * bytes.length := by
  induction bytes with
  | nil => rfl
  | cons b bytes ih => simp [ih, Nat.mul_succ]

theorem take_hexChars (bytes : List UInt8) (n : Nat) :
    (hexChars bytes).take (2 * n) = hexChars (bytes.take n) := by
  induction bytes generalizing n with
  | nil => simp
  | cons b bytes ih =>
    cases n with
    | zero => rfl
    | succ n => simp [Nat.mul_succ, ih]

theorem mem_hexChars {bytes : List UInt8} {c : Char} (member : c ∈ hexChars bytes) :
    c ∈ hexDigits := by
  obtain ⟨b, -, isDigit⟩ := List.mem_flatMap.1 member
  have small := b.toNat_lt
  simp only [List.mem_cons, List.not_mem_nil, or_false] at isDigit
  rcases isDigit with rfl | rfl
  · exact hexDigit_mem (by omega)
  · exact hexDigit_mem (by omega)

theorem hexChars_injective : Function.Injective hexChars := by
  intro bytes
  induction bytes with
  | nil =>
    intro other same
    cases other with
    | nil => rfl
    | cons b other => simp at same
  | cons b bytes ih =>
    intro other same
    cases other with
    | nil => simp at same
    | cons c other =>
      have small := b.toNat_lt
      have small' := c.toNat_lt
      simp only [hexChars_cons, List.cons.injEq] at same
      obtain ⟨high, low, rest⟩ := same
      rw [hexDigit_inj (by omega) (by omega)] at high low
      have value : b.toNat = c.toNat := by omega
      rw [ih rest, UInt8.toNat_inj.1 value]

def byteCount : Nat := 20

/-- A descriptor as far as its build-id tells it: cut at twenty bytes, or filled up with zeros. -/
def told (descriptor : List UInt8) : List UInt8 := (descriptor.take byteCount).rightpad byteCount 0

def normalForm (descriptor : List UInt8) : String :=
  String.ofList ('0' :: 'x' :: ((hexChars descriptor).take digitCount).rightpad digitCount '0')

theorem normalForm_ne_empty (descriptor : List UInt8) : normalForm descriptor ≠ "" := by
  intro same
  have chars := congrArg String.toList same
  simp [normalForm] at chars

theorem hexChars_told (descriptor : List UInt8) :
    hexChars (told descriptor) =
      ((hexChars descriptor).take digitCount).rightpad digitCount '0' := by
  have digits : digitCount = 2 * byteCount := rfl
  rw [told, List.rightpad, List.rightpad, hexChars_append, hexChars_replicate, digits,
    take_hexChars, length_hexChars, Nat.mul_sub]

theorem normalForm_inj (descriptor other : List UInt8) :
    normalForm descriptor = normalForm other ↔ told descriptor = told other := by
  rw [normalForm, normalForm, ← hexChars_told, ← hexChars_told, String.ofList_inj]
  simp [hexChars_injective.eq_iff]

theorem eq_of_toLower (c : Char) : c = c.toLower ∨ c = Char.ofNat (c.toLower.toNat - 32) := by
  by_cases upper : c.val ≥ 'A'.val ∧ c.val ≤ 'Z'.val
  · right
    have above : 65 ≤ c.toNat := upper.1
    have below : c.toNat ≤ 90 := upper.2
    have value : c.toLower.toNat = c.toNat + 32 := by
      rw [Char.toLower, dif_pos upper]
      simp only [Char.toNat, UInt32.toNat_add]
      have small : c.val.toNat ≤ 90 := below
      have offset : ('a'.val - 'A'.val).toNat = 32 := rfl
      omega
    rw [value, Nat.add_sub_cancel, Char.ofNat_toNat]
  · left
    rw [Char.toLower, dif_neg upper]

theorem digit_of_toLower {c : Char} (isDigit : c.toLower ∈ hexDigits) :
    isBlank c = false ∧ c ≠ 'x' ∧ c ≠ 'X' := by
  have lower : ∀ d ∈ hexDigits, isBlank d = false ∧ d ≠ 'x' ∧ d ≠ 'X' := by decide
  have upper : ∀ d ∈ hexDigits, isBlank (Char.ofNat (d.toNat - 32)) = false ∧
      Char.ofNat (d.toNat - 32) ≠ 'x' ∧ Char.ofNat (d.toNat - 32) ≠ 'X' := by decide
  rcases eq_of_toLower c with same | same
  · exact same ▸ lower _ isDigit
  · exact same ▸ upper _ isDigit

def SpellsDigits (digits text : List Char) : Prop :=
  ∃ mark letters, mark ∈ [[], ['0', 'x'], ['0', 'X']] ∧ letters.map Char.toLower = digits ∧
    text = mark ++ letters

section

variable {digits text : List Char} (hex : ∀ c ∈ digits, c ∈ hexDigits)
  (spells : SpellsDigits digits text)

include hex spells

theorem SpellsDigits.visible : ∀ c ∈ text, isBlank c = false := by
  obtain ⟨mark, letters, isMark, lower, rfl⟩ := spells
  intro c member
  rcases List.mem_append.1 member with inMark | inLetters
  · have marks : ∀ mark ∈ [[], ['0', 'x'], ['0', 'X']], ∀ c ∈ mark, isBlank c = false := by decide
    exact marks mark isMark c inMark
  · have isDigit : c.toLower ∈ digits := lower ▸ List.mem_map_of_mem inLetters
    exact (digit_of_toLower (hex _ isDigit)).1

theorem SpellsDigits.dropHexMark : (dropHexMark text).map Char.toLower = digits := by
  obtain ⟨mark, letters, isMark, lower, rfl⟩ := spells
  simp only [List.mem_cons, List.not_mem_nil, or_false] at isMark
  rcases isMark with rfl | rfl | rfl
  · -- Without a mark, the second digit is not taken for that of one.
    have kept : BuildId.dropHexMark letters = letters := by
      unfold BuildId.dropHexMark
      split
      next rest =>
        have isDigit : 'x'.toLower ∈ digits := lower ▸ by simp
        exact absurd rfl (digit_of_toLower (hex _ isDigit)).2.1
      next rest =>
        have isDigit : 'X'.toLower ∈ digits := lower ▸ by simp
        exact absurd rfl (digit_of_toLower (hex _ isDigit)).2.2
      next => rfl
    rw [List.nil_append, kept, lower]
  · exact lower
  · exact lower

end

def Spells (descriptor : List UInt8) (text : List Char) : Prop :=
  SpellsDigits (hexChars descriptor) text

section

variable {descriptor : List UInt8} {text : List Char} (spells : Spells descriptor text)

include spells

theorem Spells.visible : ∀ c ∈ text, isBlank c = false :=
  SpellsDigits.visible (fun _ => mem_hexChars) spells

theorem Spells.ne_nil (notEmpty : descriptor ≠ []) : text ≠ [] := by
  rintro rfl
  have digits := SpellsDigits.dropHexMark (fun _ => mem_hexChars) spells
  obtain ⟨b, rest, rfl⟩ := List.exists_cons_of_ne_nil notEmpty
  simp [BuildId.dropHexMark] at digits

end

theorem byteLength_of_single {s : List Char} (single : ∀ c ∈ s, c.utf8Size = 1) :
    byteLength s = s.length := by
  induction s with
  | nil => rfl
  | cons c s ih =>
    have further := ih fun d member => single d (by simp [member])
    rw [byteLength, List.foldr_cons, single c (by simp), ← byteLength, further, List.length_cons,
      Nat.add_comm]

theorem fit_of_single {digits : List Char} (single : ∀ c ∈ digits, c.utf8Size = 1) :
    fit digits = (digits.take digitCount).rightpad digitCount '0' := by
  rw [fit, byteLength_of_single fun c member => single c (List.mem_of_mem_take member),
    List.rightpad]

theorem normalizeChars_spellsDigits {digits : List Char} (hex : ∀ c ∈ digits, c ∈ hexDigits)
    (notEmpty : digits ≠ []) {front text back : List Char} (spells : SpellsDigits digits text)
    (blank : ∀ c ∈ front, isBlank c = true) (blank' : ∀ c ∈ back, isBlank c = true) :
    normalizeChars (front ++ (text ++ back)) =
      '0' :: 'x' :: (digits.take digitCount).rightpad digitCount '0' := by
  have single : ∀ c ∈ digits, c.utf8Size = 1 := by
    have sizes : ∀ d ∈ hexDigits, d.utf8Size = 1 := by decide
    exact fun c member => sizes c (hex c member)
  obtain ⟨c, rest, more⟩ := List.exists_cons_of_ne_nil notEmpty
  rw [normalizeChars, trim_around blank (spells.visible hex) blank', spells.dropHexMark hex,
    ← fit_of_single single, more]

theorem normalizeChars_spelled {descriptor : List UInt8} (notEmpty : descriptor ≠ [])
    {front text back : List Char} (spells : Spells descriptor text)
    (blank : ∀ c ∈ front, isBlank c = true) (blank' : ∀ c ∈ back, isBlank c = true) :
    String.ofList (normalizeChars (front ++ (text ++ back))) = normalForm descriptor := by
  have digits : hexChars descriptor ≠ [] := fun empty => by
    have length := length_hexChars descriptor
    rw [empty, List.length_nil] at length
    exact notEmpty (List.eq_nil_of_length_eq_zero (by omega))
  rw [normalizeChars_spellsDigits (fun _ => mem_hexChars) digits spells blank blank', normalForm]

theorem spells_hexChars (descriptor : List UInt8) : Spells descriptor (hexChars descriptor) := by
  refine ⟨[], hexChars descriptor, by simp, ?_, rfl⟩
  have lower : ∀ d ∈ hexDigits, d.toLower = d := by decide
  exact (List.map_congr_left fun c member => lower c (mem_hexChars member)).trans (List.map_id _)

theorem ofDescriptor_eq {descriptor : List UInt8} (notEmpty : descriptor ≠ []) :
    ofDescriptor descriptor = normalForm descriptor := by
  have none : ∀ c ∈ ([] : List Char), isBlank c = true := by simp
  have plain := normalizeChars_spelled notEmpty (spells_hexChars descriptor) none none
  rwa [List.nil_append, List.append_nil] at plain

end BuildIdCache.BuildId
