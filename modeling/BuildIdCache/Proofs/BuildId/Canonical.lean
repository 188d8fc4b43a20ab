import BuildIdCache.Proofs.BuildId

set_option autoImplicit false

namespace BuildIdCache.BuildId

open Text

@[simp] theorem byteLength_nil : byteLength [] = 0 := rfl

@[simp] theorem byteLength_cons (c : Char) (s : List Char) :
    byteLength (c :: s) = c.utf8Size + byteLength s := rfl

@[simp] theorem byteLength_append (s t : List Char) :
    byteLength (s ++ t) = byteLength s + byteLength t := by
  induction s with
  | nil => simp
  | cons c s ih => simp [ih, Nat.add_assoc]

@[simp] theorem byteLength_zeros (n : Nat) : byteLength (List.replicate n '0') = n := by
  induction n with
  | zero => rfl
  | succ n ih => simp [List.replicate_succ, ih, Nat.add_comm, show '0'.utf8Size = 1 from rfl]

theorem length_le_byteLength (s : List Char) : s.length ≤ byteLength s := by
  induction s with
  | nil => simp
  | cons c s ih =>
    have positive := c.utf8Size_pos
    simp only [List.length_cons, byteLength_cons]
    omega

theorem length_fit_le (digits : List Char) : (fit digits).length ≤ digitCount := by
  have cut := List.length_take_le digitCount digits
  have bytes := length_le_byteLength (digits.take digitCount)
  simp only [fit, List.length_append, List.length_replicate]
  omega

theorem le_byteLength_fit (digits : List Char) : digitCount ≤ byteLength (fit digits) := by
  simp only [fit, byteLength_append, byteLength_zeros]
  omega

theorem fit_of_full {digits : List Char} (short : digits.length ≤ digitCount)
    (full : digitCount ≤ byteLength digits) : fit digits = digits := by
  rw [fit, List.take_of_length_le short, Nat.sub_eq_zero_of_le full, List.replicate_zero,
    List.append_nil]

theorem fit_fit (digits : List Char) : fit (fit digits) = fit digits :=
  fit_of_full (length_fit_le digits) (le_byteLength_fit digits)

theorem fit_ne_nil (digits : List Char) : fit digits ≠ [] := by
  intro empty
  have bytes := le_byteLength_fit digits
  rw [empty] at bytes
  exact absurd bytes (by decide)

theorem forall_fit {p : Char → Prop} {digits : List Char} (each : ∀ c ∈ digits, p c)
    (zero : p '0') :
    ∀ c ∈ fit digits, p c := by
  intro c member
  rcases List.mem_append.1 member with cut | filled
  · exact each c (List.mem_of_mem_take cut)
  · rwa [(List.mem_replicate.1 filled).2]

theorem toLower_eq_zero (c : Char) : c.toLower = '0' ↔ c = '0' := by
  constructor
  · intro lower
    rcases eq_of_toLower c with same | same
    · exact same.trans lower
    · rw [lower] at same
      subst same
      exact absurd lower (by decide)
  · rintro rfl
    rfl

theorem toLower_eq_x (c : Char) : c.toLower = 'x' ↔ c = 'x' ∨ c = 'X' := by
  constructor
  · intro lower
    rcases eq_of_toLower c with same | same
    · exact .inl (same.trans lower)
    · rw [lower] at same
      exact .inr same
  · rintro (rfl | rfl) <;> rfl

def bare (raw : String) : List Char :=
  let lower := (trim raw.toList).map Char.toLower
  if ['0', 'x'] <+: lower then lower.drop 2 else lower

theorem bare_eq (raw : String) : bare raw = (dropHexMark (trim raw.toList)).map Char.toLower := by
  rw [bare]
  generalize trim raw.toList = text
  fun_cases dropHexMark text with
  | case1 rest => rfl
  | case2 rest => rfl
  | case3 _ unmarked unmarked' =>
    refine if_neg ?_
    rintro ⟨rest, marked⟩
    match text with
    | [] => cases marked
    | [c] => simp at marked
    | c :: d :: text =>
      simp only [List.map_cons, List.cons_append, List.cons.injEq] at marked
      obtain rfl := (toLower_eq_zero c).1 marked.1.symm
      rcases (toLower_eq_x d).1 marked.2.1.symm with rfl | rfl
      · exact unmarked text rfl
      · exact unmarked' text rfl

theorem normalizeChars_eq (raw : String) :
    normalizeChars raw.toList =
      if bare raw = [] then [] else '0' :: 'x' :: fit (bare raw) := by
  rw [normalizeChars, ← bare_eq]
  cases bare raw <;> rfl

theorem toList_normalize (raw : String) :
    (normalize raw).toList = if bare raw = [] then [] else '0' :: 'x' :: fit (bare raw) := by
  rw [normalize, String.toList_ofList, normalizeChars_eq]

theorem normalize_eq_empty (raw : String) : normalize raw = "" ↔ bare raw = [] := by
  rw [← String.toList_inj, toList_normalize]
  by_cases empty : bare raw = [] <;> simp [empty]

theorem toList_normalize_of_ne {raw : String} (known : normalize raw ≠ "") :
    (normalize raw).toList = '0' :: 'x' :: fit (bare raw) := by
  rw [toList_normalize, if_neg fun empty => known ((normalize_eq_empty raw).2 empty)]

theorem bare_eq_nil (raw : String) :
    bare raw = [] ↔ trim raw.toList ∈ [[], ['0', 'x'], ['0', 'X']] := by
  rw [bare_eq, List.map_eq_nil_iff]
  generalize trim raw.toList = text
  constructor
  · intro empty
    fun_cases dropHexMark text with
    | case1 rest => simp [show rest = [] from empty]
    | case2 rest => simp [show rest = [] from empty]
    | case3 _ unmarked unmarked' =>
      rw [dropHexMark.eq_3 _ unmarked unmarked'] at empty
      simp [empty]
  · intro member
    simp only [List.mem_cons, List.not_mem_nil, or_false] at member
    rcases member with rfl | rfl | rfl <;> rfl

def Unbroken (raw : String) : Prop := ∀ c ∈ trim raw.toList, isBlank c = false

instance (raw : String) : Decidable (Unbroken raw) := decidableChars _ _

theorem toLower_cases (c : Char) :
    c.toLower = c ∨ ∃ n : Fin 26, c.toLower = Char.ofNat (97 + n) := by
  by_cases upper : c.isUpper = true
  · obtain ⟨above, below⟩ : 65 ≤ c.val ∧ c.val ≤ 90 := by simpa [Char.isUpper] using upper
    have low : 65 ≤ c.toNat := above
    have high : c.toNat ≤ 90 := below
    have letter : c.toNat + 32 = 97 + (c.toNat - 65) := by omega
    exact .inr ⟨⟨c.toNat - 65, by omega⟩, by rw [Char.toLower_eq_of_isUpper upper, letter]⟩
  · exact .inl (Char.toLower_eq_of_not_isUpper upper)

theorem visible_toLower {c : Char} (visible : isBlank c = false) : isBlank c.toLower = false := by
  rcases toLower_cases c with same | ⟨n, letter⟩
  · rwa [same]
  · have letters : ∀ n : Fin 26, isBlank (Char.ofNat (97 + n)) = false := by decide
    exact letter ▸ letters n

theorem exists_of_mem_bare {raw : String} {c : Char} (member : c ∈ bare raw) :
    ∃ d ∈ trim raw.toList, d.toLower = c := by
  refine List.mem_map.1 ?_
  rw [bare] at member
  split at member
  · exact List.mem_of_mem_drop member
  · exact member

theorem Unbroken.bare {raw : String} (unbroken : Unbroken raw) :
    ∀ c ∈ bare raw, isBlank c = false := by
  intro c member
  obtain ⟨d, inside, rfl⟩ := exists_of_mem_bare member
  exact visible_toLower (unbroken d inside)

theorem toLower_of_mem_bare {raw : String} {c : Char} (member : c ∈ bare raw) : c.toLower = c := by
  obtain ⟨d, -, rfl⟩ := exists_of_mem_bare member
  exact d.toLower_toLower_eq_toLower

theorem normalizeChars_marked {digits : List Char} (notEmpty : digits ≠ [])
    (visible : ∀ c ∈ digits, isBlank c = false) (lower : ∀ c ∈ digits, c.toLower = c) :
    normalizeChars ('0' :: 'x' :: digits) = '0' :: 'x' :: fit digits := by
  have visible' : ∀ c ∈ '0' :: 'x' :: digits, isBlank c = false := by
    simpa using ⟨by decide, by decide, visible⟩
  have none : ∀ c ∈ ([] : List Char), isBlank c = true := by simp
  have whole := trim_around none visible' none
  rw [List.nil_append, List.append_nil] at whole
  have same : digits.map Char.toLower = digits :=
    (List.map_congr_left lower).trans (List.map_id _)
  obtain ⟨c, rest, more⟩ := List.exists_cons_of_ne_nil notEmpty
  rw [normalizeChars, whole, dropHexMark, same, more]

theorem normalize_normalize {raw : String} (unbroken : Unbroken raw) :
    normalize (normalize raw) = normalize raw := by
  rw [← String.toList_inj, toList_normalize raw, normalize, String.toList_ofList,
    toList_normalize raw]
  by_cases empty : bare raw = []
  · rw [if_pos empty]
    rfl
  · rw [if_neg empty, normalizeChars_marked (fit_ne_nil _) (forall_fit unbroken.bare (by decide))
      (forall_fit (fun _ => toLower_of_mem_bare) rfl), fit_fit]

def shown (digits : List Char) : List Char := (digits.rightpad digitCount '0').take digitCount

theorem shown_eq (digits : List Char) :
    shown digits = (digits.take digitCount).rightpad digitCount '0' := by
  simp only [shown, List.rightpad, List.take_append, List.take_replicate, List.length_take]
  congr 2
  omega

@[simp] theorem length_shown (digits : List Char) : (shown digits).length = digitCount := by
  rw [shown, List.length_take, List.length_rightpad]
  omega

def Ascii (raw : String) : Prop := ∀ c ∈ raw.toList, c.toNat < 0x80

instance (raw : String) : Decidable (Ascii raw) := decidableChars _ _

theorem utf8Size_toLower {c : Char} (ascii : c.toNat < 0x80) : c.toLower.utf8Size = 1 := by
  rcases toLower_cases c with same | ⟨n, letter⟩
  · rw [same, Char.utf8Size_eq_one_iff]
    exact Nat.le_of_lt_succ ascii
  · have letters : ∀ n : Fin 26, (Char.ofNat (97 + n)).utf8Size = 1 := by decide
    exact letter ▸ letters n

theorem Ascii.bare {raw : String} (ascii : Ascii raw) : ∀ c ∈ bare raw, c.utf8Size = 1 := by
  intro c member
  obtain ⟨d, inside, rfl⟩ := exists_of_mem_bare member
  exact utf8Size_toLower (ascii d (mem_of_mem_trim inside))

theorem Ascii.toList_normalize {raw : String} (ascii : Ascii raw) (known : normalize raw ≠ "") :
    (normalize raw).toList = '0' :: 'x' :: shown (BuildId.bare raw) := by
  rw [toList_normalize_of_ne known, shown_eq, fit_of_single ascii.bare]

theorem isUpper_of_mem_shown {raw : String} {c : Char} (member : c ∈ shown (bare raw)) :
    c.isUpper = false := by
  rcases List.mem_append.1 (List.mem_of_mem_take member) with inside | filled
  · rw [← toLower_of_mem_bare inside]
    exact c.isUpper_toLower_eq_false
  · rw [(List.mem_replicate.1 filled).2]
    rfl

def FilledBy (zeros : Nat) (cut : List Char) : Prop :=
  ∀ n, byteLength (cut ++ List.replicate n '0') < digitCount ↔ n < zeros

theorem exists_filledBy (digits : List Char) :
    ∃ zeros, FilledBy zeros (digits.take digitCount) ∧
      fit digits = digits.take digitCount ++ List.replicate zeros '0' := by
  refine ⟨digitCount - byteLength (digits.take digitCount), fun n => ?_, rfl⟩
  simp only [byteLength_append, byteLength_zeros]
  omega

/-- Normalising is a canonical form of a text without blanks inside: it is done after one time, what
it leaves open is only where there are no digits, and of two texts in ASCII it tells apart the
digits that fit into it and nothing else. -/
theorem normalize_canonical (raw : String) (unbroken : Unbroken raw) :
    normalize (normalize raw) = normalize raw ∧
      (normalize raw = "" ↔ trim raw.toList ∈ [[], ['0', 'x'], ['0', 'X']]) ∧
      (normalize raw ≠ "" → ∃ zeros, FilledBy zeros ((bare raw).take digitCount) ∧
        (normalize raw).toList =
          '0' :: 'x' :: ((bare raw).take digitCount ++ List.replicate zeros '0')) ∧
      (Ascii raw → normalize raw ≠ "" → ∃ digits, (normalize raw).toList = '0' :: 'x' :: digits ∧
        digits.length = digitCount ∧ ∀ c ∈ digits, c.isUpper = false) ∧
      ∀ other, Unbroken other → Ascii raw → Ascii other → (normalize raw = normalize other ↔
        normalize raw = "" ∧ normalize other = "" ∨
          normalize raw ≠ "" ∧ normalize other ≠ "" ∧ shown (bare raw) = shown (bare other)) := by
  refine ⟨normalize_normalize unbroken, (normalize_eq_empty raw).trans (bare_eq_nil raw),
    ?_, ?_, ?_⟩
  · intro known
    obtain ⟨zeros, filled, fits⟩ := exists_filledBy (bare raw)
    exact ⟨zeros, filled, by rw [toList_normalize_of_ne known, fits]⟩
  · intro ascii known
    exact ⟨shown (bare raw), ascii.toList_normalize known, length_shown _,
      fun _ => isUpper_of_mem_shown⟩
  · intro other _ ascii ascii'
    constructor
    · intro same
      by_cases known : normalize raw = ""
      · exact .inl ⟨known, same ▸ known⟩
      · have known' : normalize other ≠ "" := same ▸ known
        refine .inr ⟨known, known', ?_⟩
        rwa [← String.toList_inj, ascii.toList_normalize known, ascii'.toList_normalize known',
          List.cons_inj_right, List.cons_inj_right] at same
    · rintro (⟨empty, empty'⟩ | ⟨known, known', same⟩)
      · rw [empty, empty']
      · rw [← String.toList_inj, ascii.toList_normalize known, ascii'.toList_normalize known', same]

theorem normalize_canonical_sample :
    normalize (normalize "0Xé") = normalize "0Xé" ∧ normalize " 0X0xAB" ≠ "" ∧
      normalize " 0X0xAB" = normalize "0x0Xab0\n" := by
  obtain ⟨again, -⟩ := normalize_canonical "0Xé" (by decide)
  obtain ⟨-, known, -, -, same⟩ := normalize_canonical " 0X0xAB" (by decide)
  have digits : normalize " 0X0xAB" ≠ "" := fun empty => absurd (known.1 empty) (by decide)
  refine ⟨again, digits,
    (same "0x0Xab0\n" (by decide) (by decide) (by decide)).2 (.inr ⟨digits, ?_, by decide⟩)⟩
  exact fun empty => absurd ((normalize_eq_empty _).1 empty) (by decide)

end BuildIdCache.BuildId
