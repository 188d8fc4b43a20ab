import BuildIdCache.Proofs.Text.Blank

set_option autoImplicit false

namespace BuildIdCache.Text

theorem after?_eq_some (mark s rest : List Char) :
    after? mark s = some rest ↔ s = mark ++ rest :=
  ⟨eq_append_of_after?, fun same => same ▸ after?_append mark rest⟩

def MarkedAt (mark front rest s : List Char) : Prop :=
  s = front ++ (mark ++ rest) ∧ ∀ other, other ++ mark <+: s → front.length ≤ other.length

theorem afterFirst?_eq_some (mark s rest : List Char) :
    afterFirst? mark s = some rest ↔ ∃ front, MarkedAt mark front rest s := by
  induction s with
  | nil =>
    rw [afterFirst?, after?_eq_some]
    constructor
    · exact fun same => ⟨[], same, by simp⟩
    · rintro ⟨front, same, -⟩
      exact (List.append_eq_nil_iff.1 same.symm).2.symm
  | cons c s ih =>
    unfold afterFirst?
    split
    next other found =>
      have here := (after?_eq_some _ _ _).1 found
      rw [Option.some.injEq]
      constructor
      · rintro rfl
        exact ⟨[], here, by simp⟩
      · rintro ⟨front, same, first⟩
        have empty : front = [] := List.eq_nil_of_length_eq_zero
          (Nat.le_zero.1 (first [] ⟨other, here.symm⟩))
        rw [here, empty, List.nil_append] at same
        exact List.append_cancel_left same
    -- Behind the first character it is the same question, as no mark stands at it.
    next absent =>
      have notHere : ∀ front, ¬(front = [] ∧ front ++ mark <+: c :: s) := by
        rintro _ ⟨rfl, more, same⟩
        rw [(after?_eq_some mark (c :: s) more).2 same.symm] at absent
        cases absent
      rw [ih]
      constructor
      · rintro ⟨front, same, first⟩
        refine ⟨c :: front, by rw [same]; rfl, fun other within => ?_⟩
        cases other with
        | nil => exact absurd ⟨rfl, within⟩ (notHere [])
        | cons d other =>
          have behind : other ++ mark <+: s := (List.cons_prefix_cons.1 within).2
          exact Nat.succ_le_succ (first other behind)
      · rintro ⟨front, same, first⟩
        cases front with
        | nil => exact absurd ⟨rfl, rest, same.symm⟩ (notHere [])
        | cons d front =>
          have behind : s = front ++ (mark ++ rest) := (List.cons.inj same).2
          refine ⟨front, behind, fun other within => ?_⟩
          exact Nat.le_of_succ_le_succ (first (c :: other) (List.cons_prefix_cons.2 ⟨rfl, within⟩))

theorem isSome_afterFirst? (mark s : List Char) :
    (afterFirst? mark s).isSome = true ↔ mark <:+: s := by
  constructor
  · intro found
    obtain ⟨rest, found⟩ := Option.isSome_iff_exists.1 found
    obtain ⟨front, same, -⟩ := (afterFirst?_eq_some mark s rest).1 found
    exact ⟨front, rest, by rw [same, List.append_assoc]⟩
  · rintro ⟨front, rest, rfl⟩
    rw [List.append_assoc]
    induction front with
    | nil =>
      have here := after?_append mark rest
      rw [List.nil_append]
      cases whole : mark ++ rest with
      | nil => rw [afterFirst?, ← whole, here, Option.isSome_some]
      | cons c s => rw [afterFirst?, ← whole, here, Option.isSome_some]
    | cons c front ih =>
      rw [List.cons_append, afterFirst?]
      split
      next => rfl
      next => exact ih

theorem cut?_append (mark : Char) (front rest : List Char) (clear : mark ∉ front) :
    cut? mark (front ++ mark :: rest) = some (front, rest) := by
  induction front with
  | nil => simp [cut?]
  | cons c front ih =>
    have apart : c ≠ mark := fun same => clear (by simp [same])
    have further := ih fun member => clear (by simp [member])
    simp [cut?, apart, further]

theorem cut?_eq_some (mark : Char) (s front rest : List Char) :
    cut? mark s = some (front, rest) ↔ mark ∉ front ∧ s = front ++ mark :: rest := by
  refine ⟨fun found => ?_, fun ⟨clear, same⟩ => same ▸ cut?_append mark front rest clear⟩
  induction s generalizing front with
  | nil => cases found
  | cons c s ih =>
    simp only [cut?] at found
    split at found
    next same =>
      obtain ⟨rfl, rfl⟩ := by simpa using found
      simp [same]
    next other =>
      obtain ⟨⟨before, after⟩, later, sides⟩ := Option.map_eq_some_iff.1 found
      obtain ⟨rfl, rfl⟩ := by simpa using sides
      obtain ⟨clear, rfl⟩ := ih _ later
      simp [clear, Ne.symm other]

theorem cut?_eq_none (mark : Char) (s : List Char) : cut? mark s = none ↔ mark ∉ s := by
  induction s with
  | nil => simp [cut?]
  | cons c s ih =>
    rw [cut?]
    split
    next same => simp [same]
    next other => simp [ih, Ne.symm other]

/-- The first word of a text: there are only blanks before it, and it ends at a blank or with the
text. -/
def Leads (word s : List Char) : Prop :=
  ∃ gap back, s = gap ++ (word ++ back) ∧ (∀ c ∈ gap, isBlank c = true) ∧ word ≠ [] ∧
    (∀ c ∈ word, isBlank c = false) ∧ ∀ c ∈ back.head?, isBlank c = true

theorem firstWord?_eq_some (s word : List Char) : firstWord? s = some word ↔ Leads word s := by
  constructor
  · intro found
    obtain ⟨first, rfl⟩ : (trimStart s).takeWhile (fun c => !isBlank c) ≠ [] ∧
        (trimStart s).takeWhile (fun c => !isBlank c) = word := by
      unfold firstWord? at found
      split at found
      next => cases found
      next more => exact ⟨more, Option.some.inj found⟩
    refine ⟨s.takeWhile isBlank, (trimStart s).dropWhile fun c => !isBlank c, ?_, ?_, first, ?_, ?_⟩
    · rw [List.takeWhile_append_dropWhile, trimStart, List.takeWhile_append_dropWhile]
    · exact fun c member => List.mem_takeWhile_imp member
    · exact fun c member => by simpa using List.mem_takeWhile_imp member
    · intro c head
      have stops := List.head?_dropWhile_not (fun c => !isBlank c) (trimStart s)
      rw [Option.mem_def.1 head] at stops
      simpa using stops
  · rintro ⟨gap, back, rfl, blank, notEmpty, visible, ends⟩
    obtain ⟨c, rest, rfl⟩ := List.exists_cons_of_ne_nil notEmpty
    have stops : back.takeWhile (fun c => !isBlank c) = [] := by
      cases back with
      | nil => rfl
      | cons d back => simp [ends d rfl]
    have word : ((c :: rest) ++ back).takeWhile (fun c => !isBlank c) = c :: rest := by
      rw [List.takeWhile_append_of_pos (by simpa using visible), stops, List.append_nil]
    rw [firstWord?, trimStart_append blank, List.cons_append, trimStart_cons (visible c (by simp)),
      ← List.cons_append, word]

theorem trimStart_blanks {back : List Char} (blank : ∀ c ∈ back, isBlank c = true) (s : List Char) :
    trimStart (s ++ back) = if trimStart s = [] then [] else trimStart s ++ back := by
  have none : back.dropWhile isBlank = [] := List.dropWhile_eq_nil_iff.2 blank
  rw [trimStart, List.dropWhile_append, none, trimStart]
  simp

theorem firstWord?_blanks {back : List Char} (blank : ∀ c ∈ back, isBlank c = true)
    (s : List Char) :
    firstWord? (s ++ back) = firstWord? s := by
  have none : back.takeWhile (fun c => !isBlank c) = [] := by
    cases back with
    | nil => rfl
    | cons c back => simp [blank c]
  have word : (trimStart (s ++ back)).takeWhile (fun c => !isBlank c) =
      (trimStart s).takeWhile fun c => !isBlank c := by
    rw [trimStart_blanks blank]
    split
    next empty => rw [empty]
    next =>
      rw [List.takeWhile_append, none, List.append_nil]
      split
      next whole => exact (List.takeWhile_prefix _).eq_of_length whole |>.symm
      next => rfl
  rw [firstWord?, word, firstWord?]

end BuildIdCache.Text
