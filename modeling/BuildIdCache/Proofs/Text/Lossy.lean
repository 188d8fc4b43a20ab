import BuildIdCache.Text.Utf8

set_option autoImplicit false

namespace BuildIdCache.Text.Utf8

def State.High : State → Prop
  | .ready => True
  | .inside _ low _ _ => 0x80 ≤ low

theorem high_first (b : UInt8) : (first b).2.High := by
  unfold first
  repeat' split
  all_goals simp [State.High]

theorem high_step (state : State) (b : UInt8) : (step state b).2.High := by
  cases state with
  | ready => exact high_first b
  | inside due low high code =>
    simp only [step]
    split
    · split
      · trivial
      · simp [State.High]
    · exact high_first b

theorem step_single {state : State} (high : state.High) {b : UInt8} (single : b < 0x80) :
    step state b = (finish state ++ [Char.ofNat b.toNat], .ready) := by
  have alone : first b = ([Char.ofNat b.toNat], .ready) := by rw [first, if_pos single]
  cases state with
  | ready => exact alone
  | inside due low high' code =>
    have below : ¬(low ≤ b ∧ b ≤ high') := fun both =>
      UInt8.not_le.2 single (UInt8.le_trans high both.1)
    rw [step, if_neg below, alone]
    rfl

theorem decodeFrom_cons (state : State) (b : UInt8) (rest : List UInt8) :
    decodeFrom [] state (b :: rest) = (step state b).1 ++ decodeFrom [] (step state b).2 rest := by
  show decodeFrom ((step state b).1.reverse ++ []) (step state b).2 rest = _
  rw [List.append_nil, decodeFrom_done, List.reverse_reverse]

theorem decodeFrom_single {state : State} (high : state.High) (front : List UInt8) {b : UInt8}
    (single : b < 0x80) (back : List UInt8) :
    decodeFrom [] state (front ++ b :: back) =
      decodeFrom [] state front ++ Char.ofNat b.toNat :: decodeLossy back := by
  induction front generalizing state with
  | nil =>
    rw [List.nil_append, decodeFrom_cons, step_single high single]
    simp [decodeFrom, decodeLossy]
  | cons c front ih =>
    rw [List.cons_append, decodeFrom_cons, decodeFrom_cons, ih (high_step state c),
      List.append_assoc]

theorem decodeLossy_newline (front back : List UInt8) :
    decodeLossy (front ++ 0x0A :: back) = decodeLossy front ++ '\n' :: decodeLossy back :=
  @decodeFrom_single .ready trivial front 0x0A (by decide) back

end BuildIdCache.Text.Utf8
