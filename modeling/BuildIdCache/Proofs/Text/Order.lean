import BuildIdCache.Proofs.Text.Utf8
import Mathlib.Data.String.Basic

set_option autoImplicit false

namespace BuildIdCache

theorem encodeChar_lt (c d : Char) (below : c < d) (a b : List UInt8) :
    String.utf8EncodeChar c ++ a < String.utf8EncodeChar d ++ b := by
  have less : c.val.toNat < d.val.toNat := below
  have room : d.val.toNat < 0x110000 := by
    rcases d.valid with low | ⟨-, high⟩
    · exact Nat.lt_trans low (by decide)
    · exact high
  unfold String.utf8EncodeChar
  generalize c.val.toNat = v at less ⊢
  generalize d.val.toNat = w at less room ⊢
  -- Each byte holds a digit in base 64, and the quotients are those of the digit before.
  have fourth : ∀ n, n / 262144 = n / 64 / 64 / 64 := fun n => by omega
  have third : ∀ n, n / 4096 = n / 64 / 64 := fun n => by omega
  simp only [fourth, third]
  split_ifs <;>
    simp only [List.cons_append, List.nil_append, List.cons_lt_cons_iff, UInt8.lt_iff_toNat_lt,
      ← UInt8.toNat_inj, UInt8.toNat_ofNat'] <;> omega

theorem encode_lt (a b : List Char) (below : a < b) : encode a < encode b := by
  induction a generalizing b with
  | nil =>
    cases b with
    | nil => simp at below
    | cons d rest =>
      cases bytes : encode (d :: rest) with
      | nil =>
        have empty : d :: rest = [] := encode_injective (bytes.trans encode_nil.symm)
        cases empty
      | cons first more => exact List.nil_lt_cons first more
  | cons c a ih =>
    cases b with
    | nil => simp at below
    | cons d b =>
      rw [encode_cons, encode_cons]
      rcases List.cons_lt_cons_iff.1 below with first | ⟨rfl, later⟩
      · exact encodeChar_lt c d first _ _
      · exact List.append_left_lt (ih b later)

theorem bytes_lt (a b : String) (below : compare a b = .lt) :
    a.toUTF8.toList < b.toUTF8.toList := by
  have less : a < b := compare_lt_iff_lt.1 below
  rw [toUTF8_toList, toUTF8_toList]
  exact encode_lt _ _ (String.lt_iff.1 less)

end BuildIdCache
