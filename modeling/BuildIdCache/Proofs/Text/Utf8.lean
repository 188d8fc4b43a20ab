import BuildIdCache.Path
import BuildIdCache.Proofs.Path
import Mathlib.Data.List.Basic

set_option autoImplicit false

namespace BuildIdCache

theorem toList_loop (content : ByteArray) (i : Nat) (done : List UInt8) :
    ByteArray.toList.loop content i done = done.reverse ++ content.data.toList.drop i := by
  induction i, done using ByteArray.toList.loop.induct content with
  | case1 i done room ih =>
    have more : i < content.data.toList.length := by simpa using room
    rw [ByteArray.toList.loop, if_pos room, ih, List.drop_eq_getElem_cons more]
    simp [ByteArray.get!, getElem!_pos content.data i room]
  | case2 i done past =>
    rw [ByteArray.toList.loop, if_neg past, List.drop_of_length_le (by simpa using past)]
    simp

theorem toList_byteArray (content : ByteArray) : content.toList = content.data.toList := by
  simp [ByteArray.toList, toList_loop]

def encode (chars : List Char) : List UInt8 := chars.flatMap String.utf8EncodeChar

theorem toUTF8_toList (text : String) : text.toUTF8.toList = encode text.toList := by
  have bytes : text.toByteArray = text.toList.utf8Encode := String.utf8Encode_toList.symm
  rw [String.toUTF8, toList_byteArray, bytes, List.utf8Encode, List.toList_data_toByteArray, encode]

theorem encode_slash : String.utf8EncodeChar '/' = [slash] := by decide

theorem slash_notMem_encodeChar (c : Char) (other : c ≠ '/') : slash ∉ String.utf8EncodeChar c := by
  have apart : c.toNat ≠ 0x2F := fun same => other (Char.toNat_inj.1 same)
  have value : c.val.toNat = c.toNat := rfl
  unfold String.utf8EncodeChar
  simp only [slash]
  split_ifs <;> simp [← UInt8.toNat_inj] <;> omega

@[simp] theorem encode_nil : encode [] = [] := rfl

@[simp] theorem encode_cons (c : Char) (rest : List Char) :
    encode (c :: rest) = String.utf8EncodeChar c ++ encode rest := List.flatMap_cons

theorem fromUTF8?_encode (chars : List Char) :
    String.fromUTF8? ⟨(encode chars).toArray⟩ = some (String.ofList chars) := by
  have bytes : (⟨(encode chars).toArray⟩ : ByteArray) = chars.utf8Encode := by
    rw [List.utf8Encode, ByteArray.ext_iff, ← Array.toList_inj, List.toList_data_toByteArray]
    rfl
  rw [bytes, String.fromUTF8?, dif_pos ByteArray.isValidUTF8_utf8Encode]
  exact congrArg some (String.toByteArray_inj.1 (by rw [String.toByteArray_ofList]; rfl))

theorem encode_injective : Function.Injective encode := by
  intro a b same
  have texts := fromUTF8?_encode a
  rw [same, fromUTF8?_encode b, Option.some.injEq, String.ofList_inj] at texts
  exact texts.symm

theorem bytes_of_fromUTF8? (bytes : List UInt8) (text : String)
    (h : String.fromUTF8? ⟨bytes.toArray⟩ = some text) : bytes = encode text.toList := by
  unfold String.fromUTF8? at h
  split at h
  next valid =>
    obtain rfl := Option.some.inj h
    rw [← toUTF8_toList, String.toUTF8, toList_byteArray]
    rfl
  next => cases h

theorem splitBy_encode (chars : List Char) :
    splitBy slash (encode chars) = (chars.splitOn '/').map encode := by
  induction chars with
  | nil => rfl
  | cons c rest ih =>
    rw [List.splitOn_cons_eq_if_modifyHead, encode_cons]
    by_cases cut : c = '/'
    · subst cut
      simp [encode_slash, splitBy, ih]
    · rw [splitBy_append_of_notMem slash _ _ (slash_notMem_encodeChar c cut), ih]
      cases h : rest.splitOn '/' with
      | nil => exact absurd h (List.splitOn_ne_nil '/' rest)
      | cons part parts => simp [cut]

end BuildIdCache
