set_option autoImplicit false

namespace BuildIdCache.Elf

inductive ByteOrder
  | little
  | big
deriving DecidableEq, Repr

def ByteOrder.value : ByteOrder → List UInt8 → Nat
  | .little, bytes => bytes.foldr (fun b n => n * 256 + b.toNat) 0
  | .big, bytes => bytes.foldl (fun n b => n * 256 + b.toNat) 0

def wordLimit : Nat := 0x10000000000000000

-- A run of bytes; even an empty one has to start before the end.
def slice? (content : ByteArray) (offset length : Nat) : Option (List UInt8) :=
  if offset < content.size ∧ length ≤ content.size - offset then
    some (content.extract offset (offset + length)).data.toList
  else none

structure Format where
  order : ByteOrder
  wide : Bool
deriving DecidableEq, Repr

namespace Format

def word (format : Format) : Nat := if format.wide then 8 else 4

def number? (format : Format) (content : ByteArray) (offset width : Nat) : Option Nat :=
  (slice? content offset width).map format.order.value

def numbers? (format : Format) (content : ByteArray) (offset : Nat) :
    List Nat → Option (List Nat)
  | [] => some []
  | width :: rest => do
    let first ← format.number? content offset width
    let more ← format.numbers? content (offset + width) rest
    return first :: more

end Format

end BuildIdCache.Elf
