set_option autoImplicit false

namespace BuildIdCache.Text.Utf8

-- Inside a character, the state holds how many bytes are still due, the range that the next one has
-- to be in, and the bits read so far.
inductive State
  | ready
  | inside (due : Nat) (low high : UInt8) (code : Nat)
deriving DecidableEq, Repr

def replacement : Char := '\uFFFD'

def first (b : UInt8) : List Char × State :=
  if b < 0x80 then ([Char.ofNat b.toNat], .ready)
  else if b < 0xC2 then ([replacement], .ready)
  else if b < 0xE0 then ([], .inside 1 0x80 0xBF (b.toNat - 0xC0))
  else if b = 0xE0 then ([], .inside 2 0xA0 0xBF 0)
  else if b = 0xED then ([], .inside 2 0x80 0x9F 0xD)
  else if b < 0xF0 then ([], .inside 2 0x80 0xBF (b.toNat - 0xE0))
  else if b = 0xF0 then ([], .inside 3 0x90 0xBF 0)
  else if b < 0xF4 then ([], .inside 3 0x80 0xBF (b.toNat - 0xF0))
  else if b = 0xF4 then ([], .inside 3 0x80 0x8F 4)
  else ([replacement], .ready)

-- A byte that cannot go on with the open character closes it with one replacement and is read again
-- as a first byte.
def step (state : State) (b : UInt8) : List Char × State :=
  match state with
  | .ready => first b
  | .inside due low high code =>
    if low ≤ b ∧ b ≤ high then
      let code := code * 64 + (b.toNat - 0x80)
      if due ≤ 1 then ([Char.ofNat code], .ready) else ([], .inside (due - 1) 0x80 0xBF code)
    else
      let (chars, next) := first b
      (replacement :: chars, next)

def finish : State → List Char
  | .ready => []
  | .inside .. => [replacement]

def decodeFrom (done : List Char) (state : State) : List UInt8 → List Char
  | [] => done.reverse ++ finish state
  | b :: rest =>
    let (chars, next) := step state b
    decodeFrom (chars.reverse ++ done) next rest

/-- Reads bytes as UTF-8 with one replacement character for each maximal part that is not text. -/
def decodeLossy (bytes : List UInt8) : List Char := decodeFrom [] .ready bytes

theorem decodeFrom_done (done : List Char) (state : State) (bytes : List UInt8) :
    decodeFrom done state bytes = done.reverse ++ decodeFrom [] state bytes := by
  induction bytes generalizing done state with
  | nil => simp [decodeFrom]
  | cons b rest ih =>
    simp only [decodeFrom]
    rw [ih, ih ((step state b).1.reverse ++ [])]
    simp

end BuildIdCache.Text.Utf8

namespace BuildIdCache

def decodeLossy (content : ByteArray) : String :=
  String.ofList (Text.Utf8.decodeLossy content.data.toList)

def decodeStrict? (content : ByteArray) : Option String := String.fromUTF8? content

end BuildIdCache
