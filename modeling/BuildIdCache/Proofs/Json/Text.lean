import BuildIdCache.Json.Write
import BuildIdCache.Proofs.Json.Tokens
import Mathlib.Data.List.TakeWhile

set_option autoImplicit false

namespace BuildIdCache.Json

def Piece.reread : Piece → Piece
  | .char c => if writeChar c = '\\' :: 'u' :: hexUnit c.toNat then .unit c.toNat else .char c
  | .unit code => .unit (code % 0x10000)

mutual

def Value.reread : Value → Value
  | .string pieces => .string (pieces.map Piece.reread)
  | .array items => .array (rereadItems items)
  | .object members => .object (rereadMembers members)
  | plain => plain

def rereadItems : List Value → List Value
  | [] => []
  | item :: rest => item.reread :: rereadItems rest

def rereadMembers : List (List Piece × Value) → List (List Piece × Value)
  | [] => []
  | (key, value) :: rest => (key.map Piece.reread, value.reread) :: rereadMembers rest

end

inductive Value.Natural : Value → Prop
  | null : Natural .null
  | bool (b : Bool) : Natural (.bool b)
  | number (n : Nat) : Natural (.ofNat n)
  | string (pieces : List Piece) : Natural (.string pieces)
  | array {items : List Value} (natural : ∀ item ∈ items, Natural item) : Natural (.array items)
  | object {members : List (List Piece × Value)}
      (natural : ∀ member ∈ members, Natural member.2) : Natural (.object members)

theorem writeChar_cases (c : Char) :
    (∃ letter, writeChar c = ['\\', letter] ∧ letter ≠ 'u' ∧ Lexer.escape? letter = some c) ∨
      (writeChar c = '\\' :: 'u' :: hexUnit c.toNat ∧ c.toNat < 0x20) ∨
      (writeChar c = [c] ∧ c ≠ '"' ∧ c ≠ '\\' ∧ ¬ c.toNat < 0x20) := by
  unfold writeChar
  split
  case h_8 notQuote notBackslash _ _ _ _ _ =>
    by_cases control : c.toNat < 0x20
    · exact .inr (.inl ⟨if_pos control, control⟩)
    · exact .inr (.inr ⟨if_neg control, notQuote, notBackslash, control⟩)
  all_goals exact .inl ⟨_, rfl, by decide, rfl⟩

namespace Lexer

theorem hexValue?_hexDigit {n : Nat} (small : n < 16) :
    hexValue? (BuildId.hexDigit n) = some n := by
  have each : ∀ n : Fin 16, hexValue? (BuildId.hexDigit n) = some n.val := by decide
  exact each ⟨n, small⟩

theorem foldlM_hexUnit (code : Nat) (tokens : List Token) (pieces : List Piece) :
    (hexUnit code).foldlM step ⟨tokens, .unit pieces 4 0⟩ =
      some ⟨tokens, .string (.unit (code % 0x10000) :: pieces)⟩ := by
  have digits :
    (((code / 4096 % 16) * 16 + code / 256 % 16) * 16 + code / 16 % 16) * 16 + code % 16 =
      code % 0x10000 := by omega
  have below : ∀ n, hexValue? (BuildId.hexDigit (n % 16)) = some (n % 16) :=
    fun n => hexValue?_hexDigit (Nat.mod_lt _ (by decide))
  simp [hexUnit, step, below, ← digits]

theorem foldlM_writePiece (piece : Piece) (tokens : List Token) (pieces : List Piece) :
    (writePiece piece).foldlM step ⟨tokens, .string pieces⟩ =
      some ⟨tokens, .string (piece.reread :: pieces)⟩ := by
  cases piece with
  | unit code => exact foldlM_hexUnit code tokens pieces
  | char c =>
    rw [writePiece, Piece.reread]
    rcases writeChar_cases c with ⟨letter, written, notUnit, escaped⟩ | ⟨written, control⟩ |
      ⟨written, notQuote, notBackslash, notControl⟩
    · rw [written, if_neg (by simp [hexUnit])]
      simp [step, notUnit, escaped]
    · have unit := foldlM_hexUnit c.toNat tokens pieces
      rw [Nat.mod_eq_of_lt (by omega)] at unit
      rw [written, if_pos rfl]
      exact unit
    · rw [written, if_neg (by simp)]
      simp [step, notQuote, notBackslash, notControl]

theorem foldlM_writeString (pieces : List Piece) (tokens : List Token) :
    (writeString pieces).foldlM step ⟨tokens, .between⟩ =
      some ⟨.string (pieces.map Piece.reread) :: tokens, .between⟩ := by
  have content : ∀ done, (pieces.flatMap writePiece).foldlM step ⟨tokens, .string done⟩ =
      some ⟨tokens, .string ((pieces.map Piece.reread).reverse ++ done)⟩ := by
    induction pieces with
    | nil => simp
    | cons piece rest ih =>
      intro done
      simp [List.foldlM_append, foldlM_writePiece, ih]
  simp [writeString, step, start, List.foldlM_append, content]

def read (tokens : List Token) (text : List Char) : Option (List Token) :=
  (text.foldlM step ⟨tokens, .between⟩).bind finish

theorem read_of_foldlM {tokens further : List Token} {text : List Char}
    (reads : text.foldlM step ⟨tokens, .between⟩ = some ⟨further, .between⟩) (rest : List Char) :
    read tokens (text ++ rest) = read further rest := by
  rw [read, List.foldlM_append, reads]
  rfl

def IsStop (c : Char) : Prop := c = ',' ∨ c = ']' ∨ c = '}'

def Ends (rest : List Char) : Prop := ∀ c ∈ rest.head?, IsStop c

theorem ends_stop {c : Char} (stop : IsStop c) (rest : List Char) : Ends (c :: rest) := by
  simpa [Ends] using stop

theorem read_of_ends {tokens further : List Token} {text : List Char} {state : State}
    (reads : text.foldlM step ⟨tokens, .between⟩ = some ⟨tokens, state⟩)
    (finished : finish ⟨tokens, state⟩ = some further.reverse)
    (stopped : ∀ c, IsStop c → step ⟨tokens, state⟩ c = step ⟨further, .between⟩ c)
    {rest : List Char} (ends : Ends rest) : read tokens (text ++ rest) = read further rest := by
  rw [read, List.foldlM_append, reads]
  cases rest with
  | nil => exact finished
  | cons c more =>
    rw [Option.bind_eq_bind, Option.bind_some, List.foldlM_cons, stopped c (ends c rfl), read,
      List.foldlM_cons]

theorem isDigit_of_mem_toDigits {n : Nat} {c : Char} (member : c ∈ Nat.toDigits 10 n) :
    isDigit c = true :=
  Nat.isDigit_of_mem_toDigits (by decide) (by decide) member

theorem toDigits_lead {n : Nat} (further : n ≠ 0) :
    ∃ c rest, Nat.toDigits 10 n = c :: rest ∧ c ≠ '0' := by
  induction n using Nat.strongRecOn with
  | ind n ih =>
    by_cases single : n < 10
    · rw [Nat.toDigits_of_lt_base single]
      have each : ∀ n : Fin 10, n.val ≠ 0 → Nat.digitChar n ≠ '0' := by decide
      exact ⟨_, [], rfl, each ⟨n, single⟩ further⟩
    · obtain ⟨c, rest, digits, lead⟩ := ih (n / 10) (by omega) (by omega)
      rw [Nat.toDigits_eq_if (by decide), if_neg single, digits]
      exact ⟨c, _, rfl, lead⟩

theorem isNumber_toDigits (n : Nat) : isNumber (Nat.toDigits 10 n) = true := by
  by_cases zero : n = 0
  · subst zero
    decide
  · obtain ⟨c, rest, digits, lead⟩ := toDigits_lead zero
    have all : ∀ d ∈ c :: rest, isDigit d = true :=
      fun d member => isDigit_of_mem_toDigits (digits ▸ member)
    have sign : c ≠ '-' := by
      rintro rfl
      exact absurd (all '-' (by simp)) (by decide)
    have unsigned : isNumber (c :: rest) = isUnsigned (c :: rest) := by
      unfold isNumber
      split <;> simp_all
    have whole : isUnsigned (c :: rest) =
        (isDigits ((c :: rest).takeWhile isDigit) && isFraction
          ((c :: rest).dropWhile isDigit)) := by
      unfold isUnsigned
      split <;> simp_all
    rw [digits, unsigned, whole, List.takeWhile_eq_self_iff.2 all, List.dropWhile_eq_nil_iff.2 all]
    simpa [isDigits, isFraction, isExponent] using all

theorem start_digit {c : Char} (digit : isDigit c = true) (tokens : List Token) :
    start tokens c = some ⟨tokens, .number [c]⟩ := by
  have space : isSpace c = false := by
    cases blank : isSpace c with
    | false => rfl
    | true =>
      simp only [isSpace, Bool.or_eq_true, decide_eq_true_eq] at blank
      rcases blank with ((rfl | rfl) | rfl) | rfl <;> cases digit
  unfold start
  split
  case h_9 => simp [space, digit]
  all_goals cases digit

theorem foldlM_digits {text : List Char} (digits : ∀ c ∈ text, isDigit c = true)
    (tokens : List Token) (seen : List Char) :
    text.foldlM step ⟨tokens, .number seen⟩ = some ⟨tokens, .number (text.reverse ++ seen)⟩ := by
  induction text generalizing seen with
  | nil => rfl
  | cons c rest ih =>
    have digit := digits c (by simp)
    simp [step, isNumberChar, digit, ih fun d member => digits d (by simp [member])]

theorem foldlM_toDigits (n : Nat) (tokens : List Token) :
    (Nat.toDigits 10 n).foldlM step ⟨tokens, .between⟩ =
      some ⟨tokens, .number (Nat.toDigits 10 n).reverse⟩ := by
  have digits : ∀ c ∈ Nat.toDigits 10 n, isDigit c = true := fun c => isDigit_of_mem_toDigits
  cases text : Nat.toDigits 10 n with
  | nil => exact absurd (text ▸ isNumber_toDigits n) (by decide)
  | cons c rest =>
    rw [text] at digits
    have further : ∀ d ∈ rest, isDigit d = true := fun d member => digits d (by simp [member])
    simp [step, start_digit (digits c (by simp)), foldlM_digits further]

theorem closeNumber_toDigits (n : Nat) (tokens : List Token) :
    closeNumber tokens (Nat.toDigits 10 n).reverse =
      some (.number (Nat.toDigits 10 n) :: tokens) := by
  simp [closeNumber, isNumber_toDigits]

theorem read_number (n : Nat) (tokens : List Token) {rest : List Char} (ends : Ends rest) :
    read tokens (Nat.toDigits 10 n ++ rest) =
      read (.number (Nat.toDigits 10 n) :: tokens) rest := by
  have closed := closeNumber_toDigits n tokens
  refine read_of_ends (foldlM_toDigits n tokens) ?_ ?_ ends
  · simp only [finish, closed, Option.map_some]
  · rintro c (rfl | rfl | rfl) <;> simp [step, isNumberChar, isDigit, closed]

theorem read_literal (l : Literal) (tokens : List Token) {rest : List Char} (ends : Ends rest) :
    read tokens (compact (Building.ofLiteral l) ++ rest) = read (.literal l :: tokens) rest := by
  match l with
  | .null | .bool true | .bool false =>
    refine read_of_ends rfl rfl ?_ ends
    rintro c (rfl | rfl | rfl) <;> rfl

-- The induction follows the value. Only what ends a word or a number can stand behind a value here,
-- and each item and member is followed by such a sign.
mutual

theorem read_compact (v : Value) (natural : v.Natural) (tokens : List Token) (rest : List Char)
    (ends : Ends rest) :
    read tokens (compact v ++ rest) = read (v.reread.tokens.reverse ++ tokens) rest := by
  match v with
  | .null => exact read_literal .null tokens ends
  | .bool b => exact read_literal (.bool b) tokens ends
  | .number text =>
    cases natural with
    | number n => exact read_number n tokens ends
  | .string pieces => exact read_of_foldlM (foldlM_writeString pieces tokens) rest
  | .array items =>
    cases natural with
    | array natural =>
      have content := read_compactItems items natural (.openArray :: tokens) (']' :: rest)
        (ends_stop (by simp [IsStop]) rest)
      calc read tokens (compact (.array items) ++ rest)
          = read (.openArray :: tokens) (compactItems items ++ ']' :: rest) := by
            rw [compact, List.cons_append, List.append_assoc]
            rfl
        _ = read ((itemTokens (rereadItems items)).reverse ++ .openArray :: tokens) (']' :: rest) :=
          content
        _ = read ((Value.array items).reread.tokens.reverse ++ tokens) rest := by
            simp only [Value.reread, Value.tokens, List.reverse_cons, List.reverse_append,
              List.append_assoc]
            rfl
  | .object members =>
    cases natural with
    | object natural =>
      have content := read_compactMembers members natural (.openObject :: tokens) ('}' :: rest)
        (ends_stop (by simp [IsStop]) rest)
      calc read tokens (compact (.object members) ++ rest)
          = read (.openObject :: tokens) (compactMembers members ++ '}' :: rest) := by
            rw [compact, List.cons_append, List.append_assoc]
            rfl
        _ = read ((memberTokens (rereadMembers members)).reverse ++ .openObject :: tokens)
              ('}' :: rest) := content
        _ = read ((Value.object members).reread.tokens.reverse ++ tokens) rest := by
            simp only [Value.reread, Value.tokens, List.reverse_cons, List.reverse_append,
              List.append_assoc]
            rfl

theorem read_compactItems (items : List Value) (natural : ∀ item ∈ items, item.Natural)
    (tokens : List Token) (rest : List Char) (ends : Ends rest) :
    read tokens (compactItems items ++ rest) =
      read ((itemTokens (rereadItems items)).reverse ++ tokens) rest := by
  match items with
  | [] => rfl
  | [item] =>
    simpa [compactItems, rereadItems, itemTokens] using
      read_compact item (natural item (by simp)) tokens rest ends
  | item :: next :: more =>
    have first := read_compact item (natural item (by simp)) tokens
      (',' :: (compactItems (next :: more) ++ rest)) (ends_stop (by simp [IsStop]) _)
    have further := read_compactItems (next :: more) (fun v member => natural v (by simp [member]))
      (.comma :: (item.reread.tokens.reverse ++ tokens)) rest ends
    rw [compactItems, List.append_assoc, List.cons_append, first]
    · refine Eq.trans further ?_
      simp [rereadItems, itemTokens]
    · simp

theorem read_compactMembers (members : List (List Piece × Value))
    (natural : ∀ member ∈ members, member.2.Natural) (tokens : List Token) (rest : List Char)
    (ends : Ends rest) :
    read tokens (compactMembers members ++ rest) =
      read ((memberTokens (rereadMembers members)).reverse ++ tokens) rest := by
  match members with
  | [] => rfl
  | [(key, v)] =>
    have named := read_of_foldlM (foldlM_writeString key tokens) (':' :: (compact v ++ rest))
    have value := read_compact v (natural (key, v) (by simp))
      (.colon :: .string (key.map Piece.reread) :: tokens) rest ends
    rw [compactMembers, List.append_assoc, List.cons_append, named]
    refine Eq.trans value ?_
    simp [rereadMembers, memberTokens]
  | (key, v) :: next :: more =>
    have named := read_of_foldlM (foldlM_writeString key tokens)
      (':' :: (compact v ++ ',' :: (compactMembers (next :: more) ++ rest)))
    have value := read_compact v (natural (key, v) (by simp))
      (.colon :: .string (key.map Piece.reread) :: tokens)
      (',' :: (compactMembers (next :: more) ++ rest)) (ends_stop (by simp [IsStop]) _)
    have further := read_compactMembers (next :: more)
      (fun member there => natural member (by simp [there]))
      (.comma :: (v.reread.tokens.reverse ++ .colon :: .string (key.map Piece.reread) :: tokens))
      rest ends
    rw [compactMembers, List.append_assoc, List.cons_append, List.append_assoc, List.cons_append,
      named]
    · refine value.trans (further.trans ?_)
      simp [rereadMembers, memberTokens]
    · simp

end

end Lexer

theorem Value.parse?_compact {v : Value} (natural : v.Natural) :
    parse? v.compact = some v.reread := by
  have tokens : tokens? (Json.compact v) = some v.reread.tokens := by
    have read := Lexer.read_compact v natural [] [] (by simp [Lexer.Ends])
    rw [List.append_nil, List.append_nil] at read
    simpa [tokens?, Lexer.read, Lexer.finish] using read
  rw [parse?, Value.compact, String.toList_ofList, tokens, Option.bind_some, ofTokens?_tokens]

end BuildIdCache.Json
