import BuildIdCache.Json.Value
import Mathlib.Data.List.Basic

set_option autoImplicit false

namespace BuildIdCache.Json

mutual

def Value.tokens : Value → List Token
  | .null => [.literal .null]
  | .bool b => [.literal (.bool b)]
  | .number text => [.number text]
  | .string pieces => [.string pieces]
  | .array items => .openArray :: (itemTokens items ++ [.closeArray])
  | .object members => .openObject :: (memberTokens members ++ [.closeObject])

def itemTokens : List Value → List Token
  | [] => []
  | [item] => item.tokens
  | item :: rest => item.tokens ++ .comma :: itemTokens rest

def memberTokens : List (List Piece × Value) → List Token
  | [] => []
  | [(key, value)] => .string key :: .colon :: value.tokens
  | (key, value) :: rest => .string key :: .colon :: (value.tokens ++ .comma :: memberTokens rest)

end

namespace Building

inductive Awaits : Awaited → Option (List Piece) → Prop
  | value : Awaits .value none
  | valueOrEnd : Awaits .valueOrEnd none
  | member (key : List Piece) : Awaits (.member key) (some key)

inductive AwaitsKey : Awaited → Prop
  | key : AwaitsKey .key
  | keyOrEnd : AwaitsKey .keyOrEnd

variable {opened : List (Container × Option (List Piece))} {awaited : Awaited}
  {result : Option Value} {key : Option (List Piece)}

theorem step_value (awaits : Awaits awaited key) (token : Token) (opens : token ≠ .closeArray) :
    step ⟨opened, awaited, result⟩ token = value ⟨opened, awaited, result⟩ key token := by
  cases awaits with
  | value => rfl
  | valueOrEnd => cases token <;> first | rfl | exact absurd rfl opens
  | member => rfl

theorem step_key (awaits : AwaitsKey awaited) (name : List Piece) :
    step ⟨opened, awaited, result⟩ (.string name) = some ⟨opened, .colon name, result⟩ := by
  cases awaits <;> rfl

-- The tokens of a value give it to what is being built, and leave what is open around it. For items
-- and members, those that are there already are carried along.
mutual

theorem foldlM_tokens (v : Value) (opened : List (Container × Option (List Piece)))
    (awaited : Awaited) (result : Option Value) (key : Option (List Piece))
    (awaits : Awaits awaited key) :
    v.tokens.foldlM step ⟨opened, awaited, result⟩ =
      some (give ⟨opened, awaited, result⟩ key v) := by
  match v with
  | .null | .bool _ | .number _ | .string _ =>
    rw [Value.tokens, List.foldlM_cons, step_value awaits _ (by simp)]
    rfl
  | .array [] =>
    rw [Value.tokens, List.foldlM_cons, step_value awaits _ (by simp)]
    rfl
  | .array (item :: rest) =>
    rw [Value.tokens, List.foldlM_cons, step_value awaits _ (by simp), value, Option.bind_eq_bind,
      Option.bind_some, List.foldlM_append,
      foldlM_itemTokens (item :: rest) (by simp) [] key opened .valueOrEnd none .valueOrEnd]
    simp only [Option.bind_eq_bind, Option.bind_some, List.foldlM_cons, List.foldlM_nil, step,
      isArray, if_true, close, Container.close, List.append_nil, List.reverse_reverse]
    rfl
  | .object [] =>
    rw [Value.tokens, List.foldlM_cons, step_value awaits _ (by simp)]
    rfl
  | .object (member :: rest) =>
    rw [Value.tokens, List.foldlM_cons, step_value awaits _ (by simp), value, Option.bind_eq_bind,
      Option.bind_some, List.foldlM_append,
      foldlM_memberTokens (member :: rest) (by simp) [] key opened .keyOrEnd none .keyOrEnd]
    simp only [Option.bind_eq_bind, Option.bind_some, List.foldlM_cons, List.foldlM_nil, step,
      isArray, close, Container.close, List.append_nil, List.reverse_reverse]
    rfl

theorem foldlM_itemTokens (items : List Value) (further : items ≠ []) (done : List Value)
    (key : Option (List Piece)) (opened : List (Container × Option (List Piece)))
    (awaited : Awaited) (result : Option Value) (awaits : Awaits awaited none) :
    (itemTokens items).foldlM step ⟨(.array done, key) :: opened, awaited, result⟩ =
      some ⟨(.array (items.reverse ++ done), key) :: opened, .separator, none⟩ := by
  match items with
  | [] => exact absurd rfl further
  | [item] =>
    rw [itemTokens, foldlM_tokens item _ awaited result none awaits]
    rfl
  | item :: next :: rest =>
    rw [itemTokens, List.foldlM_append, foldlM_tokens item _ awaited result none awaits,
      Option.bind_eq_bind, Option.bind_some, List.foldlM_cons]
    · have further := foldlM_itemTokens (next :: rest) (by simp) (item :: done) key
        opened .value none .value
      simpa [give, add, step, isArray] using further
    · simp

theorem foldlM_memberTokens (members : List (List Piece × Value)) (further : members ≠ [])
    (done : List (List Piece × Value)) (key : Option (List Piece))
    (opened : List (Container × Option (List Piece))) (awaited : Awaited) (result : Option Value)
    (awaits : AwaitsKey awaited) :
    (memberTokens members).foldlM step ⟨(.object done, key) :: opened, awaited, result⟩ =
      some ⟨(.object (members.reverse ++ done), key) :: opened, .separator, none⟩ := by
  match members with
  | [] => exact absurd rfl further
  | [(name, v)] =>
    rw [memberTokens, List.foldlM_cons, step_key awaits, Option.bind_eq_bind, Option.bind_some,
      List.foldlM_cons]
    simpa [step, give, add] using
      foldlM_tokens v ((.object done, key) :: opened) (.member name) result (some name)
        (.member name)
  | (name, v) :: next :: rest =>
    rw [memberTokens, List.foldlM_cons, step_key awaits, Option.bind_eq_bind, Option.bind_some,
      List.foldlM_cons]
    · have first := foldlM_tokens v ((.object done, key) :: opened) (.member name) result
        (some name) (.member name)
      have further := foldlM_memberTokens (next :: rest) (by simp)
        ((name, v) :: done) key opened .key none .key
      simp only [step, Option.bind_eq_bind, Option.bind_some, List.foldlM_append, first,
        List.foldlM_cons, give, add, isArray]
      simpa using further
    · simp

end

end Building

theorem Value.ofTokens?_tokens (v : Value) : ofTokens? v.tokens = some v := by
  rw [ofTokens?, Building.start, Building.foldlM_tokens v [] .value none none .value]
  rfl

end BuildIdCache.Json
