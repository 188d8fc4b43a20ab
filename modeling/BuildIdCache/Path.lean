import BuildIdCache.SortedMap

set_option autoImplicit false

namespace BuildIdCache

open Std

def slash : UInt8 := 0x2F
def dot : UInt8 := 0x2E

def IsName (bytes : List UInt8) : Prop :=
  slash ∉ bytes ∧ bytes ≠ [] ∧ bytes ≠ [dot] ∧ bytes ≠ [dot, dot]

instance (bytes : List UInt8) : Decidable (IsName bytes) := by
  unfold IsName
  infer_instance

structure Name where
  bytes : List UInt8
  isName : IsName bytes
deriving DecidableEq

namespace Name

def ofBytes? (bytes : List UInt8) : Option Name :=
  if h : IsName bytes then some ⟨bytes, h⟩ else none

theorem ext {a b : Name} (h : a.bytes = b.bytes) : a = b := by
  cases a
  cases b
  simpa using h

instance : Ord Name := ⟨fun a b => compare a.bytes b.bytes⟩

instance : TransOrd Name :=
  inferInstanceAs (TransCmp (compareOn fun name : Name => name.bytes))

instance : LawfulEqOrd Name where
  eq_of_compare h := ext (LawfulEqCmp.eq_of_compare h)

def toString? (name : Name) : Option String := String.fromUTF8? ⟨name.bytes.toArray⟩

end Name

def splitBy (separator : UInt8) : List UInt8 → List (List UInt8)
  | [] => [[]]
  | b :: rest =>
    if b = separator then [] :: splitBy separator rest
    else
      match splitBy separator rest with
      | [] => [[b]]
      | part :: parts => (b :: part) :: parts

def joinBy (separator : UInt8) : List (List UInt8) → List UInt8
  | [] => []
  | [part] => part
  | part :: parts => part ++ separator :: joinBy separator parts

theorem splitBy_ne_nil (separator : UInt8) (bytes : List UInt8) :
    splitBy separator bytes ≠ [] := by
  cases bytes with
  | nil => simp [splitBy]
  | cons b rest =>
    unfold splitBy
    split
    · simp
    · split <;> simp

theorem joinBy_splitBy (separator : UInt8) (bytes : List UInt8) :
    joinBy separator (splitBy separator bytes) = bytes := by
  induction bytes with
  | nil => rfl
  | cons b rest ih =>
    have parts := splitBy_ne_nil separator rest
    unfold splitBy
    cases h : splitBy separator rest with
    | nil => exact absurd h parts
    | cons part more =>
      rw [h] at ih
      split
      next same => simp [joinBy, same, ih]
      next => cases more <;> simp_all [joinBy]

/-- A path is kept as it was written; two spellings of one place are two paths. -/
structure Path where
  bytes : List UInt8
deriving DecidableEq, Inhabited

inductive Component
  | root
  | here
  | up
  | name (name : Name)
deriving DecidableEq

def Component.name? : Component → Option Name
  | .name n => some n
  | _ => none

def Component.ofPart? (part : List UInt8) : Option Component :=
  if part = [dot, dot] then some .up else (Name.ofBytes? part).map .name

namespace Path

def ofString (text : String) : Path := ⟨text.toUTF8.toList⟩

def toString? (path : Path) : Option String := String.fromUTF8? ⟨path.bytes.toArray⟩

def isAbsolute (path : Path) : Bool := path.bytes.head? = some slash

def parts (path : Path) : List (List UInt8) := splitBy slash path.bytes

def lead (path : Path) : Option Component × List (List UInt8) :=
  match path.parts with
  | [] => (none, [])
  | first :: rest =>
    if path.isAbsolute then (some .root, rest)
    else if first = [dot] then (some .here, rest)
    else (none, first :: rest)

def components (path : Path) : List Component :=
  path.lead.1.toList ++ path.lead.2.filterMap Component.ofPart?

def names (path : Path) : List Name := path.components.filterMap Component.name?

def fileName? (path : Path) : Option Name := path.components.getLast? >>= Component.name?

def join (base path : Path) : Path :=
  if path.isAbsolute then path
  else
    match base.bytes.getLast? with
    | none => path
    | some last => ⟨base.bytes ++ (if last = slash then [] else [slash]) ++ path.bytes⟩

def push (base : Path) (name : Name) : Path := base.join ⟨name.bytes⟩

def trimParts (parts : List (List UInt8)) : List (List UInt8) :=
  (parts.reverse.dropWhile fun part => part = [] ∨ part = [dot]).reverse

def parent? (path : Path) : Option Path :=
  let (lead, rest) := path.lead
  match trimParts rest with
  | [] => if lead = some .here then some ⟨[]⟩ else none
  | kept =>
    let body := trimParts kept.dropLast
    match lead with
    | some .root => some ⟨slash :: joinBy slash body⟩
    | some _ => some ⟨joinBy slash ([dot] :: body)⟩
    | none => some ⟨joinBy slash body⟩

def below? (path base : Path) : Option (List Component) :=
  if base.components.isPrefixOf path.components then
    some (path.components.drop base.components.length)
  else none

def extension? (path : Path) : Option (List UInt8) :=
  path.fileName?.bind fun name =>
    match (splitBy dot name.bytes).reverse with
    | after :: before :: more => if before = [] ∧ more = [] then none else some after
    | _ => none

end Path

end BuildIdCache
