set_option autoImplicit false

namespace BuildIdCache

inductive StrippedLevel
  | lineInfo
  | symbolTable
  | stripped
deriving DecidableEq, Repr

namespace StrippedLevel

def rank : StrippedLevel → Nat
  | lineInfo => 0
  | symbolTable => 1
  | stripped => 2

instance : LT StrippedLevel := ⟨fun a b => a.rank < b.rank⟩

instance (a b : StrippedLevel) : Decidable (a < b) := inferInstanceAs (Decidable (a.rank < b.rank))

instance : LE StrippedLevel := ⟨fun a b => a.rank ≤ b.rank⟩

instance (a b : StrippedLevel) : Decidable (a ≤ b) := inferInstanceAs (Decidable (a.rank ≤ b.rank))

instance : Ord StrippedLevel := ⟨fun a b => compare a.rank b.rank⟩

def name : StrippedLevel → String
  | lineInfo => "line_info"
  | symbolTable => "symbol_table"
  | stripped => "stripped"

def all : List StrippedLevel := [lineInfo, symbolTable, stripped]

def ofName? (name : String) : Option StrippedLevel := all.find? fun level => level.name = name

def ofSections (sections : List String) : StrippedLevel :=
  if ".debug_line" ∈ sections then lineInfo
  else if ".symtab" ∈ sections then symbolTable
  else stripped

end StrippedLevel

end BuildIdCache
