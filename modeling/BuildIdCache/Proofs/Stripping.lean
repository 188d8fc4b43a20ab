import BuildIdCache.Stripping
import Mathlib.Order.Basic

set_option autoImplicit false

namespace BuildIdCache.StrippedLevel

instance : Preorder StrippedLevel where
  le_refl level := Nat.le_refl level.rank
  le_trans _ _ _ h h' := Nat.le_trans h h'
  lt_iff_le_not_ge _ _ := Nat.lt_iff_le_and_not_ge

theorem le_of_not_lt {a b : StrippedLevel} (h : ¬a < b) : b ≤ a := Nat.le_of_not_lt h

theorem le_stripped (level : StrippedLevel) : level ≤ stripped := by
  cases level <;> decide

theorem lineInfo_le (level : StrippedLevel) : lineInfo ≤ level := Nat.zero_le _

def scan (best : StrippedLevel) : List String → StrippedLevel
  | [] => best
  | name :: rest =>
    if name = ".debug_line" then lineInfo
    else scan (if name = ".symtab" then symbolTable else best) rest

theorem scan_eq (best : StrippedLevel) (sections : List String) :
    scan best sections =
      if ".debug_line" ∈ sections then lineInfo
      else if ".symtab" ∈ sections then symbolTable else best := by
  induction sections generalizing best with
  | nil => rfl
  | cons name rest ih =>
    rw [scan, ih]
    by_cases line : name = ".debug_line"
    · simp [line]
    · by_cases table : name = ".symtab"
      · simp [table]
      · simp [line, table, Ne.symm line, Ne.symm table]

theorem ofSections_eq_scan (sections : List String) :
    ofSections sections = scan stripped sections :=
  (scan_eq stripped sections).symm

theorem ofSections_eq_lineInfo (sections : List String) :
    ofSections sections = lineInfo ↔ ".debug_line" ∈ sections := by
  unfold ofSections
  split_ifs <;> simp_all

theorem ofSections_eq_symbolTable (sections : List String) :
    ofSections sections = symbolTable ↔ ".debug_line" ∉ sections ∧ ".symtab" ∈ sections := by
  unfold ofSections
  split_ifs <;> simp_all

theorem ofSections_eq_stripped (sections : List String) :
    ofSections sections = stripped ↔ ".debug_line" ∉ sections ∧ ".symtab" ∉ sections := by
  unfold ofSections
  split_ifs <;> simp_all

theorem ofSections_le {sections more : List String} (added : sections ⊆ more) :
    ofSections more ≤ ofSections sections := by
  cases level : ofSections sections with
  | lineInfo =>
    have line := added ((ofSections_eq_lineInfo sections).1 level)
    rw [(ofSections_eq_lineInfo more).2 line]
  | symbolTable =>
    have table := added ((ofSections_eq_symbolTable sections).1 level).2
    by_cases line : ".debug_line" ∈ more
    · rw [(ofSections_eq_lineInfo more).2 line]
      exact lineInfo_le _
    · rw [(ofSections_eq_symbolTable more).2 ⟨line, table⟩]
  | stripped => exact le_stripped _

end BuildIdCache.StrippedLevel
