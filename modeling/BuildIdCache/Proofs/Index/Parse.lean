import BuildIdCache.BuildId
import BuildIdCache.Index.Basic
import BuildIdCache.Proofs.Text.Utf8
import BuildIdCache.Proofs.Text.Word
import Mathlib.Data.List.Induction

set_option autoImplicit false

namespace BuildIdCache

namespace Text

theorem closeLine_subset (line : List Char) : closeLine line ⊆ line := by
  unfold closeLine
  split <;> simp

theorem newline_notMem_linesFrom (done : List (List Char)) (line s : List Char)
    (clear : ∀ other ∈ done, '\n' ∉ other) (open_ : '\n' ∉ line) :
    ∀ other ∈ linesFrom done line s, '\n' ∉ other := by
  induction s generalizing done line with
  | nil =>
    rw [linesFrom]
    split
    · simpa using clear
    · simpa [or_imp, forall_and, open_] using clear
  | cons c rest ih =>
    by_cases ends : c = '\n'
    · subst ends
      rw [linesFrom]
      refine ih (closeLine line :: done) [] ?_ (by simp)
      simpa [clear] using ⟨fun member => open_ (closeLine_subset line member), clear⟩
    · rw [linesFrom]
      · exact ih done (c :: line) clear (by simp [open_, Ne.symm ends])
      · simpa using ends

theorem newline_notMem_lines (s line : List Char) (member : line ∈ lines s) : '\n' ∉ line :=
  newline_notMem_linesFrom [] [] s (by simp) (by simp) line member

theorem closeLine_append (front s : List Char) (mark : Char) (other : mark ≠ '\r') :
    closeLine (front ++ mark :: s).reverse = front ++ mark :: closeLine s.reverse := by
  cases s using List.reverseRecOn with
  | nil => simp [closeLine, other]
  | append_singleton s last =>
    by_cases ends : last = '\r' <;> simp [closeLine, ends]

theorem closeLine_eq_self (s : List Char) : closeLine s.reverse = s ↔ s.getLast? ≠ some '\r' := by
  cases s using List.reverseRecOn with
  | nil => simp [closeLine]
  | append_singleton s last =>
    by_cases ends : last = '\r'
    · simp [closeLine, ends]
    · simp [closeLine, ends]

end Text

namespace BuildId

def isLowerHex (c : Char) : Bool := c.isDigit || ('a' ≤ c && c ≤ 'f')

def IsNormal (id : String) : Prop :=
  ∃ digits, id.toList = '0' :: 'x' :: digits ∧ digits.length = digitCount ∧
    ∀ c ∈ digits, isLowerHex c = true

theorem IsNormal.clear {id : String} (normal : IsNormal id) :
    '=' ∉ id.toList ∧ '\n' ∉ id.toList ∧ id.toList ≠ [] := by
  obtain ⟨digits, text, -, hex⟩ := normal
  have others : ∀ c, isLowerHex c = false → c ∉ digits := fun c other member => by
    simp [hex c member] at other
  simp [text, others '=' (by decide), others '\n' (by decide)]

end BuildId

namespace Index

open Text

def OneLine (text : String) : Prop :=
  '\n' ∉ text.toList ∧ text.toList.getLast? ≠ some '\r'

instance (text : String) : Decidable (OneLine text) := by
  unfold OneLine
  infer_instance

def rendered (record : IndexRecord) : List Char :=
  record.buildId.toList ++ '=' :: record.path.toList

theorem toList_render (records : List IndexRecord) :
    (render records).toList = records.flatMap fun record => rendered record ++ ['\n'] := by
  simp [render, String.toList_join, List.flatMap_map, renderRecord, rendered]

/-- The bytes of a record in the list: its build-id, an equals sign, its path and a newline. -/
def lineOf (record : IndexRecord) : List UInt8 :=
  record.buildId.toUTF8.toList ++ 0x3D :: (record.path.toUTF8.toList ++ [0x0A])

theorem bytes_render (records : List IndexRecord) :
    (render records).toUTF8.toList = records.flatMap lineOf := by
  have line : ∀ record, encode (rendered record ++ ['\n']) = lineOf record := by
    intro record
    have marks :
      String.utf8EncodeChar '=' = [0x3D] ∧ String.utf8EncodeChar '\n' = [0x0A] := by decide
    rw [lineOf, toUTF8_toList, toUTF8_toList]
    simp [encode, rendered, marks]
  rw [toUTF8_toList, toList_render, encode, List.flatMap_assoc]
  exact List.flatMap_congr fun record _ => line record

def readBack (record : IndexRecord) : Option IndexRecord :=
  match closeLine record.path.toList.reverse with
  | [] => none
  | path => some ⟨record.buildId, String.ofList path⟩

theorem parseLine_rendered (record : IndexRecord) (noMark : '=' ∉ record.buildId.toList)
    (notEmpty : record.buildId.toList ≠ []) :
    parseLine? (closeLine (rendered record).reverse) = readBack record := by
  rw [rendered, closeLine_append _ _ _ (by decide), parseLine?, cut?_append _ _ _ noMark, readBack]
  cases closeLine record.path.toList.reverse with
  | nil => simp
  | cons c path => simp [notEmpty]

theorem parse_render (records : List IndexRecord)
    (normal : ∀ record ∈ records, BuildId.IsNormal record.buildId)
    (clear : ∀ record ∈ records, '\n' ∉ record.path.toList) :
    (parse (render records)).records = records.filterMap readBack := by
  suffices lines : (lines (records.flatMap fun record => rendered record ++ ['\n'])).filterMap
      parseLine? = records.filterMap readBack by
    simpa [parse, toList_render] using lines
  induction records with
  | nil => rfl
  | cons record rest ih =>
    have further := ih (fun other member => normal other (by simp [member]))
      fun other member => clear other (by simp [member])
    obtain ⟨noMark, noFeed, known⟩ := (normal record (by simp)).clear
    have onLine : '\n' ∉ rendered record := by simp [rendered, noFeed, clear record (by simp)]
    rw [List.flatMap_cons, List.append_assoc, List.singleton_append, lines_newline _ _ onLine,
      List.filterMap_cons, parseLine_rendered record noMark known, further, List.filterMap_cons]

theorem readBack_eq_some (record : IndexRecord) (notEmpty : record.path ≠ "") :
    readBack record = some record ↔ record.path.toList.getLast? ≠ some '\r' := by
  have further : record.path.toList ≠ [] := by simpa using notEmpty
  rw [← closeLine_eq_self, readBack]
  obtain ⟨buildId, path⟩ := record
  split
  next empty => simp [empty, Ne.symm further]
  next other => simp [← String.toList_inj]

theorem clear_of_parse (body : String) :
    ∀ record ∈ (parse body).records, '\n' ∉ record.path.toList := by
  intro record member
  obtain ⟨line, isLine, parsed⟩ := List.mem_filterMap.1 member
  have clear := newline_notMem_lines _ line isLine
  unfold parseLine? at parsed
  split at parsed
  next buildId path found =>
    split at parsed
    · cases parsed
    · obtain rfl := Option.some.inj parsed
      rw [((cut?_eq_some _ _ _ _).1 found).2] at clear
      simpa using fun member => clear (by simp [member])
  next => cases parsed

theorem filterMap_eq_self {α : Type} (f : α → Option α) (items : List α) :
    items.filterMap f = items ↔ ∀ item ∈ items, f item = some item := by
  constructor
  · intro same
    induction items with
    | nil => simp
    | cons item rest ih =>
      rw [List.filterMap_cons] at same
      split at same
      next lost =>
        have shorter := List.length_filterMap_le f rest
        rw [same, List.length_cons] at shorter
        omega
      next kept found =>
        obtain ⟨here, further⟩ := List.cons.inj same
        simpa [found, here] using ih further
  · intro fixed
    induction items with
    | nil => rfl
    | cons item rest ih =>
      rw [List.filterMap_cons, fixed item (by simp),
        ih fun other member => fixed other (by simp [member])]

theorem parse_render_iff (records : List IndexRecord)
    (normal : ∀ record ∈ records, BuildId.IsNormal record.buildId)
    (notEmpty : ∀ record ∈ records, record.path ≠ "") :
    (parse (render records)).records = records ↔ ∀ record ∈ records, OneLine record.path := by
  constructor
  · intro same record member
    have clear : ∀ record ∈ records, '\n' ∉ record.path.toList := by
      rw [← same]
      exact clear_of_parse (render records)
    rw [parse_render records normal clear, filterMap_eq_self] at same
    exact ⟨clear record member, (readBack_eq_some record (notEmpty record member)).1
      (same record member)⟩
  · intro lines
    rw [parse_render records normal fun record member => (lines record member).1, filterMap_eq_self]
    exact fun record member =>
      (readBack_eq_some record (notEmpty record member)).2 (lines record member).2

end Index

end BuildIdCache
