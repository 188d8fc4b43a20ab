import BuildIdCache.Proofs.Index.Parse
import BuildIdCache.Proofs.Text.LaidOut

set_option autoImplicit false

namespace BuildIdCache.Index

open Text

structure Listable (record : IndexRecord) : Prop where
  known : record.buildId ≠ ""
  noMark : '=' ∉ record.buildId.toList
  noFeed : '\n' ∉ record.buildId.toList
  named : record.path ≠ ""
  line : OneLine record.path

def Malformed (line : List Char) : Prop :=
  '=' ∉ line ∨ (∃ right, line = '=' :: right) ∨ ∃ left, '=' ∉ left ∧ line = left ++ ['=']

theorem parseLine?_eq_some (line : List Char) (record : IndexRecord) :
    parseLine? line = some record ↔ line = rendered record ∧ '=' ∉ record.buildId.toList ∧
      record.buildId ≠ "" ∧ record.path ≠ "" := by
  unfold parseLine?
  constructor
  · intro parsed
    split at parsed
    next id path sides =>
      split at parsed
      · cases parsed
      next some =>
        obtain ⟨noMark, rfl⟩ := (cut?_eq_some _ _ _ _).1 sides
        obtain rfl := Option.some.inj parsed
        simpa [rendered, noMark] using some
    next => cases parsed
  · rintro ⟨rfl, noMark, known, named⟩
    rw [rendered, cut?_append _ _ _ noMark]
    simp [known, named]

theorem parseLine?_eq_none (line : List Char) : parseLine? line = none ↔ Malformed line := by
  unfold parseLine? Malformed
  constructor
  · intro unparsed
    split at unparsed
    next id path sides =>
      obtain ⟨noMark, rfl⟩ := (cut?_eq_some _ _ _ _).1 sides
      split at unparsed
      next empty =>
        rcases empty with empty | empty
        · exact .inr (.inl ⟨path, by rw [List.isEmpty_iff.1 empty, List.nil_append]⟩)
        · exact .inr (.inr ⟨id, noMark, by rw [List.isEmpty_iff.1 empty]⟩)
      next => cases unparsed
    next absent => exact .inl ((cut?_eq_none _ _).1 absent)
  · rintro (absent | ⟨right, rfl⟩ | ⟨left, noMark, rfl⟩)
    · rw [(cut?_eq_none _ _).2 absent]
    · simp [cut?]
    · rw [cut?_append _ _ _ noMark]
      simp

instance (line : List Char) : Decidable (Malformed line) :=
  decidable_of_iff _ (parseLine?_eq_none line)

theorem Malformed.closeLine {line : List Char} (malformed : Malformed line) :
    Malformed (closeLine line.reverse) := by
  rcases malformed with absent | ⟨right, rfl⟩ | ⟨left, noMark, rfl⟩
  · exact .inl fun member => absent (List.mem_reverse.1 (closeLine_subset _ member))
  · exact .inr (.inl ⟨_, closeLine_append [] right '=' (by decide)⟩)
  · exact .inr (.inr ⟨left, noMark, closeLine_append left [] '=' (by decide)⟩)

theorem Listable.closeLine {record : IndexRecord} (listable : Listable record) :
    Text.closeLine (rendered record).reverse = rendered record := by
  rw [rendered, closeLine_append _ _ _ (by decide), (closeLine_eq_self _).2 listable.line.2]

theorem Listable.parseLine? {record : IndexRecord} (listable : Listable record) :
    parseLine? (rendered record) = some record :=
  (parseLine?_eq_some _ _).2 ⟨rfl, listable.noMark, listable.known, listable.named⟩

theorem Listable.clear {record : IndexRecord} (listable : Listable record) :
    '\n' ∉ rendered record := by
  simp [rendered, listable.noFeed, listable.line.1]

/-- The lines of some records in turn, with any malformed ones among them. -/
def LinesOf (records : List IndexRecord) (lines : List (List Char)) : Prop :=
  Interspersed (fun record line => line = rendered record) Malformed records lines

theorem records_of_linesOf {records : List IndexRecord} {laid : List (List Char)} {text : String}
    (listable : ∀ record ∈ records, Listable record) (linesOf : LinesOf records laid)
    (laidOut : LaidOut laid text.toList) : (parse text).records = records := by
  have closed : ∀ line ∈ laid, parseLine? (closeLine line.reverse) = parseLine? line := by
    refine linesOf.forall_line ?_ ?_
    · rintro record member _ rfl
      rw [(listable record member).closeLine]
    · intro line malformed
      rw [(parseLine?_eq_none _).2 malformed, (parseLine?_eq_none _).2 malformed.closeLine]
  calc (parse text).records = laid.filterMap parseLine? := laidOut.filterMap_lines rfl closed
    _ = records.filterMap some := linesOf.filterMap
        (fun record member line same => same ▸ (listable record member).parseLine?)
        fun line => (parseLine?_eq_none line).2
    _ = records := List.filterMap_some

theorem map_rendered_parse (text : String) :
    (parse text).records.map rendered =
      (lines text.toList).filter fun line => ¬Malformed line := by
  rw [parse]
  induction lines text.toList with
  | nil => rfl
  | cons line rest ih =>
    cases parsed : parseLine? line with
    | none =>
      have malformed := (parseLine?_eq_none line).1 parsed
      simpa [parsed, malformed] using ih
    | some record =>
      have whole : ¬Malformed line := fun malformed => by
        simp [(parseLine?_eq_none line).2 malformed] at parsed
      obtain ⟨same, -⟩ := (parseLine?_eq_some line record).1 parsed
      simpa [parsed, whole, ← same] using ih

theorem lookup?_eq_some (index : Index) (id path : String) :
    index.lookup? id = some path ↔ ∃ before after,
      index.records = before ++ ⟨id, path⟩ :: after ∧ ∀ earlier ∈ before, earlier.buildId ≠ id := by
  simp only [lookup?, Option.map_eq_some_iff, List.find?_eq_some_iff_append]
  constructor
  · rintro ⟨record, ⟨same, before, after, split, first⟩, rfl⟩
    obtain rfl := of_decide_eq_true same
    exact ⟨before, after, split, by simpa using first⟩
  · rintro ⟨before, after, split, first⟩
    exact ⟨⟨id, path⟩, ⟨by simp, before, after, split, by simpa using first⟩, rfl⟩

theorem lookup?_eq_none (index : Index) (id : String) :
    index.lookup? id = none ↔ ∀ record ∈ index.records, record.buildId ≠ id := by
  simp [lookup?]

theorem linesOf_rendered (records : List IndexRecord) : LinesOf records (records.map rendered) := by
  induction records with
  | nil => exact .nil
  | cons record rest ih => exact .shows rfl ih

theorem laidOut_render {records : List IndexRecord}
    (listable : ∀ record ∈ records, Listable record) :
    LaidOut (records.map rendered) (render records).toList := by
  rw [toList_render]
  induction records with
  | nil => exact .nil
  | cons record rest ih =>
    have further := ih fun other member => listable other (by simp [member])
    rw [List.map_cons, List.flatMap_cons, List.append_assoc]
    exact .ended (listable record (by simp)).clear (by simp) further

theorem parse_linesOf (records : List IndexRecord)
    (listable : ∀ record ∈ records, Listable record) :
    (parse (render records)).records = records ∧
      (∀ laid text, LinesOf records laid → LaidOut laid text.toList →
        (parse text).records = records ∧
          ∀ id, (∀ path, (parse text).lookup? id = some path ↔
              ∃ before after, records = before ++ ⟨id, path⟩ :: after ∧
                ∀ earlier ∈ before, earlier.buildId ≠ id) ∧
            ((parse text).lookup? id = none ↔ ∀ record ∈ records, record.buildId ≠ id)) ∧
      ∀ text, (parse text).records.map rendered =
        (lines text.toList).filter fun line => ¬Malformed line := by
  refine ⟨records_of_linesOf listable (linesOf_rendered records) (laidOut_render listable), ?_,
    map_rendered_parse⟩
  intro laid text linesOf laidOut
  have same := records_of_linesOf listable linesOf laidOut
  refine ⟨same, fun id => ⟨fun path => ?_, ?_⟩⟩
  · rw [lookup?_eq_some, same]
  · rw [lookup?_eq_none, same]

theorem parse_linesOf_sample :
    (parse "x\n0x1=a=b\r\n=c\nd=\r\n0x1=a").records = [⟨"0x1", "a=b"⟩, ⟨"0x1", "a"⟩] ∧
      (parse "x\n0x1=a=b\r\n=c\nd=\r\n0x1=a").lookup? "0x1" = some "a=b" := by
  have listable : ∀ record ∈ [⟨"0x1", "a=b"⟩, ⟨"0x1", "a"⟩], Listable record := by
    simp only [List.mem_cons, List.not_mem_nil, or_false, forall_eq_or_imp, forall_eq]
    constructor <;> constructor <;> decide
  have linesOf : LinesOf [⟨"0x1", "a=b"⟩, ⟨"0x1", "a"⟩]
      [['x'], "0x1=a=b".toList, ['=', 'c'], ['d', '='], "0x1=a".toList] :=
    .silent (by decide) (.shows (by decide) (.silent (by decide) (.silent (by decide)
      (.shows (by decide) .nil))))
  have laidOut : LaidOut [['x'], "0x1=a=b".toList, ['=', 'c'], ['d', '='], "0x1=a".toList]
      "x\n0x1=a=b\r\n=c\nd=\r\n0x1=a".toList :=
    @LaidOut.ended _ ['\n'] _ _ (by decide) (by decide)
      (@LaidOut.ended _ ['\r', '\n'] _ _ (by decide) (by decide)
        (@LaidOut.ended _ ['\n'] _ _ (by decide) (by decide)
          (@LaidOut.ended _ ['\r', '\n'] _ _ (by decide) (by decide) (.last (by decide)))))
  obtain ⟨-, read, -⟩ := parse_linesOf _ listable
  obtain ⟨same, found⟩ := read _ _ linesOf laidOut
  exact ⟨same, ((found "0x1").1 "a=b").2 ⟨[], _, rfl, by simp⟩⟩

end BuildIdCache.Index
