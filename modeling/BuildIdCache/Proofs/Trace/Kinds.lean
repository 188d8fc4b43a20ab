import BuildIdCache.Proofs.Text.Lines
import BuildIdCache.Proofs.Told

set_option autoImplicit false

namespace BuildIdCache.Trace

open Text

def GivesId (line raw : List Char) : Prop := trim line = "build_id ".toList ++ raw

def NamesFile (line path : List Char) : Prop :=
  ∃ rest, trim line = "filename ".toList ++ rest ∧ trim rest = path

def isIdLine (line : List Char) : Bool :=
  "build_id ".toList.isPrefixOf (trim line) || "filename ".toList.isPrefixOf (trim line)

def isSampleLine (line : List Char) : Bool := trim line = "sample:".toList

def isRecordLine (line : List Char) : Bool :=
  !isIndented line && !(trim line).isEmpty && !isIdLine line

def Record.isInner : Record → Bool
  | .callchain | .file _ | .symbol _ | .nothing => true
  | .buildId _ | .fileName _ | .sample | .other => false

inductive Reads (line : List Char) : Record → Prop
  | buildId {raw : List Char} (gives : GivesId line raw) :
    Reads line (.buildId (BuildId.normalize (String.ofList raw)))
  | fileName {path : List Char} (names : NamesFile line path) :
    Reads line (.fileName (String.ofList path))
  | sample (notId : isIdLine line = false) (isSample : isSampleLine line = true) :
    Reads line .sample
  | other (noSample : isSampleLine line = false) (isRecord : isRecordLine line = true) :
    Reads line .other
  | inner {record : Record} (notId : isIdLine line = false) (noSample : isSampleLine line = false)
    (noRecord : isRecordLine line = false) (isInner : record.isInner = true) : Reads line record

theorem isIdLine_eq_false {line : List Char} (noId : after? "build_id ".toList (trim line) = none)
    (noFile : after? "filename ".toList (trim line) = none) : isIdLine line = false := by
  have unmarked : ∀ mark : List Char, after? mark (trim line) = none →
      mark.isPrefixOf (trim line) = false := fun mark missing => by
    rw [Bool.eq_false_iff, ne_eq, List.isPrefixOf_iff_prefix]
    rintro ⟨rest, same⟩
    rw [← same, after?_append] at missing
    cases missing
  simp only [isIdLine, unmarked _ noId, unmarked _ noFile, Bool.or_false]

theorem reads_ofLine (line : List Char) : Reads line (Record.ofLine line) := by
  simp only [Record.ofLine]
  split
  next raw gives => exact .buildId (eq_append_of_after? gives)
  next noId =>
    split
    next rest names => exact .fileName ⟨rest, eq_append_of_after? names, rfl⟩
    next noFile =>
      have notId := isIdLine_eq_false (Option.eq_none_iff_forall_ne_some.2 noId)
        (Option.eq_none_iff_forall_ne_some.2 noFile)
      have outer : isRecordLine line = (!isIndented line && !(trim line).isEmpty) := by
        rw [isRecordLine, notId, Bool.not_false, Bool.and_true]
      split
      next isSample => exact .sample notId (decide_eq_true isSample)
      next noSample =>
        split
        next flush => exact .other (decide_eq_false noSample) (outer.trans flush)
        next inside =>
          refine .inner notId (decide_eq_false noSample)
            (outer.trans (Bool.eq_false_iff.2 inside)) ?_
          repeat' split
          all_goals rfl

theorem ofLine_append {back : List Char} (blank : ∀ c ∈ back, isBlank c = true) (line : List Char) :
    Record.ofLine (line ++ back) = Record.ofLine line := by
  have flush : (!isIndented (line ++ back) && !(trim line).isEmpty) =
      (!isIndented line && !(trim line).isEmpty) := by
    by_cases empty : line = []
    · subst empty
      simp [trim, trimStart, trimEnd]
    · rw [isIndented_append empty]
  simp only [Record.ofLine, trim_append blank, flush]

theorem ofLine_withoutEnd (line : List Char) :
    Record.ofLine (withoutEnd line) = Record.ofLine line := by
  cases line using List.reverseRecOn with
  | nil => rfl
  | append_singleton front last =>
    by_cases ends : last = '\n'
    · subst ends
      rw [withoutEnd_newline, ofLine_closeLine, ofLine_append (by decide)]
    · rw [withoutEnd_other _ _ ends]

namespace Reading

variable (reading : Reading)

def past (lines : List (List Char)) : Reading := (lines.map Record.ofLine).foldl step reading

@[simp] theorem past_nil : reading.past [] = reading := rfl

@[simp] theorem past_cons (line : List Char) (rest : List (List Char)) :
    reading.past (line :: rest) = (reading.step (Record.ofLine line)).past rest := rfl

theorem past_append (lines more : List (List Char)) :
    reading.past (lines ++ more) = (reading.past lines).past more := by
  simp [past, List.foldl_append]

theorem view_past {τ : Type} (view : Reading → τ) (telling : List Char → Bool)
    (tells : ∀ (reading other : Reading) (line : List Char), view reading = view other →
      view (reading.step (Record.ofLine line)) = view (other.step (Record.ofLine line)))
    (silent : ∀ (reading : Reading) (line : List Char), telling line = false →
      view (reading.step (Record.ofLine line)) = view reading)
    (lines : List (List Char)) (other : Reading) (same : view reading = view other) :
    view (reading.past lines) = view (other.past (lines.filter telling)) := by
  induction lines generalizing reading other with
  | nil => exact same
  | cons line rest ih =>
    cases told : telling line with
    | true =>
      rw [List.filter_cons_of_pos told]
      exact ih _ _ (tells reading other line same)
    | false =>
      rw [List.filter_cons_of_neg (by simp [told])]
      exact ih _ _ ((silent reading line told).trans same)

end Reading

theorem parse_eq (text : String) :
    Report.parse text =
      ⟨(Reading.start.past (fullLines text.toList)).close.reverse,
        (Reading.start.past (fullLines text.toList)).buildIds⟩ := by
  have records : (lines text.toList).map Record.ofLine =
      (fullLines text.toList).map Record.ofLine := by
    rw [lines_eq, List.map_map]
    exact List.map_congr_left fun line _ => ofLine_withoutEnd line
  rw [Report.parse, records]
  rfl

end BuildIdCache.Trace
