import BuildIdCache.BuildId
import BuildIdCache.SortedMap
import BuildIdCache.Text.Lines
import BuildIdCache.Trace.Sample

set_option autoImplicit false

namespace BuildIdCache.Trace

open Text

inductive Record
  | buildId (id : String)
  | fileName (path : String)
  | sample
  | other
  | callchain
  | file (dso : String)
  | symbol (name : String)
  | nothing
deriving DecidableEq

def isIndented : List Char → Bool
  | c :: _ => isBlank c
  | [] => false

def Record.ofLine (line : List Char) : Record :=
  let text := trim line
  if let some id := after? "build_id ".toList text then
    .buildId (BuildId.normalize (String.ofList id))
  else if let some path := after? "filename ".toList text then
    .fileName (String.ofList (trim path))
  else if text = "sample:".toList then .sample
  else if !isIndented line && !text.isEmpty then .other
  else if text = "callchain:".toList then .callchain
  else if let some dso := after? "file:".toList text then
    let dso := trim dso
    if dso.isEmpty then .nothing else .file (String.ofList dso)
  else if let some name := after? "symbol:".toList text then
    .symbol (String.ofList (trim name))
  else .nothing

-- Samples are held in reverse; the build-id that waits is for the next file name.
structure Reading where
  closed : List Sample
  opened : Option Sample
  inCallchain : Bool
  waiting : Option String
  buildIds : SortedMap String String

def nameFrame (name : String) (frame : Frame) : Frame := { frame with symbol := some name }

def nameLast (name : String) : List Frame → List Frame
  | [] => []
  | [frame] => [nameFrame name frame]
  | frame :: rest => frame :: nameLast name rest

namespace Reading

def start : Reading := ⟨[], none, false, none, .empty⟩

def close (reading : Reading) : List Sample := reading.opened.toList ++ reading.closed

def inSample (reading : Reading) (f : Sample → Sample) : Reading :=
  { reading with opened := reading.opened.map f }

def step (reading : Reading) : Record → Reading
  | .buildId id => { reading with waiting := some id }
  | .fileName path =>
    match reading.waiting with
    | some id =>
      { reading with
        waiting := none
        buildIds := (reading.buildIds.insertIfAbsent path id).2 }
    | none => reading
  | .sample =>
    { reading with closed := reading.close, opened := some ⟨none, []⟩, inCallchain := false }
  | .other => { reading with closed := reading.close, opened := none, inCallchain := false }
  | .callchain => { reading with inCallchain := true }
  | .file dso =>
    if reading.inCallchain then
      reading.inSample fun sample =>
        { sample with callchain := sample.callchain ++ [⟨dso, none⟩] }
    else reading.inSample fun sample => { sample with frame := some ⟨dso, none⟩ }
  | .symbol name =>
    if reading.inCallchain then
      reading.inSample fun sample => { sample with callchain := nameLast name sample.callchain }
    else reading.inSample fun sample => { sample with frame := sample.frame.map (nameFrame name) }
  | .nothing => reading

end Reading

structure Report where
  samples : List Sample
  buildIds : SortedMap String String

namespace Report

def empty : Report := ⟨[], .empty⟩

def ofRecords (records : List Record) : Report :=
  let reading := records.foldl Reading.step .start
  ⟨reading.close.reverse, reading.buildIds⟩

def parse (text : String) : Report := ofRecords ((lines text.toList).map Record.ofLine)

def buildId (report : Report) (dso : String) : String := (report.buildIds.get? dso).getD ""

end Report

end BuildIdCache.Trace
