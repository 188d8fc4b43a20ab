import BuildIdCache.Tool.Basic
import BuildIdCache.Trace.Report

set_option autoImplicit false

namespace BuildIdCache.Trace

variable {σ : Type}

def recordFileMagic : List UInt8 := [0x50, 0x45, 0x52, 0x46, 0x49, 0x4C, 0x45, 0x32]

def isRecordFile (content : ByteArray) : Bool :=
  recordFileMagic.isPrefixOf (content.data.toList.take recordFileMagic.length)

def profilerName : String := "simpleperf"

def dumpCalls (path : Path) : List (List (List UInt8)) :=
  let word (text : String) : List UInt8 := text.toUTF8.toList
  [[word "report-sample", word "--show-callchain", word "-i", path.bytes],
    [word "dump", path.bytes]]

def dumpPart (tools : Tools σ) (profiler : Path) (text : String)
    (arguments : List (List UInt8)) : Action σ String := do
  let output ← tools.run profiler arguments
  if output.status ≠ 0 then throw (.tool (.exited profiler output.status))
  return text ++ output.text ++ "\n"

def dumpText (tools : Tools σ) (env : Environment) (profiler : Option Path) (path : Path) :
    Action σ String := do
  let fs ← Action.files
  match profiler.or (env.find? fs profilerName) with
  | none => throw (.tool .noProfiler)
  | some profiler => (dumpCalls path).foldlM (dumpPart tools profiler) ""

def recordText (tools : Tools σ) (env : Environment) (profiler : Option Path) (path : Path) :
    Action σ String := do
  if !(← Action.isFile path) then throw (.trace (.fileNotFound path))
  let content ← Action.read path
  if isRecordFile content then dumpText tools env profiler path
  else return decodeLossy content

structure Reader where
  profiler : Option Path
  report : Report
  next : Nat
  current : Option Nat

namespace Reader

def new (profiler : Option Path) : Reader := ⟨profiler, .empty, 0, none⟩

def loadText (reader : Reader) (text : String) : Reader :=
  { reader with report := .parse text, next := 0, current := none }

/-- A step that changes a reader. When it fails, it keeps the changes that it made before. -/
abbrev Step (σ α : Type) : Type := ExceptT CacheError (StateT Reader (StateM (World σ))) α

def Step.ofAction {α : Type} (action : Action σ α) : Step σ α :=
  fun reader world => (((action world).1, reader), (action world).2)

def setRecordFile (tools : Tools σ) (env : Environment) (path : Path) : Step σ Unit := do
  let text ← Step.ofAction (recordText tools env (← get).profiler path)
  modify (·.loadText text)

def openTrace (reader : Reader) (tools : Tools σ) (env : Environment) (path : Path) :
    Action σ Reader := fun world =>
  match setRecordFile tools env path reader world with
  | ((.ok (), opened), after) => (.ok opened, after)
  | ((.error e, _), after) => (.error e, after)

def sampleCount (reader : Reader) : Nat := reader.report.samples.length

def advance (reader : Reader) : Bool × Reader :=
  if reader.next < reader.sampleCount then
    (true, { reader with current := some reader.next, next := reader.next + 1 })
  else (false, { reader with current := none })

def sample? (reader : Reader) : Option Sample :=
  reader.current.bind fun i => reader.report.samples[i]?

def symbol? (reader : Reader) : Option Frame := reader.sample?.bind (·.frame)

def callchain (reader : Reader) : List Frame :=
  match reader.sample? with
  | some sample => sample.callchain
  | none => []

def remaining (reader : Reader) : List Sample := reader.report.samples.drop reader.next

def traceReader (reader : Reader) (tools : Tools σ) (env : Environment) : TraceReader σ where
  openTrace path := do
    let opened ← reader.openTrace tools env path
    return ⟨opened.remaining, none, fun dso => return opened.report.buildId dso⟩

end Reader

end BuildIdCache.Trace
