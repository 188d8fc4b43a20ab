import Mathlib
import BuildIdCache.Proofs.FileSystem.Steady
import BuildIdCache.Proofs.Text.Lossy
import BuildIdCache.Proofs.Trace

set_option autoImplicit false

namespace BuildIdCache

variable {σ : Type}

namespace Tools

variable (tools : Tools σ) (tool : Path)

inductive Prints : World σ → List (List (List UInt8)) → List ByteArray → World σ → Prop
  | none {world : World σ} : Prints world [] [] world
  | next {world between after : World σ} {arguments : List (List UInt8)} {stdout : ByteArray}
      {calls : List (List (List UInt8))} {outputs : List ByteArray}
      (ran : tools.spawn tool arguments world = (.ok ⟨0, stdout⟩, between))
      (further : Prints between calls outputs after) :
      Prints world (arguments :: calls) (stdout :: outputs) after

inductive Fails : World σ → List (List (List UInt8)) → Prop
  | notRun {world after : World σ} {arguments : List (List UInt8)} {e : IoError}
      {calls : List (List (List UInt8))}
      (ran : tools.spawn tool arguments world = (.error e, after)) :
      Fails world (arguments :: calls)
  | exited {world after : World σ} {arguments : List (List UInt8)} {output : ToolOutput}
      {calls : List (List (List UInt8))}
      (ran : tools.spawn tool arguments world = (.ok output, after)) (bad : output.status ≠ 0) :
      Fails world (arguments :: calls)
  | later {world between : World σ} {arguments : List (List UInt8)} {stdout : ByteArray}
      {calls : List (List (List UInt8))}
      (ran : tools.spawn tool arguments world = (.ok ⟨0, stdout⟩, between))
      (further : Fails between calls) : Fails world (arguments :: calls)

theorem prints_or_fails (calls : List (List (List UInt8))) (world : World σ) :
    (∃ outputs after, Prints tools tool world calls outputs after) ∨
      Fails tools tool world calls := by
  induction calls generalizing world with
  | nil => exact .inl ⟨[], world, .none⟩
  | cons arguments calls ih =>
    rcases ran : tools.spawn tool arguments world with ⟨e | ⟨status, stdout⟩, between⟩
    · exact .inr (.notRun ran)
    · by_cases good : status = 0
      · subst good
        rcases ih between with ⟨outputs, after, prints⟩ | fails
        · exact .inl ⟨stdout :: outputs, after, .next ran prints⟩
        · exact .inr (.later ran fails)
      · exact .inr (.exited ran good)

variable {tools tool}

theorem run_eq {arguments : List (List UInt8)} {world after : World σ}
    {answer : Except IoError ToolOutput}
    (ran : tools.spawn tool arguments world = (answer, after)) :
    tools.run tool arguments world =
      (match answer with
        | .ok output => .ok output
        | .error e => .error (.tool (.notSpawned tool e)), after) := by
  have lifted : (liftM (tools.spawn tool arguments) : Action σ (Except IoError ToolOutput)) world =
      (.ok (tools.spawn tool arguments world).1, (tools.spawn tool arguments world).2) := rfl
  rw [ran] at lifted
  rw [Tools.run, Action.bind_of_ok _ _ _ _ _ lifted]
  cases answer <;> rfl

end Tools

namespace Trace

open Text Utf8

theorem isRecordFile_iff (content : ByteArray) :
    isRecordFile content = true ↔ recordFileMagic <+: content.data.toList := by
  rw [isRecordFile, List.isPrefixOf_iff_prefix, List.prefix_take_iff]
  exact and_iff_left (Nat.le_refl _)

def joinOutputs (outputs : List ByteArray) : ByteArray :=
  ⟨(outputs.flatMap fun output => output.data.toList ++ [0x0A]).toArray⟩

theorem decodeLossy_joinOutputs (output : ByteArray) (outputs : List ByteArray) :
    decodeLossy (joinOutputs (output :: outputs)) =
      decodeLossy output ++ "\n" ++ decodeLossy (joinOutputs outputs) := by
  simp only [BuildIdCache.decodeLossy, joinOutputs, List.flatMap_cons, List.append_assoc,
    List.singleton_append, decodeLossy_newline]
  simp [← String.toList_inj]

section Dump

variable {tools : Tools σ} {tool path : Path} {world after : World σ}
  {calls : List (List (List UInt8))}

theorem dumpPart_of_printed {between : World σ} {arguments : List (List UInt8)} {stdout : ByteArray}
    (ran : tools.spawn tool arguments world = (.ok ⟨0, stdout⟩, between)) (text : String) :
    dumpPart tools tool text arguments world =
      (.ok (text ++ decodeLossy stdout ++ "\n"), between) := by
  rw [dumpPart, Action.bind_of_ok _ _ _ _ _ (Tools.run_eq ran)]
  rfl

theorem foldlM_of_prints {outputs : List ByteArray}
    (prints : tools.Prints tool world calls outputs after) (text : String) :
    (calls.foldlM (dumpPart tools tool) text) world =
      (.ok (text ++ decodeLossy (joinOutputs outputs)), after) := by
  induction prints generalizing text with
  | none =>
    have nothing : decodeLossy (joinOutputs []) = "" := rfl
    rw [nothing, String.append_empty]
    rfl
  | @next world between after arguments stdout calls outputs ran further ih =>
    rw [List.foldlM_cons, Action.bind_of_ok _ _ _ _ _ (dumpPart_of_printed ran text), ih,
      decodeLossy_joinOutputs]
    simp [String.append_assoc]

theorem foldlM_of_fails (fails : tools.Fails tool world calls) (text : String) :
    ∃ e after, (calls.foldlM (dumpPart tools tool) text) world = (.error e, after) := by
  induction fails generalizing text with
  | @notRun world after arguments e calls ran =>
    have part : dumpPart tools tool text arguments world = _ :=
      Action.bind_of_error _ _ _ _ _ (Tools.run_eq ran)
    rw [List.foldlM_cons, Action.bind_of_error _ _ _ _ _ part]
    exact ⟨_, _, rfl⟩
  | @exited world after arguments output calls ran bad =>
    have part : dumpPart tools tool text arguments world =
        (.error (.tool (.exited tool output.status)), after) := by
      rw [dumpPart, Action.bind_of_ok _ _ _ _ _ (Tools.run_eq ran)]
      simp only [ne_eq, bad, not_false_eq_true, if_true]
      rfl
    rw [List.foldlM_cons, Action.bind_of_error _ _ _ _ _ part]
    exact ⟨_, _, rfl⟩
  | @later world between arguments stdout calls ran further ih =>
    rw [List.foldlM_cons, Action.bind_of_ok _ _ _ _ _ (dumpPart_of_printed ran text)]
    exact ih _

end Dump

section Record

variable {tools : Tools σ} {env : Environment} {profiler : Option Path} {path tool : Path}
  {world after : World σ} {content : ByteArray}

theorem recordText_of_read (read : world.files.read path = .ok content) :
    recordText tools env profiler path world =
      if recordFileMagic <+: content.data.toList then dumpText tools env profiler path world
      else (.ok (decodeLossy content), world) := by
  have isFile : world.files.isFile path = true := (FileSystem.isFile_iff _ _).2 ⟨content, read⟩
  have asked : (Action.isFile path : Action σ Bool) world = (.ok true, world) := by
    rw [← isFile]
    rfl
  have opened : (Action.read path : Action σ ByteArray) world = (.ok content, world) := by
    have listed : (Action.files : Action σ FileSystem) world = (.ok world.files, world) := rfl
    rw [Action.read, Action.bind_of_ok _ _ _ _ _ listed, read]
    rfl
  rw [recordText, Action.bind_of_ok _ _ _ _ _ asked]
  simp only [Bool.not_true, Bool.false_eq_true, if_false]
  rw [Action.bind_of_ok _ _ _ _ _ opened]
  simp only [isRecordFile_iff]
  split <;> rfl

theorem dumpText_of_found (found : profiler.or (env.find? world.files profilerName) = some tool) :
    dumpText tools env profiler path world =
      ((dumpCalls path).foldlM (dumpPart tools tool) "") world := by
  have listed : (Action.files : Action σ FileSystem) world = (.ok world.files, world) := rfl
  rw [dumpText, Action.bind_of_ok _ _ _ _ _ listed, found]

theorem recordText_of_prints {outputs : List ByteArray} (read : world.files.read path = .ok content)
    (isRecord : recordFileMagic <+: content.data.toList)
    (found : profiler.or (env.find? world.files profilerName) = some tool)
    (prints : tools.Prints tool world (dumpCalls path) outputs after) :
    recordText tools env profiler path world =
      (.ok (decodeLossy (joinOutputs outputs)), after) := by
  rw [recordText_of_read read, if_pos isRecord, dumpText_of_found found, foldlM_of_prints prints,
    String.empty_append]

end Record

theorem Reader.openTrace_of_recordText {tools : Tools σ} {env : Environment} {reader : Reader}
    {path : Path} {world after : World σ} {text : String}
    (read : recordText tools env reader.profiler path world = (.ok text, after)) :
    reader.openTrace tools env path world = (.ok (reader.loadText text), after) := by
  rw [openTrace_eq, Action.bind_of_ok _ _ _ _ _ read]
  rfl

theorem Reader.openTrace_dumped (reader : Reader) {tools : Tools σ} {env : Environment}
    {path tool : Path} {world after : World σ} {content report dump : ByteArray}
    (read : world.files.read path = .ok content)
    (isRecord : recordFileMagic <+: content.data.toList)
    (found : reader.profiler.or (env.find? world.files profilerName) = some tool)
    (prints : tools.Prints tool world (dumpCalls path) [report, dump] after)
    (plain : ¬recordFileMagic <+: (joinOutputs [report, dump]).data.toList) :
    let loaded := reader.loadText (decodeLossy (joinOutputs [report, dump]))
    reader.openTrace tools env path world = (.ok loaded, after) ∧
      ∀ (other : Path) (elsewhere : World σ),
        elsewhere.files.read other = .ok (joinOutputs [report, dump]) →
        reader.openTrace tools env other elsewhere = (.ok loaded, elsewhere) := by
  refine ⟨openTrace_of_recordText (recordText_of_prints read isRecord found prints),
    fun other elsewhere written => openTrace_of_recordText ?_⟩
  rw [recordText_of_read written, if_neg plain]

namespace Sample

def report : ByteArray := ⟨#[0x61, 0x0A, 0xC3]⟩

def dump : ByteArray := ⟨#[0xA9, 0x0A, 0xFF]⟩

def profiler : Tools Unit where
  spawn _ arguments :=
    return .ok ⟨0, if arguments.head? = some "dump".toUTF8.toList then dump else report⟩

def recordName : Name := ⟨[0x72], by decide⟩

def textName : Name := ⟨[0x74], by decide⟩

def record : ByteArray := ⟨(recordFileMagic ++ [0, 1]).toArray⟩

def recorded : World Unit where
  files := (FileSystem.empty.put [] recordName (.file record)).put [] textName
    (.file (joinOutputs [report, dump]))
  rest := ()

end Sample

theorem Reader.openTrace_dumped_sample :
    let reader := Reader.new (some (.ofString "p"))
    let loaded := reader.loadText (decodeLossy (joinOutputs [Sample.report, Sample.dump]))
    reader.openTrace Sample.profiler default (.ofString "r") Sample.recorded =
        (.ok loaded, Sample.recorded) ∧
      reader.openTrace Sample.profiler default (.ofString "t") Sample.recorded =
        (.ok loaded, Sample.recorded) := by
  intro reader loaded
  have read : Sample.recorded.files.read (.ofString "r") = .ok Sample.record := by cbv
  have written : Sample.recorded.files.read (.ofString "t") =
      .ok (joinOutputs [Sample.report, Sample.dump]) := by cbv
  have prints : Sample.profiler.Prints (.ofString "p") Sample.recorded (dumpCalls (.ofString "r"))
      [Sample.report, Sample.dump] Sample.recorded := .next (by cbv) (.next (by cbv) .none)
  have plain : ¬recordFileMagic <+: (joinOutputs [Sample.report, Sample.dump]).data.toList := by
    rw [← isRecordFile_iff, Bool.not_eq_true]
    cbv
  obtain ⟨dumped, text⟩ := reader.openTrace_dumped read (by decide) rfl prints plain
  exact ⟨dumped, text (.ofString "t") Sample.recorded written⟩

end Trace

end BuildIdCache
