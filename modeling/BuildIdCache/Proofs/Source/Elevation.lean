import BuildIdCache.Device.Adb
import BuildIdCache.Proofs.Source.Calls
import BuildIdCache.Proofs.Text.Word

set_option autoImplicit false

namespace BuildIdCache

open DeviceSource Text

variable {σ : Type}

structure Run where
  program : Path
  arguments : List (List UInt8)
  answer : Except IoError ToolOutput

def words (arguments : List String) : List (List UInt8) :=
  arguments.map fun argument => argument.toUTF8.toList

theorem toUTF8_injective : Function.Injective fun text : String => text.toUTF8.toList := by
  intro a b same
  simp only [toUTF8_toList] at same
  exact String.toList_inj.1 (encode_injective same)

theorem words_injective : Function.Injective words := List.map_injective_iff.2 toUTF8_injective

theorem words_prefix_iff (first arguments : List String) :
    words first <+: words arguments ↔ first <+: arguments := by
  constructor
  · rintro ⟨rest, same⟩
    obtain ⟨front, rest', rfl, same', -⟩ := List.map_eq_append_iff.1 same.symm
    exact ⟨rest', by rw [words_injective same']⟩
  · exact fun starts => starts.map _

namespace Run

variable (run : Run)

def Is (arguments : List String) : Prop := run.arguments = words arguments

def Begins (first : List String) : Prop := words first <+: run.arguments

def text? : Option String :=
  match run.answer with
  | .ok output => if output.status = 0 then some output.text else none
  | .error _ => none

def TellsRoot : Prop := ∃ text, run.text? = some text ∧ "root".toList <:+: text.toList

def TellsUser : Prop := ∃ text, run.text? = some text ∧ String.ofList (trim text.toList) = "user"

variable {run}

theorem Is.is_iff {arguments : List String} (is : run.Is arguments) (other : List String) :
    run.Is other ↔ arguments = other := by
  rw [Is, show run.arguments = _ from is, words_injective.eq_iff]

theorem Is.begins_iff {arguments : List String} (is : run.Is arguments) (first : List String) :
    run.Begins first ↔ first <+: arguments := by
  rw [Begins, show run.arguments = _ from is, words_prefix_iff]

end Run

structure Tools.Logs (tools : Tools σ) (log : σ → List Run) : Prop where
  spawn : ∀ program arguments world, (tools.spawn program arguments).After world
    fun answer after => log after.rest = log world.rest ++ [⟨program, arguments, answer⟩]

def Tools.recorded (tools : Tools σ) (runs : Part σ (List Run)) : Tools σ where
  spawn program arguments := do
    let answer ← tools.spawn program arguments
    runs.modify (· ++ [⟨program, arguments, answer⟩])
    return answer

theorem Tools.recorded_logs (tools : Tools σ) (runs : Part σ (List Run))
    (lawful : ∀ new rest, runs.get (runs.set new rest) = new)
    (leaves : ∀ program arguments,
      (tools.spawn program arguments).Leaves fun world => runs.get world.rest) :
    (tools.recorded runs).Logs runs.get where
  spawn program arguments world := by
    simp only [recorded, Effect.after_bind, Effect.after_modify, Effect.after_pure]
    refine (leaves program arguments world).mono fun answer after same => ?_
    rw [lawful, show runs.get after.rest = runs.get world.rest from same]

def Runs (log : σ → List Run) (arguments : List String) (world after : World σ) (run : Run) :
    Prop :=
  run.Is arguments ∧ log after.rest = log world.rest ++ [run]

namespace Adb

variable {tools : Tools σ} {log : σ → List Run} {adb : Connection}

theorem available_of_missing (missing : adb.program = none) (world : World σ) :
    (bridge tools adb).available world = (false, world) := by
  simp only [bridge, run, output?, missing]
  rfl

variable (logs : tools.Logs log) {program : Path} (has : adb.program = some program)

include logs has

theorem after_output? (arguments : List String) (world : World σ) :
    (output? tools adb arguments).After world fun text after =>
      ∃ run, Runs log arguments world after run ∧ text = run.text? := by
  simp only [output?, has, Effect.after_bind]
  refine (logs.spawn program _ world).mono fun answer after added => ?_
  cases answer with
  | ok output => exact ⟨⟨program, words arguments, .ok output⟩, ⟨rfl, added⟩, rfl⟩
  | error e => exact ⟨⟨program, words arguments, .error e⟩, ⟨rfl, added⟩, rfl⟩

theorem after_run (arguments : List String) (world : World σ) :
    (run tools adb arguments).After world fun _ after =>
      ∃ run, Runs log arguments world after run := by
  simp only [run, Effect.after_bind, Effect.after_pure]
  exact (after_output? logs has arguments world).mono fun _ _ ran => ran.imp fun _ made => made.1

theorem after_isRoot (world : World σ) :
    (isRoot tools adb).After world fun rooted after =>
      ∃ run, Runs log ["shell", "whoami"] world after run ∧ (rooted = true ↔ run.TellsRoot) := by
  simp only [isRoot, Effect.after_bind]
  refine (after_output? logs has _ world).mono fun text after ran => ?_
  obtain ⟨run, made, rfl⟩ := ran
  cases told : run.text? with
  | some text =>
    rw [Effect.after_pure, isSome_afterFirst?]
    exact ⟨run, made, by simp only [Run.TellsRoot, told, Option.some.injEq, exists_eq_left']⟩
  | none =>
    rw [Effect.after_pure]
    exact ⟨run, made, by simp [Run.TellsRoot, told]⟩

theorem after_buildType? (world : World σ) :
    (buildType? tools adb).After world fun type after =>
      ∃ run, Runs log ["shell", "getprop", "ro.build.type"] world after run ∧
        (type = some "user" ↔ run.TellsUser) := by
  simp only [buildType?, Effect.after_bind, Effect.after_pure]
  refine (after_output? logs has _ world).mono fun text after ran => ?_
  obtain ⟨run, made, rfl⟩ := ran
  refine ⟨run, made, ?_⟩
  cases told : run.text? with
  | some text => simp [Run.TellsUser, told]
  | none => simp [Run.TellsUser, told]

omit logs has

/-- What is run to become root, and whether that worked. Root is asked for only of a device that
does not say that it is root, nor that it is a user build. -/
inductive Switches : List Run → Bool → Prop
  | already {whoami : Run} (asks : whoami.Is ["shell", "whoami"]) (root : whoami.TellsRoot) :
      Switches [whoami] true
  | refused {whoami getprop : Run} (asks : whoami.Is ["shell", "whoami"])
      (plain : ¬whoami.TellsRoot) (asksType : getprop.Is ["shell", "getprop", "ro.build.type"])
      (user : getprop.TellsUser) : Switches [whoami, getprop] false
  | asked {whoami getprop root wait again : Run} {rooted : Bool}
      (asks : whoami.Is ["shell", "whoami"]) (plain : ¬whoami.TellsRoot)
      (asksType : getprop.Is ["shell", "getprop", "ro.build.type"]) (notUser : ¬getprop.TellsUser)
      (switches : root.Is ["root"]) (waits : wait.Is ["wait-for-device"])
      (asksAgain : again.Is ["shell", "whoami"]) (decides : rooted = true ↔ again.TellsRoot) :
      Switches [whoami, getprop, root, wait, again] rooted

theorem switchToRoot_of_disabled (disabled : adb.mayRoot = false) (world : World σ) :
    switchToRoot tools adb world = (false, world) := by
  simp only [switchToRoot, disabled, Bool.not_false, if_true]
  rfl

include logs has

theorem after_switchToRoot (enabled : adb.mayRoot = true) (world : World σ) :
    (switchToRoot tools adb).After world fun rooted after =>
      ∃ runs, log after.rest = log world.rest ++ runs ∧ Switches runs rooted := by
  simp only [switchToRoot, enabled, Bool.not_true, Bool.false_eq_true, if_false, Effect.after_bind]
  refine (after_isRoot logs has world).mono fun rooted first ran => ?_
  obtain ⟨whoami, ⟨asks, added⟩, tells⟩ := ran
  cases rooted with
  | true => exact ⟨_, added, .already asks (tells.1 rfl)⟩
  | false =>
    have plain : ¬whoami.TellsRoot := fun root => by cases tells.2 root
    simp only [Bool.false_eq_true, if_false, Effect.after_bind]
    refine (after_buildType? logs has first).mono fun type second ran => ?_
    obtain ⟨getprop, ⟨asksType, added'⟩, isUser⟩ := ran
    rw [added, List.append_assoc] at added'
    split
    next user => exact ⟨_, added', .refused asks plain asksType (isUser.1 user)⟩
    next other =>
      simp only [Effect.after_bind]
      refine (after_run logs has _ second).mono fun _ third ran => ?_
      obtain ⟨root, switches, added''⟩ := ran
      refine (after_run logs has _ third).mono fun _ fourth ran => ?_
      obtain ⟨wait, waits, added₃⟩ := ran
      refine (after_isRoot logs has fourth).mono fun rooted fifth ran => ?_
      obtain ⟨again, ⟨asksAgain, added₄⟩, decides⟩ := ran
      refine ⟨_, ?_, .asked asks plain asksType (mt isUser.2 other) switches waits asksAgain
        decides⟩
      rw [added₄, added₃, added'', added']
      simp

end Adb

namespace DeviceSource

variable {inspector : Inspector σ} {tools : Tools σ} {log : σ → List Run} {adb : Adb.Connection}
  {binaries : RequiredBinaries} {cache : Cache} {world : World σ}

inductive Serves (path : String) (run : Run) : Prop
  | copy (is : run.Is ["shell", "cp", path, scratchDir])
  | remove (is : run.Is ["shell", "rm", stagedPath scratchDir path])
  | pull (host : String) (is : run.Is ["pull", path, host])
  | pullCopy (host : String) (is : run.Is ["pull", stagedPath scratchDir path, host])

def Serving (binaries : RequiredBinaries) (run : Run) : Prop :=
  run.Is ["shell", "whoami"] ∨ ∃ path, Asked binaries path ∧ Serves path run

def Elevates (runs : List Run) : Prop :=
  ∃ asking rooted rest, runs = asking ++ rest ∧ Adb.Switches asking rooted ∧
    (rest = [] ∨ rooted = true ∧ ∃ echo pull, rest = [echo, pull] ∧
      echo.Is ["shell", "echo", "0", ">/proc/sys/kernel/kptr_restrict"] ∧
      ∃ host, pull.Is ["pull", deviceKernelSymbols, host])

def Ran (log : σ → List Run) (start : List Run) (kind : Run → Prop) (after : World σ) : Prop :=
  ∃ made, log after.rest = start ++ made ∧ ∀ run ∈ made, kind run

theorem Ran.next {start : List Run} {kind : Run → Prop} {first second : World σ} {run : Run}
    {arguments : List String} (ran : Ran log start kind first)
    (runs : Runs log arguments first second run) (is : run.Is arguments → kind run) :
    Ran log start kind second := by
  obtain ⟨made, added, each⟩ := ran
  refine ⟨made ++ [run], by rw [runs.2, added, List.append_assoc], fun other member => ?_⟩
  rcases List.mem_append.1 member with earlier | last
  · exact each other earlier
  · exact List.mem_singleton.1 last ▸ is runs.1

section

variable (logs : tools.Logs log) {program : Path} (has : adb.program = some program)

include logs has

theorem keeps_serving (path : String) (asked : Asked binaries path) (start : List Run) :
    Keeps (Adb.bridge tools adb) defaultChain cache path (Ran log start (Serving binaries)) where
  shell strategy member arguments call first ran := by
    obtain rfl | rfl : strategy = .direct ∨ strategy = .scratchCopy scratchDir := by
      simpa [defaultChain] using member
    · cases call
    · refine (Adb.after_run logs has ("shell" :: arguments) first).mono fun _ second made => ?_
      obtain ⟨run, runs⟩ := made
      refine ran.next runs fun is => .inr ⟨path, asked, ?_⟩
      cases call with
      | copy => exact .copy is
      | remove => exact .remove is
  pull strategy member source target call first ran := by
    refine (Adb.after_run logs has ["pull", source, target.display] first).mono fun _ second made =>
      ?_
    obtain ⟨run, runs⟩ := made
    refine ran.next runs fun is => .inr ⟨path, asked, ?_⟩
    obtain rfl | rfl : strategy = .direct ∨ strategy = .scratchCopy scratchDir := by
      simpa [defaultChain] using member
    · cases call
      exact .pull _ is
    · cases call
      exact .pullCopy _ is

theorem ends_pullKernelSymbols_elevates (enabled : adb.mayRoot = true) (between : World σ) :
    (pullKernelSymbols (Adb.bridge tools adb) cache).Ends between
      (fun _ after => ∃ runs, log after.rest = log between.rest ++ runs ∧ Elevates runs)
      fun after => ∃ runs, log after.rest = log between.rest ++ runs ∧ Elevates runs := by
  refine ends_pullKernelSymbols_of between _ _ fun fs _ => ?_
  refine (Adb.after_switchToRoot logs has enabled _).mono fun rooted first switched => ?_
  obtain ⟨asking, added, switches⟩ := switched
  have asks : ∃ runs, log first.rest = log between.rest ++ runs ∧ Elevates runs :=
    ⟨asking, added, asking, rooted, [], by simp, switches, .inl rfl⟩
  refine ⟨fun _ => asks, fun isRooted _ => ?_, fun _ _ => asks⟩
  refine (Adb.after_run logs has _ _).mono fun _ second made => ?_
  obtain ⟨echo, isEcho, echoed⟩ := made
  refine (Adb.after_run logs has _ second).mono fun _ third made => ?_
  obtain ⟨pull, isPull, pulled⟩ := made
  refine ⟨asking ++ [echo, pull], ?_, asking, rooted, _, rfl, switches,
    .inr ⟨isRooted, echo, pull, rfl, isEcho, _, isPull⟩⟩
  rw [pulled, echoed, show log first.rest = _ from added]
  simp

end

theorem ends_pullKernelSymbols_disabled (disabled : adb.mayRoot = false) (between : World σ) :
    (pullKernelSymbols (Adb.bridge tools adb) cache).Ends between
      (fun pulled after => pulled = false ∧ after.rest = between.rest ∧
        after.files.isFile cache.kernelSymbolsPath = false)
      fun after => after.rest = between.rest := by
  refine ends_pullKernelSymbols_of between _ _ fun fs cleared => ?_
  have refused : (Adb.bridge tools adb).switchToRoot { between with files := fs } =
      (false, { between with files := fs }) := Adb.switchToRoot_of_disabled disabled _
  rw [Effect.After, refused]
  refine ⟨fun _ => ⟨rfl, rfl, FileSystem.absent_of_cleared _ cleared⟩, ?_, fun _ _ => rfl⟩
  rintro ⟨⟩

/-- The runs of a collection: those that are made for the paths, and those of the last step, in
which the kernel symbols are pulled. -/
structure Phases (log : σ → List Run) (inspector : Inspector σ) (bridge : Bridge σ)
    (binaries : RequiredBinaries) (cache : Cache) (world after : World σ)
    (serving last : List Run) : Prop where
  runs : log after.rest = log world.rest ++ (serving ++ last)
  serves : ∀ run ∈ serving, Serving binaries run
  begins : last ≠ [] → ∃ report between,
    Reports inspector bridge defaultChain cache world binaries.entries report between ∧
    log between.rest = log world.rest ++ serving ∧
      (pullKernelSymbols bridge cache between).2 = after

theorem Phases.none {bridge : Bridge σ} {after : World σ}
    (ran : Ran log (log world.rest) (Serving binaries) after) :
    ∃ serving, Phases log inspector bridge binaries cache world after serving [] := by
  obtain ⟨serving, added, serves⟩ := ran
  exact ⟨serving, by rw [added, List.append_nil], serves, fun more => absurd rfl more⟩

theorem ends_collect_phases (logs : tools.Logs log) {program : Path}
    (has : adb.program = some program)
    (quiet : ∀ path, (inspector.buildId path).Leaves fun world => log world.rest)
    (world : World σ) (done : SourceReport → World σ → Prop) (failed : World σ → Prop)
    (early : ∀ after, Ran log (log world.rest) (Serving binaries) after → failed after)
    (unavailable : ∀ after, Ran log (log world.rest) (Serving binaries) after →
      (Adb.bridge tools adb).available world = (false, after) → done (.start sourceName) after)
    (last : ∀ report between, Ran log (log world.rest) (Serving binaries) between →
      Reports inspector (Adb.bridge tools adb) defaultChain cache world binaries.entries report
        between →
      (pullKernelSymbols (Adb.bridge tools adb) cache).Ends between
        (fun kernel after => done { report with kernelSymbols := kernel } after) failed) :
    (collect inspector (Adb.bridge tools adb) defaultChain binaries cache).Ends world done
      failed := by
  refine ends_collect_of defaultChain world
    (fun _ _ after => Ran log (log world.rest) (Serving binaries) after) done failed ?_
    (fun after ran asked => unavailable after asked ran)
    (fun before path expected rest report between split _ ran => ?_)
    fun report between reports ran => last report between ran reports
  · refine (Adb.after_run logs has ["shell", "whoami"] world).mono fun _ first made => ?_
    obtain ⟨run, runs⟩ := made
    exact Ran.next ⟨[], by simp, by simp⟩ runs .inl
  · have required := SortedMap.contains_of_get? (SortedMap.get?_of_split split)
    by_cases pullable : isPullable path = true
    · have keeps : Keeps (Adb.bridge tools adb) defaultChain cache path _ :=
        keeps_serving logs has path ⟨required, pullable⟩ (log world.rest)
      have asking : ∀ first, Ran log (log world.rest) (Serving binaries) first →
          (inspector.buildId (cache.pathOf path)).After first fun _ =>
            Ran log (log world.rest) (Serving binaries) := by
        rintro first ⟨made, added, each⟩
        exact (quiet _ first).mono fun _ second same => ⟨made, same.trans added, each⟩
      exact (keeps.ends_collectBinary asking (fun _ _ ran => ran) (fun _ _ _ ran _ => ran) report
        expected between ran).mono (fun _ _ ran => ran) early
    · simp only [collectBinary, pullable, Bool.not_false, if_true]
      exact ran

structure Harmless (binaries : RequiredBinaries) (run : Run) : Prop where
  root : ¬run.Begins ["root"]
  wait : ¬run.Begins ["wait-for-device"]
  type : ¬run.Is ["shell", "getprop", "ro.build.type"]
  echo : ¬run.Is ["shell", "echo", "0", ">/proc/sys/kernel/kptr_restrict"]
  symbols : run.Begins ["pull", deviceKernelSymbols] → binaries.contains deviceKernelSymbols = true

theorem stagedPath_ne_symbols (path : String) :
    stagedPath scratchDir path ≠ deviceKernelSymbols := by
  intro same
  have chars := congrArg String.toList same
  simp [stagedPath, scratchDir, deviceKernelSymbols] at chars

theorem Serving.harmless {run : Run} (serving : Serving binaries run) : Harmless binaries run := by
  have ofArguments : ∀ arguments, run.Is arguments → ¬["root"] <+: arguments →
      ¬["wait-for-device"] <+: arguments → arguments ≠ ["shell", "getprop", "ro.build.type"] →
      arguments ≠ ["shell", "echo", "0", ">/proc/sys/kernel/kptr_restrict"] →
      (["pull", deviceKernelSymbols] <+: arguments → binaries.contains deviceKernelSymbols = true) →
      Harmless binaries run := fun arguments is root wait type echo symbols =>
    ⟨mt (is.begins_iff _).1 root, mt (is.begins_iff _).1 wait, mt (is.is_iff _).1 type,
      mt (is.is_iff _).1 echo, fun begins => symbols ((is.begins_iff _).1 begins)⟩
  rcases serving with is | ⟨path, asked, is | is | ⟨host, is⟩ | ⟨host, is⟩⟩
  · apply ofArguments _ is <;> simp
  · apply ofArguments _ is <;> simp
  · apply ofArguments _ is <;> simp
  · apply ofArguments _ is <;> simp
    rintro rfl
    exact asked.1
  · apply ofArguments _ is <;> simp [(stagedPath_ne_symbols path).symm]

def Each (fits : List Run → Run → Prop) (runs : List Run) : Prop :=
  ∀ before run rest, runs = before ++ run :: rest → fits before run

theorem each_nil (fits : List Run → Run → Prop) : Each fits [] := by
  intro before run rest split
  simp at split

theorem each_cons (fits : List Run → Run → Prop) (run : Run) (runs : List Run) :
    Each fits (run :: runs) ↔ fits [] run ∧ Each (fun before => fits (run :: before)) runs := by
  constructor
  · exact fun each => ⟨each [] run runs rfl,
      fun before other rest split => each (run :: before) other rest (by rw [split]; rfl)⟩
  · rintro ⟨first, others⟩ before other rest split
    cases before with
    | nil =>
      obtain ⟨rfl, -⟩ := List.cons.inj split
      exact first
    | cons earlier before =>
      obtain ⟨rfl, split'⟩ := List.cons.inj split
      exact others before other rest split'

theorem each_append (fits : List Run → Run → Prop) (front runs : List Run) :
    Each fits (front ++ runs) ↔
      Each fits front ∧ Each (fun before => fits (front ++ before)) runs := by
  induction front generalizing fits with
  | nil => simp [each_nil]
  | cons run front ih => simp only [List.cons_append, each_cons, ih, and_assoc]

/-- Root is asked for once, and only when the device has just said that it is not root and that it
is no user build. -/
def Justified (before : List Run) (run : Run) : Prop :=
  run.Begins ["root"] → (∀ other ∈ before, ¬other.Begins ["root"]) ∧
    ∃ front whoami getprop, before = front ++ [whoami, getprop] ∧
      whoami.Is ["shell", "whoami"] ∧ ¬whoami.TellsRoot ∧
      getprop.Is ["shell", "getprop", "ro.build.type"] ∧ ¬getprop.TellsUser

def Rooted (before : List Run) (run : Run) : Prop :=
  run.Begins ["pull", deviceKernelSymbols] →
    ∃ front whoami between, before = front ++ whoami :: between ∧
      whoami.Is ["shell", "whoami"] ∧ whoami.TellsRoot ∧
      ∀ other ∈ between, ¬other.Is ["shell", "whoami"]

theorem Elevates.justified {front last : List Run} (elevates : Elevates last)
    (plain : ∀ other ∈ front, ¬other.Begins ["root"]) :
    Each (fun before => Justified (front ++ before)) last := by
  have other : ∀ {run : Run} {arguments : List String}, run.Is arguments →
      ¬["root"] <+: arguments → ∀ before, Justified before run :=
    fun is unlike before root => absurd ((is.begins_iff _).1 root) unlike
  obtain ⟨asking, rooted, rest, rfl, switches, pulls⟩ := elevates
  rw [each_append]
  constructor
  · cases switches with
    | already asks => simp [each_cons, each_nil, other asks]
    | refused asks tells asksType => simp [each_cons, each_nil, other asks, other asksType]
    | @asked whoami getprop root wait again _ asks tells asksType notUser switches waits
        asksAgain =>
      have none : ∀ before ∈ front ++ [whoami, getprop], ¬before.Begins ["root"] := by
        simp only [List.mem_append, List.mem_cons, List.not_mem_nil, or_false]
        rintro before (earlier | rfl | rfl)
        · exact plain before earlier
        · simp [asks.begins_iff]
        · simp [asksType.begins_iff]
      have just : Justified (front ++ [whoami, getprop]) root :=
        fun _ => ⟨none, front, whoami, getprop, rfl, asks, tells, asksType, notUser⟩
      simp [each_cons, each_nil, other asks, other asksType, other waits, other asksAgain, just]
  · rcases pulls with rfl | ⟨-, echo, pull, rfl, isEcho, host, isPull⟩
    · exact each_nil _
    · simp [each_cons, each_nil, other isEcho, other isPull]

theorem Elevates.rooted {front last : List Run} (elevates : Elevates last) :
    Each (fun before => Rooted (front ++ before)) last := by
  have other : ∀ {run : Run} {arguments : List String}, run.Is arguments →
      ¬["pull", deviceKernelSymbols] <+: arguments → ∀ before, Rooted before run :=
    fun is unlike before pulls => absurd ((is.begins_iff _).1 pulls) unlike
  obtain ⟨asking, rooted, rest, rfl, switches, pulls⟩ := elevates
  have notAsking : Each (fun before => Rooted (front ++ before)) asking := by
    cases switches with
    | already asks => simp [each_cons, each_nil, other asks]
    | refused asks tells asksType => simp [each_cons, each_nil, other asks, other asksType]
    | asked asks tells asksType notUser switches waits asksAgain =>
      simp [each_cons, each_nil, other asks, other asksType, other switches, other waits,
        other asksAgain]
  refine (each_append _ _ _).2 ⟨notAsking, ?_⟩
  rcases pulls with rfl | ⟨isRooted, echo, pull, rfl, isEcho, host, isPull⟩
  · exact each_nil _
  -- The pull comes right after the runs that ask, and the last of these asked who the device is.
  · have lastAsked : ∃ before whoami, asking = before ++ [whoami] ∧
        whoami.Is ["shell", "whoami"] ∧ whoami.TellsRoot := by
      cases switches with
      | already asks root => exact ⟨[], _, rfl, asks, root⟩
      | refused => cases isRooted
      | @asked whoami getprop root wait again _ asks tells asksType notUser switches waits asksAgain
          decides => exact ⟨[whoami, getprop, root, wait], again, rfl, asksAgain,
            decides.1 isRooted⟩
    obtain ⟨before, whoami, rfl, asks, root⟩ := lastAsked
    have just : Rooted (front ++ (before ++ [whoami] ++ [echo])) pull := by
      refine fun _ => ⟨front ++ before, whoami, [echo], by simp, asks, root, ?_⟩
      simp [isEcho.is_iff]
    simp only [each_cons, each_nil, and_true]
    exact ⟨other isEcho (by simp) _, just⟩

theorem each_justified {serving : List Run} (serves : ∀ run ∈ serving, Serving binaries run) :
    Each Justified serving := by
  intro before run rest split root
  exact absurd root (serves run (by simp [split])).harmless.root

def Withheld (log : σ → List Run) (inspector : Inspector σ) (bridge : Bridge σ)
    (binaries : RequiredBinaries) (cache : Cache) (world after : World σ) : Prop :=
  ∃ serving, Phases log inspector bridge binaries cache world after serving [] ∧
    ∀ run ∈ serving, Harmless binaries run

def Granted (log : σ → List Run) (inspector : Inspector σ) (bridge : Bridge σ)
    (binaries : RequiredBinaries) (cache : Cache) (world after : World σ) : Prop :=
  ∃ serving last, Phases log inspector bridge binaries cache world after serving last ∧
    Each Justified (serving ++ last) ∧ Each (fun before => Rooted (serving ++ before)) last

section

variable {bridge : Bridge σ} {after : World σ}

theorem withheld_of_ran (ran : Ran log (log world.rest) (Serving binaries) after) :
    Withheld log inspector bridge binaries cache world after := by
  obtain ⟨serving, phases⟩ := Phases.none ran
  exact ⟨serving, phases, fun run member => (phases.serves run member).harmless⟩

theorem granted_of_ran (ran : Ran log (log world.rest) (Serving binaries) after) :
    Granted log inspector bridge binaries cache world after := by
  obtain ⟨serving, phases⟩ := Phases.none ran
  refine ⟨serving, [], phases, ?_, each_nil _⟩
  rw [List.append_nil]
  exact each_justified phases.serves

theorem granted_of_elevates {report : SourceReport} {between : World σ}
    (ran : Ran log (log world.rest) (Serving binaries) between)
    (reports : Reports inspector bridge defaultChain cache world binaries.entries report between)
    (step : (pullKernelSymbols bridge cache between).2 = after)
    (made : ∃ runs, log after.rest = log between.rest ++ runs ∧ Elevates runs) :
    Granted log inspector bridge binaries cache world after := by
  obtain ⟨serving, added, serves⟩ := ran
  obtain ⟨last, added', elevates⟩ := made
  refine ⟨serving, last, ⟨?_, serves, fun _ => ⟨report, between, reports, added, step⟩⟩, ?_,
    elevates.rooted⟩
  · rw [added', added, List.append_assoc]
  · have plain : ∀ other ∈ serving, ¬other.Begins ["root"] :=
      fun other member => (serves other member).harmless.root
    exact (each_append _ _ _).2 ⟨each_justified serves, elevates.justified plain⟩

end

section

variable (binaries) (cache) (logs : tools.Logs log) {program : Path}
  (has : adb.program = some program)
  (quiet : ∀ path, (inspector.buildId path).Leaves fun world => log world.rest)

include logs has quiet

theorem ends_collect_withheld (disabled : adb.mayRoot = false) (world : World σ) :
    (collect inspector (Adb.bridge tools adb) defaultChain binaries cache).Ends world
      (fun report after =>
        Withheld log inspector (Adb.bridge tools adb) binaries cache world after ∧
        report.kernelSymbols = false ∧ (((Adb.bridge tools adb).available world).1 = true →
          after.files.isFile cache.kernelSymbolsPath = false))
      fun after => Withheld log inspector (Adb.bridge tools adb) binaries cache world after := by
  refine ends_collect_phases logs has quiet world _ _ (fun _ => withheld_of_ran)
    (fun after ran asked => ⟨withheld_of_ran ran, rfl, fun available => ?_⟩)
    fun report between ran _ => ?_
  · simp [asked] at available
  · have later : ∀ after : World σ, after.rest = between.rest →
        Withheld log inspector (Adb.bridge tools adb) binaries cache world after := by
      intro after same
      obtain ⟨made, added, each⟩ := ran
      exact withheld_of_ran ⟨made, by rw [same, added], each⟩
    refine (ends_pullKernelSymbols_disabled disabled between).mono ?_ later
    rintro pulled after ⟨rfl, same, absent⟩
    exact ⟨later after same, rfl, fun _ => absent⟩

theorem ends_collect_granted (enabled : adb.mayRoot = true) (world : World σ) :
    (collect inspector (Adb.bridge tools adb) defaultChain binaries cache).Ends world
      (fun _ after => Granted log inspector (Adb.bridge tools adb) binaries cache world after)
      fun after => Granted log inspector (Adb.bridge tools adb) binaries cache world after := by
  refine ends_collect_phases logs has quiet world _ _ (fun _ => granted_of_ran)
    (fun _ ran _ => granted_of_ran ran) fun report between ran reports => ?_
  refine ((ends_pullKernelSymbols_elevates logs has enabled between).and
    (Action.ends_self _ between)).mono (fun pulled after step => ?_) fun after step => ?_
  · exact granted_of_elevates ran reports (congrArg Prod.snd step.2) step.1
  · obtain ⟨made, e, failed⟩ := step
    exact granted_of_elevates ran reports (congrArg Prod.snd failed) made

end

/-- A collection that may not ask for root never does, nor for what needs root, and it leaves no
kernel symbols. One that may asks for root at most once, of a device that has just said that it is
not root and no user build; and it pulls the kernel symbols only if the device has last said that it
is root. -/
theorem collect_elevates_only (logs : tools.Logs log)
    (quiet : ∀ path, (inspector.buildId path).Leaves fun world => log world.rest)
    (adb : Adb.Connection) (binaries : RequiredBinaries) (cache : Cache) (world : World σ) :
    let bridge := Adb.bridge tools adb
    let ran := collect inspector bridge defaultChain binaries cache world
    (adb.mayRoot = false → Withheld log inspector bridge binaries cache world ran.2 ∧
      ∀ report, ran.1 = .ok report → report.kernelSymbols = false ∧
        ((bridge.available world).1 = true →
          ran.2.files.isFile cache.kernelSymbolsPath = false)) ∧
    (adb.mayRoot = true → Granted log inspector bridge binaries cache world ran.2) := by
  intro bridge ran
  cases has : adb.program with
  | none =>
    have asked : bridge.available world = (false, world) := Adb.available_of_missing has world
    have same : ran = (.ok (.start sourceName), world) := collect_of_unavailable defaultChain asked
    have none : Ran log (log world.rest) (Serving binaries) world := ⟨[], by simp, by simp⟩
    rw [same]
    refine ⟨fun _ => ⟨withheld_of_ran none, fun report isOk => ?_⟩, fun _ => granted_of_ran none⟩
    obtain rfl := Except.ok.inj isOk
    exact ⟨rfl, fun available => by simp [asked] at available⟩
  | some program =>
    refine ⟨fun disabled => ?_, fun enabled =>
      (ends_collect_granted binaries cache logs has quiet enabled world).both⟩
    have ends := ends_collect_withheld binaries cache logs has quiet disabled world
    exact ⟨(ends.mono (fun _ _ done => done.1) fun _ left => left).both,
      fun report isOk => (ends.of_ok (Prod.ext isOk rfl)).2⟩

def rootableTools : Tools (List Run) where
  spawn _ arguments := do
    let earlier ← Part.whole.read
    let rooted := earlier.any fun run => run.arguments = words ["root"]
    let text := if arguments = words ["shell", "whoami"] ∧ rooted then "root\n" else "shell\n"
    return .ok ⟨0, text.toUTF8⟩

def rootableBridge (mayRoot : Bool) : Bridge (List Run) :=
  Adb.bridge (rootableTools.recorded .whole) ⟨some (.ofString "adb"), mayRoot⟩

def knowsNothing : Inspector (List Run) := .ofContent "sample" (fun _ => "") fun _ => []

def rootableCollect (mayRoot : Bool) : Except CacheError SourceReport × World (List Run) :=
  collect knowsNothing (rootableBridge mayRoot) defaultChain (Sample.binaries "1") Sample.cache
    ⟨FileSystem.empty, []⟩

theorem rootableCollect_report (mayRoot : Bool) : (rootableCollect mayRoot).1 =
    .ok ⟨sourceName, ["/a"], [], [], mayRoot⟩ := by
  simp only [rootableCollect, collect, Sample.binaries, List.foldlM_cons, List.foldlM_nil,
    collectBinary, sample_pullable]
  cases mayRoot <;> cbv

theorem collect_elevates_only_sample :
    Withheld id knowsNothing (rootableBridge false) (Sample.binaries "1") Sample.cache
        ⟨FileSystem.empty, []⟩ (rootableCollect false).2 ∧
      (rootableCollect false).1 = .ok ⟨sourceName, ["/a"], [], [], false⟩ ∧
      (rootableCollect true).1 = .ok ⟨sourceName, ["/a"], [], [], true⟩ ∧
      Granted id knowsNothing (rootableBridge true) (Sample.binaries "1") Sample.cache
        ⟨FileSystem.empty, []⟩ (rootableCollect true).2 := by
  have logs : (rootableTools.recorded .whole).Logs id :=
    rootableTools.recorded_logs .whole (fun _ _ => rfl) fun _ _ _ => rfl
  have quiet : ∀ path, (knowsNothing.buildId path).Leaves fun world => id world.rest :=
    fun path world => (Inspector.ofContent_quiet _ _ _ path world).mono fun _ _ same => by rw [same]
  have ran := fun mayRoot => collect_elevates_only logs quiet ⟨some (.ofString "adb"), mayRoot⟩
    (Sample.binaries "1") Sample.cache ⟨FileSystem.empty, []⟩
  exact ⟨((ran false).1 rfl).1, rootableCollect_report false, rootableCollect_report true,
    (ran true).2 rfl⟩

end DeviceSource

end BuildIdCache
