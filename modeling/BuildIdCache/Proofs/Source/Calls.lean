import BuildIdCache.Proofs.Source.Accounts

set_option autoImplicit false

namespace BuildIdCache

open DeviceSource

variable {σ : Type}

namespace Bridge

structure Leaves {τ : Type} (bridge : Bridge σ) (view : World σ → τ) : Prop where
  available : bridge.available.Leaves view
  switchToRoot : bridge.switchToRoot.Leaves view
  shell : ∀ arguments, (bridge.shell arguments).Leaves view
  pull : ∀ source target, (bridge.pull source target).Leaves view

/-- A bridge that writes down what it is asked for, in a log that it only adds to. -/
structure Logs (bridge : Bridge σ) (log : σ → List Call) : Prop where
  available : ∀ world, bridge.available.After world fun _ after =>
    log after.rest = log world.rest ++ [.available]
  switchToRoot : ∀ world, bridge.switchToRoot.After world fun _ after =>
    log after.rest = log world.rest ++ [.root]
  shell : ∀ arguments world, (bridge.shell arguments).After world fun _ after =>
    log after.rest = log world.rest ++ [.shell arguments]
  pull : ∀ source target world, (bridge.pull source target).After world fun _ after =>
    log after.rest = log world.rest ++ [.pull source target]

theorem recorded_logs (bridge : Bridge σ) (calls : Part σ (List Call))
    (lawful : ∀ new rest, calls.get (calls.set new rest) = new)
    (leaves : bridge.Leaves fun world => calls.get world.rest) :
    (bridge.recorded calls).Logs calls.get where
  available _ := (leaves.available _).trans (lawful _ _)
  switchToRoot _ := (leaves.switchToRoot _).trans (lawful _ _)
  shell arguments _ := (leaves.shell arguments _).trans (lawful _ _)
  pull source target _ := (leaves.pull source target _).trans (lawful _ _)

def Call.Names (file : String) : Call → Prop
  | .shell arguments => file ∈ arguments
  | .pull source _ => file = source
  | .available | .root => False

end Bridge

def Adds (log : σ → List Bridge.Call) (what : Bridge.Call → Prop) (before after : World σ) :
    Prop :=
  ∃ made, log after.rest = log before.rest ++ made ∧ ∀ call ∈ made, what call

namespace Adds

variable {log : σ → List Bridge.Call} {what wider : Bridge.Call → Prop}
  {first second third : World σ}

theorem none (same : log second.rest = log first.rest) : Adds log what first second :=
  ⟨[], by simpa using same, by simp⟩

theorem one (call : Bridge.Call) (is : what call)
    (added : log second.rest = log first.rest ++ [call]) :
    Adds log what first second :=
  ⟨[call], added, by simpa using is⟩

theorem trans (a : Adds log what first second) (b : Adds log what second third) :
    Adds log what first third := by
  obtain ⟨made, added, each⟩ := a
  obtain ⟨made', added', each'⟩ := b
  refine ⟨made ++ made', by rw [added', added, List.append_assoc], fun call member => ?_⟩
  exact (List.mem_append.1 member).elim (each call) (each' call)

theorem mono (a : Adds log what first second) (widen : ∀ call, what call → wider call) :
    Adds log wider first second := by
  obtain ⟨made, added, each⟩ := a
  exact ⟨made, added, fun call member => widen call (each call member)⟩

end Adds

namespace DeviceSource

variable {inspector : Inspector σ} {bridge : Bridge σ} {chain : List Strategy}
  {binaries : RequiredBinaries} {cache : Cache} {log : σ → List Bridge.Call}

/-- The calls that an attempt to pull a path can make. -/
inductive CallFor (cache : Cache) (path : String) : Strategy → Bridge.Call → Prop
  | pull : CallFor cache path .direct (.pull path (cache.pathOf path))
  | copy (dir : String) : CallFor cache path (.scratchCopy dir) (.shell ["cp", path, dir])
  | pullCopy (dir : String) :
      CallFor cache path (.scratchCopy dir) (.pull (stagedPath dir path) (cache.pathOf path))
  | remove (dir : String) :
      CallFor cache path (.scratchCopy dir) (.shell ["rm", stagedPath dir path])

inductive ServiceCall (cache : Cache) : Bridge.Call → Prop
  | available : ServiceCall cache .available
  | root : ServiceCall cache .root
  | unrestrict : ServiceCall cache (.shell ["echo", "0", ">/proc/sys/kernel/kptr_restrict"])
  | kernelSymbols : ServiceCall cache (.pull deviceKernelSymbols cache.kernelSymbolsPath)

theorem CallFor.target {path source : String} {target : Path} {strategy : Strategy}
    (call : CallFor cache path strategy (.pull source target)) : target = cache.pathOf path := by
  cases call <;> rfl

theorem ServiceCall.target {source : String} {target : Path}
    (call : ServiceCall cache (.pull source target)) : target = cache.kernelSymbolsPath := by
  cases call
  rfl

def CanMake (chain : List Strategy) (binaries : RequiredBinaries) (cache : Cache)
    (call : Bridge.Call) : Prop :=
  ServiceCall cache call ∨
    ∃ path, Asked binaries path ∧ ∃ strategy ∈ chain, CallFor cache path strategy call

structure Keeps (bridge : Bridge σ) (chain : List Strategy) (cache : Cache) (path : String)
    (inv : World σ → Prop) : Prop where
  shell : ∀ strategy ∈ chain, ∀ arguments, CallFor cache path strategy (.shell arguments) →
    ∀ world, inv world → (bridge.shell arguments).After world fun _ => inv
  pull : ∀ strategy ∈ chain, ∀ source target, CallFor cache path strategy (.pull source target) →
    ∀ world, inv world → (bridge.pull source target).After world fun _ => inv

section

variable {path : String} {inv : World σ → Prop} (keeps : Keeps bridge chain cache path inv)

include keeps

theorem Keeps.after_attempt (strategy : Strategy) (member : strategy ∈ chain) (world : World σ)
    (holds : inv world) :
    (attempt bridge path (cache.pathOf path) strategy).After world fun _ => inv := by
  refine after_attempt_of path _ strategy world (fun direct => ?_) fun dir staged => ?_
  · subst direct
    exact keeps.pull _ member _ _ .pull world holds
  · subst staged
    refine (keeps.shell _ member _ (.copy dir) world holds).mono fun _ first holds => ?_
    refine ⟨fun _ => holds, fun _ => ?_⟩
    refine (keeps.pull _ member _ _ (.pullCopy dir) first holds).mono fun _ second holds => ?_
    exact ⟨fun _ => holds, fun _ => keeps.shell _ member _ (.remove dir) second holds⟩

theorem Keeps.ends_collectBinary
    (quiet : ∀ world, inv world → (inspector.buildId (cache.pathOf path)).After world fun _ => inv)
    (parents : isPullable path = true → ∀ world, inv world →
      inv { world with files := world.files.withParents (cache.pathOf path) })
    (cleared : isPullable path = true → ∀ (world : World σ) fs, inv world →
      world.files.Cleared fs (cache.pathOf path) → inv { world with files := fs })
    (report : SourceReport) (expected : String) (world : World σ) (holds : inv world) :
    (collectBinary inspector bridge chain cache report (path, expected)).Ends world (fun _ => inv)
      inv := by
  have kept : ∀ answer asked,
      isTrusted inspector (cache.pathOf path) expected world = (answer, asked) → inv asked :=
    fun answer asked ran => by
      have asking : (isTrusted inspector (cache.pathOf path) expected).After world fun _ => inv :=
        after_isTrusted_of _ expected world holds (quiet world holds)
      exact asking.of_run ran
  refine ends_collectBinary_of chain report path expected world _ _ (fun _ => holds)
    (fun asked _ ran => kept true asked ran) (fun asked fs pullable ran _ gone => ?_)
    fun asked _ _ pullable ran _ _ => parents pullable _ (kept false asked ran)
  have ready := cleared pullable _ fs (parents pullable _ (kept false asked ran)) gone
  exact after_pullFile_of path _ chain { asked with files := fs } ready
    fun strategy member first holds => keeps.after_attempt strategy member first holds

end

section

variable {path : String} {call : Bridge.Call} (pullable : isPullable path = true)
  (names : call.Names path)

include pullable names

theorem CallFor.staged {other : String} {strategy : Strategy} (apart : other ≠ path)
    (made : CallFor cache other strategy call) :
    ∃ dir, strategy = .scratchCopy dir ∧ (path = dir ∨ path = stagedPath dir other) := by
  have noCommand : isPullable "cp" = false ∧ isPullable "rm" = false := by
    constructor <;> cbv
  cases made with
  | pull => exact absurd names.symm apart
  | copy dir =>
    simp only [Bridge.Call.Names, List.mem_cons, List.not_mem_nil, or_false] at names
    rcases names with rfl | rfl | rfl
    · simp [noCommand] at pullable
    · exact absurd rfl apart
    · exact ⟨path, rfl, .inl rfl⟩
  | pullCopy dir => exact ⟨dir, rfl, .inr names⟩
  | remove dir =>
    simp only [Bridge.Call.Names, List.mem_cons, List.not_mem_nil, or_false] at names
    rcases names with rfl | rfl
    · simp [noCommand] at pullable
    · exact ⟨dir, rfl, .inr rfl⟩

theorem ServiceCall.symbols (made : ServiceCall cache call) : path = deviceKernelSymbols := by
  cases made with
  | available | root => exact names.elim
  | unrestrict =>
    have noFile : isPullable "echo" = false ∧ isPullable "0" = false ∧
        isPullable ">/proc/sys/kernel/kptr_restrict" = false := by
      refine ⟨?_, ?_, ?_⟩ <;> cbv
    simp only [Bridge.Call.Names, List.mem_cons, List.not_mem_nil, or_false] at names
    rcases names with rfl | rfl | rfl <;> simp [noFile] at pullable
  | kernelSymbols => exact names

end

section

variable (logs : bridge.Logs log)

include logs

theorem after_attempt_calls (path : String) (strategy : Strategy) (world : World σ) :
    (attempt bridge path (cache.pathOf path) strategy).After world fun _ after =>
      Adds log (CallFor cache path strategy) world after := by
  refine after_attempt_of path _ strategy world (fun direct => ?_) fun dir staged => ?_
  · subst direct
    exact (logs.pull path _ world).mono fun _ _ => .one _ .pull
  · subst staged
    refine (logs.shell _ world).mono fun _ first copying => ?_
    have copied : Adds log (CallFor cache path (.scratchCopy dir)) world first :=
      .one _ (.copy dir) copying
    refine ⟨fun _ => copied, fun _ => (logs.pull _ _ first).mono fun _ second pulling => ?_⟩
    have pulled := copied.trans (.one _ (.pullCopy dir) pulling)
    refine ⟨fun _ => pulled, fun _ => (logs.shell _ second).mono fun _ third removing => ?_⟩
    exact pulled.trans (.one _ (.remove dir) removing)

theorem after_pullFile_calls (path : String) (world : World σ) :
    (pullFile bridge path (cache.pathOf path) chain).After world fun _ after =>
      Adds log (fun call => ∃ strategy ∈ chain, CallFor cache path strategy call) world after := by
  apply after_pullFile_of path _ chain world (.none rfl)
  intro strategy member first made
  exact (after_attempt_calls logs path strategy first).mono fun _ _ more =>
    made.trans (more.mono fun call is => ⟨strategy, member, is⟩)

/-- A call that is explained by a report: it is made for no path, or for one that is pulled. -/
def Explains (chain : List Strategy) (binaries : RequiredBinaries) (cache : Cache)
    (report : SourceReport) (call : Bridge.Call) : Prop :=
  ServiceCall cache call ∨ ∃ path, Asked binaries path ∧
    (path ∈ report.collected ∨ path ∈ report.failed) ∧
      ∃ strategy ∈ chain, CallFor cache path strategy call

variable (quiet : ∀ path, (inspector.buildId path).Leaves fun world => log world.rest)

include quiet

theorem ends_collectBinary_calls (report : SourceReport) (path expected : String)
    (required : binaries.contains path = true) (world : World σ) :
    (collectBinary inspector bridge chain cache report (path, expected)).Ends world
      (fun next after => (∀ call, Explains chain binaries cache report call →
          Explains chain binaries cache next call) ∧
        Adds log (Explains chain binaries cache next) world after)
      fun _ => True := by
  have asking : ∀ answer asked,
      isTrusted inspector (cache.pathOf path) expected world = (answer, asked) →
        log asked.rest = log world.rest := by
    intro answer asked ran
    have same : (isTrusted inspector (cache.pathOf path) expected).After world
        fun _ after => log after.rest = log world.rest :=
      after_isTrusted_of _ expected world rfl (quiet _ world)
    exact same.of_run ran
  refine ends_collectBinary_of chain report path expected world _ _
    (fun _ => ⟨fun _ is => is, .none rfl⟩)
    (fun asked _ ran => ⟨fun _ is => is, .none (asking true asked ran)⟩)
    (fun asked fs pullable ran _ _ => ?_) fun _ _ _ _ _ _ _ => trivial
  refine (after_pullFile_calls logs path { asked with files := fs }).mono
    fun answer after made => ⟨?_, ?_⟩
  · rintro call (service | ⟨other, isAsked, listed, is⟩)
    · exact .inl service
    · refine .inr ⟨other, isAsked, ?_, is⟩
      cases answer <;> simp [tally] <;> tauto
  · refine .trans (.none (asking false asked ran)) (made.mono ?_)
    rintro call is
    refine .inr ⟨path, ⟨required, pullable⟩, ?_, is⟩
    cases answer <;> simp [tally]

theorem ends_collect_calls (world : World σ) :
    (collect inspector bridge chain binaries cache).Ends world
      (fun report after => Adds log (Explains chain binaries cache report) world after)
      fun _ => True := by
  refine ends_collect_of chain world
    (fun _ report after => Adds log (Explains chain binaries cache report) world after) _ _
    ((logs.available world).mono fun _ _ => .one _ (.inl .available)) (fun _ _ made => made)
    (fun before path expected rest report between split _ made => ?_)
    fun report between _ made => ?_
  · have required := SortedMap.contains_of_get? (SortedMap.get?_of_split split)
    exact (ends_collectBinary_calls logs quiet report path expected required between).mono
      (fun next after more => (made.mono more.1).trans more.2) fun _ left => left
  · refine ends_pullKernelSymbols_of between _ _ fun fs _ => ?_
    refine (logs.switchToRoot _).mono fun _ first rooting => ?_
    have rooted := made.trans (.one _ (.inl .root) rooting)
    refine ⟨fun _ => rooted, fun _ _ => ?_, fun _ _ => trivial⟩
    refine (logs.shell _ _).mono fun _ second echoing => ?_
    have unrestricted := rooted.trans (.one _ (.inl .unrestrict) echoing)
    exact (logs.pull _ _ second).mono fun _ _ pulling =>
      unrestricted.trans (.one _ (.inl .kernelSymbols) pulling)

end

end DeviceSource

end BuildIdCache
