import BuildIdCache.Proofs.Observed
import BuildIdCache.Proofs.Source.Device
import BuildIdCache.Proofs.Text.Order

set_option autoImplicit false

namespace BuildIdCache

variable {σ ε : Type}

def Inspector.unseen (inspector : Inspector σ) : Inspector (σ × List ε) :=
  inspector.observed (fun _ _ => []) fun _ => []

def Bridge.answered (bridge : Bridge σ) : Bridge (σ × List (Bridge.Call × Bool)) where
  available := bridge.available.observed fun worked => [(.available, worked)]
  switchToRoot := bridge.switchToRoot.observed fun worked => [(.root, worked)]
  shell arguments := (bridge.shell arguments).observed fun worked => [(.shell arguments, worked)]
  pull source target :=
    (bridge.pull source target).observed fun worked => [(.pull source target, worked)]

namespace Bridge

variable (bridge : Bridge σ) (world : World (σ × List (Bridge.Call × Bool)))

theorem answered_switchToRoot : bridge.answered.switchToRoot.After world fun worked after =>
    after.events = world.events ++ [(.root, worked)] := rfl

theorem answered_shell (arguments : List String) :
    (bridge.answered.shell arguments).After world fun worked after =>
      after.events = world.events ++ [(.shell arguments, worked)] := rfl

theorem answered_pull (source : String) (target : Path) :
    (bridge.answered.pull source target).After world fun worked after =>
      after.events = world.events ++ [(.pull source target, worked)] := rfl

end Bridge

namespace DeviceSource

abbrev Calls : Type := List (Bridge.Call × Bool)

/-- The calls of one attempt, and whether it worked. A copy is pulled once it was made, and removed
once it was pulled, whatever comes of that. -/
inductive Attempted (path : String) (target : Path) : Strategy → Calls → Bool → Prop
  | direct (worked : Bool) : Attempted path target .direct [(.pull path target, worked)] worked
  | notCopied (dir : String) :
      Attempted path target (.scratchCopy dir) [(.shell ["cp", path, dir], false)] false
  | notPulled (dir : String) :
      Attempted path target (.scratchCopy dir)
        [(.shell ["cp", path, dir], true), (.pull (stagedPath dir path) target, false)] false
  | pulled (dir : String) (removed : Bool) :
      Attempted path target (.scratchCopy dir)
        [(.shell ["cp", path, dir], true), (.pull (stagedPath dir path) target, true),
          (.shell ["rm", stagedPath dir path], removed)] true

inductive Tried (path : String) (target : Path) : List Strategy → Calls → Bool → Prop
  | none : Tried path target [] [] false
  | works {strategy : Strategy} {calls : Calls} (rest : List Strategy)
      (attempted : Attempted path target strategy calls true) :
      Tried path target (strategy :: rest) calls true
  | fails {strategy : Strategy} {rest : List Strategy} {calls more : Calls} {worked : Bool}
      (attempted : Attempted path target strategy calls false)
      (further : Tried path target rest more worked) :
      Tried path target (strategy :: rest) (calls ++ more) worked

/-- The calls for one required path and whether an attempt worked, where `world` is what the path
begins with. -/
inductive Handled (inspector : Inspector σ) (chain : List Strategy) (cache : Cache)
    (world : World σ) (path expected : String) : Calls → Bool → Prop
  | notPullable (isNot : isPullable path = false) :
      Handled inspector chain cache world path expected [] false
  | trusted (isPath : isPullable path = true)
      (answer : (isTrusted inspector (cache.pathOf path) expected world).1 = true) :
      Handled inspector chain cache world path expected [] false
  | tried {calls : Calls} {worked : Bool} (isPath : isPullable path = true)
      (answer : (isTrusted inspector (cache.pathOf path) expected world).1 = false)
      (attempts : Tried path (cache.pathOf path) chain calls worked) :
      Handled inspector chain cache world path expected calls worked

inductive KernelCalls (cache : Cache) : Calls → Bool → Prop
  | denied : KernelCalls cache [(.root, false)] false
  | granted (echoed pulled : Bool) :
      KernelCalls cache
        [(.root, true), (.shell ["echo", "0", ">/proc/sys/kernel/kptr_restrict"], echoed),
          (.pull deviceKernelSymbols cache.kernelSymbolsPath, pulled)] pulled

structure Turn where
  path : String
  expected : String
  calls : Calls
  pulled : Bool

def Turn.entry (turn : Turn) : String × String := (turn.path, turn.expected)

-- Each turn is taken in the world that the run reached by the turns before it.
def TakenInTurn (inspector : Inspector σ) (bridge : Bridge σ) (chain : List Strategy)
    (cache : Cache) (world : World σ) (turns : List Turn) : Prop :=
  ∀ before turn rest, turns = before ++ turn :: rest → ∃ report between,
    Reports inspector bridge chain cache world (before.map Turn.entry) report between ∧
      Handled inspector chain cache between turn.path turn.expected turn.calls turn.pulled

section

variable (inspector : Inspector σ) (bridge : Bridge σ) (chain : List Strategy) (cache : Cache)

theorem attempt_erases (path : String) (target : Path) (strategy : Strategy) :
    (attempt bridge.answered path target strategy).Erases
      (attempt bridge path target strategy) := by
  have shell : ∀ arguments, (bridge.answered.shell arguments).Erases (bridge.shell arguments) :=
    fun _ => Effect.observed_erases _ _
  have pull : ∀ source, (bridge.answered.pull source target).Erases (bridge.pull source target) :=
    fun _ => Effect.observed_erases _ _
  cases strategy with
  | direct => exact pull path
  | scratchCopy dir =>
    refine (shell _).bind fun copied => .ite (.pure false) ?_
    refine (pull _).bind fun pulled => .ite (.pure false) ?_
    exact (shell _).bind fun _ => .pure true

theorem pullFile_erases (path : String) (target : Path) :
    (pullFile bridge.answered path target chain).Erases (pullFile bridge path target chain) := by
  induction chain with
  | nil => exact .pure false
  | cons strategy rest ih =>
    exact (attempt_erases bridge path target strategy).bind fun worked => .ite (.pure true) ih

theorem isTrusted_erases (target : Path) (expected : String) :
    (isTrusted (inspector.unseen : Inspector (σ × List ε)) target expected).Erases
      (isTrusted inspector target expected) := by
  have asked : ((inspector.unseen : Inspector (σ × List ε)).buildId target).Erases
      (inspector.buildId target) := inspector.buildId_erases _ _ target
  refine (Effect.Erases.isFile target).bind fun file => .ite (.pure false) ?_
  exact .ite (.pure true) (asked.bind fun id => .pure _)

theorem collectBinary_erases (report : SourceReport) (wanted : String × String) :
    (collectBinary inspector.unseen bridge.answered chain cache report wanted).Erases
      (collectBinary inspector bridge chain cache report wanted) := by
  obtain ⟨path, expected⟩ := wanted
  refine .ite (.pure report) ?_
  refine (Action.Erases.lift (isTrusted_erases inspector (cache.pathOf path) expected)).bind
    fun trusted => .ite (.pure _) ?_
  refine .withParents (cache.pathOf path) fun _ => .removeStale (cache.pathOf path) fun _ => ?_
  exact (Action.Erases.lift (pullFile_erases bridge chain path (cache.pathOf path))).bind
    fun worked => .ite (.pure _) (.pure _)

theorem pullKernelSymbols_erases :
    (pullKernelSymbols bridge.answered cache).Erases (pullKernelSymbols bridge cache) := by
  have answered : ∀ (effect : Effect σ Bool) (call : Bridge.Call),
      (liftM (effect.observed fun worked => [(call, worked)]) :
        Action (σ × Calls) Bool).Erases (liftM effect) :=
    fun effect _ => .lift (Effect.observed_erases effect _)
  refine .removeStale cache.kernelSymbolsPath fun _ => ?_
  refine (answered bridge.switchToRoot .root).bind fun rooted => .ite (.pure false) ?_
  refine (Action.Erases.makeDirAll cache.root).bind fun _ => ?_
  exact (answered _ (.shell _)).bind fun _ => answered _ (.pull _ _)

theorem collect_erases (binaries : RequiredBinaries) :
    (collect inspector.unseen bridge.answered chain binaries cache).Erases
      (collect inspector bridge chain binaries cache) := by
  have asked : (bridge.answered.available).Erases bridge.available := Effect.observed_erases _ _
  refine (Action.Erases.lift asked).bind fun available => .ite (.pure _) ?_
  refine (Action.Erases.foldlM (collectBinary_erases inspector bridge chain cache) _ _).bind
    fun report => ?_
  exact (pullKernelSymbols_erases bridge cache).bind fun kernel => .pure _

theorem after_attempt_answered (path : String) (target : Path) (strategy : Strategy)
    (world : World (σ × Calls)) :
    (attempt bridge.answered path target strategy).After world fun worked after =>
      ∃ calls, after.events = world.events ++ calls ∧
        Attempted path target strategy calls worked := by
  refine after_attempt_of path target strategy world (fun direct => ?_) fun dir staged => ?_
  · subst direct
    exact ⟨_, rfl, .direct _⟩
  · subst staged
    refine (bridge.answered_shell world _).mono fun copied first copying => ?_
    refine ⟨fun failed => ?_, fun worked => ?_⟩
    · rw [failed] at copying
      exact ⟨_, copying, .notCopied dir⟩
    refine (bridge.answered_pull first _ target).mono fun pulled second pulling => ?_
    rw [copying, worked, List.append_assoc] at pulling
    refine ⟨fun failed => ?_, fun worked => ?_⟩
    · rw [failed] at pulling
      exact ⟨_, pulling, .notPulled dir⟩
    refine (bridge.answered_shell second _).mono fun removed third removing => ?_
    rw [pulling, worked, List.append_assoc] at removing
    exact ⟨_, removing, .pulled dir removed⟩

theorem after_pullFile_answered (path : String) (target : Path) (world : World (σ × Calls)) :
    (pullFile bridge.answered path target chain).After world fun worked after =>
      ∃ calls, after.events = world.events ++ calls ∧ Tried path target chain calls worked := by
  induction chain generalizing world with
  | nil => exact ⟨[], (List.append_nil _).symm, .none⟩
  | cons strategy rest ih =>
    rw [pullFile, Effect.after_bind]
    refine (after_attempt_answered bridge path target strategy world).mono ?_
    rintro worked first ⟨calls, seen, attempted⟩
    cases worked with
    | true => exact ⟨calls, seen, .works rest attempted⟩
    | false =>
      refine (ih first).mono ?_
      rintro worked after ⟨more, seen', tried⟩
      exact ⟨calls ++ more, by rw [seen', seen, List.append_assoc], .fails attempted tried⟩

theorem events_of_isTrusted (target : Path) (expected : String) {world asked : World (σ × Calls)}
    {answer : Bool} (ran : isTrusted inspector.unseen target expected world = (answer, asked)) :
    asked.events = world.events := by
  have same : (isTrusted inspector.unseen target expected).After world
      fun _ after => after.events = world.events :=
    after_isTrusted_of target expected world rfl (List.append_nil world.events)
  exact same.of_run ran

theorem ends_collectBinary_handled (report : SourceReport) (path expected : String)
    (world : World (σ × Calls)) :
    (collectBinary inspector.unseen bridge.answered chain cache report (path, expected)).Ends world
      (fun next after => ∃ calls pulled, after.events = world.events ++ calls ∧
        Handled inspector chain cache world.bare path expected calls pulled ∧
        next.collected = report.collected ++ if pulled then [path] else [])
      fun _ => True := by
  have bare : ∀ answer asked, isTrusted inspector.unseen (cache.pathOf path) expected world =
      (answer, asked) → (isTrusted inspector (cache.pathOf path) expected world.bare).1 =
        answer := by
    intro answer asked ran
    rw [(isTrusted_erases inspector (cache.pathOf path) expected).of_run ran]
  refine ends_collectBinary_of chain report path expected world _ _ (fun isNot => ?_)
    (fun asked isPath ran => ?_) (fun asked fs isPath ran _ _ => ?_) fun _ _ _ _ _ _ _ => trivial
  · exact ⟨[], false, (List.append_nil _).symm, .notPullable isNot, by simp⟩
  · have same := events_of_isTrusted inspector _ _ ran
    exact ⟨[], false, by simpa using same, .trusted isPath (bare true asked ran), by simp⟩
  · refine (after_pullFile_answered bridge chain path (cache.pathOf path) _).mono ?_
    rintro worked after ⟨calls, seen, tried⟩
    have same := events_of_isTrusted inspector _ _ ran
    refine ⟨calls, worked, ?_, .tried isPath (bare false asked ran) tried, ?_⟩
    · rw [seen, ← same]
      rfl
    · cases worked <;> simp [tally]

theorem ends_pullKernelSymbols_answered (world : World (σ × Calls)) :
    (pullKernelSymbols bridge.answered cache).Ends world
      (fun pulled after => ∃ calls, after.events = world.events ++ calls ∧
        KernelCalls cache calls pulled)
      fun _ => True := by
  refine ends_pullKernelSymbols_of world _ _ fun fs _ => ?_
  refine (bridge.answered_switchToRoot _).mono fun rooted first rooting => ?_
  refine ⟨fun denied => ?_, fun granted _ => ?_, fun _ _ => trivial⟩
  · rw [denied] at rooting
    exact ⟨_, rooting, .denied⟩
  · refine (bridge.answered_shell _ _).mono fun echoed second echoing => ?_
    refine (bridge.answered_pull second _ _).mono fun pulled third pulling => ?_
    have rootedFirst : first.events = world.events ++ [(.root, true)] := granted ▸ rooting
    have echoedNext : second.events = first.events ++ [(.shell _, echoed)] := echoing
    refine ⟨_, ?_, .granted echoed pulled⟩
    rw [pulling, echoedNext, rootedFirst, List.append_assoc, List.append_assoc]
    rfl

theorem reports_of_answered {world : World σ} {before : List (String × String)}
    {report : SourceReport} {between : World (σ × Calls)}
    (reports :
      Reports inspector.unseen bridge.answered chain cache (world.observed []) before report
        between) :
    Reports inspector bridge chain cache world before report between.bare :=
  (Action.Erases.foldlM (collectBinary_erases inspector bridge chain cache) before _).of_run reports

end

section

variable {inspector : Inspector σ} {bridge : Bridge σ} {chain : List Strategy} {cache : Cache}
  {world : World σ} {turns : List Turn}

theorem TakenInTurn.nil : TakenInTurn inspector bridge chain cache world [] := by
  intro before turn rest split
  simp at split

theorem TakenInTurn.add (taken : TakenInTurn inspector bridge chain cache world turns) (turn : Turn)
    {report : SourceReport} {between : World σ}
    (reports : Reports inspector bridge chain cache world (turns.map Turn.entry) report between)
    (handled :
      Handled inspector chain cache between turn.path turn.expected turn.calls turn.pulled) :
    TakenInTurn inspector bridge chain cache world (turns ++ [turn]) := by
  intro before other rest split
  cases rest using List.reverseRecOn with
  | nil =>
    obtain ⟨rfl, rfl⟩ := List.append_singleton_inj.1 split
    exact ⟨report, between, reports, handled⟩
  | append_singleton rest last =>
    rw [← List.cons_append, ← List.append_assoc] at split
    exact taken before other rest (List.append_singleton_inj.1 split).1

structure Recorded (inspector : Inspector σ) (bridge : Bridge σ) (chain : List Strategy)
    (cache : Cache) (world : World σ) (before : List (String × String)) (report : SourceReport)
    (calls : Calls) (turns : List Turn) : Prop where
  calls : calls = (.available, true) :: turns.flatMap Turn.calls
  entries : turns.map Turn.entry = before
  taken : TakenInTurn inspector bridge chain cache world turns
  collected : report.collected = (turns.filter Turn.pulled).map Turn.path

theorem Recorded.add {before : List (String × String)} {report next : SourceReport} {calls : Calls}
    (recorded : Recorded inspector bridge chain cache world before report calls turns) (turn : Turn)
    {between : World σ} (reports : Reports inspector bridge chain cache world before report between)
    (handled : Handled inspector chain cache between turn.path turn.expected turn.calls turn.pulled)
    (more : next.collected = report.collected ++ if turn.pulled then [turn.path] else []) :
    Recorded inspector bridge chain cache world (before ++ [turn.entry]) next (calls ++ turn.calls)
      (turns ++ [turn]) where
  calls := by simp [recorded.calls]
  entries := by simp [recorded.entries]
  taken := recorded.taken.add turn (recorded.entries ▸ reports) handled
  collected := by
    rw [more, recorded.collected, List.filter_append, List.map_append]
    cases pulled : turn.pulled <;> simp [pulled]

theorem ends_collect_recorded {binaries : RequiredBinaries}
    (available : (bridge.available world).1 = true) :
    (collect inspector.unseen bridge.answered chain binaries cache).Ends (world.observed [])
      (fun report after => ∃ turns calls last,
        Recorded inspector bridge chain cache world binaries.entries report calls turns ∧
          after.events = calls ++ last ∧ KernelCalls cache last report.kernelSymbols)
      fun _ => True := by
  refine ends_collect_of chain (world.observed []) (fun before report between => ∃ turns,
    Recorded inspector bridge chain cache world before report between.events turns) _ _ ?_
    (fun first unavailable _ => ?_)
      (fun before path expected rest report between _ reports holds => ?_)
    fun report between _ holds => ?_
  · refine ⟨[], ?_, rfl, .nil, rfl⟩
    change [(Bridge.Call.available, (bridge.available world).1)] = _
    rw [available]
    rfl
  · have answer : (bridge.available world).1 = false := congrArg Prod.fst unavailable
    simp [available] at answer
  · obtain ⟨turns, recorded⟩ := holds
    refine (ends_collectBinary_handled inspector bridge chain cache report path expected
      between).mono ?_ fun _ left => left
    rintro next after ⟨calls, pulled, seen, handled, collected⟩
    have reached := reports_of_answered inspector bridge chain cache reports
    exact ⟨_, seen ▸ recorded.add ⟨path, expected, calls, pulled⟩ reached handled collected⟩
  · obtain ⟨turns, recorded⟩ := holds
    refine (ends_pullKernelSymbols_answered bridge cache between).mono ?_ fun _ left => left
    rintro pulled after ⟨last, seen, kernel⟩
    exact ⟨turns, between.events, last, ⟨recorded.calls, recorded.entries, recorded.taken,
      recorded.collected⟩, seen, kernel⟩

end

/-- On a device that is there, a run that works makes exactly the calls that are asked of it. Each
required path has its turn, in the order of the bytes; a path is collected if an attempt for it
worked. The kernel symbols come last. -/
theorem collect_calls_in_turn (inspector : Inspector σ) (bridge : Bridge σ) (chain : List Strategy)
    (binaries : RequiredBinaries) (cache : Cache) (world after : World σ) (report : SourceReport)
    (available : (bridge.available world).1 = true)
    (ran : collect inspector bridge chain binaries cache world = (.ok report, after)) :
    ∃ turns last, collect inspector.unseen bridge.answered chain binaries cache
      (world.observed []) =
        (.ok report, after.observed ((.available, true) :: turns.flatMap Turn.calls ++ last)) ∧
      turns.map Turn.entry = binaries.entries ∧
      (turns.map Turn.path).Pairwise (fun a b => a.toUTF8.toList < b.toUTF8.toList) ∧
      TakenInTurn inspector bridge chain cache world turns ∧
      KernelCalls cache last report.kernelSymbols ∧
      ∀ path, path ∈ report.collected ↔ ∃ turn ∈ turns, turn.path = path ∧ turn.pulled = true := by
  obtain ⟨events, seen⟩ := (collect_erases inspector bridge chain cache binaries).run world
  rw [ran] at seen
  obtain ⟨turns, calls, last, recorded, split, kernel⟩ :=
    (ends_collect_recorded available).of_ok seen
  refine ⟨turns, last, ?_, recorded.entries, ?_, recorded.taken, kernel, fun path => ?_⟩
  · have whole : events = calls ++ last := split
    rw [seen, whole, recorded.calls, List.cons_append]
  · have increasing := binaries.increasing
    rw [← recorded.entries, List.pairwise_map] at increasing
    exact List.pairwise_map.2 (increasing.imp fun {a b} below => bytes_lt a.path b.path below)
  · rw [recorded.collected]
    simp only [List.mem_map, List.mem_filter]
    exact exists_congr fun turn => by tauto

theorem collect_calls_in_turn_sample : ∃ (turns : List Turn) (last : Calls),
    (.available, true) :: turns.flatMap Turn.calls ++ last =
      [(.available, true), (.pull "/a" (Sample.cache.pathOf "/a"), false),
        (.shell ["cp", "/a", "/data/local/tmp"], true),
        (.pull "/data/local/tmp/a" (Sample.cache.pathOf "/a"), true),
        (.shell ["rm", "/data/local/tmp/a"], true), (.root, false)] ∧
      KernelCalls Sample.cache last false ∧ ∃ turn ∈ turns, turn.path = "/a" ∧
        turn.pulled = true := by
  obtain ⟨turns, last, seen, -, -, -, kernel, collected⟩ := collect_calls_in_turn sampleInspector
    (Simulated.bridge .whole) defaultChain (Sample.binaries "1") Sample.cache
    ⟨FileSystem.empty, sampleDevice ["/a"]⟩ _ ⟨sourceName, ["/a"], [], [], false⟩ (by cbv)
    (Prod.ext (by
      simp only [collect, Sample.binaries, List.foldlM_cons, List.foldlM_nil, collectBinary,
        sample_pullable]
      cbv) rfl)
  refine ⟨turns, last, ?_, kernel, (collected "/a").1 (by simp)⟩
  have calls := congrArg (fun ran => ran.2.events) seen
  refine Eq.trans (Eq.symm calls) ?_
  simp only [collect, Sample.binaries, List.foldlM_cons, List.foldlM_nil, collectBinary,
    sample_pullable]
  cbv

end DeviceSource

end BuildIdCache
