import BuildIdCache.Proofs.Early
import BuildIdCache.Proofs.SortedMap

set_option autoImplicit false

namespace BuildIdCache

variable {σ : Type}

namespace Trace

-- What a scan asks about, in the order in which it meets it: the binaries of all frames, less those
-- that hold generated code.
def scanned (frames : List Frame) : List String :=
  (frames.map Frame.dso).filter fun dso => !isJitSymbolFile dso

def firsts (dsos : List String) : List String :=
  dsos.eraseDupsBy fun dso other => keyOf dso == keyOf other

theorem scanned_append (frames : List Frame) (frame : Frame) :
    scanned (frames ++ [frame]) =
      if isJitSymbolFile frame.dso then scanned frames else scanned frames ++ [frame.dso] := by
  cases jit : isJitSymbolFile frame.dso <;> simp [scanned, jit]

theorem firsts_cons (dso : String) (dsos : List String) :
    firsts (dso :: dsos) = dso :: firsts (dsos.filter fun other => keyOf other ≠ keyOf dso) := by
  simp [firsts, List.eraseDupsBy_cons]

theorem firsts_append (dsos : List String) (dso : String) :
    firsts (dsos ++ [dso]) =
      if ∃ other ∈ dsos, keyOf other = keyOf dso then firsts dsos else firsts dsos ++ [dso] := by
  induction h : dsos.length using Nat.strong_induction_on generalizing dsos with
  | _ n ih =>
    cases dsos with
    | nil => simp [firsts_cons]; rfl
    | cons head rest =>
      have shorter : (rest.filter fun other => keyOf other ≠ keyOf head).length < n := by
        rw [← h]
        exact Nat.lt_succ_of_le (List.length_filter_le _ _)
      rw [List.cons_append, firsts_cons, firsts_cons, List.filter_append]
      by_cases same : keyOf dso = keyOf head
      · simp [same]
      · have met : (∃ other ∈ rest.filter fun other => keyOf other ≠ keyOf head,
            keyOf other = keyOf dso) ↔ ∃ other ∈ rest, keyOf other = keyOf dso := by
          grind -linarith
        have kept : [dso].filter (fun other => keyOf other ≠ keyOf head) = [dso] := by simp [same]
        have unlike : keyOf head ≠ keyOf dso := fun alike => same alike.symm
        rw [kept, ih _ shorter _ rfl]
        simp only [met, List.mem_cons, exists_eq_or_imp, unlike, false_or]
        split <;> rfl

theorem mem_of_mem_firsts {dsos : List String} {dso : String} (first : dso ∈ firsts dsos) :
    dso ∈ dsos := by
  induction dsos using List.reverseRecOn with
  | nil => exact first
  | append_singleton dsos last ih =>
    rw [firsts_append] at first
    split at first <;> grind

theorem exists_firsts_iff (dsos : List String) (key : String) :
    (∃ dso ∈ firsts dsos, keyOf dso = key) ↔ ∃ dso ∈ dsos, keyOf dso = key := by
  induction dsos using List.reverseRecOn with
  | nil => rfl
  | append_singleton dsos last ih =>
    rw [firsts_append]
    split
    next met => grind
    next => grind

theorem nodup_firsts (dsos : List String) : ((firsts dsos).map keyOf).Nodup := by
  induction dsos using List.reverseRecOn with
  | nil => exact .nil
  | append_singleton dsos last ih =>
    rw [firsts_append]
    split
    next => exact ih
    next unmet =>
      have new : keyOf last ∉ (firsts dsos).map keyOf := by
        rwa [List.mem_map, exists_firsts_iff]
      simpa [List.nodup_append, ih] using new

theorem find?_append_of_met {dsos : List String} {dso : String}
    (met : ∃ other ∈ dsos, keyOf other = keyOf dso) (key : String) :
    (dsos ++ [dso]).find? (keyOf · = key) = dsos.find? (keyOf · = key) := by
  obtain ⟨other, member, same⟩ := met
  by_cases named : keyOf dso = key
  · have found : (dsos.find? (keyOf · = key)).isSome := by
      rw [List.find?_isSome]
      exact ⟨other, member, by simp [same, named]⟩
    rw [List.find?_append, Option.or_of_isSome found]
  · simp [List.find?_append, named]

theorem eq_of_keyOf {dsos : List String} (oneKernel : ¬(kernelDso ∈ dsos ∧ kernelKey ∈ dsos))
    {dso other : String} (member : dso ∈ dsos) (member' : other ∈ dsos)
    (same : keyOf dso = keyOf other) : dso = other := by
  unfold keyOf at same
  split at same <;> split at same <;> grind

theorem find?_perm {dsos others : List String} (perm : dsos.Perm others)
    (oneKernel : ¬(kernelDso ∈ dsos ∧ kernelKey ∈ dsos)) (key : String) :
    dsos.find? (keyOf · = key) = others.find? (keyOf · = key) := by
  cases found : dsos.find? (keyOf · = key) with
  | none =>
    rw [List.find?_eq_none] at found
    exact (List.find?_eq_none.2 fun dso member => found dso (perm.mem_iff.2 member)).symm
  | some dso =>
    have named : keyOf dso = key := by simpa using List.find?_some found
    have member := List.mem_of_find?_eq_some found
    cases found' : others.find? (keyOf · = key) with
    | none =>
      have lost := List.find?_eq_none.1 found' dso (perm.mem_iff.1 member)
      exact absurd named (by simpa using lost)
    | some other =>
      have named' : keyOf other = key := by simpa using List.find?_some found'
      have member' := perm.mem_iff.2 (List.mem_of_find?_eq_some found')
      rw [eq_of_keyOf oneKernel member member' (named.trans named'.symm)]

/-- The mapping that belongs to the frames of a scan, and what the scan asks for to get it. -/
structure Uses (buildIdOf : String → String) (frames : List Frame) (binaries : RequiredBinaries)
    (queries : List String) : Prop where
  first : ∀ key, binaries.get? key = ((scanned frames).find? (keyOf · = key)).map buildIdOf
  queries : queries = firsts (scanned frames)

namespace Uses

variable {buildIdOf : String → String} {frames : List Frame} {binaries : RequiredBinaries}
  {queries : List String}

theorem contains_iff (uses : Uses buildIdOf frames binaries queries) (key : String) :
    binaries.contains key = true ↔ ∃ dso ∈ scanned frames, keyOf dso = key := by
  simp [SortedMap.contains, uses.first]

theorem skip {frame : Frame} (uses : Uses buildIdOf frames binaries queries)
    (skipped : (binaries.contains (keyOf frame.dso) || isJitSymbolFile frame.dso) = true) :
    Uses buildIdOf (frames ++ [frame]) binaries queries := by
  rw [Bool.or_eq_true, uses.contains_iff] at skipped
  cases jit : isJitSymbolFile frame.dso with
  | true =>
    have same : scanned (frames ++ [frame]) = scanned frames := by simp [scanned_append, jit]
    exact ⟨same ▸ uses.first, same ▸ uses.queries⟩
  | false =>
    have met : ∃ other ∈ scanned frames, keyOf other = keyOf frame.dso := by
      simpa [jit] using skipped
    have more : scanned (frames ++ [frame]) = scanned frames ++ [frame.dso] := by
      simp [scanned_append, jit]
    refine ⟨fun key => ?_, ?_⟩
    · rw [more, find?_append_of_met met, uses.first]
    · rw [more, firsts_append, if_pos met, uses.queries]

theorem ask {frame : Frame} (uses : Uses buildIdOf frames binaries queries)
    (asked : ¬(binaries.contains (keyOf frame.dso) || isJitSymbolFile frame.dso) = true) :
    Uses buildIdOf (frames ++ [frame])
      (binaries.insertIfAbsent (keyOf frame.dso) (buildIdOf frame.dso)).2
      (queries ++ [frame.dso]) := by
  rw [Bool.or_eq_true, not_or, uses.contains_iff, Bool.not_eq_true] at asked
  obtain ⟨unmet, noJit⟩ := asked
  have more : scanned (frames ++ [frame]) = scanned frames ++ [frame.dso] := by
    simp [scanned_append, noJit]
  refine ⟨fun key => ?_, ?_⟩
  · rw [SortedMap.get?_insertIfAbsent, more, uses.first, List.find?_append, Option.map_or]
    by_cases named : keyOf frame.dso = key <;> simp [named]
  · rw [more, firsts_append, if_neg unmet, uses.queries]

end Uses

def Answers (trace : Trace σ) (buildIdOf : String → String) (asked : World σ → List String) :
    Prop :=
  ∀ dso world, (trace.buildId dso).After world fun id after =>
    id = buildIdOf dso ∧ asked after = asked world ++ [dso]

theorem ends_requireFrame {trace : Trace σ} {buildIdOf : String → String}
    {asked : World σ → List String} (answers : trace.Answers buildIdOf asked) {frames : List Frame}
    {binaries : RequiredBinaries} {queries earlier : List String} {world : World σ}
    (uses : Uses buildIdOf frames binaries queries) (counted : asked world = earlier ++ queries)
    (frame : Frame) :
    (trace.requireFrame binaries frame).Ends world
      (fun later after => ∃ queries, Uses buildIdOf (frames ++ [frame]) later queries ∧
        asked after = earlier ++ queries) fun _ => False := by
  rw [requireFrame]
  split
  next skipped => exact ⟨queries, uses.skip skipped, counted⟩
  next new =>
    rw [Action.ends_bind, Action.ends_lift]
    refine (answers frame.dso world).mono fun id after h => ?_
    obtain ⟨rfl, more⟩ := h
    exact ⟨queries ++ [frame.dso], uses.ask new, by rw [more, counted, List.append_assoc]⟩

theorem ends_discover_uses {trace : Trace σ} {buildIdOf : String → String}
    {asked : World σ → List String} (answers : trace.Answers buildIdOf asked)
    (whole : trace.failure = none) (world : World σ) :
    trace.discover.Ends world
      (fun binaries after => ∃ queries,
        Uses buildIdOf (trace.samples.flatMap Sample.frames) binaries queries ∧
          asked after = asked world ++ queries) fun _ => False := by
  rw [discover, Action.ends_bind]
  refine (Action.ends_foldlM _ (fun frames binaries after => ∃ queries,
    Uses buildIdOf frames binaries queries ∧ asked after = asked world ++ queries) _ _ world
    ⟨[], ⟨fun _ => rfl, rfl⟩, by simp⟩ ?_).mono (fun binaries after h => ?_) fun _ left => left
  · rintro before frame rest binaries between - ⟨queries, uses, counted⟩
    exact ends_requireFrame answers uses counted frame
  · rw [whole]
    exact h

end Trace

namespace Builder

open Trace

variable {reader : TraceReader σ} {tracePath : Path} {world opened : World σ} {trace : Trace σ}
  {buildIdOf : String → String} {asked : World σ → List String}

theorem discover_uses (ran : reader.openTrace tracePath world = (.ok trace, opened))
    (whole : trace.failure = none) (answers : trace.Answers buildIdOf asked) :
    ∃ binaries read, discover reader tracePath world = (.ok binaries, read) ∧
      ∃ queries, Uses buildIdOf (trace.samples.flatMap Sample.frames) binaries queries ∧
        asked read = asked opened ++ queries := by
  rw [discover, Action.bind_of_ok _ _ _ _ _ ran]
  exact (ends_discover_uses answers whole opened).of_never

theorem known_of_discovered {binaries : RequiredBinaries} {read : World σ}
    (found : discover reader tracePath world = (.ok binaries, read)) (builder : Builder σ)
    (known : RequiredBinaries) (dirs : List Path) (period : Period) :
    (builder.build known reader tracePath dirs period world).1.1 = binaries := by
  rw [build, Effect.bind_apply]
  unfold ExceptT.run
  rw [found]
  rfl

theorem eq_of_uses {frames others : List Frame} {binaries binaries' : RequiredBinaries}
    {queries queries' : List String} (uses : Uses buildIdOf frames binaries queries)
    (uses' : Uses buildIdOf others binaries' queries')
    (perm : (frames.map Frame.dso).Perm (others.map Frame.dso))
    (oneKernel : ¬(kernelDso ∈ frames.map Frame.dso ∧ kernelKey ∈ frames.map Frame.dso)) :
    binaries = binaries' := by
  have scannedPerm : (scanned frames).Perm (scanned others) := perm.filter _
  -- Two binaries share a key only as the two names of the kernel.
  have oneScanned : ¬(kernelDso ∈ scanned frames ∧ kernelKey ∈ scanned frames) := fun both =>
    oneKernel ⟨List.mem_of_mem_filter both.1, List.mem_of_mem_filter both.2⟩
  refine SortedMap.eq_of_get? fun key => ?_
  rw [uses.first, uses'.first, find?_perm scannedPerm oneScanned]

/-- The mapping that a scan finds holds what is used and nothing else: a key for each binary that is
not generated code, with the build-id of the first binary that has the key, and that is the only one
asked about. What was known before plays no part, and nor does the order of the frames unless the
kernel is in the trace under both of its names. -/
theorem build_discovers (ran : reader.openTrace tracePath world = (.ok trace, opened))
    (whole : trace.failure = none) (answers : trace.Answers buildIdOf asked) :
    let frames := trace.samples.flatMap Sample.frames
    let used := (frames.map Frame.dso).filter fun dso => !isJitSymbolFile dso
    ∃ binaries read queries, discover reader tracePath world = (.ok binaries, read) ∧
      (∀ key, binaries.get? key = (used.find? (keyOf · = key)).map buildIdOf) ∧
      (∀ key, binaries.contains key = true ↔ ∃ dso ∈ used, keyOf dso = key) ∧
      asked read = asked opened ++ queries ∧
      queries = (used.eraseDupsBy fun dso other => keyOf dso == keyOf other) ∧
      (queries.map keyOf).Nodup ∧ (∀ key, key ∈ queries.map keyOf ↔ binaries.contains key = true) ∧
      (∀ dso ∈ queries, isJitSymbolFile dso = false) ∧
      (∀ (builder : Builder σ) known dirs period,
        (builder.build known reader tracePath dirs period world).1.1 = binaries) ∧
      ∀ (reader' : TraceReader σ) path' world' trace' opened' (asked' : World σ → List String),
        reader'.openTrace path' world' = (.ok trace', opened') → trace'.failure = none →
        trace'.Answers buildIdOf asked' →
        (frames.map Frame.dso).Perm ((trace'.samples.flatMap Sample.frames).map Frame.dso) →
        ¬(kernelDso ∈ frames.map Frame.dso ∧ kernelKey ∈ frames.map Frame.dso) →
          (discover reader' path' world').1 = .ok binaries := by
  intro frames used
  obtain ⟨binaries, read, found, queries, uses, counted⟩ := discover_uses ran whole answers
  refine ⟨binaries, read, queries, found, uses.first, uses.contains_iff, counted, uses.queries, ?_,
    fun key => ?_, fun dso asked => ?_, known_of_discovered found, ?_⟩
  · rw [uses.queries]
    exact nodup_firsts _
  · rw [uses.contains_iff, ← exists_firsts_iff, ← uses.queries, List.mem_map]
  · rw [uses.queries] at asked
    simpa using List.of_mem_filter (mem_of_mem_firsts asked)
  · intro reader' path' world' trace' opened' asked' ran' whole' answers' perm oneKernel
    obtain ⟨binaries', read', found', queries', uses', -⟩ := discover_uses ran' whole' answers'
    rw [found', eq_of_uses uses uses' perm oneKernel]

def kernelReader (samples : List Sample) : TraceReader (List String) :=
  ⟨fun _ => pure ⟨samples, none, fun dso => do
    Part.whole.modify (· ++ [dso])
    return "id of " ++ dso⟩⟩

theorem build_discovers_sample :
    let samples := [⟨some ⟨"/a", none⟩, [⟨kernelDso, none⟩, ⟨"/t/TemporaryFile-1", none⟩]⟩,
      ⟨none, [⟨kernelKey, none⟩, ⟨"/a", some "f"⟩]⟩]
    ∃ binaries read, discover (kernelReader samples) (.ofString "t") ⟨.empty, []⟩ =
        (.ok binaries, read) ∧
      binaries.get? kernelKey = some ("id of " ++ kernelDso) ∧ read.rest = ["/a", kernelDso] := by
  intro samples
  obtain ⟨binaries, read, queries, found, first, -, counted, asked, -⟩ :=
    @build_discovers _ (kernelReader samples) (.ofString "t") ⟨.empty, []⟩ _ _
      (fun dso => "id of " ++ dso) World.rest rfl rfl fun _ _ => ⟨rfl, rfl⟩
  refine ⟨binaries, read, found, ?_, ?_⟩
  · rw [first]
    cbv
  · rw [counted, asked]
    cbv

end Builder

end BuildIdCache
