import BuildIdCache.Proofs.Observed
import BuildIdCache.Proofs.Source.SearchDirs

set_option autoImplicit false

namespace BuildIdCache.SearchDirs

open FileSystem

variable {σ : Type}

/-- What is seen of a search. A copy for a path is seen with the files as they are before it. -/
inductive Event
  | met (file : Path)
  | buildId (path : Path) (answer : String)
  | sections (path : Path)
  | copy (path : String) (files : FileSystem) (source target : Path)

inductive Asks (source target : Path) : Event → Prop
  | identity (answer : String) : Asks source target (.buildId target answer)
  | offered : Asks source target (.sections source)
  | cached : Asks source target (.sections target)

/-- What is seen while a file is offered for a path: what is asked before it is copied, and the copy
if there is one. -/
inductive Offered (path : String) (source target : Path) : Bool → List Event → Prop
  | kept (asks : List Event) (each : ∀ event ∈ asks, Asks source target event) :
      Offered path source target false asks
  | copied (asks : List Event) (files : FileSystem)
      (each : ∀ event ∈ asks, Asks source target event) :
      Offered path source target true (asks ++ [.copy path files source target])

def reported (report : SourceReport) (path : String) (copied : Bool) : SourceReport :=
  if copied then { report with collected := addOnce report.collected path }
  else { report with reused := addOnce report.reused path }

def copies (events : List Event) : List String :=
  events.filterMap fun
    | .copy path .. => some path
    | _ => none

namespace Seen

def inspector (bare : Inspector σ) : Inspector (σ × List Event) :=
  bare.observed (fun path answer => [.buildId path answer]) fun path => [.sections path]

def watch : Watch (σ × List Event) where
  met file := Action.note fun _ => .met file
  copying path source target := Action.note fun files => .copy path files source target

def collect (bare : Inspector σ) (dirs : List Path) (binaries : RequiredBinaries)
    (cache : Cache) : Action (σ × List Event) SourceReport :=
  watch.collect (inspector bare) dirs binaries cache

section

variable (bare : Inspector σ)

theorem needToCopy_erases (source target : Path) (expected : String) :
    (needToCopy (inspector bare) source target expected).Erases
      (needToCopy bare source target expected) := by
  have asked : ((inspector bare).buildId target).Erases (bare.buildId target) :=
    bare.buildId_erases _ _ target
  refine (Effect.Erases.isFile target).bind fun file => .ite (.pure true) ?_
  refine asked.bind fun id => .ite (.pure true) ?_
  exact (bare.level_erases _ _ source).bind fun offered =>
    (bare.level_erases _ _ target).bind fun cached => .pure _

theorem copyWatched_erases {copying : Action (σ × List Event) Unit} {bareCopying : Action σ Unit}
    (erases : copying.Erases bareCopying) (source target : Path) (expected : String) :
    (copyWatched copying (inspector bare) source target expected).Erases
      (copyWatched bareCopying bare source target expected) := by
  have written : (Action.copy source target >>= fun _ => pure true :
      Action (σ × List Event) Bool).Erases (Action.copy source target >>= fun _ => pure true) :=
    (Action.Erases.change target fun fs => fs.copy source target).bind fun _ => .pure true
  exact (Action.Erases.lift (needToCopy_erases bare source target expected)).bind fun needed =>
    .ite (.withParents target fun _ => erases.bind fun _ => written) (.pure false)

theorem offer_erases (cache : Cache) (file : Path) (buildId : String) (report : SourceReport)
    (wanted : String × String) :
    (watch.offer (inspector bare) cache file buildId report wanted).Erases
      (offer bare cache file buildId report wanted) := by
  obtain ⟨path, expected⟩ := wanted
  have copying : (watch.copying path file (cache.pathOf path)).Erases
      (Watch.silent.copying path file (cache.pathOf path) : Action σ Unit) := .note _
  simp only [offer, Watch.offer]
  refine .ite (.pure report) ?_
  exact (copyWatched_erases bare copying file (cache.pathOf path) expected).bind fun copied =>
    .ite (.pure _) (.pure _)

theorem visit_erases (cache : Cache) (wanted : SortedMap String (List (String × String)))
    (report : SourceReport) (file : Path) :
    (watch.visit (inspector bare) cache wanted report file).Erases
      (visit bare cache wanted report file) := by
  have met : (watch.met file).Erases (Watch.silent.met file : Action σ Unit) := .note _
  unfold visit Watch.visit
  refine met.bind fun _ => ?_
  cases (file.fileName?.bind Name.toString?).bind wanted.get? with
  | none => exact .pure report
  | some bucket =>
    have asked : ((inspector bare).buildId file).Erases (bare.buildId file) :=
      bare.buildId_erases _ _ file
    exact (Action.Erases.lift asked).bind fun buildId =>
      .foldlM (offer_erases bare cache file buildId) bucket report

theorem collect_erases (dirs : List Path) (binaries : RequiredBinaries) (cache : Cache) :
    (collect bare dirs binaries cache).Erases (SearchDirs.collect bare dirs binaries cache) := by
  refine (Action.Erases.foldlM (fun report dir => ?_) dirs _).bind fun report => .pure _
  exact walk_erases (visit_erases bare cache binaries.byFileName) dir report

theorem after_needToCopy_seen (source target : Path) (expected : String)
    (world : World (σ × List Event)) :
    (needToCopy (inspector bare) source target expected).After world fun _ after =>
      ∃ asks, after.events = world.events ++ asks ∧ ∀ event ∈ asks, Asks source target event := by
  simp only [needToCopy, inspector, Inspector.level, Inspector.observed, Effect.after_bind,
    Effect.after_isFile]
  split
  · exact ⟨[], (List.append_nil _).symm, by simp⟩
  rw [Effect.after_bind, Effect.after_observed]
  refine .of_forall fun answer after => ?_
  split
  · exact ⟨[.buildId target answer], rfl, by simpa using .identity answer⟩
  · simp only [Effect.after_bind, Effect.after_observed, Effect.after_pure]
    refine .of_forall fun _ _ => .of_forall fun _ _ =>
      ⟨[.buildId target answer, .sections source, .sections target], by simp, ?_⟩
    simpa using ⟨.identity answer, .offered, .cached⟩

theorem ends_visit {cache : Cache} {binaries : RequiredBinaries} {file : Path}
    {report : SourceReport} {world : World (σ × List Event)}
    {done : SourceReport → World (σ × List Event) → Prop}
    {failed : World (σ × List Event) → Prop}
    (inv : String → List (String × String) → SourceReport → World (σ × List Event) → Prop)
    (unsought : sought binaries file = [] →
      done report (world.bare.observed (world.events ++ [.met file])))
    (begins : (bare.buildId file).After world.bare fun answer after =>
      inv answer [] report (after.observed (world.events ++ [.met file, .buildId file answer])))
    (each : ∀ answer before path expected next between, (path, expected) ∈ sought binaries file →
      inv answer before next between →
        (watch.offer (inspector bare) cache file answer next (path, expected)).Ends between
          (inv answer (before ++ [(path, expected)])) failed)
    (ends : ∀ answer next after, sought binaries file ≠ [] →
      inv answer (sought binaries file) next after → done next after) :
    (watch.visit (inspector bare) cache binaries.byFileName report file).Ends world done
      failed := by
  rw [Watch.visit, watch, Action.ends_bind, Action.ends_note]
  unfold sought at *
  cases called : file.fileName?.bind Name.toString? with
  | none => exact unsought (by simp [called])
  | some name =>
    simp only [called] at unsought each ends
    simp only [Option.bind_some]
    split
    next absent => exact unsought (by simp [absent])
    next bucket present =>
      have filled := binaries.byFileName_ne_nil name bucket present
      simp only [present, Option.getD_some] at each ends
      rw [Action.ends_bind, Action.ends_lift, inspector, Inspector.observed, Effect.after_observed]
      refine begins.mono fun answer after holds => ?_
      refine (Action.ends_foldlM _ (inv answer) bucket report _ (by simpa using holds) ?_).mono
        (fun next last all => ends answer next last filled all) fun _ left => left
      rintro before ⟨path, expected⟩ rest next between split holds
      exact each answer before path expected next between (by simp [split]) holds

theorem ends_collect {cache : Cache} {binaries : RequiredBinaries} {dirs : List Path}
    {failed : World (σ × List Event) → Prop} (world : World (σ × List Event))
    (inv : SourceReport → World (σ × List Event) → Prop) (first : inv (.start sourceName) world)
    (each : ∀ report file now, inv report now →
      (watch.visit (inspector bare) cache binaries.byFileName report file).Ends now inv failed)
    (stops : ∀ report now, inv report now → failed now) :
    (collect bare dirs binaries cache).Ends world
      (fun report after => ∃ found, inv found after ∧
        report = { found with reused := found.reused.filter fun path => path ∉ found.collected })
      failed := by
  rw [collect, Watch.collect, Action.ends_bind]
  refine (Action.ends_foldlM _ (fun _ => inv) dirs _ world first ?_).mono
    (fun found _ holds => ⟨found, holds, rfl⟩) fun _ left => left
  intro before dir rest report between _ holds
  exact ends_walk_each dir _ inv failed each stops report between holds

end

end Seen

end BuildIdCache.SearchDirs
