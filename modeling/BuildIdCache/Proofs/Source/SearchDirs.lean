import BuildIdCache.Proofs.FileSystem.Walk
import BuildIdCache.Proofs.Inspector
import BuildIdCache.Proofs.Required
import BuildIdCache.Source.SearchDirs

set_option autoImplicit false

namespace BuildIdCache.SearchDirs

open FileSystem

variable {σ : Type} {inspector : Inspector σ} {reading : Reading} (reads : inspector.Reads reading)

def Suffices (reading : Reading) (fs : FileSystem) (source target : Path) (expected : String) :
    Prop :=
  ∃ cached, fs.read target = .ok cached ∧ reading.buildId cached = expected ∧
    ¬reading.levelAt fs source < reading.level cached

theorem mem_addOnce (paths : List String) (path other : String) :
    other ∈ addOnce paths path ↔ other ∈ paths ∨ other = path := by
  unfold addOnce
  split <;> grind

include reads

theorem after_needToCopy (source target : Path) (expected : String) (world : World σ) :
    (needToCopy inspector source target expected).After world fun needed after =>
      after.files = world.files ∧
        (needed = false ↔ Suffices reading world.files source target expected) := by
  simp only [needToCopy, Effect.after_bind, Effect.after_isFile]
  -- Where no file is in the way, nothing is asked.
  by_cases file : world.files.isFile target = true
  · obtain ⟨cached, readable⟩ := (world.files.isFile_iff target).1 file
    simp only [file, Bool.not_true, Bool.false_eq_true, if_false]
    rw [Effect.after_bind]
    refine (reads.buildId target world).mono fun id first asked => ?_
    rw [reading.buildIdAt_of_read _ _ cached readable] at asked
    split
    next other =>
      rw [Effect.after_pure]
      refine ⟨asked.2, ?_⟩
      simp only [Bool.true_eq_false, false_iff]
      rintro ⟨content, again, same, -⟩
      rw [readable] at again
      obtain rfl := Except.ok.inj again
      exact other (asked.1.trans same)
    next matched =>
      simp only [Effect.after_bind, Effect.after_pure]
      refine (reads.level source first).mono fun offered second asked' => ?_
      refine (reads.level target second).mono fun level third asked'' => ?_
      rw [asked'.2, asked.2, reading.levelAt_of_read _ _ cached readable] at asked''
      rw [asked.2] at asked'
      refine ⟨asked''.2, ?_⟩
      rw [asked'.1, asked''.1, decide_eq_false_iff_not]
      have same : reading.buildId cached = expected := asked.1.symm.trans (not_not.1 matched)
      constructor
      · exact fun notLess => ⟨cached, readable, same, notLess⟩
      · rintro ⟨content, again, -, notLess⟩
        rw [readable] at again
        exact Except.ok.inj again ▸ notLess
  · simp only [Bool.not_eq_true] at file
    simp only [file, Bool.not_false, if_true, Effect.after_pure, true_and]
    simp only [Bool.true_eq_false, false_iff]
    rintro ⟨cached, readable, -⟩
    simp [(world.files.isFile_iff target).2 ⟨cached, readable⟩] at file

theorem ends_copyToCache (source target : Path) (expected : String) (world : World σ) :
    (copyToCache inspector source target expected).Ends world
      (fun copied after =>
        (copied = false ∧ after.files = world.files ∧
            Suffices reading world.files source target expected) ∨
          (copied = true ∧ ¬Suffices reading world.files source target expected ∧
            (world.files.withParents target).copy source target = .ok after.files))
      fun after => after.files = world.files.withParents target := by
  simp only [copyToCache, copyWatched, pure_bind, Action.ends_bind, Action.ends_lift]
  refine (after_needToCopy reads source target expected world).mono fun needed asked h => ?_
  cases needed with
  | false => exact .inl ⟨rfl, h.1, h.2.1 rfl⟩
  | true =>
    have lacking : ¬Suffices reading world.files source target expected :=
      fun enough => Bool.noConfusion (h.2.2 enough)
    simp only [if_true]
    refine Action.ends_withParents target
      (fun _ => Action.copy source target >>= fun _ => pure true)
      asked (fun _ => ?_) fun _ _ _ _ => by rw [h.1]
    rw [Action.ends_bind, h.1]
    exact Action.ends_change target _ _ _ (fun fs copied => .inr ⟨rfl, lacking, copied⟩) rfl

theorem ends_offer (cache : Cache) (file : Path) (buildId : String) (report : SourceReport)
    (path expected : String) (world : World σ) :
    (offer inspector cache file buildId report (path, expected)).Ends world
      (fun next after =>
        (expected ≠ buildId ∧ next = report ∧ after.files = world.files) ∨
          (expected = buildId ∧ next = { report with reused := addOnce report.reused path } ∧
            after.files = world.files ∧
            Suffices reading world.files file (cache.pathOf path) expected) ∨
          (expected = buildId ∧ next = { report with collected := addOnce report.collected path } ∧
            ¬Suffices reading world.files file (cache.pathOf path) expected ∧
            (world.files.withParents (cache.pathOf path)).copy file (cache.pathOf path) =
              .ok after.files))
      fun after => after.files = world.files.withParents (cache.pathOf path) := by
  simp only [offer, Watch.offer]
  split
  next other => exact .inl ⟨other, rfl, rfl⟩
  next matched =>
    rw [Action.ends_bind]
    refine (ends_copyToCache reads file (cache.pathOf path) expected world).mono ?_ fun _ left =>
      left
    rintro copied after (⟨rfl, same, enough⟩ | ⟨rfl, lacking, written⟩)
    · exact .inr (.inl ⟨not_not.1 matched, rfl, same, enough⟩)
    · exact .inr (.inr ⟨not_not.1 matched, rfl, lacking, written⟩)

def sought (binaries : RequiredBinaries) (file : Path) : List (String × String) :=
  match file.fileName?.bind Name.toString? with
  | some name => (binaries.byFileName.get? name).getD []
  | none => []

omit reads in
theorem mem_sought (binaries : RequiredBinaries) (file : Path) (path expected : String) :
    (path, expected) ∈ sought binaries file ↔
      binaries.get? path = some expected ∧
        file.fileName?.bind Name.toString? = some (fileNameOf path) := by
  unfold sought
  split
  next name called => rw [binaries.mem_bucket, called, Option.some.injEq, eq_comm (a := name)]
  next called => simp [called]

omit reads in
theorem not_wanted {binaries : RequiredBinaries} {path other expected wanted id : String}
    (required : binaries.get? path = some expected) (required' : binaries.get? other = some wanted)
    (apart : wanted ≠ id) : ¬(other = path ∧ id = expected) := by
  rintro ⟨rfl, rfl⟩
  exact apart (Option.some.inj (required'.symm.trans required))

theorem ends_visit (cache : Cache) (binaries : RequiredBinaries) (file : Path)
    (report : SourceReport) (world : World σ)
    (inv : List (String × String) → SourceReport → World σ → Prop) (failed : World σ → Prop)
    (first : ∀ after : World σ, after.files = world.files → inv [] report after)
    (each : ∀ before path expected next between,
      (path, expected) ∈ sought binaries file → inv before next between →
        (offer inspector cache file (reading.buildIdAt world.files file) next
          (path, expected)).Ends between (inv (before ++ [(path, expected)])) failed) :
    (visit inspector cache binaries.byFileName report file).Ends world
      (inv (sought binaries file)) failed := by
  unfold sought at *
  cases called : file.fileName?.bind Name.toString? with
  | none =>
    simp only [visit, Watch.visit, called, Option.bind_none]
    exact first world rfl
  | some name =>
    simp only [called] at each
    simp only [visit, Watch.visit, Watch.silent, pure_bind, called, Option.bind_some]
    split
    next absent => simpa [absent] using first world rfl
    next bucket present =>
      simp only [present, Option.getD_some] at each ⊢
      rw [Action.ends_bind, Action.ends_lift]
      refine (reads.buildId file world).mono fun id after asked => ?_
      refine Action.ends_foldlM _ inv bucket report after (first after asked.2) ?_
      rintro before ⟨path, expected⟩ rest next between split holds
      rw [asked.1]
      exact each before path expected next between (by simp [split]) holds

omit reads in
theorem grows_of_copied (fs after : FileSystem) (source target : Path)
    (written : (fs.withParents target).copy source target = .ok after) : Grows fs after := by
  obtain ⟨place, content, filled, same, -⟩ := copy_sameBut _ after _ _ written
  exact (fs.withParents_sprouts target).grows.trans (same.grows filled)

theorem ends_visit_grows (cache : Cache) (binaries : RequiredBinaries) (file : Path)
    (report : SourceReport) (world : World σ) :
    (visit inspector cache binaries.byFileName report file).Ends world
      (fun _ after => Grows world.files after.files)
      fun after => Grows world.files after.files := by
  refine ends_visit reads cache binaries file report world
    (fun _ _ after => Grows world.files after.files) _ (fun after same => same ▸ .refl _) ?_
  intro before path expected next between _ grows
  refine (ends_offer reads cache file _ next path expected between).mono ?_ ?_
  · rintro last after (⟨-, -, same⟩ | ⟨-, -, same, -⟩ | ⟨-, -, -, written⟩)
    · exact same ▸ grows
    · exact same ▸ grows
    · exact grows.trans (grows_of_copied _ _ _ _ written)
  · rintro after made
    exact grows.trans (made ▸ (between.files.withParents_sprouts _).grows)

theorem ends_collect (cache : Cache) (binaries : RequiredBinaries) (dirs : List Path)
    (inv : SourceReport → World σ → Prop) (failed : World σ → Prop) (world : World σ)
    (first : inv (.start sourceName) world)
    (each : ∀ dir ∈ dirs, ∀ names report between, inv report between →
      between.files.Settled (dir.extend names) →
        (visit inspector cache binaries.byFileName report (dir.extend names)).Ends between
          inv failed)
    (stops : ∀ report between, inv report between → failed between) :
    (collect inspector dirs binaries cache).Ends world
      (fun report after => ∃ found, inv found after ∧
        report = { found with reused := found.reused.filter fun path => path ∉ found.collected })
      failed := by
  simp only [collect, Watch.collect, Action.ends_bind]
  refine (Action.ends_foldlM _ (fun _ => inv) dirs _ world first ?_).mono
    (fun found after holds => ⟨found, holds, rfl⟩) fun _ left => left
  intro before dir rest report between split holds
  refine (ends_walk dir _ inv failed ?_ stops report between holds).mono
    (fun _ _ h => h.1) fun _ left => left
  intro next names between holds settled
  refine ((each dir (by simp [split]) names next between holds settled).and
    (ends_visit_grows reads cache binaries _ next between)).mono (fun _ _ h => h) fun _ h => h.1

end BuildIdCache.SearchDirs
