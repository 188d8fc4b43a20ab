import BuildIdCache.Proofs.Source.Best

set_option autoImplicit false

namespace BuildIdCache

open FileSystem

variable {σ : Type} {reading : Reading} {binaries : RequiredBinaries} {cache : Cache}
  {path expected : String}

namespace SearchDirs

def Satisfies (reading : Reading) (fs : FileSystem) (dirs : List Path) (path expected : String)
    (content : ByteArray) : Prop :=
  reading.buildId content = expected ∧ ∀ file, Candidate reading fs dirs path expected file →
    reading.level content ≤ reading.levelAt fs file

theorem satisfies_trusted {fs : FileSystem} {dirs : List Path}
    (required : binaries.get? path = some expected) :
    Cache.Trusted reading binaries (· = path) fun _ => Satisfies reading fs dirs path expected := by
  rintro _ content rfl satisfies
  exact ⟨expected, required, .inr satisfies.1⟩

/-- What a search has done for a path when some files were offered for it: it is reported once there
is one, and its cached file is no more stripped than any of them. -/
structure Served (reading : Reading) (start : FileSystem) (cache : Cache) (path expected : String)
    (offered : Path → Prop) (report : SourceReport) (now : FileSystem) : Prop where
  reported : path ∈ report.collected ∨ path ∈ report.reused ↔ ∃ file, offered file
  stocked : (∃ file, offered file) → cache.Stocks (· = path) (fun _ content =>
    reading.buildId content = expected ∧
      ∀ file, offered file → reading.level content ≤ reading.levelAt start file) now

section

variable {start now after : FileSystem} {offered : Path → Prop} {report next : SourceReport}
  (served : Served reading start cache path expected offered report now)

include served

theorem Served.congr {others : Path → Prop} (same : ∀ file, others file ↔ offered file) :
    Served reading start cache path expected others report now :=
  offered_congr (p := (Served reading start cache path expected · report now)) served same

theorem Served.elsewhere
    (listed : path ∈ next.collected ∨ path ∈ next.reused ↔
      path ∈ report.collected ∨ path ∈ report.reused)
    (stays : ∀ good, cache.Stocks (· = path) good now → cache.Stocks (· = path) good after) :
    Served reading start cache path expected offered next after where
  reported := listed.trans served.reported
  stocked found := stays _ (served.stocked found)

theorem Served.offer {file : Path} (listed : path ∈ next.collected ∨ path ∈ next.reused)
    (plain : after.PlainBelow cache.root) (content : ByteArray)
    (readable : after.read (cache.pathOf path) = .ok content)
    (hasId : reading.buildId content = expected)
    (level : reading.level content ≤ reading.levelAt start file)
    (less : ∀ cached, now.read (cache.pathOf path) = .ok cached →
      reading.buildId cached = expected → reading.level content ≤ reading.level cached) :
    Served reading start cache path expected (fun other => offered other ∨ other = file) next
      after where
  reported := ⟨fun _ => ⟨file, .inr rfl⟩, fun _ => listed⟩
  stocked _ := by
    refine Cache.stocks_of_read plain readable ⟨hasId, ?_⟩
    rintro other (isOffered | rfl)
    · obtain ⟨cached, there, sameId, least⟩ := (served.stocked ⟨other, isOffered⟩).has path rfl
      exact (less cached there sameId).trans (least other isOffered)
    · exact level

end

section

variable {inspector : Inspector σ} (reads : inspector.Reads reading)
  (distinct : cache.Distinct binaries) (required : binaries.get? path = some expected)
  {start : FileSystem} (plain : start.PlainBelow cache.root)

include reads distinct required plain

theorem ends_offer_served (file : Path) (beyond : start.Beyond cache.root file)
    (offered : Path → Prop) (report : SourceReport) (other wanted : String)
    (required' : binaries.get? other = some wanted) (world : World σ)
    (fills : Fills start world.files cache.root)
    (served : Served reading start cache path expected offered report world.files) :
    (offer inspector cache file (reading.buildIdAt start file) report (other, wanted)).Ends world
      (fun next after => Fills start after.files cache.root ∧
        Served reading start cache path expected (fun candidate => offered candidate ∨
          candidate = file ∧ other = path ∧ reading.buildIdAt start file = expected) next
          after.files)
      fun _ => True := by
  have plainNow := fills.steady.plainBelow plain
  have same_wanted : other = path → wanted = expected := by
    rintro rfl
    exact Option.some.inj (required'.symm.trans required)
  refine (ends_offer reads cache file _ report other wanted world).mono ?_ fun _ _ => trivial
  -- The build-id is not the expected one, or what is cached suffices, or the file is copied.
  rintro next after (⟨apart, rfl, same⟩ | ⟨matched, rfl, same, enough⟩ |
    ⟨matched, rfl, lacking, written⟩)
  · rw [same]
    refine ⟨fills, served.congr fun candidate => ?_⟩
    simp only [not_wanted required required' apart, and_false, or_false]
  · rw [same]
    refine ⟨fills, ?_⟩
    by_cases here : other = path
    · subst here
      obtain rfl := same_wanted rfl
      obtain ⟨cached, readable, hasId, notLess⟩ := enough
      rw [Reading.levelAt_congr (beyond.read world.files fills)] at notLess
      refine (served.offer (.inr (by simp [mem_addOnce])) plainNow cached readable hasId
        (StrippedLevel.le_of_not_lt notLess) fun old there _ => ?_).congr (by simp [← matched])
      obtain rfl : cached = old := by simpa [readable] using there
      exact le_refl _
    · refine (served.elsewhere ?_ fun _ stocks => stocks).congr (by simp [here])
      simp [mem_addOnce, Ne.symm here]
  · have fillsAfter := fills.trans (fills_of_copied plainNow _ file written)
    refine ⟨fillsAfter, ?_⟩
    by_cases here : other = path
    · subst here
      obtain rfl := same_wanted rfl
      obtain ⟨content, source, still, readable⟩ := read_beyond plain fills beyond written
      have level := reading.levelAt_of_read start file content source
      refine (served.offer (.inl (by simp [mem_addOnce])) (fillsAfter.steady.plainBelow plain)
        content readable ?_ level.ge fun old there sameId => ?_).congr (by simp [← matched])
      · rw [matched, reading.buildIdAt_of_read start file content source]
      · have less : reading.levelAt world.files file < reading.level old := by
          by_contra notLess
          exact lacking ⟨old, there, sameId, notLess⟩
        rw [reading.levelAt_of_read world.files file content still] at less
        exact less.le
    · refine (served.elsewhere (by simp [mem_addOnce, Ne.symm here]) fun good stocks => ?_).congr
        (by simp [here])
      have made := stocks.sprouts (world.files.withParents_sprouts (cache.pathOf other))
      refine made.touches _ ?_ (touchesOnly_of_copy _ _ _ _ written)
      rintro _ rfl
      exact distinct.names required required' (Ne.symm here)

theorem ends_collect_served (dirs : List Path)
    (apart : ∀ dir ∈ dirs, ∃ place, start.Apart cache.root dir place) (world : World σ)
    (begins : world.files = start) :
    (collect inspector dirs binaries cache).Ends world
      (fun report after => Fills start after.files cache.root ∧
        Served reading start cache path expected (Candidate reading start dirs path expected) report
          after.files)
      fun _ => True := by
  refine (ends_collect_offered reads required (Served reading start cache path expected)
    (ends_offer_served reads distinct required plain) dirs apart world begins
    ⟨by simp [SourceReport.start], fun ⟨_, never⟩ => never.elim⟩).mono ?_ fun _ left => left
  rintro report after ⟨fills, found, served, rfl⟩
  refine ⟨fills, served.elsewhere ?_ fun _ stocks => stocks⟩
  simp only [List.mem_filter, decide_eq_true_eq]
  tauto

end

end SearchDirs

end BuildIdCache
