import BuildIdCache.Proofs.Cache
import BuildIdCache.Proofs.Source.Events

set_option autoImplicit false

namespace BuildIdCache.SearchDirs

open FileSystem

variable {σ : Type} {binaries : RequiredBinaries} {cache : Cache} {events more : List Event}
  {file : Path} {path : String}

/-- A file that the walk came to has the file name of a path, and said that it has the build-id that
is expected of the path. -/
def HasMatch (binaries : RequiredBinaries) (events : List Event) (path : String) : Prop :=
  ∃ file expected, binaries.get? path = some expected ∧
    file.fileName?.bind Name.toString? = some (fileNameOf path) ∧
    [.met file, .buildId file expected] <:+: events

structure Exact (binaries : RequiredBinaries) (events : List Event) (report : SourceReport) :
    Prop where
  collected : report.collected = (copies events).eraseDups
  collected_nodup : report.collected.Nodup
  reused : ∀ path, path ∈ report.reused ↔ HasMatch binaries events path ∧ path ∉ copies events
  reused_nodup : report.reused.Nodup
  disjoint : report.collected.Disjoint report.reused
  listed : ∀ path, path ∈ report.collected ∨ path ∈ report.reused ↔ HasMatch binaries events path
  failed : report.failed = []
  kernelSymbols : report.kernelSymbols = false

section

variable {source target : Path} {copied : Bool} {made : List Event}

theorem Asks.copies {asks : List Event} (each : ∀ event ∈ asks, Asks source target event) :
    copies asks = [] := by
  rw [SearchDirs.copies, List.filterMap_eq_nil_iff]
  intro event member
  cases each event member <;> rfl

theorem Offered.copies (offered : Offered path source target copied made) :
    copies made = if copied then [path] else [] := by
  cases offered with
  | kept asks each => exact Asks.copies each
  | copied asks files each =>
    rw [SearchDirs.copies, List.filterMap_append]
    exact congrArg (· ++ [path]) (Asks.copies each)

theorem Offered.unmet (offered : Offered path source target copied made) (other : Path) :
    .met other ∉ made := by
  intro member
  cases offered with
  | kept asks each => cases each _ member
  | copied asks files each =>
    rcases List.mem_append.1 member with asked | last
    · cases each _ asked
    · simp at last

end

theorem nodup_addOnce {paths : List String} (nodup : paths.Nodup) (path : String) :
    (addOnce paths path).Nodup := by
  unfold addOnce
  split
  · exact nodup
  next absent => exact List.nodup_append.2 ⟨nodup, by simp, by grind⟩

theorem addOnce_eraseDups (paths : List String) (path : String) :
    addOnce paths.eraseDups path = (paths ++ [path]).eraseDups := by
  rw [List.eraseDups_append, addOnce]
  split
  next present =>
    have old := List.mem_eraseDups.1 present
    simp [List.removeAll, old]
  next absent =>
    have new : path ∉ paths := fun old => absent (List.mem_eraseDups.2 old)
    simp [List.removeAll, new, List.eraseDups_cons]

structure Tallied (matched : String → Prop) (events : List Event) (report : SourceReport) :
    Prop where
  collected : report.collected = (copies events).eraseDups
  collected_nodup : report.collected.Nodup
  reused_nodup : report.reused.Nodup
  listed : ∀ path, path ∈ report.collected ∨ path ∈ report.reused ↔ matched path
  failed : report.failed = []
  kernelSymbols : report.kernelSymbols = false

theorem Tallied.congr {matched others : String → Prop} {report : SourceReport}
    (tallied : Tallied matched events report) (same : ∀ path, matched path ↔ others path)
    (copied : copies more = copies events) : Tallied others more report where
  collected := by rw [tallied.collected, copied]
  collected_nodup := tallied.collected_nodup
  reused_nodup := tallied.reused_nodup
  listed path := (tallied.listed path).trans (same path)
  failed := tallied.failed
  kernelSymbols := tallied.kernelSymbols

theorem Tallied.offered {matched : String → Prop} {report : SourceReport}
    (tallied : Tallied matched events report) {source target : Path} {copied : Bool}
    {made : List Event} (offered : Offered path source target copied made) :
    Tallied (fun other => matched other ∨ other = path) (events ++ made)
      (reported report path copied) := by
  have copiedNow : copies (events ++ made) = copies events ++ if copied then [path] else [] := by
    rw [← offered.copies, copies, copies, List.filterMap_append]
    rfl
  cases copied with
  | true =>
    exact {
      collected := by rw [copiedNow, if_pos rfl, ← addOnce_eraseDups, ← tallied.collected]; rfl
      collected_nodup := nodup_addOnce tallied.collected_nodup path
      reused_nodup := tallied.reused_nodup
      listed := fun other => by
        rw [← tallied.listed other]
        simp only [reported, if_true, mem_addOnce]
        tauto
      failed := tallied.failed
      kernelSymbols := tallied.kernelSymbols }
  | false =>
    exact {
      collected := by simpa [copiedNow, reported] using tallied.collected
      collected_nodup := tallied.collected_nodup
      reused_nodup := nodup_addOnce tallied.reused_nodup path
      listed := fun other => by
        rw [← tallied.listed other, or_assoc]
        simp only [reported, Bool.false_eq_true, if_false, mem_addOnce]
      failed := tallied.failed
      kernelSymbols := tallied.kernelSymbols }

theorem Tallied.exact {report : SourceReport}
    (tallied : Tallied (HasMatch binaries events) events report) :
    Exact binaries events
      { report with reused := report.reused.filter fun path => path ∉ report.collected } := by
  have copied : ∀ path, path ∈ report.collected ↔ path ∈ copies events := fun path => by
    rw [tallied.collected, List.mem_eraseDups]
  exact {
    collected := tallied.collected
    collected_nodup := tallied.collected_nodup
    reused := fun path => by
      rw [List.mem_filter, ← tallied.listed path, ← copied path]
      simp only [decide_not, Bool.not_eq_true', decide_eq_false_iff_not]
      tauto
    reused_nodup := tallied.reused_nodup.filter _
    disjoint := fun path collected reused => by
      simp [collected] at reused
    listed := fun path => by
      rw [List.mem_filter, ← tallied.listed path]
      simp only [decide_not, Bool.not_eq_true', decide_eq_false_iff_not]
      tauto
    failed := tallied.failed
    kernelSymbols := tallied.kernelSymbols }

section

variable (bare : Inspector σ)

end

end BuildIdCache.SearchDirs
