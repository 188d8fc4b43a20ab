import BuildIdCache.Build
import BuildIdCache.Json.Decode
import BuildIdCache.Json.Write

set_option autoImplicit false

namespace BuildIdCache

open Json

namespace IndexRecord

def toJson (record : IndexRecord) : Value :=
  .ofMembers [("build_id", .ofString record.buildId), ("path", .ofString record.path)]

def ofJson? (value : Value) : Option IndexRecord := do
  match ← value.fields? ["build_id", "path"] with
  | [some buildId, some path] => return ⟨← buildId.string?, ← path.string?⟩
  | _ => none

end IndexRecord

namespace Index

def recordsToJson (records : List IndexRecord) : Value := .array (records.map (·.toJson))

def toJson (index : Index) : Value := .ofMembers [("records", recordsToJson index.records)]

def ofJson? (value : Value) : Option Index := do
  match ← value.fields? ["records"] with
  | [some records] => return ⟨← records.list? IndexRecord.ofJson?⟩
  | _ => none

end Index

namespace RequiredBinaries

def toJson (binaries : RequiredBinaries) : Value :=
  .ofMembers (binaries.entries.map fun e => (e.1, .ofString e.2))

def ofJson? (value : Value) : Option RequiredBinaries := do
  let members ← value.members?
  let entries ← members.mapM fun m => m.2.string?.map fun buildId => (m.1, buildId)
  return SortedMap.ofList entries

end RequiredBinaries

namespace StrippedLevel

def toJson (level : StrippedLevel) : Value := .ofString level.name

def ofJson? (value : Value) : Option StrippedLevel := value.alternative?.bind ofName?

end StrippedLevel

namespace SourceReport

def toJson (report : SourceReport) : Value :=
  .ofMembers ([("source", .ofString report.source), ("collected", .ofStrings report.collected),
    ("reused", .ofStrings report.reused), ("failed", .ofStrings report.failed)] ++
    if report.kernelSymbols then [("kernel_symbols", .bool true)] else [])

def ofJson? (value : Value) : Option SourceReport := do
  match ← value.fields? ["source", "collected", "reused", "failed", "kernel_symbols"] with
  | [some source, some collected, some reused, some failed, kernelSymbols] =>
    let flag ← match kernelSymbols with
      | some flag => flag.bool?
      | none => some false
    return ⟨← source.string?, ← collected.list? Value.string?, ← reused.list? Value.string?,
      ← failed.list? Value.string?, flag⟩
  | _ => none

end SourceReport

namespace BuildReport

def toJson (report : BuildReport) : Value :=
  .ofMembers [
    ("trace_path", .ofString report.tracePath),
    ("cache_dir", .ofString report.cacheDir),
    ("started_at", .ofString report.period.started),
    ("finished_at", .ofString report.period.finished),
    ("binaries", RequiredBinaries.toJson report.binaries),
    ("sources", .array (report.sources.map SourceReport.toJson)),
    ("index_entries", .ofNat report.indexEntries)]

def ofJson? (value : Value) : Option BuildReport := do
  match ← value.fields? ["trace_path", "cache_dir", "started_at", "finished_at", "binaries",
      "sources", "index_entries"] with
  | [some tracePath, some cacheDir, some started, some finished, some binaries, some sources,
      some indexEntries] =>
    return {
      tracePath := ← tracePath.string?
      cacheDir := ← cacheDir.string?
      period := ⟨← started.string?, ← finished.string?⟩
      binaries := ← RequiredBinaries.ofJson? binaries
      sources := ← sources.list? SourceReport.ofJson?
      indexEntries := ← indexEntries.nat? }
  | _ => none

end BuildReport

end BuildIdCache
