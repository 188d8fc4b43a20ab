import BuildIdCache.Config.Json
import BuildIdCache.Json.Records
import BuildIdCache.Proofs.Json.Fields
import BuildIdCache.Proofs.SortedMap
import BuildIdCache.Proofs.Text.Utf8

set_option autoImplicit false

namespace BuildIdCache

open Json

namespace Json.Value

variable {α : Type}

theorem Means.record {read? : Value → Option α} {v : Value} {a : α}
    (fields : List (String × Option Value)) (written : v = ofMembers (present fields))
    (build : List (Option Value) → Option α)
    (reads : ∀ v, read? v = (v.fields? (fields.map Prod.fst)).bind build)
    (nodup : (fields.map Prod.fst).Nodup) (natural : ∀ field ∈ fields, ∀ v ∈ field.2, v.Natural)
    (built : build (fields.map fun field => field.2.map reread) = some a) : v.Means read? a := by
  have found := means_present nodup natural
  rw [written]
  refine ⟨found.natural, ?_⟩
  rw [reads, found.reads, Option.bind_some, built]

end Json.Value

namespace IndexRecord

def fields (record : IndexRecord) : List (String × Option Value) :=
  [("build_id", some (.ofString record.buildId)), ("path", some (.ofString record.path))]

theorem means_toJson (record : IndexRecord) : record.toJson.Means ofJson? record := by
  have buildId := Value.means_ofString record.buildId
  have path := Value.means_ofString record.path
  refine Value.Means.record record.fields rfl _ (fun v => rfl) (by simp [fields]) ?_ ?_
  · simp [fields, buildId.natural, path.natural]
  · simp [fields, buildId.reads, path.reads]

end IndexRecord

namespace Index

theorem means_recordsToJson (records : List IndexRecord) :
    (recordsToJson records).Means (Value.list? IndexRecord.ofJson?) records :=
  Value.means_array fun record _ => record.means_toJson

def fields (index : Index) : List (String × Option Value) :=
  [("records", some (recordsToJson index.records))]

theorem means_toJson (index : Index) : index.toJson.Means ofJson? index := by
  have records := means_recordsToJson index.records
  refine Value.Means.record index.fields rfl _ (fun v => rfl) (by simp [fields]) ?_ ?_
  · simp [fields, records.natural]
  · simp [fields, records.reads]

end Index

namespace RequiredBinaries

theorem means_toJson (binaries : RequiredBinaries) :
    (RequiredBinaries.toJson binaries).Means RequiredBinaries.ofJson? binaries := by
  refine ⟨Value.natural_ofMembers ?_, ?_⟩
  · intro member written
    obtain ⟨entry, -, rfl⟩ := List.mem_map.1 written
    exact (Value.means_ofString entry.2).natural
  · let member (entry : String × String) : String × Value :=
      (entry.1, (Value.ofString entry.2).reread)
    have entries : (binaries.entries.map member).mapM
        (fun m => m.2.string?.map fun buildId => (m.1, buildId)) =
          some (binaries.entries.map id) := by
      rw [List.mapM_map]
      exact Value.mapM_of_each fun entry _ => by simp [member, (Value.means_ofString entry.2).reads]
    rw [ofJson?, RequiredBinaries.toJson, Value.members?_reread, List.map_map]
    calc ((binaries.entries.map member).mapM fun m : String × Value =>
            m.2.string?.map fun buildId => (m.1, buildId)).bind (fun entries =>
          some (SortedMap.ofList entries))
        = some (SortedMap.ofList binaries.entries) := by rw [entries, List.map_id, Option.bind_some]
      _ = some binaries := by rw [SortedMap.ofList_entries]

end RequiredBinaries

namespace SourceReport

def fields (report : SourceReport) : List (String × Option Value) :=
  [("source", some (.ofString report.source)),
    ("collected", some (.ofStrings report.collected)),
    ("reused", some (.ofStrings report.reused)),
    ("failed", some (.ofStrings report.failed)),
    ("kernel_symbols", if report.kernelSymbols then some (.bool true) else none)]

theorem toJson_eq (report : SourceReport) :
    report.toJson = .ofMembers (Value.present report.fields) := by
  rw [toJson, fields]
  cases report.kernelSymbols <;> rfl

theorem means_toJson (report : SourceReport) : report.toJson.Means ofJson? report := by
  have written := report.toJson_eq
  obtain ⟨source, collected, reused, failed, flag⟩ := report
  have source := Value.means_ofString source
  have collected := Value.means_ofStrings collected
  have reused := Value.means_ofStrings reused
  have failed := Value.means_ofStrings failed
  refine Value.Means.record _ written _ (fun v => rfl) (by simp [fields]) ?_ ?_
  · simp [fields, source.natural, collected.natural, reused.natural, failed.natural,
      Value.Natural.bool]
  · cases flag <;>
      simp [fields, source.reads, collected.reads, reused.reads, failed.reads,
        (Value.means_bool true).reads]

end SourceReport

namespace BuildReport

def fields (report : BuildReport) : List (String × Option Value) :=
  [("trace_path", some (.ofString report.tracePath)),
    ("cache_dir", some (.ofString report.cacheDir)),
    ("started_at", some (.ofString report.period.started)),
    ("finished_at", some (.ofString report.period.finished)),
    ("binaries", some (RequiredBinaries.toJson report.binaries)),
    ("sources", some (.array (report.sources.map SourceReport.toJson))),
    ("index_entries", some (.ofNat report.indexEntries))]

theorem means_toJson (report : BuildReport) (fits : report.indexEntries < Value.integerLimit) :
    report.toJson.Means ofJson? report := by
  have tracePath := Value.means_ofString report.tracePath
  have cacheDir := Value.means_ofString report.cacheDir
  have started := Value.means_ofString report.period.started
  have finished := Value.means_ofString report.period.finished
  have binaries := RequiredBinaries.means_toJson report.binaries
  have sources := Value.means_array fun (source : SourceReport) (_ : source ∈ report.sources) =>
    source.means_toJson
  have indexEntries := Value.means_ofNat fits
  refine Value.Means.record report.fields rfl _ (fun v => rfl) (by simp [fields]) ?_ ?_
  · simp [fields, tracePath.natural, cacheDir.natural, started.natural, finished.natural,
      binaries.natural, sources.natural, indexEntries.natural]
  · simp [fields, tracePath.reads, cacheDir.reads, started.reads, finished.reads, binaries.reads,
      sources.reads, indexEntries.reads]

end BuildReport

theorem Path.toString?_ofString (text : String) : (ofString text).toString? = some text := by
  rw [toString?, ofString, toUTF8_toList, fromUTF8?_encode, String.ofList_toList]

theorem Path.ofString_of_toString? {path : Path} {text : String} (is : path.toString? = some text) :
    ofString text = path := by
  have bytes := bytes_of_fromUTF8? path.bytes text is
  rw [ofString, toUTF8_toList, ← bytes]

theorem InspectorKind.means_toJson (kind : InspectorKind) : kind.toJson.Means ofJson? kind := by
  have name := Value.means_name kind.name
  have known : ofName? kind.name = some kind := by cases kind <;> rfl
  refine ⟨name.natural, ?_⟩
  rw [ofJson?, toJson, name.reads, Option.bind_some, known]

namespace Config

theorem means_pathToJson {path : Path} (text : path.toString?.isSome) :
    (pathToJson path).Means pathOfJson? path := by
  obtain ⟨text, is⟩ := Option.isSome_iff_exists.1 text
  have means := (Value.means_ofString text).map Path.ofString
  have written : pathToJson path = .ofString text := by rw [pathToJson, is, Option.getD_some]
  rw [Path.ofString_of_toString? is, ← written] at means
  exact means

def fields (config : Config) : List (String × Option Value) :=
  [("cache_dir", some (pathToJson config.cacheDir)),
    ("search_dirs", some (.array (config.searchDirs.map pathToJson))),
    ("disable_adb_root", some (.bool config.disableRoot)),
    ("ndk_path", config.toolchain.map pathToJson),
    ("adb_path", config.adb.map pathToJson),
    ("readelf_path", config.readelf.map pathToJson),
    ("simpleperf_path", config.profiler.map pathToJson),
    ("inspector", some config.inspector.toJson)]

theorem toJson_eq (config : Config) : config.toJson = .ofMembers (Value.present config.fields) := by
  obtain ⟨cacheDir, searchDirs, disableRoot, toolchain, adb, readelf, profiler, inspector⟩ := config
  cases toolchain <;> cases adb <;> cases readelf <;> cases profiler <;> rfl

theorem path?_reread {path : Option Path} (text : ∀ p ∈ path, p.toString?.isSome) :
    fieldOr? none (Value.optional? pathOfJson?) ((path.map pathToJson).map Value.reread) =
      some path := by
  cases path with
  | none => rfl
  | some path =>
    calc Value.optional? pathOfJson? (pathToJson path).reread
        = (pathOfJson? (pathToJson path).reread).map some := rfl
      _ = some (some path) := by rw [(means_pathToJson (text path rfl)).reads, Option.map_some]

theorem natural_pathToJson (path : Path) : (pathToJson path).Natural := .string _

theorem fieldOr?_some {α : Type} (absent : α) (read? : Value → Option α) (v : Value) :
    fieldOr? absent read? (some v) = read? v := rfl

theorem means_toJson (config : Config) (text : config.isText = true) :
    config.toJson.Means ofJson? config := by
  have text := List.all_eq_true.1 text
  have cacheDir := means_pathToJson (text config.cacheDir (by simp))
  have searchDirs := Value.means_array fun path (there : path ∈ config.searchDirs) =>
    means_pathToJson (text path (by simp [there]))
  have disableRoot := Value.means_bool config.disableRoot
  have toolchain := path?_reread fun path (is : path ∈ config.toolchain) =>
    text path (by simp_all)
  have adb := path?_reread fun path (is : path ∈ config.adb) => text path (by simp_all)
  have readelf := path?_reread fun path (is : path ∈ config.readelf) => text path (by simp_all)
  have profiler := path?_reread fun path (is : path ∈ config.profiler) => text path (by simp_all)
  have inspector := config.inspector.means_toJson
  refine Value.Means.record _ config.toJson_eq _ (fun v => rfl) (by simp [fields]) ?_ ?_
  · simp [fields, cacheDir.natural, searchDirs.natural, disableRoot.natural, inspector.natural,
      natural_pathToJson]
  · simp only [fields, List.map_cons, List.map_nil, Option.map_some, fieldOr?_some,
      cacheDir.reads, searchDirs.reads, disableRoot.reads, toolchain, adb, readelf, profiler,
      inspector.reads]
    rfl

end Config

namespace Json

def ReadsBack {α : Type} (write : α → Value) (read? : Value → Option α) (a : α) : Prop :=
  (Value.parse? (write a).compact).bind read? = some a

def keys? (text : String) : Option (List String) :=
  ((Value.parse? text).bind Value.members?).map fun members => members.map Prod.fst

theorem keys?_present {fields : List (String × Option Value)}
    (natural : (Value.ofMembers (Value.present fields)).Natural) :
    keys? (Value.ofMembers (Value.present fields)).compact =
      some ((Value.present fields).map Prod.fst) := by
  rw [keys?, Value.parse?_compact natural, Option.bind_some, Value.members?_reread, Option.map_some,
    List.map_map]
  rfl

theorem keys?_sourceReport (report : SourceReport) :
    keys? report.toJson.compact = some (["source", "collected", "reused", "failed"] ++
      if report.kernelSymbols then ["kernel_symbols"] else []) := by
  have natural := report.means_toJson.natural
  rw [report.toJson_eq] at natural ⊢
  rw [keys?_present natural]
  obtain ⟨source, collected, reused, failed, flag⟩ := report
  cases flag <;> rfl

theorem keys?_config (config : Config) (text : config.isText = true) :
    keys? config.toJson.compact = some (["cache_dir", "search_dirs", "disable_adb_root"] ++
      (if config.toolchain.isSome then ["ndk_path"] else []) ++
      (if config.adb.isSome then ["adb_path"] else []) ++
      (if config.readelf.isSome then ["readelf_path"] else []) ++
      (if config.profiler.isSome then ["simpleperf_path"] else []) ++ ["inspector"]) := by
  have natural := (config.means_toJson text).natural
  rw [config.toJson_eq] at natural ⊢
  rw [keys?_present natural]
  obtain ⟨cacheDir, searchDirs, disableRoot, toolchain, adb, readelf, profiler, inspector⟩ := config
  cases toolchain <;> cases adb <;> cases readelf <;> cases profiler <;> rfl

theorem records_read_back :
    (∀ record, ReadsBack IndexRecord.toJson IndexRecord.ofJson? record) ∧
    (∀ index, ReadsBack Index.toJson Index.ofJson? index) ∧
    (∀ binaries, ReadsBack RequiredBinaries.toJson RequiredBinaries.ofJson? binaries) ∧
    (∀ report : SourceReport,
      ReadsBack SourceReport.toJson SourceReport.ofJson? report ∧
      keys? report.toJson.compact = some (["source", "collected", "reused", "failed"] ++
        if report.kernelSymbols then ["kernel_symbols"] else [])) ∧
    (∀ report : BuildReport, report.indexEntries < Value.integerLimit →
      ReadsBack BuildReport.toJson BuildReport.ofJson? report) ∧
    (∀ config : Config, config.isText = true →
      ReadsBack Config.toJson Config.ofJson? config ∧
      keys? config.toJson.compact = some (["cache_dir", "search_dirs", "disable_adb_root"] ++
        (if config.toolchain.isSome then ["ndk_path"] else []) ++
        (if config.adb.isSome then ["adb_path"] else []) ++
        (if config.readelf.isSome then ["readelf_path"] else []) ++
        (if config.profiler.isSome then ["simpleperf_path"] else []) ++ ["inspector"])) := by
  refine ⟨fun record => record.means_toJson.parse, fun index => index.means_toJson.parse,
    fun binaries => (RequiredBinaries.means_toJson binaries).parse,
    fun report => ⟨report.means_toJson.parse, keys?_sourceReport report⟩, ?_, ?_⟩
  · intro report fits
    exact (report.means_toJson fits).parse
  · intro config text
    exact ⟨(config.means_toJson text).parse, keys?_config config text⟩

namespace Sample

def awkward : String := "\"\\\n\x01/é😀"

def flagged : SourceReport := ⟨"", [awkward], [], [], true⟩

def report : BuildReport :=
  ⟨awkward, "", ⟨"", ""⟩, .ofList [(awkward, ""), ("/a", awkward)], [flagged, .start awkward],
    0xFFFFFFFFFFFFFFFF⟩

def config : Config := { Config.default with adb := some (.ofString awkward) }

theorem records_read_back_sample :
    flagged.toJson.compact =
      "\x7b\"source\":\"\",\"collected\":[\"\\\"\\\\\\n\\u0001/é😀\"],\"reused\":[]," ++
        "\"failed\":[],\"kernel_symbols\":true\x7d" ∧
    (SourceReport.start "").toJson.compact =
      "\x7b\"source\":\"\",\"collected\":[],\"reused\":[],\"failed\":[]\x7d" ∧
    report.indexEntries < Value.integerLimit ∧
      ReadsBack BuildReport.toJson BuildReport.ofJson? report ∧
    config.isText = true ∧ ReadsBack Config.toJson Config.ofJson? config ∧
    keys? config.toJson.compact =
      some ["cache_dir", "search_dirs", "disable_adb_root", "adb_path", "inspector"] := by
  have fits : report.indexEntries < Value.integerLimit := by decide
  have text : config.isText = true := by
    simp [config, Config.isText, Config.default, Path.toString?_ofString]
  obtain ⟨-, -, -, -, reports, configs⟩ := records_read_back
  obtain ⟨readsBack, keys⟩ := configs config text
  exact ⟨by rfl, by rfl, fits, reports report fits, text, readsBack, keys⟩

end Sample

end Json

end BuildIdCache
