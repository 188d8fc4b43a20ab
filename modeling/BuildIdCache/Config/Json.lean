import BuildIdCache.Config.Basic
import BuildIdCache.Json.Decode
import BuildIdCache.Json.Write

set_option autoImplicit false

namespace BuildIdCache

open Json

namespace InspectorKind

def toJson (kind : InspectorKind) : Value := .ofString kind.name

def ofJson? (value : Value) : Option InspectorKind := value.alternative?.bind ofName?

end InspectorKind

namespace Config

def fieldNames : List String :=
  ["cache_dir", "search_dirs", "disable_adb_root", "ndk_path", "adb_path", "readelf_path",
    "simpleperf_path", "inspector"]

def pathToJson (path : Path) : Value := .ofString (path.toString?.getD "")

def isText (config : Config) : Bool :=
  (config.cacheDir :: config.searchDirs ++ config.toolchain.toList ++ config.adb.toList ++
    config.readelf.toList ++ config.profiler.toList).all fun path => path.toString?.isSome

def toJson (config : Config) : Value :=
  let path? (name : String) (path : Option Path) : List (String × Value) :=
    path.toList.map fun path => (name, pathToJson path)
  .ofMembers (
    [("cache_dir", pathToJson config.cacheDir),
      ("search_dirs", .array (config.searchDirs.map pathToJson)),
      ("disable_adb_root", .bool config.disableRoot)] ++
    path? "ndk_path" config.toolchain ++ path? "adb_path" config.adb ++
    path? "readelf_path" config.readelf ++ path? "simpleperf_path" config.profiler ++
    [("inspector", config.inspector.toJson)])

def pathOfJson? (value : Value) : Option Path := value.string?.map Path.ofString

def fieldOr? {α : Type} (default : α) (decode : Value → Option α) : Option Value → Option α
  | none => some default
  | some value => decode value

def ofJson? (value : Value) : Option Config := do
  let path? := fieldOr? none (Value.optional? pathOfJson?)
  match ← value.fields? fieldNames with
  | [cacheDir, searchDirs, disableRoot, toolchain, adb, readelf, profiler, inspector] =>
    return {
      cacheDir := ← fieldOr? Config.default.cacheDir pathOfJson? cacheDir
      searchDirs := ← fieldOr? [] (Value.list? pathOfJson?) searchDirs
      disableRoot := ← fieldOr? false Value.bool? disableRoot
      toolchain := ← path? toolchain
      adb := ← path? adb
      readelf := ← path? readelf
      profiler := ← path? profiler
      inspector := ← fieldOr? .readelf InspectorKind.ofJson? inspector }
  | _ => none

end Config

end BuildIdCache
