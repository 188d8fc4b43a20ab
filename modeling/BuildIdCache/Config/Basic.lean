import BuildIdCache.Layout

set_option autoImplicit false

namespace BuildIdCache

inductive InspectorKind
  | readelf
  | inProcess
deriving DecidableEq, Repr, Inhabited

namespace InspectorKind

def name : InspectorKind → String
  | readelf => "readelf"
  | inProcess => "goblin"

def all : List InspectorKind := [readelf, inProcess]

def ofName? (name : String) : Option InspectorKind := all.find? fun kind => kind.name = name

def unknownMessage (name : String) : String :=
  s!"Unknown inspector '{name}'. Allowed: readelf, goblin"

end InspectorKind

structure Config where
  cacheDir : Path
  searchDirs : List Path
  disableRoot : Bool
  toolchain : Option Path
  adb : Option Path
  readelf : Option Path
  profiler : Option Path
  inspector : InspectorKind
deriving DecidableEq

def Config.default : Config :=
  ⟨.ofString defaultCacheDir, [], false, none, none, none, none, .readelf⟩

instance : Inhabited Config := ⟨.default⟩

end BuildIdCache
