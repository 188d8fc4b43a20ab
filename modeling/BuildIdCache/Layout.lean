import BuildIdCache.Path

set_option autoImplicit false

namespace BuildIdCache

def defaultCacheDir : String := "binary_cache"
def listFileName : String := "build_id_list"
def kernelSymbolsFileName : String := "kallsyms"

def cacheRelative (recorded : String) : Path :=
  match (Path.ofString recorded).bytes with
  | [] => ⟨[]⟩
  | b :: rest => if b = slash then ⟨rest⟩ else ⟨b :: rest⟩

def renderNames (names : List Name) : Option String :=
  (names.mapM Name.toString?).map fun parts => "/".intercalate parts

structure Cache where
  root : Path

namespace Cache

/-- Only names are joined to the root, so nothing leads out of it. -/
def pathOf (cache : Cache) (recorded : String) : Path :=
  (cacheRelative recorded).names.foldl Path.push cache.root

def listPath (cache : Cache) : Path := cache.root.join (.ofString listFileName)

def kernelSymbolsPath (cache : Cache) : Path := cache.root.join (.ofString kernelSymbolsFileName)

def relativeString? (cache : Cache) (path : Path) : Option String :=
  match path.below? cache.root with
  | none => none
  | some components =>
    match components.filterMap Component.name? with
    | [] => none
    | names => renderNames names

end Cache

end BuildIdCache
