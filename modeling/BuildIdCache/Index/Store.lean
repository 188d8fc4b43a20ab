import BuildIdCache.FileSystem.Walk
import BuildIdCache.Index.Basic
import BuildIdCache.Inspector
import BuildIdCache.Layout

set_option autoImplicit false

namespace BuildIdCache.Index

variable {σ : Type}

def load (cache : Cache) : Action σ Index := do
  if ← Action.isFile cache.listPath then
    return parse (← Action.readText cache.listPath)
  else
    return ⟨[]⟩

def addRecord (inspector : Inspector σ) (cache : Cache) (records : List IndexRecord)
    (path : Path) : Action σ (List IndexRecord) := do
  if path.components = cache.listPath.components then return records
  let buildId ← inspector.buildId path
  if buildId.isEmpty then return records
  match cache.relativeString? path with
  | some relative => return records ++ [⟨buildId, relative⟩]
  | none => return records

def store (inspector : Inspector σ) (cache : Cache) : Action σ (List IndexRecord) := do
  Action.makeDirAll cache.root
  let records ← FileSystem.walk cache.root (addRecord inspector cache) []
  Action.write cache.listPath (render records).toUTF8
  return records

end BuildIdCache.Index
