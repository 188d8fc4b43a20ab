import BuildIdCache.Stripping
import BuildIdCache.World

set_option autoImplicit false

namespace BuildIdCache

/-- Reads build-ids and section names. A file that cannot be read has the empty build-id and no
sections. -/
structure Inspector (σ : Type) where
  name : String
  buildId : Path → Effect σ String
  sections : Path → Effect σ (List String)

namespace Inspector

variable {σ : Type}

def level (inspector : Inspector σ) (path : Path) : Effect σ StrippedLevel := do
  return .ofSections (← inspector.sections path)

def ofContent (name : String) (buildId : ByteArray → String)
    (sections : ByteArray → List String) : Inspector σ where
  name := name
  buildId path := do
    match (← Effect.files).read path with
    | .ok content => return buildId content
    | .error _ => return ""
  sections path := do
    match (← Effect.files).read path with
    | .ok content => return sections content
    | .error _ => return []

def recorded (inspector : Inspector σ) (asked : Part σ (List Path)) : Inspector σ :=
  { inspector with
    buildId := fun path => do
      asked.modify (· ++ [path])
      inspector.buildId path }

end Inspector

end BuildIdCache
