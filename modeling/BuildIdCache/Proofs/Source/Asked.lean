import BuildIdCache.Proofs.Layout
import BuildIdCache.Proofs.Source.Events

set_option autoImplicit false

namespace BuildIdCache.SearchDirs

open FileSystem

variable {σ : Type} {binaries : RequiredBinaries} {cache : Cache} {file : Path}

def NamedFor (binaries : RequiredBinaries) (file : Path) (path : String) : Prop :=
  binaries.contains path = true ∧ file.fileName?.bind Name.toString? = some (fileNameOf path)

/-- What may be seen of a file once it was asked for its build-id: what decides whether it is copied
to where a required path with its name leads, and the copies. -/
def Follows (binaries : RequiredBinaries) (cache : Cache) (file : Path) (event : Event) : Prop :=
  ∃ path, NamedFor binaries file path ∧
    (Asks file (cache.pathOf path) event ∨
      ∃ files, event = .copy path files file (cache.pathOf path))

/-- What is seen of a file each time that the walk comes to it. It is asked for its build-id once as
a file that may be copied, if it has the name for that; else it is only met. -/
inductive Pass (binaries : RequiredBinaries) (cache : Cache) : List Event → Prop
  | other (file : Path) (unnamed : ∀ path, ¬NamedFor binaries file path) :
      Pass binaries cache [.met file]
  | named (file : Path) (path : String) (answer : String) (more : List Event)
      (isNamed : NamedFor binaries file path)
      (each : ∀ event ∈ more, Follows binaries cache file event) :
      Pass binaries cache (.met file :: .buildId file answer :: more)

def MadeOfPasses (binaries : RequiredBinaries) (cache : Cache) (events : List Event) : Prop :=
  ∃ passes : List (List Event), events = passes.flatten ∧ ∀ pass ∈ passes, Pass binaries cache pass

theorem NamedFor.pathOf {path : String} (isNamed : NamedFor binaries file path) :
    NamedFor binaries (cache.pathOf path) path := by
  obtain ⟨required, called⟩ := isNamed
  obtain ⟨name, -, text⟩ := Option.bind_eq_some_iff.1 called
  exact ⟨required, by rw [cache.fileName?_pathOf path name text, Option.bind_some, text]⟩

theorem MadeOfPasses.add {before after : List Event} (passed : MadeOfPasses binaries cache before)
    (more : ∃ pass, after = before ++ pass ∧ Pass binaries cache pass) :
    MadeOfPasses binaries cache after := by
  obtain ⟨passes, rfl, each⟩ := passed
  obtain ⟨pass, rfl, is⟩ := more
  refine ⟨passes ++ [pass], by simp, fun other member => ?_⟩
  rcases List.mem_append.1 member with early | last
  · exact each other early
  · exact List.mem_singleton.1 last ▸ is

section

variable (bare : Inspector σ)

end

end BuildIdCache.SearchDirs
