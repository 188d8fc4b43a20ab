import BuildIdCache.Elf.Notes
import BuildIdCache.Inspector

set_option autoImplicit false

namespace BuildIdCache.Elf

def inspectorName : String := "goblin"

def buildId (content : ByteArray) : String :=
  match Image.parse? content with
  | some image => noteBuildId (image.notes content)
  | none => ""

def sectionNames (content : ByteArray) : List String :=
  match Image.parse? content with
  | some image => namesOf image.sections image.names
  | none => []

def inspector {σ : Type} : Inspector σ := .ofContent inspectorName buildId sectionNames

end BuildIdCache.Elf
