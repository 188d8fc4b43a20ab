import BuildIdCache.Device.Bridge
import BuildIdCache.Required

set_option autoImplicit false

namespace BuildIdCache.Simulated

structure Device where
  connected : Bool
  rooted : Bool
  files : SortedMap String ByteArray
  unreadable : List String
  kernelSymbols : Option ByteArray
  scratch : SortedMap String ByteArray

instance : Inhabited Device := ⟨⟨false, false, .empty, [], none, .empty⟩⟩

def Device.shell (device : Device) : List String → Bool × Device
  | ["cp", source, dir] =>
    match device.files.get? source with
    | some content =>
      (true,
        { device with
          scratch := device.scratch.insert (dir ++ "/" ++ fileNameOf source) content })
    | none => (false, device)
  | ["rm", path] =>
    (device.scratch.contains path, { device with scratch := device.scratch.erase path })
  | "echo" :: _ => (device.rooted, device)
  | _ => (false, device)

def Device.content? (device : Device) (path : String) : Option ByteArray :=
  if path ∈ device.unreadable then none
  else if path = "/proc/kallsyms" ∧ device.rooted then device.kernelSymbols
  else (device.scratch.get? path).or (device.files.get? path)

def bridge {σ : Type} (part : Part σ Device) : Bridge σ where
  available := do return (← part.read).connected
  switchToRoot := do return (← part.read).rooted
  shell arguments := do
    let (answer, device) := (← part.read).shell arguments
    part.modify fun _ => device
    return answer
  pull source target := do
    match (← part.read).content? source with
    | none => return false
    | some content =>
      match (← Effect.files).write target content with
      | .ok fs => do
        Effect.setFiles fs
        return true
      | .error _ => return false

end BuildIdCache.Simulated
