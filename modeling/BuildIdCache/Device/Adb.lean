import BuildIdCache.Device.Bridge
import BuildIdCache.Text.Blank
import BuildIdCache.Tool.Basic

set_option autoImplicit false

namespace BuildIdCache.Adb

variable {σ : Type}

structure Connection where
  program : Option Path
  mayRoot : Bool

def output? (tools : Tools σ) (adb : Connection) (arguments : List String) :
    Effect σ (Option String) := do
  match adb.program with
  | none => return none
  | some program =>
    match ← tools.spawn program (arguments.map fun argument => argument.toUTF8.toList) with
    | .ok output => return if output.status = 0 then some output.text else none
    | .error _ => return none

def run (tools : Tools σ) (adb : Connection) (arguments : List String) : Effect σ Bool := do
  return (← output? tools adb arguments).isSome

def isRoot (tools : Tools σ) (adb : Connection) : Effect σ Bool := do
  match ← output? tools adb ["shell", "whoami"] with
  | some text => return (Text.afterFirst? "root".toList text.toList).isSome
  | none => return false

def buildType? (tools : Tools σ) (adb : Connection) : Effect σ (Option String) := do
  return (← output? tools adb ["shell", "getprop", "ro.build.type"]).map fun text =>
    String.ofList (Text.trim text.toList)

def switchToRoot (tools : Tools σ) (adb : Connection) : Effect σ Bool := do
  if !adb.mayRoot then return false
  if ← isRoot tools adb then return true
  if (← buildType? tools adb) = some "user" then return false
  let _ ← run tools adb ["root"]
  let _ ← run tools adb ["wait-for-device"]
  isRoot tools adb

def bridge (tools : Tools σ) (adb : Connection) : Bridge σ where
  available := run tools adb ["shell", "whoami"]
  switchToRoot := switchToRoot tools adb
  shell arguments := run tools adb ("shell" :: arguments)
  pull source target := run tools adb ["pull", source, target.display]

def locate (env : Environment) (explicit : Option Path) (mayRoot : Bool) :
    Effect σ Connection := do
  match explicit with
  | some path => return ⟨some path, mayRoot⟩
  | none => return ⟨env.find? (← Effect.files) "adb", mayRoot⟩

end BuildIdCache.Adb
