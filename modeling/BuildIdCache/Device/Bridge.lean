import BuildIdCache.World

set_option autoImplicit false

namespace BuildIdCache

/-- What a connected device is asked for. Each answer says no more than whether it worked. -/
structure Bridge (σ : Type) where
  available : Effect σ Bool
  switchToRoot : Effect σ Bool
  shell : List String → Effect σ Bool
  pull : String → Path → Effect σ Bool

namespace Bridge

variable {σ : Type}

inductive Call
  | available
  | root
  | shell (arguments : List String)
  | pull (source : String) (target : Path)
deriving DecidableEq

def recorded (bridge : Bridge σ) (calls : Part σ (List Call)) : Bridge σ where
  available := do
    calls.modify (· ++ [.available])
    bridge.available
  switchToRoot := do
    calls.modify (· ++ [.root])
    bridge.switchToRoot
  shell arguments := do
    calls.modify (· ++ [.shell arguments])
    bridge.shell arguments
  pull source target := do
    calls.modify (· ++ [.pull source target])
    bridge.pull source target

end Bridge

end BuildIdCache
