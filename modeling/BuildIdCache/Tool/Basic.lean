import BuildIdCache.World

set_option autoImplicit false

namespace BuildIdCache

structure Environment where
  searchPath : Option (List UInt8)
  readelf : Option Path
deriving Inhabited

structure ToolOutput where
  status : Nat
  stdout : ByteArray
deriving Inhabited

def ToolOutput.text (output : ToolOutput) : String := decodeLossy output.stdout

structure Tools (σ : Type) where
  spawn : Path → List (List UInt8) → Effect σ (Except IoError ToolOutput)

def Tools.run {σ : Type} (tools : Tools σ) (tool : Path) (arguments : List (List UInt8)) :
    Action σ ToolOutput := do
  match ← tools.spawn tool arguments with
  | .ok output => return output
  | .error e => throw (.tool (.notSpawned tool e))

namespace Environment

def searchDirs (env : Environment) : List Path :=
  match env.searchPath with
  | none => []
  | some text => (splitBy 0x3A text).map Path.mk

def find? (env : Environment) (fs : FileSystem) (name : String) : Option Path :=
  (env.searchDirs.map fun dir => dir.join (.ofString name)).find? fs.isFile

end Environment

end BuildIdCache
