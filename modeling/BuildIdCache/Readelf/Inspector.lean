import BuildIdCache.Elf.Magic
import BuildIdCache.Inspector
import BuildIdCache.Readelf.Output
import BuildIdCache.Tool.Basic

set_option autoImplicit false

namespace BuildIdCache.Readelf

variable {σ : Type}

def inspectorName : String := "readelf"

def output? (tools : Tools σ) (program : Path) (flag : String) (path : Path) :
    Effect σ (Option String) := do
  if !Elf.isElfFile (← Effect.files) path then return none
  match ← tools.spawn program [flag.toUTF8.toList, path.bytes] with
  | .ok output => return if output.status = 0 then some output.text else none
  | .error _ => return none

def inspector (tools : Tools σ) (program : Path) : Inspector σ where
  name := inspectorName
  buildId path := do
    match ← output? tools program "-n" path with
    | some text => return buildId text
    | none => return ""
  sections path := do
    match ← output? tools program "-SW" path with
    | some text => return sectionNames text
    | none => return []

def toolchainPath (toolchain : Path) : Path :=
  ["toolchains", "llvm", "prebuilt", "linux-x86_64", "bin", "llvm-readelf"].foldl
    (fun path name => path.join (.ofString name)) toolchain

def candidates (env : Environment) (fs : FileSystem) (toolchain : Option Path) : List Path :=
  env.readelf.toList ++ (toolchain.map toolchainPath).toList ++
    (env.find? fs "llvm-readelf").toList ++ (env.find? fs "readelf").toList

def locate (env : Environment) (explicit toolchain : Option Path) : Action σ Path := do
  let fs ← Action.files
  match explicit with
  | some path => if fs.isFile path then return path else throw (.tool (.readelfMissing path))
  | none =>
    match (candidates env fs toolchain).find? fs.isFile with
    | some path => return path
    | none => throw (.tool .noReadelf)

end BuildIdCache.Readelf
