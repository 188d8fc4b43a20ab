import BuildIdCache.FileSystem.Basic
import BuildIdCache.Text.Utf8

set_option autoImplicit false

namespace BuildIdCache

def Path.display (path : Path) : String := decodeLossy ⟨path.bytes.toArray⟩

inductive TraceError
  | fileNotFound (path : Path)
  | reported (text : String)
deriving DecidableEq

def TraceError.message : TraceError → String
  | fileNotFound path => s!"trace file not found: {path.display}"
  | reported text => text

inductive ToolError
  | notSpawned (tool : Path) (cause : IoError)
  | exited (tool : Path) (status : Nat)
  | readelfMissing (path : Path)
  | noReadelf
  | noProfiler
deriving DecidableEq

def ToolError.message : ToolError → String
  | notSpawned tool cause => s!"failed to spawn {tool.display}: {cause.message}"
  | exited tool status => s!"{tool.display} exited with exit status: {status}"
  | readelfMissing path => s!"readelf not found at {path.display}"
  | noReadelf => "Could not find llvm-readelf. Install it, set READELF, or pass --ndk-path"
  | noProfiler => "Could not find simpleperf to read a binary record file. Pass --simpleperf"

/-- What ends a run. A device that fails and a build-id that cannot be read are no errors. -/
inductive CacheError
  | missingSearchDir (dir : Path)
  | io (path : Path) (cause : IoError)
  | walk (root failed : Path) (cause : IoError)
  | trace (cause : TraceError)
  | tool (cause : ToolError)
deriving DecidableEq

def CacheError.message : CacheError → String
  | missingSearchDir dir => s!"Search directory not found: {dir.display}"
  | io path cause => s!"I/O error at {path.display}: {cause.message}"
  | walk root failed cause =>
    s!"Failed to walk {root.display}: IO error for operation on {failed.display}: " ++
      cause.message
  | trace cause => "Trace reader error: " ++ cause.message
  | tool cause => "Tool error: " ++ cause.message

end BuildIdCache
