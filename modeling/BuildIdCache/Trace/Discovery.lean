import BuildIdCache.Required
import BuildIdCache.Trace.Sample

set_option autoImplicit false

namespace BuildIdCache.Trace

variable {σ : Type}

def keyOf (dso : String) : String := if dso = kernelDso then kernelKey else dso

def requireFrame (trace : Trace σ) (binaries : RequiredBinaries) (frame : Frame) :
    Action σ RequiredBinaries := do
  let key := keyOf frame.dso
  if binaries.contains key || isJitSymbolFile frame.dso then return binaries
  let buildId ← trace.buildId frame.dso
  return (binaries.insertIfAbsent key buildId).2

def discover (trace : Trace σ) : Action σ RequiredBinaries := do
  let binaries ← (trace.samples.flatMap Sample.frames).foldlM (requireFrame trace) .empty
  match trace.failure with
  | some e => throw e
  | none => return binaries

end BuildIdCache.Trace
