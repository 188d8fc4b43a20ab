import BuildIdCache.World

set_option autoImplicit false

namespace BuildIdCache

structure Frame where
  dso : String
  symbol : Option String
deriving DecidableEq, Inhabited

structure Sample where
  frame : Option Frame
  callchain : List Frame
deriving DecidableEq, Inhabited

def Sample.frames (sample : Sample) : List Frame := sample.frame.toList ++ sample.callchain

/-- An opened trace. With a failure, reading ends with it after the samples. -/
structure Trace (σ : Type) where
  samples : List Sample
  failure : Option CacheError
  buildId : String → Effect σ String

structure TraceReader (σ : Type) where
  openTrace : Path → Action σ (Trace σ)

namespace TraceReader

variable {σ : Type}

inductive Call
  | opened (path : Path)
  | buildId (dso : String)
deriving DecidableEq

def recorded (reader : TraceReader σ) (calls : Part σ (List Call)) : TraceReader σ where
  openTrace path := do
    calls.modify (· ++ [.opened path])
    let trace ← reader.openTrace path
    return { trace with
      buildId := fun dso => do
        calls.modify (· ++ [.buildId dso])
        trace.buildId dso }

end TraceReader

end BuildIdCache
