import BuildIdCache.Config.Basic

set_option autoImplicit false

namespace BuildIdCache.CommandLine

structure CommonArgs where
  config : Option Path
  cacheDir : Option Path
  inspector : Option InspectorKind
  toolchain : Option Path
  readelf : Option Path
deriving DecidableEq

def CommonArgs.none : CommonArgs := ⟨.none, .none, .none, .none, .none⟩

structure BuildArgs where
  trace : Option Path
  libDirs : List Path
  disableRoot : Bool
  adb : Option Path
  profiler : Option Path
  json : Bool
  common : CommonArgs
deriving DecidableEq

def BuildArgs.none : BuildArgs := ⟨.none, [], false, .none, .none, false, .none⟩

inductive Invocation
  | build (args : BuildArgs)
  | index (common : CommonArgs)
  | lookup (buildId : String) (common : CommonArgs)
  | list (json : Bool) (common : CommonArgs)
deriving DecidableEq

inductive OptionName
  | trace
  | lib
  | disableRoot
  | adb
  | profiler
  | json
  | config
  | cacheDir
  | inspector
  | toolchain
  | readelf
  | logLevel
  | version
deriving DecidableEq, Repr

inductive Arity
  | flag
  | one
  | many
deriving DecidableEq, Repr

structure Spec where
  option : OptionName
  long : String
  short : Option Char
  arity : Arity

def commonSpecs : List Spec :=
  [⟨.config, "config", none, .one⟩, ⟨.cacheDir, "cache-dir", none, .one⟩,
    ⟨.inspector, "inspector", none, .one⟩, ⟨.toolchain, "ndk-path", none, .one⟩,
    ⟨.readelf, "readelf", none, .one⟩, ⟨.logLevel, "log-level", none, .one⟩]

def buildSpecs : List Spec :=
  [⟨.trace, "perf-data-path", some 'i', .one⟩, ⟨.lib, "lib", some 'l', .many⟩,
    ⟨.disableRoot, "disable-adb-root", none, .flag⟩, ⟨.adb, "adb", none, .one⟩,
    ⟨.profiler, "simpleperf", none, .one⟩, ⟨.json, "json", none, .flag⟩] ++ commonSpecs

inductive Subcommand
  | build
  | index
  | lookup
  | list
deriving DecidableEq, Repr

namespace Subcommand

def name : Subcommand → String
  | build => "build"
  | index => "index"
  | lookup => "lookup"
  | list => "list"

def all : List Subcommand := [build, index, lookup, list]

def ofName? (name : String) : Option Subcommand := all.find? fun s => s.name = name

def specs : Subcommand → List Spec
  | build => buildSpecs
  | index => commonSpecs
  | lookup => commonSpecs
  | list => ⟨.json, "json", none, .flag⟩ :: commonSpecs

def positionals : Subcommand → Nat
  | lookup => 1
  | _ => 0

end Subcommand

def rootSpecs : List Spec := buildSpecs ++ [⟨.version, "version", some 'V', .flag⟩]

structure Given where
  option : OptionName
  values : List String

inductive Refusal
  | usage
  | version
deriving DecidableEq, Repr

structure Reading where
  given : List Given
  waiting : Option (Spec × List String)
  onlyPositionals : Bool
  positionals : List String

namespace Reading

def start : Reading := ⟨[], none, false, []⟩

def isValid (option : OptionName) (value : String) : Bool :=
  match option with
  | .logLevel => true
  | .inspector => (InspectorKind.ofName? value).isSome
  | _ => !value.isEmpty

def accept (reading : Reading) (spec : Spec) (values : List String) : Except Refusal Reading :=
  let again := reading.given.any fun g => g.option = spec.option
  if spec.option = .version then .error .version
  else if spec.arity ≠ .flag ∧ values.isEmpty then .error .usage
  else if values.any fun value => !isValid spec.option value then .error .usage
  else if again ∧ spec.arity ≠ .many then .error .usage
  else .ok { reading with given := reading.given ++ [⟨spec.option, values⟩] }

def settle (reading : Reading) : Except Refusal Reading :=
  match reading.waiting with
  | none => .ok reading
  | some (spec, values) => { reading with waiting := none }.accept spec values

def take (reading : Reading) (spec : Spec) (attached : Option String) :
    Except Refusal Reading := do
  let reading ← reading.settle
  match spec.arity, attached with
  | .flag, none => reading.accept spec []
  | .flag, some _ => .error .usage
  | _, some value => reading.accept spec [value]
  | _, none => .ok { reading with waiting := some (spec, []) }

def long (specs : List Spec) (reading : Reading) (text : List Char) : Except Refusal Reading :=
  let name := String.ofList (text.takeWhile (· ≠ '='))
  let attached := match text.dropWhile (· ≠ '=') with
    | [] => none
    | _ :: value => some (String.ofList value)
  match specs.find? fun spec => spec.long = name with
  | none => .error .usage
  | some spec => reading.take spec attached

def shorts (specs : List Spec) (reading : Reading) : List Char → Except Refusal Reading
  | [] => .ok reading
  | c :: rest =>
    match specs.find? fun spec => spec.short = some c with
    | none => .error .usage
    | some spec =>
      match spec.arity, rest with
      | .flag, _ => do (← reading.take spec none).shorts specs rest
      | _, [] => reading.take spec none
      | _, '=' :: value => reading.take spec (some (String.ofList value))
      | _, value => reading.take spec (some (String.ofList value))

def positional (limit : Nat) (reading : Reading) (text : String) : Except Refusal Reading := do
  let reading ← reading.settle
  if reading.positionals.length < limit then
    .ok { reading with positionals := reading.positionals ++ [text] }
  else .error .usage

def plain (limit : Nat) (reading : Reading) (text : String) : Except Refusal Reading :=
  match reading.waiting with
  | none => reading.positional limit text
  | some (spec, values) =>
    let waiting := { reading with waiting := some (spec, values ++ [text]) }
    if spec.arity = .many then .ok waiting else waiting.settle

def step (specs : List Spec) (limit : Nat) (reading : Reading) (text : String) :
    Except Refusal Reading :=
  if reading.onlyPositionals then reading.positional limit text
  else
    match text.toList with
    | ['-'] => reading.plain limit text
    | ['-', '-'] => .ok { reading with onlyPositionals := true }
    | '-' :: '-' :: rest => reading.long specs rest
    | '-' :: rest => reading.shorts specs rest
    | _ => reading.plain limit text

def values (reading : Reading) (option : OptionName) : List String :=
  (reading.given.filter fun g => g.option = option).flatMap (·.values)

def has (reading : Reading) (option : OptionName) : Bool :=
  reading.given.any fun g => g.option = option

def path? (reading : Reading) (option : OptionName) : Option Path :=
  (reading.values option).head?.map Path.ofString

def common (reading : Reading) : CommonArgs where
  config := reading.path? .config
  cacheDir := reading.path? .cacheDir
  inspector := (reading.values .inspector).head?.bind InspectorKind.ofName?
  toolchain := reading.path? .toolchain
  readelf := reading.path? .readelf

def build (reading : Reading) : BuildArgs where
  trace := reading.path? .trace
  libDirs := (reading.values .lib).map Path.ofString
  disableRoot := reading.has .disableRoot
  adb := reading.path? .adb
  profiler := reading.path? .profiler
  json := reading.has .json
  common := reading.common

def read (specs : List Spec) (limit : Nat) (arguments : List String) :
    Except Refusal Reading := do
  (← arguments.foldlM (step specs limit) start).settle

end Reading

def parseSubcommand (subcommand : Subcommand) (arguments : List String) :
    Except Refusal Invocation := do
  let reading ← Reading.read subcommand.specs subcommand.positionals arguments
  match subcommand, reading.positionals with
  | .build, _ => .ok (.build reading.build)
  | .index, _ => .ok (.index reading.common)
  | .lookup, [buildId] => .ok (.lookup buildId reading.common)
  | .lookup, _ => .error .usage
  | .list, _ => .ok (.list (reading.has .json) reading.common)

def parse (arguments : List String) : Except Refusal Invocation :=
  match arguments with
  | [] => .ok (.build .none)
  | first :: rest =>
    match Subcommand.ofName? first with
    | some subcommand => parseSubcommand subcommand rest
    | none => do
      let reading ← Reading.read rootSpecs 0 (first :: rest)
      .ok (.build reading.build)

end BuildIdCache.CommandLine
