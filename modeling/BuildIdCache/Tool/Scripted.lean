import BuildIdCache.Text.Blank
import BuildIdCache.Tool.Basic

set_option autoImplicit false

namespace BuildIdCache.Scripted

structure Rule where
  arguments : String
  requires : Option String
  excludes : Option String
  sets : Option String
  writes : Option ByteArray
  stdout : ByteArray
  status : Nat

structure Program where
  name : String
  rules : List Rule

structure State where
  programs : SortedMap Location Program
  flags : List String
  log : List String

instance : Inhabited State := ⟨⟨.empty, [], []⟩⟩

def Rule.accepts (rule : Rule) (flags : List String) (arguments : String) : Bool :=
  let pattern := rule.arguments.toList
  let fits :=
    if pattern.getLast? = some '*' then pattern.dropLast.isPrefixOf arguments.toList
    else rule.arguments = arguments
  fits && rule.requires.all (· ∈ flags) && rule.excludes.all (· ∉ flags)

def spell (argument : List UInt8) : String := decodeLossy ⟨argument.toArray⟩

def Rule.apply (rule : Rule) (fs : FileSystem) (arguments : List (List UInt8)) :
    FileSystem × ToolOutput :=
  let finished : ToolOutput := ⟨rule.status, rule.stdout⟩
  match rule.writes with
  | none => (fs, finished)
  | some content =>
    match fs.write ⟨arguments[2]?.getD []⟩ content with
    | .ok fs => (fs, finished)
    | .error _ => (fs, ⟨1, ByteArray.empty⟩)

def noRuleStatus : Nat := 99

def Program.call (program : Program) (state : State) (fs : FileSystem)
    (arguments : List (List UInt8)) : FileSystem × State × ToolOutput :=
  let text := " ".intercalate (arguments.map spell)
  let logged := { state with log := state.log ++ [program.name ++ " " ++ text] }
  match program.rules.find? fun rule => rule.accepts state.flags text with
  | none => (fs, logged, ⟨noRuleStatus, ByteArray.empty⟩)
  | some rule =>
    let flags := state.flags ++ rule.sets.toList
    let (fs, output) := rule.apply fs arguments
    (fs, { logged with flags := flags }, output)

def program? (state : State) (fs : FileSystem) (path : Path) : Except IoError Program :=
  match fs.resolve true path with
  | .ok (.file parent name _) =>
    match state.programs.get? (parent ++ [name]) with
    | some program => .ok program
    | none => .error .permissionDenied
  | .ok (.free ..) => .error .notFound
  | .ok _ => .error .permissionDenied
  | .error e => .error e

def search? (state : State) (fs : FileSystem) (missing : IoError) :
    List Path → Except IoError Program
  | [] => .error missing
  | path :: rest =>
    match program? state fs path with
    | .ok program => .ok program
    | .error .permissionDenied => search? state fs .permissionDenied rest
    | .error .notFound => search? state fs missing rest
    | .error .notADirectory => search? state fs missing rest
    | .error e => .error e

def locate? (env : Environment) (state : State) (fs : FileSystem) (path : Path) :
    Except IoError Program :=
  if path.bytes = [] then .error .notFound
  else if slash ∈ path.bytes then program? state fs path
  else search? state fs .notFound (env.searchDirs.map fun dir => dir.join path)

def tools {σ : Type} (env : Environment) (part : Part σ State) : Tools σ where
  spawn path arguments := fun world =>
    if 0 ∈ path.bytes ∨ arguments.any fun argument => 0 ∈ argument then
      (.error .nulInArgument, world)
    else
      match locate? env (part.get world.rest) world.files path with
      | .error e => (.error e, world)
      | .ok program =>
        let (fs, state, output) := program.call (part.get world.rest) world.files arguments
        (.ok output, ⟨fs, part.set state world.rest⟩)

end BuildIdCache.Scripted
