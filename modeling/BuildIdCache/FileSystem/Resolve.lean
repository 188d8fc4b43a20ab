import BuildIdCache.FileSystem.Basic

set_option autoImplicit false

namespace BuildIdCache

inductive Step
  | stay
  | up
  | into (name : Name)

def Step.ofPart (part : List UInt8) : Step :=
  if part = [dot, dot] then .up
  else
    match Name.ofBytes? part with
    | some name => .into name
    | none => .stay

def Path.steps (path : Path) : List Step := path.parts.map Step.ofPart

inductive Place
  | dir (place : Location)
  | file (parent : Location) (name : Name) (content : ByteArray)
  | link (parent : Location) (name : Name) (target : Path)
  | free (parent : Location) (name : Name)

namespace FileSystem

def linkLimit : Nat := 40

def pathLimit : Nat := 4096
def nameLimit : Nat := 255

def start (fs : FileSystem) (path : Path) : Location :=
  if path.isAbsolute then [] else fs.workingDir

/-- A link is replaced by its target; the last one only if `through` is set. -/
def follow (fs : FileSystem) (through : Bool) (links : Nat) (place : Location) :
    List Step → Except IoError Place
  | [] => .ok (.dir place)
  | .stay :: rest => follow fs through links place rest
  | .up :: rest => follow fs through links place.dropLast rest
  | .into name :: rest =>
    if nameLimit < name.bytes.length then .error .nameTooLong
    else
      match fs.at? (place ++ [name]) with
      | none => if rest.isEmpty then .ok (.free place name) else .error .notFound
      | some .dir => follow fs through links (place ++ [name]) rest
      | some (.file content) =>
        if rest.isEmpty then .ok (.file place name content) else .error .notADirectory
      | some (.link target) =>
        if rest.isEmpty && !through then .ok (.link place name target)
        else
          match links with
          | 0 => .error .tooManyLinks
          | links + 1 =>
            if target.bytes = [] then .error .notFound
            else
              follow fs through links (if target.isAbsolute then [] else place)
                (target.steps ++ rest)
termination_by steps => (links, steps.length)

def resolve (fs : FileSystem) (through : Bool) (path : Path) : Except IoError Place :=
  if path.bytes = [] then .error .notFound
  else if 0 ∈ path.bytes then .error .nulInPath
  else if pathLimit ≤ path.bytes.length then .error .nameTooLong
  else if fs.at? (fs.start path) ≠ some .dir then .error .notFound
  else fs.follow through linkLimit (fs.start path) path.steps

def lookup (fs : FileSystem) (path : Path) : Except IoError Entry :=
  match fs.resolve true path with
  | .ok (.dir _) => .ok .dir
  | .ok (.file _ _ content) => .ok (.file content)
  | .ok (.link _ _ target) => .ok (.link target)
  | .ok (.free ..) => .error .notFound
  | .error e => .error e

def isFile (fs : FileSystem) (path : Path) : Bool :=
  match fs.lookup path with
  | .ok (.file _) => true
  | _ => false

def isDir (fs : FileSystem) (path : Path) : Bool :=
  match fs.lookup path with
  | .ok .dir => true
  | _ => false

def read (fs : FileSystem) (path : Path) : Except IoError ByteArray :=
  match fs.lookup path with
  | .ok (.file content) => .ok content
  | .ok _ => .error .isADirectory
  | .error e => .error e

def list (fs : FileSystem) (path : Path) : Except IoError (List (Name × Entry)) :=
  match fs.resolve true path with
  | .ok (.dir place) => .ok (fs.children place)
  | .ok (.free ..) => .error .notFound
  | .ok _ => .error .notADirectory
  | .error e => .error e

end FileSystem

end BuildIdCache
