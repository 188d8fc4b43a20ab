import BuildIdCache.FileSystem.Resolve

set_option autoImplicit false

namespace BuildIdCache

def Path.withoutTrailingSlashes (path : Path) : Path :=
  ⟨(path.bytes.reverse.dropWhile (· = slash)).reverse⟩

def Path.endsWithSlash (path : Path) : Bool := path.bytes.getLast? = some slash

def Path.ancestors (path : Path) : List Path :=
  if path.bytes = [] then []
  else
    match path.parent? with
    | none => [path]
    | some parent =>
      if parent.bytes.length < path.bytes.length then path :: parent.ancestors else [path]
termination_by path.bytes.length

namespace FileSystem

def makeDir (fs : FileSystem) (path : Path) : Except IoError FileSystem :=
  if path.bytes = [] then .error .notFound
  else if 0 ∈ path.bytes then .error .nulInPath
  else
    let place := path.withoutTrailingSlashes
    if place.bytes = [] then .error .alreadyExists
    else
      match fs.resolve false place with
      | .ok (.free parent name) => .ok (fs.put parent name .dir)
      | .ok _ => .error .alreadyExists
      | .error e => .error e

def makeDirs (fs : FileSystem) : List Path → FileSystem × Except IoError Unit
  | [] => (fs, .ok ())
  | path :: above =>
    let settle (fs : FileSystem) (e : IoError) : FileSystem × Except IoError Unit :=
      if fs.isDir path then (fs, .ok ()) else (fs, .error e)
    match fs.makeDir path with
    | .ok made => (made, .ok ())
    | .error .notFound =>
      match fs.makeDirs above with
      | (fs, .ok ()) =>
        match fs.makeDir path with
        | .ok made => (made, .ok ())
        | .error e => settle fs e
      | (fs, .error e) => (fs, .error e)
    | .error e => settle fs e

def makeDirAll (fs : FileSystem) (path : Path) : FileSystem × Except IoError Unit :=
  fs.makeDirs path.ancestors

def write (fs : FileSystem) (path : Path) (content : ByteArray) : Except IoError FileSystem :=
  if path.endsWithSlash then
    match fs.resolve true path.withoutTrailingSlashes with
    | .ok _ => .error .isADirectory
    | .error e => .error e
  else
    match fs.resolve true path with
    | .ok (.file parent name _) | .ok (.free parent name) =>
      .ok (fs.put parent name (.file content))
    | .ok (.dir _) => .error .isADirectory
    | .ok (.link ..) => .error .tooManyLinks
    | .error e => .error e

def removeFile (fs : FileSystem) (path : Path) : Except IoError FileSystem :=
  match fs.resolve false path with
  | .ok (.file parent name _) | .ok (.link parent name _) =>
    .ok (fs.removeTree (parent ++ [name]))
  | .ok (.dir _) => .error .isADirectory
  | .ok (.free ..) => .error .notFound
  | .error e => .error e

-- The destination is emptied before the source is read, so a file copied onto itself is lost.
def copy (fs : FileSystem) (source target : Path) : Except IoError FileSystem :=
  match fs.lookup source with
  | .ok (.file _) => do
    let emptied ← fs.write target ByteArray.empty
    let content ← emptied.read source
    emptied.write target content
  | .ok _ => .error .notARegularFile
  | .error e => .error e

def makeLink (fs : FileSystem) (path target : Path) : Except IoError FileSystem :=
  match fs.resolve false path with
  | .ok (.free parent name) => .ok (fs.put parent name (.link target))
  | .ok _ => .error .alreadyExists
  | .error e => .error e

def removeAll (fs : FileSystem) (path : Path) : Except IoError FileSystem :=
  match fs.resolve false path with
  | .ok (.file parent name _) | .ok (.link parent name _) =>
    .ok (fs.removeTree (parent ++ [name]))
  | .ok (.dir place) => .ok (fs.removeTree place)
  | .ok (.free ..) => .error .notFound
  | .error e => .error e

end FileSystem

end BuildIdCache
