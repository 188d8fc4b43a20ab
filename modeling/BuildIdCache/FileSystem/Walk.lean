import BuildIdCache.World

set_option autoImplicit false

namespace BuildIdCache.FileSystem

variable {σ α : Type}

-- A directory is listed when the walk enters it: what a visit changes shows in directories that are
-- entered later. Links to directories are not entered. Each level makes the path longer, so the
-- walk is never deeper than a path can be long.
def walkDir (root : Path) (visit : α → Path → Action σ α) : Nat → α → Path → Action σ α
  | 0, _, path => throw (.walk root path .nameTooLong)
  | room + 1, found, path => do
    match (← Action.files).list path with
    | .error e => throw (.walk root path e)
    | .ok entries =>
      entries.foldlM (fun found (name, entry) => do
        let child := path.push name
        match entry with
        | .dir => walkDir root visit room found child
        | .file _ => visit found child
        | .link _ => if ← Action.isFile child then visit found child else return found) found

/-- Visits every file, and every link to one, below a root in the order of their names. A root that
is itself a link to a directory is entered. -/
def walk (root : Path) (visit : α → Path → Action σ α) (start : α) : Action σ α := do
  let enter := walkDir root visit pathLimit start root
  let fs ← Action.files
  match fs.resolve false root with
  | .error e => throw (.walk root root e)
  | .ok (.free ..) => throw (.walk root root .notFound)
  | .ok (.file ..) => visit start root
  | .ok (.dir _) => enter
  | .ok (.link ..) =>
    match fs.lookup root with
    | .error e => throw (.walk root root e)
    | .ok .dir => enter
    | .ok (.file _) => visit start root
    | .ok (.link _) => return start

end BuildIdCache.FileSystem
