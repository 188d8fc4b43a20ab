import BuildIdCache.CommandLine.Run
import Std.Time.Format

set_option autoImplicit false

namespace BuildIdCache

/-! The command line works on a copy of the files below the working directory, and of those below
the absolute paths it is given. No other program is started: no device counts as connected. -/

partial def loadEntry (fs : FileSystem) (dir : Location) (entry : IO.FS.DirEntry) :
    IO FileSystem := do
  let some name := Name.ofBytes? entry.fileName.toUTF8.toList | return fs
  try
    match (← entry.path.symlinkMetadata).type with
    | .dir =>
      (← entry.path.readDir).foldlM (fun fs child => loadEntry fs (dir ++ [name]) child)
        (fs.put dir name .dir)
    | .file => return fs.put dir name (.file (← IO.FS.readBinFile entry.path))
    | .symlink =>
      return fs.put dir name (.link (.ofString (← IO.FS.realPath entry.path).toString))
    | .other => return fs
  catch _ => return fs

def loadPlace (fs : FileSystem) (path : Path) : IO FileSystem := do
  match path.parent?, path.fileName?.bind Name.toString? with
  | some above, some name =>
    loadEntry (fs.makeDirAll above).1 above.names ⟨above.display, name⟩
  | _, _ => return fs

def placeText (place : Location) : String := "/" ++ (renderNames place).getD ""

def storeEntry (place : Location) : Entry → IO Unit
  | .dir => IO.FS.createDirAll (placeText place)
  | .file content => IO.FS.writeBinFile (placeText place) content
  | .link _ => return ()

def storeChanges (before after : FileSystem) : IO Unit := do
  for (place, _) in before.entries.entries do
    if (after.at? place).isNone then IO.FS.removeFile (placeText place)
  for (place, entry) in after.entries.entries do
    if before.at? place ≠ some entry then storeEntry place entry

def noTools : Tools Unit := ⟨fun _ _ => return .error .notFound⟩

def timeText : IO String := do
  let now ← Std.Time.Timestamp.now
  return (Std.Time.DateTime.ofTimestamp now Std.Time.TimeZone.ZoneRules.UTC).toISO8601String

end BuildIdCache

open BuildIdCache in
def main (arguments : List String) : IO UInt32 := do
  let started ← timeText
  let here := Path.ofString (← IO.currentDir).toString
  let given := (arguments.map Path.ofString).filter Path.isAbsolute
  let loaded ← (here :: given).foldlM loadPlace .empty
  let before := { loaded with workingDir := here.names }
  let period : Period := ⟨started, ← timeText⟩
  let (outcome, after) := (CommandLine.run noTools ⟨none, none⟩ period arguments).run ⟨before, ()⟩
  storeChanges before after.files
  IO.print outcome.stdout
  IO.eprint outcome.stderr
  return UInt32.ofNat outcome.status
