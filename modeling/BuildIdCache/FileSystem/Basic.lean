import BuildIdCache.Path

set_option autoImplicit false

namespace BuildIdCache

open Std

/-- Where something is: the names from the root of the tree down to it. -/
abbrev Location := List Name

inductive Entry
  | file (content : ByteArray)
  | dir
  | link (target : Path)

namespace Entry

def content : Entry → Option (Array UInt8 ⊕ Path)
  | file content => some (.inl content.data)
  | dir => none
  | link target => some (.inr target)

theorem content_inj {a b : Entry} : a.content = b.content ↔ a = b := by
  constructor
  · intro h
    cases a <;> cases b <;> simp_all [content, ByteArray.ext_iff]
  · rintro rfl
    rfl

instance : DecidableEq Entry := fun _ _ => decidable_of_decidable_of_iff content_inj

end Entry

def Entry.isFile : Entry → Bool
  | .file _ => true
  | _ => false

inductive IoError
  | notFound
  | alreadyExists
  | notADirectory
  | isADirectory
  | permissionDenied
  | tooManyLinks
  | nameTooLong
  | nulInPath
  | nulInArgument
  | notARegularFile
  | invalidUtf8
deriving DecidableEq, Repr

def IoError.message : IoError → String
  | notFound => "No such file or directory (os error 2)"
  | permissionDenied => "Permission denied (os error 13)"
  | alreadyExists => "File exists (os error 17)"
  | notADirectory => "Not a directory (os error 20)"
  | isADirectory => "Is a directory (os error 21)"
  | nameTooLong => "File name too long (os error 36)"
  | tooManyLinks => "Too many levels of symbolic links (os error 40)"
  | nulInPath => "file name contained an unexpected NUL byte"
  | nulInArgument => "nul byte found in provided data"
  | notARegularFile => "the source path is neither a regular file nor a symlink to a regular file"
  | invalidUtf8 => "stream did not contain valid UTF-8"

-- The root is always a directory and has no entry of its own.
def entryAt (entries : SortedMap Location Entry) (place : Location) : Option Entry :=
  if place = [] then some .dir else entries.get? place

/-- A tree of files, directories and symbolic links. Three things are left out: hard links, so a
file has one location; permissions, so whatever is there can be read and changed; and special files.
-/
structure FileSystem where
  entries : SortedMap Location Entry
  workingDir : Location
  rooted : ∀ parent name, entryAt entries (parent ++ [name]) ≠ none →
    entryAt entries parent = some .dir

namespace FileSystem

def at? (fs : FileSystem) (place : Location) : Option Entry := entryAt fs.entries place

def empty : FileSystem := ⟨.empty, [], by simp [entryAt, SortedMap.get?_empty]⟩

instance : Inhabited FileSystem := ⟨empty⟩

theorem entryAt_insert (entries : SortedMap Location Entry) (place other : Location)
    (entry : Entry) (h : place ≠ []) :
    entryAt (entries.insert place entry) other =
      if place = other then some entry else entryAt entries other := by
  unfold entryAt
  by_cases root : other = []
  · have : place ≠ other := by simp [root, h]
    simp [root, h]
  · by_cases same : place = other
    · simp [SortedMap.get?_insert, root, same, ReflCmp.compare_self]
    · have apart : compare place other ≠ .eq := fun e => same (LawfulEqCmp.eq_of_compare e)
      simp [SortedMap.get?_insert, root, same, apart]

/-- Replaces what is at a name of an existing directory; a directory is never replaced by a file or
a link, so nothing is left without its parent. -/
def put (fs : FileSystem) (parent : Location) (name : Name) (entry : Entry) : FileSystem :=
  if h : fs.at? parent = some .dir ∧
      (fs.at? (parent ++ [name]) ≠ some .dir ∨ entry = .dir) then
    { fs with
      entries := fs.entries.insert (parent ++ [name]) entry
      rooted := by
        intro above n present
        have notRoot : parent ++ [name] ≠ [] := by simp
        rw [entryAt_insert _ _ _ _ notRoot] at present ⊢
        by_cases top : parent ++ [name] = above ++ [n]
        · obtain ⟨rfl, rfl⟩ := List.append_singleton_inj.1 top
          have apart : parent ++ [name] ≠ parent := by simp
          simpa [apart, at?] using h.1
        · rw [if_neg top] at present
          have before := fs.rooted above n present
          by_cases same : parent ++ [name] = above
          · subst same
            rcases h.2 with notDir | isDir
            · exact absurd before (by simpa [at?] using notDir)
            · simp [isDir]
          · simpa [same] using before }
  else fs

theorem at?_put (fs : FileSystem) (parent : Location) (name : Name) (entry : Entry)
    (other : Location) (isDir : fs.at? parent = some .dir)
    (fits : fs.at? (parent ++ [name]) ≠ some .dir ∨ entry = .dir) :
    (fs.put parent name entry).at? other =
      if parent ++ [name] = other then some entry else fs.at? other := by
  simp only [put, dif_pos (And.intro isDir fits)]
  exact entryAt_insert _ _ _ _ (by simp)

def removeTree (fs : FileSystem) (place : Location) : FileSystem :=
  { fs with
    entries := fs.entries.filter fun other => !place.isPrefixOf other
    rooted := by
      intro parent name present
      have notRoot : parent ++ [name] ≠ [] := by simp
      simp only [entryAt, notRoot, if_false, SortedMap.get?_filter] at present
      split at present
      next kept =>
        have before := fs.rooted parent name (by simpa [entryAt, notRoot] using present)
        by_cases root : parent = []
        · simp [entryAt, root]
        · simp only [entryAt, root, if_false, SortedMap.get?_filter] at before ⊢
          have outside : ¬ place <+: parent := by
            intro below
            have : place <+: parent ++ [name] := below.trans (List.prefix_append _ _)
            rw [List.isPrefixOf_iff_prefix.2 this] at kept
            simp at kept
          simp [outside, before]
      next => simp at present }

def children (fs : FileSystem) (place : Location) : List (Name × Entry) :=
  fs.entries.entries.filterMap fun (other, entry) =>
    match other.getLast? with
    | some name => if other = place ++ [name] then some (name, entry) else none
    | none => none

end FileSystem

end BuildIdCache
