import BuildIdCache.Proofs.FileSystem.Tree
import BuildIdCache.Proofs.Path

set_option autoImplicit false

namespace BuildIdCache

def Place.location : Place → Location
  | .dir place => place
  | .file parent name _ | .link parent name _ | .free parent name => parent ++ [name]

namespace FileSystem

def Holds (fs : FileSystem) : Place → Prop
  | .dir place => fs.at? place = some .dir
  | .file parent name content => fs.at? (parent ++ [name]) = some (.file content)
  | .link parent name target => fs.at? (parent ++ [name]) = some (.link target)
  | .free parent name => fs.at? parent = some .dir ∧ fs.at? (parent ++ [name]) = none

/-- Where steps lead once the directories that are missing on the way are made, and how many more
links may be followed. Only links decide it: files and directories can come and go. -/
def aim (fs : FileSystem) (links : Nat) (place : Location) : List Step → Option (Location × Nat)
  | [] => some (place, links)
  | .stay :: rest => aim fs links place rest
  | .up :: rest => aim fs links place.dropLast rest
  | .into name :: rest =>
    match fs.at? (place ++ [name]) with
    | some (.link target) =>
      match links with
      | 0 => none
      | links + 1 => aim fs links (if target.isAbsolute then [] else place) (target.moves ++ rest)
    | _ => aim fs links (place ++ [name]) rest
termination_by steps => (links, steps.length)

theorem aim_append (fs : FileSystem) (links : Nat) (place : Location) (steps more : List Step) :
    fs.aim links place (steps ++ more) =
      (fs.aim links place steps).bind fun (reached, left) => fs.aim left reached more := by
  fun_induction aim fs links place steps <;> grind -linarith [aim]

theorem follow_holds (fs : FileSystem) (through : Bool) (links : Nat) (place : Location)
    (steps : List Step) (found : Place) (isDir : fs.at? place = some .dir)
    (h : fs.follow through links place steps = .ok found) : fs.Holds found := by
  fun_induction follow fs through links place steps <;>
    grind -linarith [Holds, at?_dropLast, at?_root]

theorem follow_ne_link (fs : FileSystem) (links : Nat) (place : Location) (steps : List Step)
    (parent : Location) (name : Name) (target : Path) :
    fs.follow true links place steps ≠ .ok (.link parent name target) := by
  fun_induction follow fs true links place steps <;> grind -linarith

theorem aim_of_follow (fs : FileSystem) (links : Nat) (place : Location) (steps : List Step)
    (found : Place) (h : fs.follow true links place steps = .ok found) :
    (fs.aim links place (steps.filter Step.moves)).map (·.1) = some found.location := by
  fun_induction follow fs true links place steps <;>
    grind -linarith [aim, Place.location, Step.moves, Path.moves]

theorem follow_through (fs : FileSystem) (links : Nat) (place : Location) (steps : List Step)
    (found : Place) (h : fs.follow false links place steps = .ok found)
    (noLink : ∀ parent name target, found ≠ .link parent name target) :
    fs.follow true links place steps = .ok found := by
  fun_induction follow fs false links place steps <;> grind -linarith [follow]

def aimAt (fs : FileSystem) (path : Path) : Option Location :=
  (fs.aim linkLimit (fs.start path) path.moves).map (·.1)

theorem aimAt_of_resolve (fs : FileSystem) (path : Path) (found : Place)
    (h : fs.resolve true path = .ok found) : fs.aimAt path = some found.location := by
  unfold resolve at h
  split_ifs at h
  exact fs.aim_of_follow _ _ _ _ h

theorem resolve_holds (fs : FileSystem) (through : Bool) (path : Path) (found : Place)
    (h : fs.resolve through path = .ok found) : fs.Holds found := by
  unfold resolve at h
  split_ifs at h with _ _ _ gone
  exact fs.follow_holds _ _ _ _ _ (not_not.1 gone) h

theorem resolve_ne_link (fs : FileSystem) (path : Path) (parent : Location) (name : Name)
    (target : Path) : fs.resolve true path ≠ .ok (.link parent name target) := by
  unfold resolve
  split_ifs <;> simp [follow_ne_link]

theorem resolve_through (fs : FileSystem) (path : Path) (found : Place)
    (h : fs.resolve false path = .ok found)
    (noLink : ∀ parent name target, found ≠ .link parent name target) :
    fs.resolve true path = .ok found := by
  unfold resolve at h ⊢
  split_ifs at h ⊢
  exact fs.follow_through _ _ _ _ h noLink

theorem follow_stops (fs : FileSystem) (links : Nat) (place : Location) (steps : List Step)
    (found : Place) (h : fs.follow true links place steps = .ok found) :
    ∃ last, fs.follow false links place steps = .ok last := by
  fun_induction follow fs true links place steps <;> grind -linarith [follow]

theorem resolve_stops (fs : FileSystem) (path : Path) (found : Place)
    (h : fs.resolve true path = .ok found) : ∃ last, fs.resolve false path = .ok last := by
  unfold resolve at h ⊢
  split_ifs at h ⊢
  exact fs.follow_stops _ _ _ _ h

/-- No symbolic links below the place that a root leads to, whether it is there yet or not. -/
def PlainBelow (fs : FileSystem) (root : Path) : Prop :=
  ∀ place rest target, fs.aimAt root = some place → rest ≠ [] →
    fs.at? (place ++ rest) ≠ some (.link target)

theorem plainBelow_of_noLinks (fs : FileSystem) (root : Path)
    (noLinks : ∀ place target, fs.at? place ≠ some (.link target)) : fs.PlainBelow root :=
  fun _ _ target _ _ => noLinks _ target

theorem at?_empty (place : Location) (below : place ≠ []) : FileSystem.empty.at? place = none := by
  simp [FileSystem.empty, FileSystem.at?, entryAt, below, SortedMap.get?_empty]

theorem empty_noLinks (place : Location) (target : Path) :
    FileSystem.empty.at? place ≠ some (.link target) := by
  by_cases root : place = []
  · simp [root, at?_root]
  · simp [at?_empty place root]

theorem put_noLinks (fs : FileSystem) (parent : Location) (name : Name) (entry : Entry)
    (noLinks : ∀ place target, fs.at? place ≠ some (.link target))
    (noLink : ∀ target, entry ≠ .link target) (place : Location) (target : Path) :
    (fs.put parent name entry).at? place ≠ some (.link target) := by
  by_cases fits : fs.at? parent = some .dir ∧ (fs.at? (parent ++ [name]) ≠ some .dir ∨ entry = .dir)
  · rw [fs.at?_put parent name entry place fits.1 fits.2]
    split
    · simpa using noLink target
    · exact noLinks place target
  · rw [put, dif_neg fits]
    exact noLinks place target

def ClearTo (fs : FileSystem) (place : Location) (names : List Name) : Prop :=
  ∀ front target, front <+: names → front ≠ [] → fs.at? (place ++ front) ≠ some (.link target)

theorem clearTo_nil (fs : FileSystem) (place : Location) : fs.ClearTo place [] :=
  fun _ _ within notEmpty => absurd (List.prefix_nil.1 within) notEmpty

theorem ClearTo.push {fs : FileSystem} {place : Location} {above : List Name} {name : Name}
    (clear : fs.ClearTo place above)
    (noLink : ∀ target, fs.at? (place ++ (above ++ [name])) ≠ some (.link target)) :
    fs.ClearTo place (above ++ [name]) := by
  intro front target within notEmpty
  rcases List.prefix_concat_iff.1 within with rfl | within
  · exact noLink target
  · exact clear front target within notEmpty

theorem clearTo_singleton {fs : FileSystem} {place : Location} {name : Name}
    (noLink : ∀ target, fs.at? (place ++ [name]) ≠ some (.link target)) :
    fs.ClearTo place [name] :=
  show fs.ClearTo place ([] ++ [name]) from (fs.clearTo_nil place).push noLink

theorem aim_names (fs : FileSystem) (links : Nat) (place : Location) (names : List Name)
    (clear : fs.ClearTo place names) :
    fs.aim links place (names.map .into) = some (place ++ names, links) := by
  induction names generalizing place with
  | nil => simp [aim]
  | cons name rest ih =>
    have further : fs.aim links (place ++ [name]) (rest.map .into) =
        some (place ++ name :: rest, links) := by
      rw [ih (place ++ [name]) fun front target within _ => by
        simpa using clear (name :: front) target (by simpa using within) (by simp)]
      simp
    rw [List.map_cons, aim, further]
    split
    next target link => exact absurd link (clear [name] target (by simp) (by simp))
    next => rfl

theorem start_extend (fs : FileSystem) (root : Path) (names : List Name) :
    fs.start (root.extend names) = fs.start root := by
  simp [start, Path.isAbsolute_extend]

theorem aimAt_extend_of_clear (fs : FileSystem) (root : Path) (place : Location)
    (names : List Name) (leads : fs.aimAt root = some place) (clear : fs.ClearTo place names) :
    fs.aimAt (root.extend names) = some (place ++ names) := by
  unfold aimAt at leads ⊢
  obtain ⟨reached, aimed, rfl⟩ := Option.map_eq_some_iff.1 leads
  rw [Path.moves_extend, start_extend, aim_append, aimed]
  simp [fs.aim_names reached.2 reached.1 names clear]

theorem aimAt_of_file (fs : FileSystem) (root : Path) (place : Location) (names : List Name)
    (content : ByteArray) (leads : fs.aimAt root = some place)
    (there : fs.at? (place ++ names) = some (.file content)) :
    fs.aimAt (root.extend names) = some (place ++ names) := by
  refine fs.aimAt_extend_of_clear root place names leads ?_
  rintro front target ⟨rest, rfl⟩ - link
  by_cases last : rest = []
  · simp [last, link] at there
  · have isDir := fs.at?_above (place ++ front) rest last (by simp [there])
    simp [link] at isDir

theorem aimAt_extend (fs : FileSystem) (root : Path) (names : List Name)
    (plain : fs.PlainBelow root) :
    fs.aimAt (root.extend names) = (fs.aimAt root).map (· ++ names) := by
  cases h : fs.aimAt root with
  | none =>
    have lost : fs.aim linkLimit (fs.start root) root.moves = none := by simpa [aimAt] using h
    simp [aimAt, Path.moves_extend, start_extend, aim_append, lost]
  | some place =>
    exact fs.aimAt_extend_of_clear root place names h fun front target _ =>
      plain place front target h

end FileSystem

end BuildIdCache
