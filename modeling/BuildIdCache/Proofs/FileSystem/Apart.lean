import BuildIdCache.Proofs.FileSystem.Found
import BuildIdCache.Proofs.FileSystem.Passes

set_option autoImplicit false

namespace BuildIdCache.FileSystem

/-- A change at and below the place that a root leads to. Elsewhere only directories are made that
are missing on the way there. -/
structure Fills (before after : FileSystem) (root : Path) : Prop where
  steady : Steady before after
  at? : ∀ place, (∃ top, before.aimAt root = some top ∧ top <+: place) ∨
    after.at? place = before.at? place ∨
    before.at? place = none ∧ after.at? place = some .dir ∧ before.Passes root place

theorem Fills.refl (fs : FileSystem) (root : Path) : Fills fs fs root :=
  ⟨.refl fs, fun _ => .inr (.inl rfl)⟩

theorem Fills.trans {first second third : FileSystem} {root : Path} (a : Fills first second root)
    (b : Fills second third root) : Fills first third root where
  steady := a.steady.trans b.steady
  at? place := by
    have aim := a.steady.aimAt root
    have passes := a.steady.passes root place
    grind [a.at? place, b.at? place]

section

variable {fs after : FileSystem} {root : Path} (plain : fs.PlainBelow root) (names : List Name)

include plain

theorem fills_of_passes (steady : Steady fs after)
    (changes : ∀ place, after.at? place = fs.at? place ∨ fs.Passes (root.extend names) place ∧
      (fs.aimAt (root.extend names) = some place ∨
        fs.at? place = none ∧ after.at? place = some .dir)) : Fills fs after root where
  steady := steady
  at? place := by
    rcases changes place with still | ⟨passes, change⟩
    · exact .inr (.inl still)
    · rcases fs.passes_extend root names place plain passes with onWay | ⟨top, front, leads, -, rfl⟩
      · rcases change with aimed | ⟨absent, made⟩
        · rw [fs.aimAt_extend root names plain, Option.map_eq_some_iff] at aimed
          obtain ⟨top, leads, rfl⟩ := aimed
          exact .inl ⟨top, leads, List.prefix_append _ _⟩
        · exact .inr (.inr ⟨absent, made, onWay⟩)
      · exact .inl ⟨top, leads, List.prefix_append _ _⟩

theorem fills_of_withParents : Fills fs (fs.withParents (root.extend names)) root := by
  have sprouts := fs.withParents_sprouts (root.extend names)
  refine fills_of_passes plain names sprouts.steady fun place => ?_
  rcases sprouts.at? place with still | ⟨absent, made⟩
  · exact .inl still
  · exact .inr ⟨fs.withParents_passes _ place (by simp [absent, made]), .inr ⟨absent, made⟩⟩

theorem fills_of_copied (source : Path)
    (written : (fs.withParents (root.extend names)).copy source (root.extend names) = .ok after) :
    Fills fs after root :=
  fills_of_passes plain names
    ((fs.withParents_sprouts _).steady.trans (touchesOnly_of_copy _ after _ _ written).steady)
    (copied_at? fs after source _ written)

end

-- The places that are looked at when steps are followed.
def looked (fs : FileSystem) (links : Nat) (place : Location) : List Step → List Location
  | [] => []
  | .stay :: rest => looked fs links place rest
  | .up :: rest => looked fs links place.dropLast rest
  | .into name :: rest =>
    (place ++ [name]) ::
      match fs.at? (place ++ [name]) with
      | some .dir => looked fs links (place ++ [name]) rest
      | some (.link target) =>
        match links with
        | 0 => []
        | links + 1 =>
          looked fs links (if target.isAbsolute then [] else place) (target.steps ++ rest)
      | _ => []
termination_by steps => (links, steps.length)

def looksAt (fs : FileSystem) (path : Path) : List Location :=
  fs.looked linkLimit (fs.start path) path.steps

theorem follow_congr (before after : FileSystem) (links : Nat) (place : Location)
    (steps : List Step)
    (same : ∀ other ∈ before.looked links place steps, after.at? other = before.at? other) :
    after.follow true links place steps = before.follow true links place steps := by
  fun_induction follow before true links place steps <;> grind -linarith [follow, looked]

theorem mem_looked_of_follow (fs : FileSystem) (links : Nat) (place : Location) (steps : List Step)
    (parent : Location) (name : Name) (content : ByteArray)
    (h : fs.follow true links place steps = .ok (.file parent name content)) :
    parent ++ [name] ∈ fs.looked links place steps := by
  fun_induction follow fs true links place steps <;> grind -linarith [looked]

theorem resolve_congr (before after : FileSystem) (path : Path) (steady : Steady before after)
    (begun : before.at? (before.start path) = some .dir)
    (same : ∀ other ∈ before.looksAt path, after.at? other = before.at? other) :
    after.resolve true path = before.resolve true path := by
  unfold resolve
  rw [steady.start, if_neg (not_not.2 begun), if_neg (not_not.2 (steady.dirs _ begun)),
    before.follow_congr after linkLimit _ path.steps same]

-- The places that filling a root may change.
def Claims (fs : FileSystem) (root : Path) (place : Location) : Prop :=
  (∃ top, fs.aimAt root = some top ∧ top <+: place) ∨ fs.at? place = none ∧ fs.Passes root place

/-- A directory that is apart from a root, also through the links inside it: following them, no
place is looked at that filling the root may change. -/
structure Apart (fs : FileSystem) (root dir : Path) (place : Location) : Prop where
  leads : fs.resolve true dir = .ok (.dir place)
  outside : ∀ top rest, fs.aimAt root = some top → ¬top <+: place ++ rest
  links : ∀ names target, fs.at? (place ++ names) = some (.link target) →
    ∀ other ∈ fs.looksAt (dir.extend names), fs.at? other = some .dir ∨ ¬fs.Claims root other

structure Beyond (fs : FileSystem) (root file : Path) : Prop where
  read : ∀ now, Fills fs now root → ∀ content,
    now.read file = .ok content ↔ fs.read file = .ok content
  outside : ∀ content place top, fs.read file = .ok content → fs.aimAt file = some place →
    fs.aimAt root = some top → ¬top <+: place

section

variable {fs now : FileSystem} {root dir : Path} {place : Location}

theorem Fills.unclaimed (fills : Fills fs now root) (other : Location)
    (free : fs.at? other = some .dir ∨ ¬fs.Claims root other) : now.at? other = fs.at? other := by
  rcases free with isDir | free
  · rw [isDir, fills.steady.dirs other isDir]
  · rcases fills.at? other with within | same | ⟨absent, -, passes⟩
    · exact absurd (.inl within) free
    · exact same
    · exact absurd (.inr ⟨absent, passes⟩) free

theorem Apart.begun (apart : fs.Apart root dir place) (names : List Name) :
    fs.at? (fs.start (dir.extend names)) = some .dir := by
  obtain ⟨-, -, -, -, begun⟩ := fs.enters_of_resolve dir place apart.leads
  rwa [start_extend]

theorem Apart.resolve_link (apart : fs.Apart root dir place) (fills : Fills fs now root)
    (names : List Name) (target : Path) (there : fs.at? (place ++ names) = some (.link target)) :
    now.resolve true (dir.extend names) = fs.resolve true (dir.extend names) :=
  resolve_congr fs now _ fills.steady (apart.begun names) fun other member =>
    fills.unclaimed other (apart.links names target there other member)

theorem Apart.at? (apart : fs.Apart root dir place) (fills : Fills fs now root)
    (names : List Name) : now.at? (place ++ names) = fs.at? (place ++ names) ∨
      fs.at? (place ++ names) = none ∧ now.at? (place ++ names) = some .dir := by
  rcases fills.at? (place ++ names) with ⟨top, leads, within⟩ | same | ⟨absent, made, -⟩
  · exact absurd within (apart.outside top names leads)
  · exact .inl same
  · exact .inr ⟨absent, made⟩

theorem Apart.sees (apart : fs.Apart root dir place) (fills : Fills fs now root) :
    fs.Sees now dir place where
  steady := fills.steady
  at? := apart.at? fills
  links names target there := by
    simp only [isFile, lookup, apart.resolve_link fills names target there]

theorem Apart.beyond_file (apart : fs.Apart root dir place) (names : List Name)
    (content : ByteArray) (there : fs.at? (place ++ names) = some (.file content)) :
    fs.Beyond root (dir.extend names) := by
  have entered := fs.enters_of_resolve dir place apart.leads
  have further : names ≠ [] := by
    rintro rfl
    simp [entered.isDir] at there
  have leads := fs.aimAt_of_file dir place names content entered.aimAt there
  -- The place stays outside what is filled, so the file is there before and after.
  refine ⟨fun now fills other => ?_, fun _ place' top _ leads' reached within => ?_⟩
  · have later : now.at? (place ++ names) = some (.file content) := by
      rcases apart.at? fills names with same | ⟨absent, -⟩
      · rw [same, there]
      · simp [there] at absent
    constructor
    · intro readable
      obtain ⟨parent, name, found⟩ := (now.read_eq_ok _ other).1 readable
      have resolved :=
        entered.resolve_file (fills.steady.enters entered) names further content content _ true
          there later found
      have reads := (fs.read_eq_ok _ content).2 ⟨_, _, resolved⟩
      have again := fills.steady.read _ _ content content reads leads later
      rw [readable] at again
      rw [reads, Except.ok.inj again]
    · intro readable
      obtain ⟨origin, leads', there'⟩ := fs.place_of_read _ other readable
      obtain rfl : place ++ names = origin := Option.some.inj (leads.symm.trans leads')
      obtain rfl : content = other := by simpa [there] using there'
      exact fills.steady.read _ _ content content readable leads later
  · obtain rfl : place ++ names = place' := Option.some.inj (leads.symm.trans leads')
    exact apart.outside top names reached within

theorem Apart.beyond_link (apart : fs.Apart root dir place) (names : List Name) (target : Path)
    (there : fs.at? (place ++ names) = some (.link target)) :
    fs.Beyond root (dir.extend names) := by
  refine ⟨fun now fills content => ?_, fun content place' top readable leads reached within => ?_⟩
  · simp only [read_eq_ok, apart.resolve_link fills names target there]
  · obtain ⟨parent, name, found⟩ := (fs.read_eq_ok _ content).1 readable
    have seen :=
      fs.mem_looked_of_follow linkLimit (fs.start (dir.extend names)) _ parent name content
        (by unfold resolve at found; split_ifs at found; exact found)
    have isFile := fs.resolve_holds true _ _ found
    obtain rfl : parent ++ [name] = place' := by
      simpa [fs.aimAt_of_resolve _ _ found, Place.location] using leads
    rcases apart.links names target there _ seen with isDir | free
    · simp [FileSystem.Holds, isDir] at isFile
    · exact free (.inl ⟨top, reached, within⟩)

theorem Apart.beyond (apart : fs.Apart root dir place) (names : List Name)
    (found : fs.Found dir place names) : fs.Beyond root (dir.extend names) := by
  obtain ⟨-, ⟨content, there⟩ | ⟨⟨target, there⟩, -⟩⟩ := found
  · exact apart.beyond_file names content there
  · exact apart.beyond_link names target there

end

theorem apart_of_noLinks (fs : FileSystem) (root dir : Path) (place top : Location)
    (leads : fs.resolve true dir = .ok (.dir place)) (reached : fs.aimAt root = some top)
    (outside : ¬top <+: place) (inside : ¬place <+: top)
    (noLinks : ∀ place target, fs.at? place ≠ some (.link target)) : fs.Apart root dir place where
  leads := leads
  outside other rest reached' within := by
    obtain rfl := Option.some.inj (reached.symm.trans reached')
    rcases List.prefix_or_prefix_of_prefix within (List.prefix_append place rest) with h | h
    · exact outside h
    · exact inside h
  links _ target there := absurd there (noLinks _ target)

end BuildIdCache.FileSystem
