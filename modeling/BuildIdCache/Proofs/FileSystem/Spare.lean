import BuildIdCache.Proofs.FileSystem.Below

set_option autoImplicit false

namespace BuildIdCache.FileSystem

/-- A change of one file below a root: no link comes, and the files with other names stay. -/
structure Spares (before after : FileSystem) (root : Path) (names : List Name) : Prop where
  plain : after.PlainBelow root
  others : ∀ other content, other ≠ names → before.read (root.extend other) = .ok content →
    after.read (root.extend other) = .ok content

def TouchesOnly (before after : FileSystem) (path : Path) : Prop :=
  after = before ∨ ∃ place entry, before.target? path = some place ∧
    (∀ target, entry ≠ some (.link target)) ∧ SameBut before after place entry

theorem TouchesOnly.steady {before after : FileSystem} {path : Path}
    (h : before.TouchesOnly after path) : Steady before after := by
  obtain rfl | ⟨place, entry, target, noLink, same⟩ := h
  · exact .refl _
  · exact same.steady_of_target? target noLink

theorem TouchesOnly.trans {first second third : FileSystem} {path : Path}
    (a : first.TouchesOnly second path) (b : second.TouchesOnly third path) :
    first.TouchesOnly third path := by
  have steady := a.steady
  obtain rfl | ⟨place, entry, target, noLink, same⟩ := a
  · exact b
  · obtain rfl | ⟨place', entry', target', noLink', same'⟩ := b
    · exact .inr ⟨place, entry, target, noLink, same⟩
    · have aimed := second.aimAt_of_target? path place' target'
      rw [steady.aimAt, first.aimAt_of_target? path place target] at aimed
      obtain rfl := Option.some.inj aimed
      refine .inr ⟨place, entry', target, noLink', same'.workingDir.trans same.workingDir, ?_⟩
      intro other
      rw [same'.at?, same.at?]
      split <;> rfl

theorem Sprouts.read {before after : FileSystem} (sprouts : Sprouts before after) (path : Path)
    (content : ByteArray) (h : before.read path = .ok content) : after.read path = .ok content := by
  obtain ⟨place, leads, there⟩ := before.place_of_read path content h
  exact sprouts.steady.read path place content content h leads
    ((sprouts.file place content).2 there)

section

variable {fs after : FileSystem} {root : Path} {names : List Name} (plain : fs.PlainBelow root)

include plain

theorem spares_of_touchesOnly (h : fs.TouchesOnly after (root.extend names)) :
    Spares fs after root names := by
  have steady := h.steady
  refine ⟨steady.plainBelow plain, fun other content apart readable => ?_⟩
  obtain rfl | ⟨place, entry, target, noLink, same⟩ := h
  · exact readable
  · obtain ⟨found, leads, there⟩ := fs.place_of_read _ content readable
    have aimed := fs.aimAt_of_target? _ place target
    rw [fs.aimAt_extend root _ plain, Option.map_eq_some_iff] at aimed leads
    obtain ⟨top, reached, rfl⟩ := aimed
    obtain ⟨top', reached', rfl⟩ := leads
    obtain rfl : top = top' := Option.some.inj (reached.symm.trans reached')
    refine steady.read _ (top ++ other) content content readable ?_ ?_
    · rw [fs.aimAt_extend root _ plain, reached]
      rfl
    · rw [same.at?, if_neg (by simpa using apart), there]

end

section

variable {fs after : FileSystem} {root : Path} (plain : fs.PlainBelow root)
  (sprouts : Sprouts fs after) (names : List Name) (place : Location) (content : ByteArray)
  (filled : after.target? (root.extend names) = some place)
  (there : fs.at? place = some (.file content))

include plain sprouts filled there

theorem read_of_enters (top : Location) (entered : fs.Enters root top) (further : names ≠ []) :
    fs.read (root.extend names) = .ok content := by
  have leads := after.aimAt_of_target? _ place filled
  rw [sprouts.steady.aimAt, fs.aimAt_extend root names plain, entered.aimAt] at leads
  obtain rfl : top ++ names = place := Option.some.inj leads
  obtain ⟨found, resolved⟩ := after.resolve_of_target? _ _ filled
  exact (fs.read_eq_ok _ content).2
    ⟨_, _, entered.resolve_file (sprouts.steady.enters entered) names further content content
      found true there ((sprouts.file _ content).2 there) resolved⟩

theorem read_of_read (others : List Name) (other : ByteArray)
    (readable : fs.read (root.extend others) = .ok other) :
    fs.read (root.extend names) = .ok content := by
  obtain ⟨origin, leadsOther, thereOther⟩ := fs.place_of_read _ other readable
  have leads := after.aimAt_of_target? _ place filled
  rw [sprouts.steady.aimAt] at leads
  rw [fs.aimAt_extend root _ plain, Option.map_eq_some_iff] at leads leadsOther
  obtain ⟨top, reached, rfl⟩ := leads
  obtain ⟨top', reached', rfl⟩ := leadsOther
  obtain rfl : top = top' := Option.some.inj (reached.symm.trans reached')
  -- Both are files, so either both are the root or both are below it.
  by_cases atRoot : others = []
  · subst atRoot
    by_cases further : names = []
    · subst further
      rw [there] at thereOther
      rw [readable]
      simpa using thereOther.symm
    · have isDir := fs.at?_above top names further (by simp [there])
      simp [isDir] at thereOther
  · by_cases further : names = []
    · subst further
      have isDir := fs.at?_above top others atRoot (by simp [thereOther])
      simp [isDir] at there
    · obtain ⟨entry, entered, -⟩ := fs.entered_of_read root others other plain atRoot readable
      exact read_of_enters plain sprouts names _ content filled there entry entered further

end

theorem read_copied (fs after : FileSystem) (source target : Path) (offered : ByteArray)
    (readable : fs.read source = .ok offered)
    (apart : ∀ place, (fs.withParents target).target? target = some place →
      fs.aimAt source ≠ some place)
    (written : (fs.withParents target).copy source target = .ok after) :
    after.read target = .ok offered ∧ after.read source = .ok offered := by
  have sprouts := fs.withParents_sprouts target
  obtain ⟨place, content, filled, same, old, again, stays, -⟩ := copy_sameBut _ after _ _ written
  rw [sprouts.read source offered readable] at again
  obtain rfl := Except.ok.inj again
  obtain ⟨origin, leads, there⟩ := fs.place_of_read source offered readable
  have elsewhere : origin ≠ place := fun here => apart place filled (here ▸ leads)
  have leadsThen : (fs.withParents target).aimAt source = some origin := by
    rw [sprouts.steady.aimAt, leads]
  obtain rfl := stays (by simpa [leadsThen] using elsewhere)
  have steady := same.steady_of_target? filled (by simp)
  constructor
  · exact steady.read_target target place content filled (by rw [same.at?, if_pos rfl])
  · refine steady.read source origin content content (sprouts.read _ _ readable) leadsThen ?_
    rw [same.at?, if_neg elsewhere]
    exact (sprouts.file origin content).2 there

theorem touchesOnly_of_copy (fs after : FileSystem) (source target : Path)
    (h : fs.copy source target = .ok after) : fs.TouchesOnly after target := by
  obtain ⟨place, content, filled, same, -⟩ := fs.copy_sameBut after source target h
  exact .inr ⟨place, _, filled, by simp, same⟩

theorem follow_last (fs : FileSystem) (links : Nat) (place : Location) (steps : List Step)
    (parent : Location) (name : Name) (target : Path)
    (h : fs.follow false links place steps = .ok (.link parent name target)) :
    ∃ left, left ≤ links ∧
      fs.follow true links place steps = fs.follow true left parent [.into name] := by
  fun_induction follow fs false links place steps
  all_goals first | cases h | skip
  case case10 => exact ⟨_, Nat.le_refl _, by simp_all⟩
  all_goals
    next ih =>
      obtain ⟨left, fewer, same⟩ := ih h
      refine ⟨left, by omega, ?_⟩
      rw [← same]
      simp [follow, *]

theorem follow_past_file (fs : FileSystem) (through : Bool) (links more : Nat) (place : Location)
    (steps rest : List Step) (parent : Location) (name : Name) (content : ByteArray)
    (h : fs.follow true links place steps = .ok (.file parent name content)) (room : links ≤ more)
    (further : rest ≠ []) :
    fs.follow through more place (steps ++ rest) = .error .notADirectory := by
  fun_induction follow fs true links place steps generalizing more <;>
    grind -linarith [follow, List.isEmpty_iff, List.append_eq_nil_iff]

theorem follow_unlinked (before after : FileSystem) (links : Nat) (place : Location)
    (steps : List Step) (parent : Location) (name : Name) (target : Path)
    (last : before.follow false links place steps = .ok (.link parent name target))
    (there : before.at? (parent ++ [name]) = some (.link target))
    (file : ∃ above final content,
      before.follow true links place steps = .ok (.file above final content))
    (same : SameBut before after (parent ++ [name]) none) :
    after.follow true links place steps = .ok (.free parent name) := by
  fun_induction follow before false links place steps
  case case2 ih | case3 ih => simpa [follow] using ih last (by simpa [follow] using file)
  case case7 place n rest short isDir ih =>
    have still : after.at? (place ++ [n]) = some .dir := by
      rw [same.at?, if_neg (fun here => by simp [here, there] at isDir), isDir]
    simpa [follow, short, still] using ih last (by simpa [follow, short, isDir] using file)
  case case10 place n rest short link isLink ends =>
    obtain ⟨rfl, rfl, rfl⟩ : place = parent ∧ n = name ∧ link = target := by simpa using last
    have empty : rest = [] := by simpa using ends
    simp [follow, short, same.at?, empty]
  case case13 place n rest short link isLink goesOn links present ih =>
    have further : rest ≠ [] := by simpa using goesOn
    have leads : ∃ above final content, before.follow true links
        (if link.isAbsolute then [] else place) (link.steps ++ rest) =
          .ok (.file above final content) := by
      simpa [follow, short, isLink, present] using file
    -- A link in front of the last one is another: the last one leads to a file, and no steps go on
    -- behind a file.
    have apart : place ++ [n] ≠ parent ++ [name] := by
      intro here
      obtain ⟨rfl, rfl⟩ := List.append_singleton_inj.1 here
      obtain rfl : link = target := by simpa [isLink] using there
      obtain ⟨left, room, again⟩ := before.follow_last _ _ _ _ _ _ last
      obtain ⟨above, final, content, found⟩ := leads
      rw [found] at again
      cases left with
      | zero => simp [follow, short, isLink] at again
      | succ left =>
        have ends : before.follow true left (if link.isAbsolute then [] else place) link.steps =
            .ok (.file above final content) := by
          simpa [follow, short, isLink, present] using again.symm
        have stuck := before.follow_past_file true left links _ _ rest _ _ _ ends (by omega) further
        rw [found] at stuck
        cases stuck
    have still : after.at? (place ++ [n]) = some (.link link) := by
      rw [same.at?, if_neg apart, isLink]
    simpa [follow, short, still, present] using ih last leads
  all_goals cases last

theorem follow_names_ne_link (fs : FileSystem) (through : Bool) (links : Nat) (place : Location)
    (names : List Name) (parent : Location) (name : Name) (target : Path)
    (plain : ∀ rest target, rest ≠ [] → fs.at? (place ++ rest) ≠ some (.link target)) :
    fs.follow through links place (names.map .into) ≠ .ok (.link parent name target) := by
  induction names generalizing place with
  | nil => simp [follow]
  | cons first rest ih =>
    have further := ih (place ++ [first]) fun below target notEmpty => by
      simpa using plain (first :: below) target (by simp)
    have noLink := fun target => plain [first] target (by simp)
    rw [List.map_cons, follow]
    split
    · simp
    · split
      · split <;> simp
      · exact further
      · split <;> simp
      next target link => exact absurd link (noLink target)

theorem resolve_extend_ne_link (fs : FileSystem) (through : Bool) (root : Path) (names : List Name)
    (parent : Location) (name : Name) (target : Path) (plain : fs.PlainBelow root)
    (further : names ≠ []) :
    fs.resolve through (root.extend names) ≠ .ok (.link parent name target) := by
  intro found
  obtain ⟨place, entered⟩ := fs.enters_of_extend through root names _ further found
  have leads := entered.aimAt
  obtain ⟨front, -, pushed, reached, -⟩ := entered
  obtain ⟨left, same⟩ := fs.follow_from _ _ _ _ reached
  unfold resolve at found
  split_ifs at found
  rw [start_extend, steps_extend pushed names further, same through _ (by simpa using further)]
    at found
  exact fs.follow_names_ne_link through left place names parent name target
    (fun rest target => plain place rest target leads) found

theorem resolve_of_unlinked (before after : FileSystem) (path : Path) (parent : Location)
    (name : Name) (target : Path)
    (last : before.resolve false path = .ok (.link parent name target))
    (file : before.isFile path = true) (same : SameBut before after (parent ++ [name]) none) :
    after.resolve true path = .ok (.free parent name) := by
  have there : before.at? (parent ++ [name]) = some (.link target) :=
    before.resolve_holds false path _ last
  obtain ⟨content, readable⟩ := (before.isFile_iff path).1 file
  obtain ⟨above, final, found⟩ := (before.read_eq_ok path content).1 readable
  have begun : after.start path = before.start path := by simp [start, same.workingDir]
  unfold resolve at last found ⊢
  split_ifs at last with empty nul long gone
  rw [if_neg empty, if_neg nul, if_neg long, if_neg gone] at found
  have kept : after.at? (before.start path) = some .dir := by
    rw [same.at?, if_neg (fun here => gone (by simp [here, there])), not_not.1 gone]
  rw [if_neg empty, if_neg nul, if_neg long, begun, if_neg (not_not.2 kept)]
  exact follow_unlinked before after _ _ _ parent name target last there
    ⟨above, final, content, found⟩ same

theorem nothing_below_unlinked (before after : FileSystem) (root : Path) (parent : Location)
    (name : Name) (target : Path)
    (last : before.resolve false root = .ok (.link parent name target))
    (file : before.isFile root = true) (same : SameBut before after (parent ++ [name]) none)
    (place rest : Location) (leads : after.aimAt root = some place) :
    after.at? (place ++ rest) = none := by
  have freed := resolve_of_unlinked before after root parent name target last file same
  obtain rfl : parent ++ [name] = place := by
    simpa [after.aimAt_of_resolve root _ freed, Place.location] using leads
  by_cases here : rest = []
  · simp [here, same.at?]
  · exact after.at?_below (parent ++ [name]) rest here (by simp [same.at?])

theorem plainBelow_of_unlinked (before after : FileSystem) (root : Path) (parent : Location)
    (name : Name) (target : Path)
    (last : before.resolve false root = .ok (.link parent name target))
    (file : before.isFile root = true) (same : SameBut before after (parent ++ [name]) none) :
    after.PlainBelow root := by
  intro place rest link leads _
  simp [nothing_below_unlinked before after root parent name target last file same place rest leads]

theorem spares_of_removeFile (fs after : FileSystem) (root : Path) (names : List Name)
    (plain : fs.PlainBelow root) (file : fs.isFile (root.extend names) = true)
    (h : fs.removeFile (root.extend names) = .ok after) : Spares fs after root names := by
  rcases fs.removeFile_sameBut after _ h with
    ⟨place, target, same⟩ | ⟨parent, name, target, last, same⟩
  · exact spares_of_touchesOnly plain (.inr ⟨place, none, target, by simp, same⟩)
  · -- Only the root itself can be such a link, and then nothing is below it.
    obtain rfl : names = [] := by
      by_contra further
      exact fs.resolve_extend_ne_link false root names parent name target plain further last
    refine ⟨plainBelow_of_unlinked fs after root parent name target last file same, ?_⟩
    intro other content further readable
    obtain ⟨place, entered, -⟩ := fs.entered_of_read root other content plain further readable
    obtain ⟨whole, readableRoot⟩ := (fs.isFile_iff root).1 file
    obtain ⟨place', leads, there⟩ := fs.place_of_read root whole readableRoot
    obtain rfl : place = place' := Option.some.inj (entered.aimAt.symm.trans leads)
    simp [entered.isDir] at there

theorem spares_of_cleared (fs after : FileSystem) (root : Path) (names : List Name)
    (plain : fs.PlainBelow root) (cleared : fs.Cleared after (root.extend names)) :
    Spares fs after root names := by
  obtain ⟨-, rfl⟩ | ⟨file, removed⟩ := cleared
  · exact ⟨plain, fun _ _ _ readable => readable⟩
  · exact fs.spares_of_removeFile after root names plain file removed

end BuildIdCache.FileSystem
