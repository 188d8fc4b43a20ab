import BuildIdCache.Proofs.FileSystem.Reread

set_option autoImplicit false

namespace BuildIdCache.FileSystem

theorem follow_more (fs : FileSystem) (through : Bool) (links more : Nat) (place : Location)
    (steps : List Step) (found : Place) (h : fs.follow through links place steps = .ok found)
    (room : links ≤ more) : fs.follow through more place steps = .ok found := by
  fun_induction follow fs through links place steps generalizing more <;>
    grind -linarith [follow]

section

variable {before after : FileSystem} {parent : Location} {name : Name} {target : Path}
  (there : before.at? (parent ++ [name]) = some (.link target))
  (file : ∃ left above last content,
    before.follow true left parent [.into name] = .ok (.file above last content))
  (same : SameBut before after (parent ++ [name]) none)

include there file same

theorem follow_dir_unlinked (links : Nat) (place reached : Location) (steps : List Step)
    (h : before.follow true links place steps = .ok (.dir reached)) :
    after.follow true links place steps = .ok (.dir reached) := by
  fun_induction follow before true links place steps
  case case1 => simpa [follow] using h
  case case2 ih | case3 ih => simpa [follow] using ih h
  case case7 place n rest short isDir ih =>
    have still : after.at? (place ++ [n]) = some .dir := by
      rw [same.at?, if_neg (fun here => by simp [here, there] at isDir), isDir]
    simpa [follow, short, still] using ih h
  case case13 place n rest short link isLink goesOn links present ih =>
    -- The link leads to a file, so a way to a directory passes it neither in front nor at its end.
    have apart : place ++ [n] ≠ parent ++ [name] := by
      intro here
      obtain ⟨rfl, rfl⟩ := List.append_singleton_inj.1 here
      obtain ⟨left, above, last, content, found⟩ := file
      cases left with
      | zero => simp [follow, short, isLink] at found
      | succ left =>
        have ends : before.follow true left (if link.isAbsolute then [] else place) link.steps =
            .ok (.file above last content) := by
          simpa [follow, short, isLink, present] using found
        have goes := before.follow_more true links (max links left) _ _ _ h (by omega)
        by_cases further : rest = []
        · have again := before.follow_more true left (max links left) _ _ _ ends (by omega)
          rw [further, List.append_nil, again] at goes
          cases goes
        · rw [before.follow_past_file true left _ _ _ rest _ _ _ ends (by omega) further] at goes
          cases goes
    have still : after.at? (place ++ [n]) = some (.link link) := by
      rw [same.at?, if_neg apart, isLink]
    simpa [follow, short, still, present] using ih h
  all_goals cases h

theorem Enters.unlinked {base : Path} {place : Location} (entered : before.Enters base place) :
    after.Enters base place := by
  obtain ⟨front, moves, pushed, reached, begun⟩ := entered
  have starts : after.start base = before.start base := by simp [start, same.workingDir]
  refine ⟨front, moves, pushed, ?_, ?_⟩
  · rw [starts]
    exact follow_dir_unlinked there file same _ _ _ _ reached
  · rw [starts, same.at?, if_neg (fun here => by simp [here, there] at begun), begun]

end

def EndsAt (fs : FileSystem) (path : Path) (place : Location) : Prop :=
  ∃ parent name content, fs.resolve false path = .ok (.file parent name content) ∧
    place = parent ++ [name]

section

variable {fs after : FileSystem} {path : Path} {place : Location} {content : ByteArray}

theorem EndsAt.aimAt (ends : fs.EndsAt path place) : fs.aimAt path = some place := by
  obtain ⟨parent, name, content, found, rfl⟩ := ends
  exact fs.aimAt_of_resolve path _ (fs.resolve_through path _ found (by simp))

theorem Cleared.file (cleared : fs.Cleared after path)
    (there : fs.at? place = some (.file content)) :
    after.at? place = some (.file content) ∨ fs.EndsAt path place := by
  obtain ⟨-, rfl⟩ | ⟨-, removed⟩ := cleared
  · exact .inl there
  unfold removeFile at removed
  split at removed
  next parent name old found =>
    have old := fs.resolve_holds false path _ found
    cases removed
    by_cases here : place = parent ++ [name]
    · exact .inr ⟨parent, name, _, found, here⟩
    · have same := fs.removeTree_sameBut (parent ++ [name]) (by rw [old]; simp)
      exact .inl (by rw [same.at?, if_neg here, there])
  next parent name target found =>
    have link : fs.at? (parent ++ [name]) = some (.link target) :=
      fs.resolve_holds false path _ found
    cases removed
    have same := fs.removeTree_sameBut (parent ++ [name]) (by rw [link]; simp)
    exact .inl (by rw [same.at?, if_neg (fun here => by simp [here, link] at there), there])
  all_goals cases removed

theorem Cleared.link (cleared : fs.Cleared after path) {target : Path}
    (link : after.at? place = some (.link target)) : fs.at? place = some (.link target) := by
  obtain ⟨-, rfl⟩ | ⟨-, removed⟩ := cleared
  · exact link
  · rcases fs.removeFile_sameBut after path removed with ⟨_, -, same⟩ | ⟨_, _, _, -, same⟩
    all_goals
      rw [same.at?] at link
      split at link
      · cases link
      · exact link

theorem Cleared.enters {base : Path} {top : Location} (cleared : fs.Cleared after path)
    (entered : fs.Enters base top) : after.Enters base top := by
  obtain ⟨-, rfl⟩ | ⟨file, removed⟩ := cleared
  · exact entered
  rcases fs.removeFile_sameBut after path removed with
    ⟨filled, target, same⟩ | ⟨parent, name, target, last, same⟩
  · exact (same.steady_of_target? target (by simp)).enters entered
  · obtain ⟨old, readable⟩ := (fs.isFile_iff path).1 file
    obtain ⟨above, final, found⟩ := (fs.read_eq_ok path old).1 readable
    have link := fs.resolve_holds false path _ last
    unfold resolve at last found
    split_ifs at last with empty nul long gone
    rw [if_neg empty, if_neg nul, if_neg long, if_neg gone] at found
    obtain ⟨left, -, again⟩ := fs.follow_last _ _ _ _ _ _ last
    exact entered.unlinked link ⟨left, above, final, old, again ▸ found⟩ same

theorem TouchesOnly.file (touches : fs.TouchesOnly after path) (absent : fs.isFile path = false)
    (there : fs.at? place = some (.file content)) : after.at? place = some (.file content) := by
  obtain rfl | ⟨filled, entry, target, -, same⟩ := touches
  · exact there
  rw [same.at?, if_neg, there]
  rintro rfl
  have readable := (Steady.refl fs).read_target path place content target there
  have present := (fs.isFile_iff path).2 ⟨content, readable⟩
  rw [absent] at present
  cases present

end

theorem follow_names_file (fs : FileSystem) (links : Nat) (top : Location) (names : List Name)
    (parent : Location) (last : Name) (content : ByteArray)
    (h : fs.follow false links top (names.map .into) = .ok (.file parent last content)) :
    parent ++ [last] = top ++ names ∨ ∃ front rest target, names = front ++ rest ∧ rest ≠ [] ∧
      fs.at? (top ++ front) = some (.link target) := by
  induction names generalizing top with
  | nil => simp [follow] at h
  | cons name rest ih =>
    have short : ¬nameLimit < name.bytes.length := by
      intro long
      simp [follow, long] at h
    rcases there : fs.at? (top ++ [name]) with _ | (old | _ | target) <;>
      simp only [List.map_cons, follow, if_neg short, there] at h
    · split at h <;> cases h
    · split at h
      next ends =>
        obtain rfl : rest = [] := by simpa using ends
        obtain ⟨rfl, rfl, -⟩ : top = parent ∧ name = last ∧ old = content := by simpa using h
        exact .inl rfl
      next => cases h
    · rcases ih (top ++ [name]) h with here | ⟨front, more, target, rfl, further, link⟩
      · exact .inl (by simpa using here)
      · exact .inr ⟨name :: front, more, target, rfl, further, by simpa using link⟩
    · have further : rest ≠ [] := by
        rintro rfl
        simp at h
      exact .inr ⟨[name], rest, target, rfl, further, there⟩

theorem Enters.link_of_endsAt {fs : FileSystem} {base : Path} {top place : Location}
    (entered : fs.Enters base top) (names : List Name) (ends : fs.EndsAt (base.extend names) place)
    (outside : ¬top <+: place) : ∃ front rest target, names = front ++ rest ∧ rest ≠ [] ∧
      fs.at? (top ++ front) = some (.link target) := by
  by_cases further : names = []
  · subst further
    obtain rfl : top = place := Option.some.inj (entered.aimAt.symm.trans ends.aimAt)
    exact absurd (List.prefix_refl _) outside
  obtain ⟨front, -, pushed, reached, -⟩ := entered
  obtain ⟨left, same⟩ := fs.follow_from _ _ _ _ reached
  obtain ⟨parent, last, content, found, rfl⟩ := ends
  unfold resolve at found
  split_ifs at found
  rw [start_extend, steps_extend pushed names further, same false _ (by simpa using further)]
    at found
  refine (fs.follow_names_file left top names parent last content found).resolve_left fun here => ?_
  exact outside (here ▸ List.prefix_append top names)

end BuildIdCache.FileSystem
