import BuildIdCache.Proofs.FileSystem.Apart
import BuildIdCache.Proofs.FileSystem.Listing

set_option autoImplicit false

namespace BuildIdCache.FileSystem

variable {σ α : Type}

theorem looked_congr (before after : FileSystem) (links : Nat) (place : Location)
    (steps : List Step)
    (same : ∀ other ∈ before.looked links place steps, after.at? other = before.at? other) :
    after.looked links place steps = before.looked links place steps := by
  fun_induction looked before links place steps with
  | case1 => simp [looked]
  | case2 links place rest ih | case3 links place rest ih => simpa [looked] using ih same
  | case4 links place name rest into follows =>
    have here := same (place ++ [name]) (by simp)
    rw [looked, here]
    rcases there : before.at? (place ++ [name]) with _ | (content | _ | target)
    · rfl
    · rfl
    · simp only [there, List.mem_cons, forall_eq_or_imp] at same
      simp only [into same.2]
    · cases links with
      | zero => rfl
      | succ links =>
        simp only [there, List.mem_cons, forall_eq_or_imp] at same
        simpa using follows target (by simpa using same.2)

section

variable {fs now : FileSystem} {root dir : Path} {place : Location}

theorem Fills.claims (fills : Fills fs now root) (other : Location)
    (claims : now.Claims root other) : fs.Claims root other := by
  rw [Claims, fills.steady.aimAt, fills.steady.passes] at claims
  rcases claims with within | ⟨absent, passes⟩
  · exact .inl within
  · rcases fills.at? other with within | same | ⟨before, -, -⟩
    · exact .inl within
    · exact .inr ⟨same ▸ absent, passes⟩
    · exact .inr ⟨before, passes⟩

theorem Apart.fills (apart : fs.Apart root dir place) (fills : Fills fs now root) :
    now.Apart root dir place where
  leads := fills.steady.resolve dir _ apart.leads
  outside top rest leads := apart.outside top rest (fills.steady.aimAt root ▸ leads)
  links names target there other member := by
    have before := (fills.steady.links _ _).1 there
    have unclaimed := apart.links names target before
    rw [looksAt, fills.steady.start, fs.looked_congr now _ _ _ fun other member =>
      fills.unclaimed other (unclaimed other member)] at member
    exact (unclaimed other member).imp (fills.steady.dirs other) fun free claims =>
      free (fills.claims other claims)

theorem Apart.found_iff (apart : fs.Apart root dir place) (fills : Fills fs now root)
    (names : List Name) : now.Found dir place names ↔ fs.Found dir place names := by
  have links := (apart.sees fills).links names
  rw [Found, Found]
  rcases apart.at? fills names with same | ⟨absent, isDir⟩
  · rw [same]
    grind
  · simp [absent, isDir]

end

def Relists (start now : FileSystem) (dir : Path) (place : Location) (room : Nat)
    (above : List Name) : Prop :=
  ∀ last, Steady now last → (∀ rest, last.at? (place ++ rest) = start.at? (place ++ rest)) →
    last.listing dir room above ≠ none

def RelistsChildren (start now : FileSystem) (dir : Path) (place : Location) (room : Nat)
    (above : List Name) (children : List (Name × Entry)) : Prop :=
  ∀ last, Steady now last → (∀ rest, last.at? (place ++ rest) = start.at? (place ++ rest)) →
    ∀ child ∈ children, ∃ part, last.listChild dir (last.listing dir room) above child = some part

section

variable {start between after : FileSystem} {dir : Path} {place : Location} {room : Nat}
  {above : List Name}

theorem RelistsChildren.add {before : List (Name × Entry)} {child : Name × Entry}
    (relists : RelistsChildren start between dir place room above before)
    (steady : Steady between after)
    (here : RelistsChildren start after dir place room above [child]) :
    RelistsChildren start after dir place room above (before ++ [child]) := by
  intro last later agrees other member
  rcases List.mem_append.1 member with earlier | member
  · exact relists last (steady.trans later) agrees other earlier
  · exact here last later agrees other member

theorem Relists.child {name : Name}
    (relists : Relists start after dir place room (above ++ [name])) :
    RelistsChildren start after dir place room above [(name, .dir)] := by
  intro last later agrees child member
  obtain rfl := List.mem_singleton.1 member
  exact Option.ne_none_iff_exists'.1 (relists last later agrees)

theorem relistsChildren_file (name : Name) (content : ByteArray) :
    RelistsChildren start after dir place room above [(name, .file content)] := by
  simp [RelistsChildren, listChild]

theorem relistsChildren_link (name : Name) (target : Path) :
    RelistsChildren start after dir place room above [(name, .link target)] := by
  simp [RelistsChildren, listChild]

theorem RelistsChildren.relists
    (relists : RelistsChildren start after dir place room above (between.children (place ++ above)))
    (unchanged : ∀ rest, between.at? (place ++ rest) = start.at? (place ++ rest))
    (steady : Steady between after)
    (leads : between.resolve true (dir.extend above) = .ok (.dir (place ++ above))) :
    Relists start after dir place (room + 1) above := by
  intro last later agrees
  have entered := (steady.trans later).resolve _ _ leads
  have lists : ∀ child ∈ last.children (place ++ above),
      ∃ part, last.listChild dir (last.listing dir room) above child = some part := by
    rintro ⟨name, entry⟩ member
    refine relists last later agrees _ ?_
    rw [mem_children, List.append_assoc, agrees] at member
    rwa [mem_children, List.append_assoc, unchanged]
  obtain ⟨parts, done⟩ := mapM_of_forall lists
  simp [listing, list, entered, settle, done]

end

section

variable {start : FileSystem} {dir : Path} {place : Location} (visit : α → Path → Action σ α)
  (kept : World σ → Prop)
  (same : ∀ between, kept between → Steady start between.files ∧
    ∀ rest, between.files.at? (place ++ rest) = start.at? (place ++ rest))
  (each : ∀ answer file between, kept between → (visit answer file).Ends between
    (fun _ after => kept after ∧ Steady between.files after.files) fun _ => True)

include same each

theorem ends_walkDir_relists (leads : start.aimAt dir = some place) (room : Nat) (above : List Name)
    (answer : α) (world : World σ) (holds : kept world) (clear : start.ClearTo place above) :
    (walkDir dir visit room answer (dir.extend above)).Ends world
      (fun _ after => kept after ∧ Steady world.files after.files ∧
        Relists start after.files dir place room above) fun _ => True := by
  induction room generalizing above answer world with
  | zero => trivial
  | succ room ih =>
    simp only [walkDir, Action.ends_bind, Action.ends_files]
    split
    next => trivial
    next entries listed =>
      obtain ⟨reached, found, rfl⟩ := world.files.list_eq_ok _ entries listed
      obtain ⟨steady, unchanged⟩ := same world holds
      obtain rfl := steady.place_of_resolve leads clear found
      -- A child that was listed can still be listed after the children that come later.
      refine (Action.ends_foldlM _ (fun before _ after => kept after ∧
        Steady world.files after.files ∧
          RelistsChildren start after.files dir place room above before) _ _ _
        ⟨holds, .refl _, by simp [RelistsChildren]⟩ ?_).mono ?_ fun _ left => left
      · rintro before ⟨name, entry⟩ rest next between split ⟨holds, steadyNow, relists⟩
        rw [← Path.extend_concat]
        have visits : (∀ after, RelistsChildren start after dir place room above [(name, entry)]) →
            (visit next (dir.extend (above ++ [name]))).Ends between (fun _ after => kept after ∧
              Steady world.files after.files ∧
                RelistsChildren start after.files dir place room above (before ++ [(name, entry)]))
              fun _ => True := fun here =>
          (each next _ between holds).mono (fun _ after passed =>
            ⟨passed.1, steadyNow.trans passed.2, relists.add passed.2 (here after.files)⟩)
            fun _ left => left
        cases entry with
        | dir =>
          have isDir : start.at? (place ++ (above ++ [name])) = some .dir := by
            rw [← unchanged, ← List.append_assoc, ← world.files.mem_children, split]
            simp
          refine (ih (above ++ [name]) next between holds (clear.push (by simp [isDir]))).mono ?_
            fun _ left => left
          rintro answer after ⟨holds, steady', lists⟩
          exact ⟨holds, steadyNow.trans steady', relists.add steady' lists.child⟩
        | file content => exact visits fun _ => relistsChildren_file name content
        | link target =>
          simp only [Action.ends_bind, Action.ends_isFile]
          split
          · exact visits fun _ => relistsChildren_link name target
          · exact ⟨holds, steadyNow, relists.add (.refl _) (relistsChildren_link name target)⟩
      · rintro answer after ⟨holds, steady', relists⟩
        exact ⟨holds, steady', relists.relists unchanged steady' found⟩

theorem ends_walk_relists (leads : start.resolve true dir = .ok (.dir place)) (answer : α)
    (world : World σ) (holds : kept world) :
    (walk dir visit answer).Ends world
      (fun _ after => kept after ∧ Steady world.files after.files ∧
        Relists start after.files dir place pathLimit []) fun _ => True := by
  have walks := walk_of_dir dir visit answer world place ((same world holds).1.resolve dir _ leads)
  rw [Action.Ends, walks]
  exact ends_walkDir_relists visit kept same each (start.aimAt_of_resolve dir _ leads) pathLimit []
    answer world holds (start.clearTo_nil place)

end

end BuildIdCache.FileSystem
