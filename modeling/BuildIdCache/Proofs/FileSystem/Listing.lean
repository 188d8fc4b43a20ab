import BuildIdCache.Proofs.FileSystem.Found
import BuildIdCache.Proofs.FileSystem.Made

set_option autoImplicit false

namespace BuildIdCache

open Std

theorem compare_behind {α : Type} [Ord α] [ReflOrd α] (front a b : List α) :
    compare (front ++ a) (front ++ b) = compare a b := by
  induction front with
  | nil => rfl
  | cons x front ih => simp [ih, ReflCmp.compare_self]

theorem compare_of_fronts {α : Type} [Ord α] [ReflOrd α] {front a b : List α} {x y : α}
    (below : compare x y = .lt) (within : front ++ [x] <+: a) (within' : front ++ [y] <+: b) :
    compare a b = .lt := by
  obtain ⟨rest, rfl⟩ := within
  obtain ⟨rest', rfl⟩ := within'
  simp [List.append_assoc, compare_behind, below]

namespace FileSystem

variable {σ α : Type}

theorem increasing_children (fs : FileSystem) (place : Location) :
    (fs.children place).Pairwise fun a b => compare a.1 b.1 = .lt := by
  rw [children, List.pairwise_filterMap]
  refine fs.entries.increasing.imp fun {a b} below child childOf other otherOf => ?_
  rw [entry_of_child childOf, entry_of_child otherOf, compare_behind] at below
  simpa using below

def listChild (fs : FileSystem) (root : Path) (below : List Name → Option (List (List Name)))
    (above : List Name) (child : Name × Entry) : Option (List (List Name)) :=
  match child.2 with
  | .dir => below (above ++ [child.1])
  | .file _ => some [above ++ [child.1]]
  | .link _ =>
    some (if fs.isFile (root.extend (above ++ [child.1])) then [above ++ [child.1]] else [])

/-- The files that a walk visits below a directory, in its order, if it comes to its end. -/
def listing (fs : FileSystem) (root : Path) : Nat → List Name → Option (List (List Name))
  | 0, _ => none
  | room + 1, above =>
    match fs.list (root.extend above) with
    | .error _ => none
    | .ok entries =>
      (entries.mapM (listChild fs root (listing fs root room) above)).map List.flatten

theorem mapM_eq_some {β γ : Type} (f : β → Option γ) (items : List β) (parts : List γ) :
    items.mapM f = some parts ↔ items.map f = parts.map some := by
  induction items generalizing parts with
  | nil => cases parts <;> simp
  | cons item rest ih =>
    cases parts with
    | nil => simp [Option.bind_eq_some_iff]
    | cons part parts => simp [Option.bind_eq_some_iff, ih]

theorem mapM_concat {β γ : Type} {f : β → Option γ} {items : List β} {parts : List γ} {item : β}
    {part : γ} (h : items.mapM f = some parts) (found : f item = some part) :
    (items ++ [item]).mapM f = some (parts ++ [part]) := by
  rw [mapM_eq_some] at h ⊢
  simp [h, found]

theorem mem_of_part {β γ : Type} {f : β → Option (List γ)} {items : List β} {all : List γ}
    (h : (items.mapM f).map List.flatten = some all) {item : β} (member : item ∈ items) {x : γ}
    (ofPart : ∀ part, f item = some part → x ∈ part) : x ∈ all := by
  obtain ⟨parts, mapped, rfl⟩ := Option.map_eq_some_iff.1 h
  have parts_eq := (mapM_eq_some _ _ _).1 mapped
  have isPart : f item ∈ parts.map some := parts_eq ▸ List.mem_map_of_mem member
  obtain ⟨part, among, found⟩ := List.mem_map.1 isPart
  exact List.mem_flatten.2 ⟨part, among, ofPart part found.symm⟩

def visitAll (root : Path) (visit : α → Path → Action σ α) (start : α)
    (listed : List (List Name)) : Action σ α :=
  listed.foldlM (fun answer names => visit answer (root.extend names)) start

theorem visitAll_append (root : Path) (visit : α → Path → Action σ α) (start : α)
    (front rest : List (List Name)) : visitAll root visit start (front ++ rest) =
      visitAll root visit start front >>= fun answer => visitAll root visit answer rest :=
  List.foldlM_append

/-- An action visits what is listed, in that order, and nothing else; it fails only where nothing
could be listed. -/
def Visits (fs : FileSystem) (root : Path) (visit : α → Path → Action σ α)
    (listed : Option (List (List Name))) (action : Action σ α) (start : α) (world : World σ) :
    Prop :=
  action.Ends world
    (fun last after => after.files = fs ∧ ∃ all, listed = some all ∧
      visitAll root visit start all world = (.ok last, after))
    fun _ => listed = none

section

variable (fs : FileSystem) (root : Path) (visit : α → Path → Action σ α)

theorem visits_one (names : List Name) (start : α) (world : World σ)
    (one : (visit start (root.extend names)).Ends world (fun _ after => after.files = fs)
      fun _ => False) :
    Visits fs root visit (some [names]) (visit start (root.extend names)) start world := by
  refine (one.and (Action.ends_self _ world)).mono ?_ ?_
  · rintro last after ⟨sameAfter, ran⟩
    exact ⟨sameAfter, [names], rfl, by simpa [visitAll] using ran⟩
  · rintro after ⟨never, -⟩
    exact never.elim

def Visited (below : List Name → Option (List (List Name))) (above : List Name) (start : α)
    (world : World σ) (children : List (Name × Entry)) (answer : α) (between : World σ) : Prop :=
  between.files = fs ∧ ∃ parts, children.mapM (fs.listChild root below above) = some parts ∧
    visitAll root visit start parts.flatten world = (.ok answer, between)

variable {fs root visit} in
theorem Visited.next {below : List Name → Option (List (List Name))} {above : List Name} {start : α}
    {world : World σ} {before : List (Name × Entry)} {answer : α} {between : World σ}
    (visited : Visited fs root visit below above start world before answer between)
    {child : Name × Entry} {step : Action σ α}
    (visits : Visits fs root visit (fs.listChild root below above child) step answer between) :
    step.Ends between (Visited fs root visit below above start world (before ++ [child]))
      fun _ => fs.listChild root below above child = none := by
  obtain ⟨-, parts, listed, ran⟩ := visited
  refine visits.mono ?_ fun _ none => none
  rintro last after ⟨sameAfter, part, found, passed⟩
  refine ⟨sameAfter, parts ++ [part], mapM_concat listed found, ?_⟩
  rw [List.flatten_append, visitAll_append, Action.bind_of_ok _ _ _ _ _ ran]
  simpa using passed

theorem visits_walkDir (room : Nat) (above : List Name)
    (each : ∀ answer names between, (∀ all, fs.listing root room above = some all → names ∈ all) →
      between.files = fs → (visit answer (root.extend names)).Ends between
        (fun _ after => after.files = fs) fun _ => False)
    (start : α) (world : World σ) (same : world.files = fs) :
    Visits fs root visit (fs.listing root room above)
      (walkDir root visit room start (root.extend above)) start world := by
  induction room generalizing above start world with
  | zero => rfl
  | succ room ih =>
    simp only [Visits, walkDir, listing, Action.ends_bind, Action.ends_files, same] at each ⊢
    cases entered : fs.list (root.extend above) with
    | error e => rfl
    | ok entries =>
      simp only [entered] at each
      -- What the loop keeps: the visits made so far are those listed of the children that are done.
      refine (Action.ends_foldlM _ (Visited fs root visit (fs.listing root room) above start world)
        entries start world ⟨same, [], rfl, rfl⟩ ?_).mono ?_ fun _ left => left
      · rintro before ⟨name, entry⟩ rest answer between split visited
        have sameNow := visited.1
        -- What is listed of a child is listed of its directory, if that is listed at all.
        have within : ∀ names, (∀ part, fs.listChild root (fs.listing root room) above
            (name, entry) = some part → names ∈ part) →
            ∀ all, (entries.mapM (fs.listChild root (fs.listing root room) above)).map
              List.flatten = some all → names ∈ all :=
          fun names ofChild all listed => mem_of_part listed (by simp [split]) ofChild
        refine (visited.next ?_).mono (fun _ _ passed => passed) fun _ none => by simp [split, none]
        rw [← Path.extend_concat]
        cases entry with
        | dir =>
          exact ih (above ++ [name]) (fun answer names between ofChild =>
            each answer names between (within names ofChild)) answer between sameNow
        | file content =>
          refine visits_one fs root visit _ answer between
            (each answer _ between (within _ fun part found => ?_) sameNow)
          obtain rfl := Option.some.inj found
          simp
        | link target =>
          simp only [listChild, Visits, Action.ends_bind, Action.ends_isFile, sameNow] at within ⊢
          split
          next file =>
            refine visits_one fs root visit _ answer between
              (each answer _ between (within _ fun part found => ?_) sameNow)
            rw [if_pos file] at found
            obtain rfl := Option.some.inj found
            simp
          next => exact ⟨sameNow, [], rfl, rfl⟩
      · rintro last after ⟨sameAfter, parts, listed, ran⟩
        exact ⟨sameAfter, parts.flatten, by simp [listed], ran⟩

end

theorem mem_parts {β γ : Type} {f : β → Option γ} {items : List β} {parts : List γ}
    (h : items.mapM f = some parts) (part : γ) (member : part ∈ parts) :
    ∃ item ∈ items, f item = some part := by
  rw [mapM_eq_some] at h
  have found : some part ∈ items.map f := h ▸ List.mem_map_of_mem member
  simpa using found

theorem mapM_of_forall {β γ : Type} {f : β → Option γ} {items : List β}
    (h : ∀ item ∈ items, ∃ part, f item = some part) : ∃ parts, items.mapM f = some parts := by
  induction items with
  | nil => exact ⟨[], rfl⟩
  | cons item rest ih =>
    obtain ⟨part, first⟩ := h item (by simp)
    obtain ⟨parts, more⟩ := ih fun other member => h other (by simp [member])
    exact ⟨part :: parts, by simp [first, more]⟩

theorem of_listChild {fs : FileSystem} {root : Path}
    {below : List Name → Option (List (List Name))} {above : List Name} {child : Name × Entry}
    {part : List (List Name)}
    (h : fs.listChild root below above child = some part) (what : List (List Name) → Prop)
    (deeper : below (above ++ [child.1]) = some part → what part)
    (one : what [above ++ [child.1]]) (none : what []) : what part := by
  unfold listChild at h
  split at h
  · exact deeper h
  · exact Option.some.inj h ▸ one
  · rw [← Option.some.inj h]
    split
    · exact one
    · exact none

theorem listing_eq_some {fs : FileSystem} {root : Path} {room : Nat} {above : List Name}
    {listed : List (List Name)} (h : fs.listing root (room + 1) above = some listed) :
    ∃ place parts, fs.resolve true (root.extend above) = .ok (.dir place) ∧
      (fs.children place).mapM (fs.listChild root (fs.listing root room) above) = some parts ∧
      listed = parts.flatten := by
  simp only [listing] at h
  split at h
  · cases h
  next entries found =>
    obtain ⟨place, resolved, rfl⟩ := fs.list_eq_ok _ _ found
    obtain ⟨parts, mapped, rfl⟩ := Option.map_eq_some_iff.1 h
    exact ⟨place, parts, resolved, mapped, rfl⟩

theorem below_listing (fs : FileSystem) (root : Path) (room : Nat) (above : List Name)
    (listed : List (List Name)) (h : fs.listing root room above = some listed) :
    ∀ names ∈ listed, above <+: names := by
  induction room generalizing above listed with
  | zero => cases h
  | succ room ih =>
    obtain ⟨place, parts, -, mapped, rfl⟩ := listing_eq_some h
    intro names member
    obtain ⟨part, ofParts, within⟩ := List.mem_flatten.1 member
    obtain ⟨child, -, found⟩ := mem_parts mapped part ofParts
    exact (List.prefix_append _ _).trans
      (of_listChild found (fun part => ∀ names ∈ part, above ++ [child.1] <+: names)
        (ih (above ++ [child.1]) part) (by simp) (by simp) names within)

theorem increasing_listing (fs : FileSystem) (root : Path) (room : Nat) (above : List Name)
    (listed : List (List Name)) (h : fs.listing root room above = some listed) :
    listed.Pairwise fun a b => compare a b = .lt := by
  induction room generalizing above listed with
  | zero => cases h
  | succ room ih =>
    obtain ⟨place, parts, -, mapped, rfl⟩ := listing_eq_some h
    have within {child : Name × Entry} {part : List (List Name)}
        (found : fs.listChild root (fs.listing root room) above child = some part) :
        ∀ names ∈ part, above ++ [child.1] <+: names :=
      of_listChild found (fun part => ∀ names ∈ part, above ++ [child.1] <+: names)
        (fs.below_listing root room (above ++ [child.1]) part) (by simp) (by simp)
    refine List.pairwise_flatten.2 ⟨fun part member => ?_, ?_⟩
    · obtain ⟨child, -, found⟩ := mem_parts mapped part member
      exact of_listChild found (List.Pairwise fun a b => compare a b = .lt)
        (ih (above ++ [child.1]) part) (by simp) .nil
    · -- Children are listed in the order of their names, which comes before what is below them.
      have ordered : ((fs.children place).map
          (fs.listChild root (fs.listing root room) above)).Pairwise fun first second =>
            ∀ part other, first = some part → second = some other →
              ∀ a ∈ part, ∀ b ∈ other, compare a b = .lt := by
        refine List.pairwise_map.2 ((fs.increasing_children place).imp ?_)
        intro child next lt part other found found' a member b member'
        exact compare_of_fronts lt (within found a member) (within found' b member')
      rw [(mapM_eq_some _ _ _).1 mapped, List.pairwise_map] at ordered
      exact ordered.imp fun h => h _ _ rfl rfl

theorem lists_listing (fs : FileSystem) (root : Path) (place : Location)
    (leads : fs.aimAt root = some place) (room : Nat) (listed : List (List Name))
    (h : fs.listing root room [] = some listed) : Lists listed (fs.Found root place) := by
  -- A visit that does no more than to write down where it is.
  let note (seen : List Path) (path : Path) : Action Unit (List Path) := pure (seen ++ [path])
  have noted : ∀ names seen (world : World Unit), visitAll root note seen names world =
      (.ok (seen ++ names.map root.extend), world) := by
    intro names
    induction names with
    | nil => intro seen world; simp [visitAll]; rfl
    | cons first rest ih =>
      intro seen world
      exact (ih (seen ++ [root.extend first]) world).trans (by simp)
  have run := visits_walkDir fs root note room [] (fun _ _ _ _ same => same) [] ⟨fs, ()⟩ rfl
  have walked := ends_walkDir_found fs root place note
    (fun visited seen between => between.files = fs ∧ seen = visited.map root.extend)
    (fun _ => True) (fun _ _ between now => now.1 ▸ ⟨.refl _, fun _ => .inl rfl, fun _ _ _ => rfl⟩)
    (fun visited names seen between now _ => ⟨now.1, by simp [now.2]⟩) (fun _ _ _ _ => trivial)
    room [] [] [] ⟨fs, ()⟩ ⟨rfl, rfl⟩ leads
    fun front _ within notEmpty => absurd (List.prefix_nil.1 within) notEmpty
  have noFailure : (walkDir root note room [] (root.extend [])).Ends ⟨fs, ()⟩
      (fun _ _ => Lists listed (fs.Found root place)) fun _ => False := by
    refine (run.and walked).mono ?_ fun _ failed => by simp [h] at failed
    rintro last after ⟨⟨-, all, same, ran⟩, visited, ⟨-, rfl⟩, lists⟩
    rw [h] at same
    obtain rfl := Option.some.inj same
    rw [noted] at ran
    have answers := congrArg Prod.fst ran
    have spelled : listed.map root.extend = visited.map root.extend := by simpa using answers
    rw [List.map_injective_iff.2 root.extend_injective spelled]
    exact lists.congr fun names => by simp [Found]
  obtain ⟨_, _, -, lists⟩ := noFailure.of_never
  exact lists

theorem listing_congr {fs now : FileSystem} {place : Location} {entry : Option Entry}
    (same : SameBut fs now place entry)
    (old : fs.at? place = none ∨ ∃ content, fs.at? place = some (.file content))
    (new : entry = none ∨ ∃ content, entry = some (.file content)) (root : Path) (room : Nat)
    (above : List Name) (h : fs.listing root room above ≠ none) :
    now.listing root room above ≠ none := by
  induction room generalizing above with
  | zero => exact absurd rfl h
  | succ room ih =>
    obtain ⟨listed, found⟩ := Option.ne_none_iff_exists'.1 h
    obtain ⟨top, parts, resolved, mapped, -⟩ := listing_eq_some found
    have entered := (same.steady_fill old new).resolve _ _ resolved
    have lists : ∀ child ∈ now.children top,
        ∃ part, now.listChild root (now.listing root room) above child = some part := by
      rintro ⟨name, what⟩ member
      cases what with
      | file content => exact ⟨_, rfl⟩
      | link target => exact ⟨_, rfl⟩
      | dir =>
        -- A directory that is there now was there before, so it could be listed.
        have isDir : fs.at? (top ++ [name]) = some .dir := by
          have there := (now.mem_children top name .dir).1 member
          rw [same.at?] at there
          split at there
          · rcases new with rfl | ⟨_, rfl⟩ <;> cases there
          · exact there
        have listedThen := List.mem_map_of_mem (f := fs.listChild root (fs.listing root room) above)
          ((fs.mem_children top name .dir).2 isDir)
        rw [(mapM_eq_some _ _ _).1 mapped, List.mem_map] at listedThen
        obtain ⟨part, -, below⟩ := listedThen
        exact Option.ne_none_iff_exists'.1 (ih (above ++ [name]) (by
          rw [← show some part = fs.listing root room (above ++ [name]) from below]
          simp))
    obtain ⟨parts', done⟩ := mapM_of_forall lists
    simp [listing, list, entered, settle, done]

section

variable (root : Path) (visit : α → Path → Action σ α) (start : α) (world : World σ)

theorem walk_of_dir (place : Location) (h : world.files.resolve true root = .ok (.dir place)) :
    walk root visit start world = walkDir root visit pathLimit start root world := by
  obtain ⟨last, stops⟩ := world.files.resolve_stops root _ h
  rw [walk, Action.bind_of_ok .files _ world world world.files rfl, stops]
  cases last with
  | dir => rfl
  | link => simp only [lookup, h]
  | file | free =>
    rw [world.files.resolve_through root _ stops (by simp)] at h
    cases h

theorem ends_walk_listed (place : Location)
    (isDir : world.files.resolve true root = .ok (.dir place))
    (listed : world.files.listing root pathLimit [] ≠ none) (inv : α → Prop) (first : inv start)
    (each : ∀ answer names between, world.files.Found root place names →
      between.files = world.files → (visit answer (root.extend names)).Ends between
        (fun next after => after.files = world.files ∧ (inv answer → inv next)) fun _ => False) :
    (walk root visit start).Ends world (fun last after => after.files = world.files ∧ inv last)
      fun _ => False := by
  obtain ⟨all, lists⟩ := Option.ne_none_iff_exists'.1 listed
  have found := lists_listing world.files root place (world.files.aimAt_of_resolve root _ isDir)
    pathLimit all lists
  have visits := visits_walkDir world.files root visit pathLimit []
    (fun answer names between within same =>
      (each answer names between ((found.2 names).1 (within all lists)) same).mono
        (fun _ _ kept => kept.1) fun _ never => never) start world rfl
  have walks := walk_of_dir root visit start world place isDir
  rw [Action.Ends, walks]
  refine visits.mono ?_ fun _ unlisted => listed unlisted
  rintro last after ⟨same, all', lists', visited⟩
  obtain rfl : all = all' := Option.some.inj (lists.symm.trans lists')
  have folded : (visitAll root visit start all).Ends world
      (fun next between => between.files = world.files ∧ inv next) fun _ => False := by
    refine Action.ends_foldlM _ (fun _ next between => between.files = world.files ∧ inv next) all
      start world ⟨rfl, first⟩ ?_
    rintro before names rest next between split ⟨same, holds⟩
    have there := (found.2 names).1 (by simp [split])
    exact (each next names between there same).mono (fun _ _ kept => ⟨kept.1, kept.2 holds⟩)
      fun _ never => never
  exact folded.of_ok visited

theorem resolve_of_walk (last : α) (after : World σ)
    (ran : walk root visit start world = (.ok last, after)) :
    ∃ found, world.files.resolve true root = .ok found := by
  have ends : (walk root visit start).Ends world
      (fun _ _ => ∃ found, world.files.resolve true root = .ok found) fun _ => True := by
    simp only [walk, Action.ends_bind, Action.ends_files]
    split
    · trivial
    · trivial
    next found =>
      exact (Action.ends_self _ world).mono
        (fun _ _ _ => ⟨_, world.files.resolve_through root _ found (by simp)⟩) fun _ _ => trivial
    next found =>
      exact (Action.ends_self _ world).mono
        (fun _ _ _ => ⟨_, world.files.resolve_through root _ found (by simp)⟩) fun _ _ => trivial
    next =>
      cases resolved : world.files.resolve true root with
      | ok found =>
        exact (Action.ends_self _ world).mono (fun _ _ _ => ⟨found, rfl⟩) fun _ _ => trivial
      | error e => simp [lookup, resolved]
  exact ends.of_ok ran

end

end FileSystem

end BuildIdCache
