import BuildIdCache.Proofs.FileSystem.Walk

set_option autoImplicit false

namespace BuildIdCache

def Lists {β : Type} (items : List β) (what : β → Prop) : Prop :=
  items.Nodup ∧ ∀ item, item ∈ items ↔ what item

theorem Lists.append {β : Type} {a b : List β} {p q : β → Prop} (first : Lists a p)
    (second : Lists b q) (apart : ∀ item, p item → ¬q item) :
    Lists (a ++ b) fun item => p item ∨ q item := by
  refine ⟨List.nodup_append.2 ⟨first.1, second.1, ?_⟩, fun item => ?_⟩
  · rintro item member other member' rfl
    exact apart item ((first.2 item).1 member) ((second.2 item).1 member')
  · rw [List.mem_append, first.2, second.2]

theorem Lists.congr {β : Type} {items : List β} {p q : β → Prop} (h : Lists items p)
    (same : ∀ item, p item ↔ q item) : Lists items q :=
  ⟨h.1, fun item => (h.2 item).trans (same item)⟩

namespace FileSystem

variable {σ α : Type}

/-- The names below a directory that a walk of it visits: those of files, and of links to files. -/
def Found (fs : FileSystem) (root : Path) (place : Location) (names : List Name) : Prop :=
  names ≠ [] ∧
    ((∃ content, fs.at? (place ++ names) = some (.file content)) ∨
      (∃ target, fs.at? (place ++ names) = some (.link target)) ∧
        fs.isFile (root.extend names) = true)

/-- Below a directory nothing has changed, unless empty directories came. -/
structure Sees (fs now : FileSystem) (root : Path) (place : Location) : Prop where
  steady : Steady fs now
  at? : ∀ names, now.at? (place ++ names) = fs.at? (place ++ names) ∨
    (fs.at? (place ++ names) = none ∧ now.at? (place ++ names) = some .dir)
  links : ∀ names target, fs.at? (place ++ names) = some (.link target) →
    now.isFile (root.extend names) = fs.isFile (root.extend names)

section

variable {fs : FileSystem} {root : Path} {place : Location}

theorem Found.present {names : List Name} (found : fs.Found root place names) :
    fs.at? (place ++ names) ≠ none ∧ fs.at? (place ++ names) ≠ some .dir := by
  obtain ⟨-, ⟨content, there⟩ | ⟨⟨target, there⟩, -⟩⟩ := found <;> simp [there]

theorem found_file {names : List Name} {content : ByteArray} (further : names ≠ [])
    (there : fs.at? (place ++ names) = some (.file content)) : fs.Found root place names :=
  ⟨further, .inl ⟨content, there⟩⟩

theorem found_link_iff {names : List Name} {target : Path} (further : names ≠ [])
    (there : fs.at? (place ++ names) = some (.link target)) :
    fs.Found root place names ↔ fs.isFile (root.extend names) = true := by
  simp [Found, further, there]

theorem Found.eq_of_front {front names : List Name} (found : fs.Found root place names)
    (within : front <+: names) (notDir : fs.at? (place ++ front) ≠ some .dir) : names = front := by
  obtain ⟨rest, rfl⟩ := within
  by_contra further
  have below := fs.at?_below (place ++ front) rest (by simpa using further) notDir
  exact found.present.1 (by simpa using below)

theorem Found.present_front {front names : List Name} (found : fs.Found root place names)
    (within : front <+: names) : fs.at? (place ++ front) ≠ none := by
  obtain ⟨rest, rfl⟩ := within
  by_cases empty : rest = []
  · simpa [empty] using found.present.1
  · have present := found.present.1
    rw [← List.append_assoc] at present
    simp [fs.at?_above _ rest empty present]

theorem Sees.file {now : FileSystem} (sees : fs.Sees now root place) {names : List Name}
    {content : ByteArray} (there : now.at? (place ++ names) = some (.file content)) :
    fs.at? (place ++ names) = some (.file content) := by
  rcases sees.at? names with same | ⟨-, isDir⟩
  · exact same ▸ there
  · simp [isDir] at there

theorem Sees.not_found {now : FileSystem} (sees : fs.Sees now root place) {names : List Name}
    (isDir : now.at? (place ++ names) = some .dir) : ¬fs.Found root place names := by
  intro found
  rcases sees.at? names with same | ⟨absent, -⟩
  · exact found.present.2 (same ▸ isDir)
  · exact found.present.1 absent

theorem Sees.clear_push {now : FileSystem} (sees : fs.Sees now root place) {above : List Name}
    {name : Name} (clear : fs.ClearTo place above)
    (isDir : now.at? (place ++ (above ++ [name])) = some .dir) :
    fs.ClearTo place (above ++ [name]) := by
  refine clear.push fun target link => ?_
  simp [(sees.steady.links _ _).2 link] at isDir

theorem lists_child (fs : FileSystem) (root : Path) (place : Location) (names : List Name)
    (notDir : fs.at? (place ++ names) ≠ some .dir) :
    (fs.Found root place names →
        Lists [names] fun below => names <+: below ∧ fs.Found root place below) ∧
      (¬fs.Found root place names →
        Lists [] fun below => names <+: below ∧ fs.Found root place below) := by
  refine ⟨fun found => ⟨by simp, fun below => ?_⟩, fun lost => ⟨by simp, fun below => ?_⟩⟩
  · rw [List.mem_singleton]
    constructor
    · rintro rfl
      exact ⟨List.prefix_refl _, found⟩
    · rintro ⟨within, found⟩
      exact found.eq_of_front within notDir
  · simp only [List.not_mem_nil, false_iff]
    rintro ⟨within, found⟩
    exact lost (found.eq_of_front within notDir ▸ found)

def FoundIn (fs : FileSystem) (root : Path) (place : Location) (above : List Name)
    (children : List (Name × Entry)) (names : List Name) : Prop :=
  ∃ child ∈ children, above ++ [child.1] <+: names ∧ fs.Found root place names

theorem lists_foundIn {above : List Name} {before : List (Name × Entry)}
    {more below : List (List Name)} {child : Name × Entry}
    (lists : Lists more (fs.FoundIn root place above before))
    (new : ∀ other ∈ before, other.1 ≠ child.1)
    (h : Lists below fun names => above ++ [child.1] <+: names ∧ fs.Found root place names) :
    Lists (more ++ below) (fs.FoundIn root place above (before ++ [child])) := by
  refine (lists.append h ?_).congr fun names => by simp [FoundIn, or_and_right, exists_or]
  rintro names ⟨other, member, within, -⟩ ⟨within', -⟩
  have same := (List.prefix_of_prefix_length_le within within' (by simp)).eq_of_length (by simp)
  exact new other member (by simpa using same)

theorem Sees.foundIn_children {now : FileSystem} (sees : fs.Sees now root place)
    (above names : List Name) :
    fs.FoundIn root place above (now.children (place ++ above)) names ↔
      above <+: names ∧ names ≠ above ∧ fs.Found root place names := by
  constructor
  · rintro ⟨child, -, within, found⟩
    refine ⟨(List.prefix_append _ _).trans within, ?_, found⟩
    intro same
    have shorter := within.length_le
    rw [same, List.length_append, List.length_singleton] at shorter
    omega
  · rintro ⟨⟨rest, rfl⟩, further, found⟩
    obtain ⟨name, rest, rfl⟩ := List.exists_cons_of_ne_nil (by simpa using further)
    have within : above ++ [name] <+: above ++ name :: rest := ⟨rest, by simp⟩
    have present : now.at? (place ++ (above ++ [name])) ≠ none := by
      rcases sees.at? (above ++ [name]) with same | ⟨absent, -⟩
      · exact same ▸ found.present_front within
      · exact absurd absent (found.present_front within)
    obtain ⟨entry, there⟩ := Option.ne_none_iff_exists'.1 present
    rw [← List.append_assoc, ← now.mem_children] at there
    exact ⟨(name, entry), there, within, found⟩

end

section

variable (fs : FileSystem) (root : Path) (place : Location)
  (visit : α → Path → Action σ α) (inv : List (List Name) → α → World σ → Prop)
  (failed : World σ → Prop)
  (sees : ∀ visited answer between, inv visited answer between →
    fs.Sees between.files root place)
  (each : ∀ visited names answer between, inv visited answer between → fs.Found root place names →
    (visit answer (root.extend names)).Ends between (inv (visited ++ [names])) failed)
  (stops : ∀ visited answer between, inv visited answer between → failed between)

include sees each stops

theorem ends_walkDir_found (room : Nat) (above : List Name) (visited : List (List Name))
    (answer : α) (world : World σ) (holds : inv visited answer world)
    (leads : fs.aimAt root = some place) (clear : fs.ClearTo place above) :
    (walkDir root visit room answer (root.extend above)).Ends world
      (fun next after => ∃ more, inv (visited ++ more) next after ∧
        Lists more fun names => above <+: names ∧ names ≠ above ∧ fs.Found root place names)
      failed := by
  induction room generalizing above visited answer world with
  | zero => exact stops visited answer world holds
  | succ room ih =>
    simp only [walkDir, Action.ends_bind, Action.ends_files]
    split
    next => exact stops visited answer world holds
    next entries listed =>
      obtain ⟨reached, found, rfl⟩ := world.files.list_eq_ok _ entries listed
      have now := sees visited answer world holds
      obtain rfl := now.steady.place_of_resolve leads clear found
      have once := world.files.nodup_children (place ++ above)
      -- What the loop keeps: the files below the children that are done are those visited so far.
      refine (Action.ends_foldlM _
        (fun before next after => ∃ more, inv (visited ++ more) next after ∧
          Lists more (fs.FoundIn root place above before))
        (world.files.children (place ++ above)) answer world
        ⟨[], by simpa using holds, by simp [Lists, FoundIn]⟩ ?_).mono ?_ fun _ left => left
      · rintro before ⟨name, entry⟩ rest next between split ⟨more, holds, lists⟩
        have there : world.files.at? (place ++ (above ++ [name])) = some entry := by
          rw [← List.append_assoc, ← world.files.mem_children, split]
          simp
        have new : ∀ child ∈ before, child.1 ≠ name := by
          intro child member same
          rw [split, List.map_append, List.nodup_append] at once
          exact once.2.2 child.1 (List.mem_map_of_mem member) name (by simp) same
        -- Visiting a child, if it is to be visited, adds just that to what was visited.
        have visits : fs.Found root place (above ++ [name]) →
            fs.at? (place ++ (above ++ [name])) ≠ some .dir →
            (visit next (root.extend (above ++ [name]))).Ends between
              (fun last after => ∃ more, inv (visited ++ more) last after ∧
                Lists more (fs.FoundIn root place above (before ++ [(name, entry)]))) failed := by
          intro found notDir
          refine (each _ _ next between holds found).mono (fun last after passed => ?_)
            fun _ left => left
          exact ⟨more ++ [above ++ [name]], by simpa using passed,
            lists_foundIn lists new ((fs.lists_child root place _ notDir).1 found)⟩
        rw [← Path.extend_concat]
        cases entry with
        | dir =>
          refine (ih (above ++ [name]) (visited ++ more) next between holds
            (now.clear_push clear there)).mono ?_ fun _ left => left
          rintro last after ⟨below, holds, lists'⟩
          refine ⟨more ++ below, by simpa using holds,
            lists_foundIn lists new (lists'.congr fun names => ⟨fun h => ⟨h.1, h.2.2⟩, ?_⟩)⟩
          rintro ⟨within, found⟩
          exact ⟨within, fun same => now.not_found there (same ▸ found), found⟩
        | file content =>
          have child := now.file there
          exact visits (found_file (by simp) child) (by simp [child])
        | link target =>
          have child : fs.at? (place ++ (above ++ [name])) = some (.link target) :=
            (now.steady.links _ _).1 there
          have sameFile := (sees _ next between holds).links _ target child
          have found_iff : fs.Found root place (above ++ [name]) ↔ _ :=
            found_link_iff (by simp) child
          simp only [Action.ends_bind, Action.ends_isFile, sameFile]
          split
          next file => exact visits (found_iff.2 file) (by simp [child])
          next noFile =>
            have here := (fs.lists_child root place _ (by simp [child])).2 (mt found_iff.1 noFile)
            have none : Lists (more ++ [])
                (fs.FoundIn root place above (before ++ [(name, .link target)])) :=
              lists_foundIn lists new here
            exact ⟨more, holds, by simpa using none⟩
      · rintro last after ⟨more, holds, lists⟩
        exact ⟨more, holds, lists.congr fun names => now.foundIn_children above names⟩

theorem ends_walk_found (start : α) (world : World σ) (holds : inv [] start world)
    (leads : fs.aimAt root = some place) (isDir : fs.at? place = some .dir) :
    (walk root visit start).Ends world
      (fun next after => ∃ visited, inv visited next after ∧
        Lists visited (fs.Found root place)) failed := by
  have now := sees [] start world holds
  have noFile : ∀ parent name content,
      world.files.resolve true root ≠ .ok (.file parent name content) := by
    intro parent name content found
    have aimed := world.files.aimAt_of_resolve root _ found
    rw [now.steady.aimAt, leads] at aimed
    have there := world.files.resolve_holds true root _ found
    have still := now.steady.dirs place isDir
    rw [Option.some.inj aimed] at still
    exact absurd (still.symm.trans there) (by simp)
  have enter : (walkDir root visit pathLimit start root).Ends world
      (fun next after => ∃ visited, inv visited next after ∧
        Lists visited (fs.Found root place)) failed := by
    refine (ends_walkDir_found fs root place visit inv failed sees each stops pathLimit [] [] start
      world holds leads (fs.clearTo_nil place)).mono ?_ fun _ left => left
    rintro next after ⟨visited, holds, lists⟩
    exact ⟨visited, holds, lists.congr fun names => by simp [Found]⟩
  simp only [walk, Action.ends_bind, Action.ends_files]
  split
  · exact stops [] start world holds
  · exact stops [] start world holds
  next parent name content found =>
    exact absurd (world.files.resolve_through root _ found (by simp)) (noFile parent name content)
  · exact enter
  · split
    · exact stops [] start world holds
    · exact enter
    next content found =>
      obtain ⟨parent, name, resolved⟩ :=
        (world.files.read_eq_ok root content).1 (by simp [read, found])
      exact absurd resolved (noFile parent name content)
    next target found =>
      unfold lookup at found
      split at found <;> cases found
      next parent name resolved => exact absurd resolved (world.files.resolve_ne_link root _ _ _)

end

end FileSystem

end BuildIdCache
