import BuildIdCache.FileSystem.Walk
import BuildIdCache.Proofs.Inspector

set_option autoImplicit false

namespace BuildIdCache

variable {σ ε α β : Type}

namespace World

def observed (world : World σ) (events : List ε) : World (σ × List ε) :=
  ⟨world.files, world.rest, events⟩

def bare (world : World (σ × List ε)) : World σ := ⟨world.files, world.rest.1⟩

def events (world : World (σ × List ε)) : List ε := world.rest.2

@[simp] theorem bare_observed (world : World σ) (events : List ε) :
    (world.observed events).bare = world := rfl

@[simp] theorem events_observed (world : World σ) (events : List ε) :
    (world.observed events).events = events := rfl

@[simp] theorem files_bare (world : World (σ × List ε)) : world.bare.files = world.files := rfl

end World

def Effect.observed (effect : Effect σ α) (seen : α → List ε) : Effect (σ × List ε) α :=
  fun world => ((effect world.bare).1,
    (effect world.bare).2.observed (world.events ++ seen (effect world.bare).1))

def Action.note (event : FileSystem → ε) : Action (σ × List ε) Unit :=
  fun world => (.ok (), world.bare.observed (world.events ++ [event world.files]))

def Inspector.observed (inspector : Inspector σ) (buildId : Path → String → List ε)
    (sections : Path → List ε) : Inspector (σ × List ε) where
  name := inspector.name
  buildId path := (inspector.buildId path).observed (buildId path)
  sections path := (inspector.sections path).observed fun _ => sections path

def Effect.Erases (effect : Effect (σ × List ε) α) (bare : Effect σ α) : Prop :=
  ∀ world, ((effect world).1, (effect world).2.bare) = bare world.bare

/-- Without the events, an action is the bare one, whether it works or not. -/
def Action.Erases (action : Action (σ × List ε) α) (bare : Action σ α) : Prop :=
  ∀ world, ((action world).1, (action world).2.bare) = bare world.bare

namespace Effect

@[simp] theorem after_observed (effect : Effect σ α) (seen : α → List ε)
    (world : World (σ × List ε)) (post : α → World (σ × List ε) → Prop) :
    (effect.observed seen).After world post ↔ effect.After world.bare fun answer after =>
      post answer (after.observed (world.events ++ seen answer)) := Iff.rfl

theorem After.of_forall {effect : Effect σ α} {world : World σ} {post : α → World σ → Prop}
    (h : ∀ answer after, post answer after) : effect.After world post := h _ _

theorem After.and {effect : Effect σ α} {world : World σ} {post post' : α → World σ → Prop}
    (h : effect.After world post) (h' : effect.After world post') :
    effect.After world fun answer after => post answer after ∧ post' answer after := ⟨h, h'⟩

theorem observed_erases (effect : Effect σ α) (seen : α → List ε) :
    (effect.observed seen).Erases effect := fun _ => rfl

theorem Erases.pure (answer : α) : (pure answer : Effect (σ × List ε) α).Erases (pure answer) :=
  fun _ => rfl

theorem Erases.isFile (path : Path) :
    (Effect.isFile path : Effect (σ × List ε) Bool).Erases (Effect.isFile path) := fun _ => rfl

theorem Erases.bind {effect : Effect (σ × List ε) α} {bare : Effect σ α}
    {next : α → Effect (σ × List ε) β} {next' : α → Effect σ β} (first : effect.Erases bare)
    (rest : ∀ answer, (next answer).Erases (next' answer)) :
    (effect >>= next).Erases (bare >>= next') := by
  intro world
  rw [bind_apply, bind_apply, ← first world]
  exact rest _ _

theorem Erases.ite {c : Prop} [Decidable c] {a b : Effect (σ × List ε) α} {a' b' : Effect σ α}
    (yes : a.Erases a') (no : b.Erases b') :
    Effect.Erases (if c then a else b) (if c then a' else b') := by
  split
  · exact yes
  · exact no

theorem Erases.of_run {effect : Effect (σ × List ε) α} {bare : Effect σ α}
    (erases : effect.Erases bare) {world after : World (σ × List ε)} {answer : α}
    (ran : effect world = (answer, after)) : bare world.bare = (answer, after.bare) := by
  rw [← erases world, ran]

end Effect

namespace Inspector

variable (inspector : Inspector σ) (buildId : Path → String → List ε) (sections : Path → List ε)

theorem Reads.observed {inspector : Inspector σ} {reading : Reading}
    (reads : inspector.Reads reading) : (inspector.observed buildId sections).Reads reading where
  buildId path world := reads.buildId path world.bare
  sections path world := reads.sections path world.bare

theorem buildId_erases (path : Path) :
    ((inspector.observed buildId sections).buildId path).Erases (inspector.buildId path) :=
  Effect.observed_erases _ _

theorem level_erases (path : Path) :
    ((inspector.observed buildId sections).level path).Erases (inspector.level path) :=
  (Effect.observed_erases (inspector.sections path) fun _ => sections path).bind fun _ => .pure _

end Inspector

namespace Action

@[simp] theorem ends_note (event : FileSystem → ε) (world : World (σ × List ε))
    (done : Unit → World (σ × List ε) → Prop) (failed : World (σ × List ε) → Prop) :
    (note event).Ends world done failed ↔
      done () (world.bare.observed (world.events ++ [event world.files])) := Iff.rfl

theorem Erases.pure (answer : α) : (pure answer : Action (σ × List ε) α).Erases (pure answer) :=
  fun _ => rfl

theorem Erases.throw (e : CacheError) :
    (throw e : Action (σ × List ε) α).Erases (throw e) := fun _ => rfl

theorem Erases.files : (files : Action (σ × List ε) FileSystem).Erases files := fun _ => rfl

theorem Erases.setFiles (fs : FileSystem) :
    (Action.setFiles fs : Action (σ × List ε) Unit).Erases (Action.setFiles fs) := fun _ => rfl

theorem Erases.isFile (path : Path) :
    (Action.isFile path : Action (σ × List ε) Bool).Erases (Action.isFile path) := fun _ => rfl

theorem Erases.lift {effect : Effect (σ × List ε) α} {bare : Effect σ α}
    (erases : effect.Erases bare) :
    (liftM effect : Action (σ × List ε) α).Erases (liftM bare) := by
  intro world
  change (Except.ok (effect world).1, (effect world).2.bare) = (Except.ok (bare world.bare).1, _)
  rw [← erases world]

theorem Erases.bind {action : Action (σ × List ε) α} {bare : Action σ α}
    {next : α → Action (σ × List ε) β} {next' : α → Action σ β} (first : action.Erases bare)
    (rest : ∀ answer, (next answer).Erases (next' answer)) :
    (action >>= next).Erases (bare >>= next') := by
  intro world
  rw [bind_apply, bind_apply, ← first world]
  rcases action world with ⟨e | answer, after⟩
  · rfl
  · exact rest answer after

theorem Erases.ite {c : Prop} [Decidable c] {a b : Action (σ × List ε) α} {a' b' : Action σ α}
    (yes : a.Erases a') (no : b.Erases b') :
    Action.Erases (if c then a else b) (if c then a' else b') := by
  split
  · exact yes
  · exact no

theorem Erases.note (event : FileSystem → ε) :
    (Action.note event : Action (σ × List ε) Unit).Erases (Pure.pure ()) := fun _ => rfl

theorem Erases.change (path : Path) (f : FileSystem → Except IoError FileSystem) :
    (Action.change path f : Action (σ × List ε) Unit).Erases (Action.change path f) := by
  refine Erases.files.bind fun fs => ?_
  cases f fs with
  | ok made => exact .setFiles made
  | error e => exact .throw _

theorem Erases.makeDirAll (path : Path) :
    (Action.makeDirAll path : Action (σ × List ε) Unit).Erases (Action.makeDirAll path) := by
  unfold Action.makeDirAll
  refine Erases.files.bind fun fs => ?_
  rcases fs.makeDirAll path with ⟨made, e | ⟨⟩⟩
  · exact (Erases.setFiles made).bind fun _ => .throw _
  · exact (Erases.setFiles made).bind fun _ => .pure ()

theorem Erases.withParents {rest : Unit → Action (σ × List ε) α} {rest' : Unit → Action σ α}
    (path : Path) (erases : ∀ made, (rest made).Erases (rest' made)) :
    Action.Erases
      (match path.parent? with
        | some dir => Action.makeDirAll dir >>= rest
        | _ => rest ())
      (match path.parent? with
        | some dir => Action.makeDirAll dir >>= rest'
        | _ => rest' ()) := by
  cases path.parent? with
  | none => exact erases ()
  | some dir => exact (Erases.makeDirAll dir).bind erases

theorem Erases.removeStale {rest : Unit → Action (σ × List ε) α} {rest' : Unit → Action σ α}
    (path : Path) (erases : ∀ removed, (rest removed).Erases (rest' removed)) :
    (Action.isFile path >>= fun found =>
      if found = true then Action.removeFile path >>= rest else rest ()).Erases
      (Action.isFile path >>= fun found =>
        if found = true then Action.removeFile path >>= rest' else rest' ()) :=
  (Erases.isFile path).bind fun _ =>
    .ite ((Erases.change path fun fs => fs.removeFile path).bind erases) (erases ())

theorem Erases.foldlM {step : α → β → Action (σ × List ε) α} {step' : α → β → Action σ α}
    (each : ∀ answer item, (step answer item).Erases (step' answer item)) (items : List β)
    (start : α) : (items.foldlM step start).Erases (items.foldlM step' start) := by
  induction items generalizing start with
  | nil => exact .pure start
  | cons item rest ih => exact (each start item).bind ih

theorem Erases.run {action : Action (σ × List ε) α} {bare : Action σ α}
    (erases : action.Erases bare) (world : World σ) :
    ∃ events, action (world.observed []) = ((bare world).1, (bare world).2.observed events) := by
  have same := erases (world.observed [])
  rw [World.bare_observed] at same
  exact ⟨(action (world.observed [])).2.events, by rw [← same]; rfl⟩

theorem Erases.run_with {action : Action (σ × List ε) α} {bare : Action σ α}
    (erases : action.Erases bare) (world : World σ) {holds : List ε → Prop}
    (ends : action.Ends (world.observed []) (fun _ after => holds after.events)
      fun after => holds after.events) :
    ∃ events, action (world.observed []) = ((bare world).1, (bare world).2.observed events) ∧
      holds events := by
  obtain ⟨events, seen⟩ := erases.run world
  refine ⟨events, seen, ?_⟩
  have kept := ends.both
  rwa [seen] at kept

theorem Erases.of_run {action : Action (σ × List ε) α} {bare : Action σ α}
    (erases : action.Erases bare) {world after : World (σ × List ε)} {answer : Except CacheError α}
    (ran : action world = (answer, after)) : bare world.bare = (answer, after.bare) := by
  rw [← erases world, ran]

end Action

namespace FileSystem

section

variable {visit : α → Path → Action (σ × List ε) α} {visit' : α → Path → Action σ α}
  (visits : ∀ answer file, (visit answer file).Erases (visit' answer file))

include visits

theorem walkDir_erases (root : Path) (room : Nat) (answer : α) (path : Path) :
    (walkDir root visit room answer path).Erases (walkDir root visit' room answer path) := by
  induction room generalizing answer path with
  | zero => exact .throw _
  | succ room ih =>
    refine Action.Erases.files.bind fun fs => ?_
    cases fs.list path with
    | error e => exact .throw _
    | ok entries =>
      refine .foldlM (fun found listed => ?_) entries answer
      obtain ⟨name, entry⟩ := listed
      cases entry with
      | dir => exact ih found (path.push name)
      | file content => exact visits found (path.push name)
      | link target =>
        refine (Action.Erases.isFile _).bind fun file => ?_
        cases file with
        | true => exact visits found (path.push name)
        | false => exact .pure found

theorem walk_erases (root : Path) (start : α) :
    (walk root visit start).Erases (walk root visit' start) := by
  refine Action.Erases.files.bind fun fs => ?_
  have enter := walkDir_erases visits root pathLimit start root
  rcases fs.resolve false root with e | (place | _ | _ | _)
  · exact .throw _
  · exact enter
  · exact visits start root
  · dsimp only
    rcases fs.lookup root with e | (_ | _ | _)
    · exact .throw _
    · exact visits start root
    · exact enter
    · exact .pure start
  · exact .throw _

end

section

variable (root : Path) (visit : α → Path → Action σ α) (inv : α → World σ → Prop)
  (failed : World σ → Prop)
  (each : ∀ answer file world, inv answer world → (visit answer file).Ends world inv failed)
  (stops : ∀ answer world, inv answer world → failed world)

include each stops

theorem ends_walkDir_each (room : Nat) (answer : α) (path : Path) (world : World σ)
    (holds : inv answer world) : (walkDir root visit room answer path).Ends world inv failed := by
  induction room generalizing answer path world with
  | zero => exact stops answer world holds
  | succ room ih =>
    simp only [walkDir, Action.ends_bind, Action.ends_files]
    split
    next => exact stops answer world holds
    next entries _ =>
      refine Action.ends_foldlM _ (fun _ => inv) entries answer world holds ?_
      rintro before ⟨name, entry⟩ rest next between - holds
      cases entry with
      | dir => exact ih next (path.push name) between holds
      | file content => exact each next _ between holds
      | link target =>
        simp only [Action.ends_bind, Action.ends_isFile]
        split
        next => exact each next _ between holds
        next => exact holds

theorem ends_walk_each (start : α) (world : World σ) (holds : inv start world) :
    (walk root visit start).Ends world inv failed := by
  have enter := ends_walkDir_each root visit inv failed each stops pathLimit start root world holds
  have stopped := stops start world holds
  have visited := each start root world holds
  simp only [walk, Action.ends_bind, Action.ends_files]
  split
  · exact stopped
  · exact stopped
  · exact visited
  · exact enter
  · split
    · exact stopped
    · exact enter
    · exact visited
    · exact holds

end

end FileSystem

end BuildIdCache
