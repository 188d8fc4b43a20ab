import BuildIdCache.Proofs.FileSystem.Change
import BuildIdCache.World

set_option autoImplicit false

namespace BuildIdCache

variable {σ α β : Type}

def Effect.After (effect : Effect σ α) (world : World σ) (post : α → World σ → Prop) : Prop :=
  post (effect world).1 (effect world).2

namespace Effect

@[simp] theorem after_pure (answer : α) (world : World σ) (post : α → World σ → Prop) :
    (pure answer : Effect σ α).After world post ↔ post answer world := Iff.rfl

@[simp] theorem after_bind (effect : Effect σ α) (next : α → Effect σ β) (world : World σ)
    (post : β → World σ → Prop) :
    (effect >>= next).After world post ↔
      effect.After world fun answer after => (next answer).After after post := Iff.rfl

@[simp] theorem after_files (world : World σ) (post : FileSystem → World σ → Prop) :
    Effect.files.After world post ↔ post world.files world := Iff.rfl

@[simp] theorem after_setFiles (fs : FileSystem) (world : World σ) (post : Unit → World σ → Prop) :
    (setFiles fs).After world post ↔ post () { world with files := fs } := Iff.rfl

@[simp] theorem after_isFile (path : Path) (world : World σ) (post : Bool → World σ → Prop) :
    (isFile path).After world post ↔ post (world.files.isFile path) world := Iff.rfl

@[simp] theorem after_read {τ : Type} (part : Part σ τ) (world : World σ)
    (post : τ → World σ → Prop) : part.read.After world post ↔ post (part.get world.rest) world :=
  Iff.rfl

@[simp] theorem after_modify {τ : Type} (part : Part σ τ) (f : τ → τ) (world : World σ)
    (post : Unit → World σ → Prop) : (part.modify f).After world post ↔
      post () { world with rest := part.set (f (part.get world.rest)) world.rest } :=
  Iff.rfl

theorem bind_apply (effect : Effect σ α) (next : α → Effect σ β) (world : World σ) :
    (effect >>= next) world = next (effect world).1 (effect world).2 := rfl

theorem After.mono {effect : Effect σ α} {world : World σ} {post wider : α → World σ → Prop}
    (h : effect.After world post) (widen : ∀ answer after, post answer after → wider answer after) :
    effect.After world wider :=
  widen _ _ h

theorem After.of_run {effect : Effect σ α} {world after : World σ} {answer : α}
    {post : α → World σ → Prop} (h : effect.After world post)
    (ran : effect world = (answer, after)) :
    post answer after := by
  rwa [After, ran] at h

end Effect

def Effect.Leaves {τ : Type} (effect : Effect σ α) (view : World σ → τ) : Prop :=
  ∀ world, effect.After world fun _ after => view after = view world

/-- What holds after an action that answers, and what holds of the changes that one leaves behind
that fails. -/
def Action.Ends (action : Action σ α) (world : World σ) (done : α → World σ → Prop)
    (failed : World σ → Prop) : Prop :=
  match action world with
  | (.ok answer, after) => done answer after
  | (.error _, after) => failed after

namespace Action

variable {done : α → World σ → Prop} {failed : World σ → Prop}

@[simp] theorem ends_pure (answer : α) (world : World σ) :
    (pure answer : Action σ α).Ends world done failed ↔ done answer world := Iff.rfl

@[simp] theorem ends_throw (e : CacheError) (world : World σ) :
    (throw e : Action σ α).Ends world done failed ↔ failed world := Iff.rfl

@[simp] theorem ends_bind (action : Action σ β) (next : β → Action σ α) (world : World σ) :
    (action >>= next).Ends world done failed ↔
      action.Ends world (fun answer after => (next answer).Ends after done failed) failed := by
  simp only [Ends, bind, ExceptT.bind, ExceptT.mk, StateT.bind]
  generalize action world = ran
  rcases ran with ⟨_ | _, _⟩ <;> rfl

@[simp] theorem ends_lift (effect : Effect σ α) (world : World σ) :
    (liftM effect : Action σ α).Ends world done failed ↔ effect.After world done := Iff.rfl

@[simp] theorem ends_files (world : World σ) (done : FileSystem → World σ → Prop) :
    Action.files.Ends world done failed ↔ done world.files world := Iff.rfl

@[simp] theorem ends_isFile (path : Path) (world : World σ) (done : Bool → World σ → Prop) :
    (isFile path).Ends world done failed ↔ done (world.files.isFile path) world := Iff.rfl

theorem Ends.mono {action : Action σ α} {world : World σ} {wider : α → World σ → Prop}
    {worse : World σ → Prop} (h : action.Ends world done failed)
    (widen : ∀ answer after, done answer after → wider answer after)
    (worsen : ∀ after, failed after → worse after) : action.Ends world wider worse := by
  unfold Ends at h ⊢
  split <;> grind

theorem Ends.and {action : Action σ α} {world : World σ} {done' : α → World σ → Prop}
    {failed' : World σ → Prop} (h : action.Ends world done failed)
    (h' : action.Ends world done' failed') :
    action.Ends world (fun answer after => done answer after ∧ done' answer after)
      fun after => failed after ∧ failed' after := by
  unfold Ends at h h' ⊢
  split <;> grind

theorem ends_self (action : Action σ α) (world : World σ) :
    action.Ends world (fun answer after => action world = (.ok answer, after))
      fun after => ∃ e, action world = (.error e, after) := by
  unfold Ends
  split
  next ran => exact ran
  next e after ran => exact ⟨e, ran⟩

theorem Ends.of_ok {action : Action σ α} {world after : World σ} {answer : α}
    (h : action.Ends world done failed) (ran : action world = (.ok answer, after)) :
    done answer after := by
  simpa [Ends, ran] using h

theorem Ends.of_never {action : Action σ α} {world : World σ}
    (h : action.Ends world done fun _ => False) :
    ∃ answer after, action world = (.ok answer, after) ∧ done answer after := by
  unfold Ends at h
  split at h
  next answer after ran => exact ⟨answer, after, ran, h⟩
  next => exact h.elim

theorem bind_eq_ok (action : Action σ β) (next : β → Action σ α) (world after : World σ)
    (answer : α) (h : (action >>= next) world = (.ok answer, after)) :
    ∃ first between, action world = (.ok first, between) ∧
      next first between = (.ok answer, after) := by
  have ends : (action >>= next).Ends world
      (fun last later => ∃ first between, action world = (.ok first, between) ∧
        next first between = (.ok last, later)) fun _ => True := by
    rw [ends_bind]
    refine (ends_self action world).mono (fun first between ran => ?_) fun _ _ => trivial
    exact (ends_self (next first) between).mono
      (fun last later ran' => ⟨first, between, ran, ran'⟩) fun _ _ => trivial
  exact ends.of_ok h

theorem bind_apply (action : Action σ β) (next : β → Action σ α) (world : World σ) :
    (action >>= next) world =
      match action world with
      | (.ok answer, after) => next answer after
      | (.error e, after) => (.error e, after) := by
  simp only [bind, ExceptT.bind, ExceptT.mk, StateT.bind]
  generalize action world = answered
  rcases answered with ⟨_ | _, _⟩ <;> rfl

theorem bind_of_ok (action : Action σ β) (next : β → Action σ α) (world between : World σ)
    (first : β) (ran : action world = (.ok first, between)) :
    (action >>= next) world = next first between := by
  rw [bind_apply, ran]

theorem bind_of_error (action : Action σ β) (next : β → Action σ α) (world after : World σ)
    (e : CacheError) (ran : action world = (.error e, after)) :
    (action >>= next) world = (.error e, after) := by
  rw [bind_apply, ran]

theorem Ends.both {action : Action σ α} {world : World σ} {inv : World σ → Prop}
    (h : action.Ends world (fun _ => inv) inv) : inv (action world).2 := by
  unfold Ends at h
  split at h <;> simp_all

theorem ends_change (path : Path) (f : FileSystem → Except IoError FileSystem) (world : World σ)
    (done : Unit → World σ → Prop)
    (changed : ∀ fs, f world.files = .ok fs → done () { world with files := fs })
    (unchanged : failed world) : (change path f).Ends world done failed := by
  simp only [change, ends_bind, ends_files]
  split
  next fs h => exact changed fs h
  next => exact unchanged

theorem ends_change_of_ok (path : Path) (f : FileSystem → Except IoError FileSystem)
    (world : World σ) (fs : FileSystem) (h : f world.files = .ok fs) (done : Unit → World σ → Prop)
    (changed : done () { world with files := fs }) : (change path f).Ends world done failed := by
  simp only [change, ends_bind, ends_files, h]
  exact changed

theorem ends_makeDirAll_of_ok (path : Path) (world : World σ) (fs : FileSystem)
    (h : world.files.makeDirAll path = (fs, .ok ())) (done : Unit → World σ → Prop)
    (made : done () { world with files := fs }) : (makeDirAll path).Ends world done failed := by
  simp only [makeDirAll, ends_bind, ends_files, h]
  exact made

theorem ends_makeDirAll (path : Path) (world : World σ) (done : Unit → World σ → Prop)
    (next : (world.files.makeDirAll path).2 = .ok () →
      done () { world with files := (world.files.makeDirAll path).1 })
    (stops : ∀ e, (world.files.makeDirAll path).2 = .error e →
      failed { world with files := (world.files.makeDirAll path).1 }) :
    (makeDirAll path).Ends world done failed := by
  simp only [makeDirAll, ends_bind, ends_files]
  split
  next made => exact next made
  next e unmade => exact stops e unmade

theorem change_eq_ok (path : Path) (f : FileSystem → Except IoError FileSystem)
    (world after : World σ) (ran : change path f world = (.ok (), after)) :
    f world.files = .ok after.files :=
  (ends_change path f world (fun _ after => f world.files = .ok after.files) (fun _ h => h)
    trivial : (change path f).Ends world _ fun _ => True).of_ok ran

theorem makeDirAll_eq_ok (path : Path) (world after : World σ)
    (ran : makeDirAll path world = (.ok (), after)) :
    world.files.makeDirAll path = (after.files, .ok ()) := by
  have ends : (makeDirAll path).Ends world
      (fun _ after => world.files.makeDirAll path = (after.files, .ok ())) fun _ => True := by
    simp only [makeDirAll, ends_bind, ends_files]
    rcases made : world.files.makeDirAll path with ⟨fs, _ | _⟩
    · trivial
    · rfl
  exact ends.of_ok ran

theorem ends_withParents (path : Path) (rest : Unit → Action σ α) (world : World σ)
    (next : (∀ dir, path.parent? = some dir → (world.files.makeDirAll dir).2 = .ok ()) →
      (rest ()).Ends { world with files := world.files.withParents path } done failed)
    (stops : ∀ dir e, path.parent? = some dir → (world.files.makeDirAll dir).2 = .error e →
      failed { world with files := world.files.withParents path }) :
    (match path.parent? with
      | some dir => makeDirAll dir >>= rest
      | _ => rest ()).Ends world done failed := by
  unfold FileSystem.withParents at next stops
  cases parent : path.parent? with
  | none => simpa [parent] using next
  | some dir =>
    simp only [parent, Option.some.injEq, forall_eq'] at next stops
    rw [ends_bind]
    exact ends_makeDirAll dir world _ next fun e unmade => stops dir e rfl unmade

theorem ends_removeStale (path : Path) (rest : Unit → Action σ α) (world : World σ)
    (next : ∀ fs, world.files.Cleared fs path →
      (rest ()).Ends { world with files := fs } done failed) :
    (isFile path >>= fun found =>
      if found = true then removeFile path >>= rest else rest ()).Ends world done failed := by
  rw [ends_bind, ends_isFile]
  split
  next file =>
    obtain ⟨fs, removed⟩ := world.files.removeFile_of_isFile path file
    rw [ends_bind]
    exact ends_change_of_ok path _ world fs removed _ (next fs (.inr ⟨file, removed⟩))
  next noFile => exact next world.files (.inl ⟨by simpa using noFile, rfl⟩)

theorem ends_foldlM (step : α → β → Action σ α) (inv : List β → α → World σ → Prop)
    (items : List β) (start : α) (world : World σ) (first : inv [] start world)
    (each : ∀ before item rest answer between, items = before ++ item :: rest →
      inv before answer between →
        (step answer item).Ends between (inv (before ++ [item])) failed) :
    (items.foldlM step start).Ends world (inv items) failed := by
  suffices loop : ∀ rest before answer between, items = before ++ rest →
      inv before answer between → (rest.foldlM step answer).Ends between (inv items) failed by
    exact loop items [] start world rfl first
  intro rest
  induction rest with
  | nil =>
    intro before answer between split h
    simpa [split] using h
  | cons item rest ih =>
    intro before answer between split h
    rw [List.foldlM_cons, ends_bind]
    exact (each before item rest answer between split h).mono
      (fun answer after passed => ih (before ++ [item]) answer after (by simp [split]) passed)
      fun _ left => left

end Action

end BuildIdCache
