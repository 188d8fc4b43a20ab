import BuildIdCache.Proofs.Cache
import BuildIdCache.Proofs.FileSystem.Vacant
import BuildIdCache.Proofs.Source.Events
import BuildIdCache.Proofs.Stripping

set_option autoImplicit false

namespace BuildIdCache

namespace FileSystem

def SameFile (fs : FileSystem) (a b : Path) : Prop :=
  ∃ parent name content, fs.resolve true a = .ok (.file parent name content) ∧
    fs.resolve true b = .ok (.file parent name content)

variable {fs after : FileSystem} {source target : Path}

theorem SameFile.read (same : fs.SameFile source target) :
    ∃ content, fs.read source = .ok content ∧ fs.read target = .ok content := by
  obtain ⟨parent, name, content, found, found'⟩ := same
  exact ⟨content, (fs.read_eq_ok _ _).2 ⟨parent, name, found⟩,
    (fs.read_eq_ok _ _).2 ⟨parent, name, found'⟩⟩

theorem sameFile_of_target? {place : Location} {content : ByteArray}
    (readable : fs.read source = .ok content) (leads : fs.target? source = some place)
    (leads' : fs.target? target = some place) : fs.SameFile source target := by
  obtain ⟨parent, name, found⟩ := (fs.read_eq_ok source content).1 readable
  have here : parent ++ [name] = place := by simpa [target?, found] using leads
  have there : fs.at? place = some (.file content) :=
    here ▸ fs.resolve_holds true source _ found
  unfold target? at leads'
  split at leads'
  next parent' name' content' found' =>
    have here' := Option.some.inj leads'
    have there' : fs.at? place = some (.file content') :=
      here' ▸ fs.resolve_holds true target _ found'
    obtain rfl : content = content' := by simpa using there.symm.trans there'
    obtain ⟨rfl, rfl⟩ := List.append_singleton_inj.1 (here.trans here'.symm)
    exact ⟨_, _, _, found, found'⟩
  next parent' name' found' =>
    have free : fs.at? place = none :=
      Option.some.inj leads' ▸ (fs.resolve_holds true target _ found').2
    simp [there] at free
  next => cases leads'

theorem read_source_copied (apart : ¬fs.SameFile source target)
    (written : fs.copy source target = .ok after) (content : ByteArray) :
    after.read source = .ok content ↔ fs.read source = .ok content := by
  obtain ⟨place, new, filled, same, old, readable, -⟩ := copy_sameBut fs after _ _ written
  exact same.read_iff (fs.at?_target? _ _ filled) (.inr ⟨new, rfl⟩) source
    (fun leads => apart (sameFile_of_target? readable leads filled)) content

end FileSystem

namespace SearchDirs

open FileSystem

variable {σ : Type} {reading : Reading} {binaries : RequiredBinaries} {cache : Cache} {file : Path}

/-- While a file is offered, it is what it was when it was asked for its build-id. -/
structure Unchanged (file : Path) (asked now : FileSystem) : Prop where
  grows : Grows asked now
  still : ∀ content, now.read file = .ok content → asked.read file = .ok content

theorem Unchanged.refl (file : Path) (fs : FileSystem) : Unchanged file fs fs :=
  ⟨.refl fs, fun _ readable => readable⟩

section

variable {asked now after : FileSystem} (unchanged : Unchanged file asked now)

include unchanged

theorem Unchanged.sprouts (settled : asked.Settled file) (sprouts : Sprouts now after) :
    Unchanged file asked after := by
  have grows := unchanged.grows.trans sprouts.grows
  refine ⟨grows, fun content readable => ?_⟩
  obtain ⟨old, before⟩ := settled after content grows readable
  obtain ⟨place, leads, there⟩ := asked.place_of_read file old before
  obtain ⟨new, stays⟩ := unchanged.grows.files place old there
  have between := unchanged.grows.steady.read file place old new before leads stays
  have same := (sprouts.read file new between).symm.trans readable
  exact Except.ok.inj same ▸ unchanged.still new between

theorem Unchanged.copied {target : Path} (apart : ¬now.SameFile file target)
    (written : now.copy file target = .ok after) : Unchanged file asked after := by
  obtain ⟨place, new, filled, same, -⟩ := copy_sameBut now after _ _ written
  exact ⟨unchanged.grows.trans (same.grows filled), fun content readable =>
    unchanged.still content ((read_source_copied apart written content).1 readable)⟩

theorem Unchanged.apart {path : String} (noUp : .up ∉ cache.root.components)
    (named : (cacheRelative path).names ≠ [])
    (lacking : ¬Suffices reading now file (cache.pathOf path) (reading.buildIdAt asked file))
    (made : ∀ dir, (cache.pathOf path).parent? = some dir → (now.makeDirAll dir).2 = .ok ()) :
    ¬(now.withParents (cache.pathOf path)).SameFile file (cache.pathOf path) := by
  intro same
  obtain ⟨content, offered, cached⟩ := same.read
  rcases now.withParents_vacant cache.root (cacheRelative path).names named noUp made with
    nothing | vacant
  · rw [← cache.pathOf_eq_extend] at nothing
    rw [nothing] at offered cached
    refine lacking ⟨content, cached, ?_, ?_⟩
    · exact (reading.buildIdAt_of_read asked file content (unchanged.still content offered)).symm
    · rw [reading.levelAt_of_read now file content offered]
      exact lt_irrefl _
  · exact vacant content cached

end

def NoneOntoItself (events : List Event) : Prop :=
  ∀ path files source target, .copy path files source target ∈ events →
    ¬FileSystem.SameFile files source target

theorem NoneOntoItself.asked {before asks : List Event} (none : NoneOntoItself before)
    {source target : Path} (each : ∀ event ∈ asks, Asks source target event) :
    NoneOntoItself (before ++ asks) := by
  intro path files source target member
  rcases List.mem_append.1 member with early | late
  · exact none path files source target early
  · cases each _ late

theorem NoneOntoItself.copied {before : List Event} (none : NoneOntoItself before) (path : String)
    {files : FileSystem} {source target : Path} (apart : ¬files.SameFile source target) :
    NoneOntoItself (before ++ [.copy path files source target]) := by
  intro other files' source' target' member
  rcases List.mem_append.1 member with early | last
  · exact none other files' source' target' early
  · obtain ⟨rfl, rfl, rfl, rfl⟩ := by simpa using last
    exact apart

section

variable {bare : Inspector σ} (reads : bare.Reads reading) (noUp : .up ∉ cache.root.components)

include reads noUp

theorem ends_copyWatched_apart {path : String} (named : (cacheRelative path).names ≠ [])
    {asked : FileSystem} (settled : asked.Settled file) (world : World (σ × List Event))
    (none : NoneOntoItself world.events) (unchanged : Unchanged file asked world.files) :
    (copyWatched (Seen.watch.copying path file (cache.pathOf path)) (Seen.inspector bare) file
      (cache.pathOf path) (reading.buildIdAt asked file)).Ends world
      (fun _ after => NoneOntoItself after.events ∧ Unchanged file asked after.files)
      fun after => NoneOntoItself after.events := by
  rw [copyWatched, Action.ends_bind, Action.ends_lift]
  refine ((after_needToCopy (reads.observed _ _) file (cache.pathOf path) _ world).and
    (Seen.after_needToCopy_seen bare file (cache.pathOf path) _ world)).mono ?_
  rintro needed between ⟨⟨same, decides⟩, asks, seen, each⟩
  have noneAsked : NoneOntoItself between.events := seen ▸ none.asked each
  split
  next yes =>
    have lacking : ¬Suffices reading world.files file (cache.pathOf path)
        (reading.buildIdAt asked file) := fun enough => by simp [decides.2 enough] at yes
    refine Action.ends_withParents (cache.pathOf path) _ between (fun made => ?_)
      fun _ _ _ _ => noneAsked
    rw [same] at made ⊢
    have apart := unchanged.apart noUp named lacking made
    have noneCopied := noneAsked.copied path apart
    have grown := unchanged.sprouts settled (world.files.withParents_sprouts (cache.pathOf path))
    simp only [Seen.watch, Action.ends_bind, Action.ends_note, Action.copy]
    exact Action.ends_change _ _ _ _ (fun fs written => ⟨noneCopied, grown.copied apart written⟩)
      noneCopied
  next => exact ⟨noneAsked, same ▸ unchanged⟩

theorem ends_offer_apart (report : SourceReport) {path expected : String}
    (member : (path, expected) ∈ sought binaries file) {asked : FileSystem}
    (settled : asked.Settled file) (world : World (σ × List Event))
    (none : NoneOntoItself world.events) (unchanged : Unchanged file asked world.files) :
    (Seen.watch.offer (Seen.inspector bare) cache file (reading.buildIdAt asked file) report
      (path, expected)).Ends world
      (fun _ after => NoneOntoItself after.events ∧ Unchanged file asked after.files)
      fun after => NoneOntoItself after.events := by
  obtain ⟨-, called⟩ := (mem_sought binaries file path expected).1 member
  obtain ⟨name, -, text⟩ := Option.bind_eq_some_iff.1 called
  have named := names_ne_nil_of_called path name text
  simp only [Watch.offer]
  split
  · exact ⟨none, unchanged⟩
  next matched =>
    rw [Action.ends_bind, not_not.1 matched]
    refine (ends_copyWatched_apart reads noUp named settled world none unchanged).mono
      (fun copied after kept => ?_) fun _ left => left
    split <;> exact kept

theorem ends_visit_apart (report : SourceReport) (world : World (σ × List Event))
    (settled : world.files.Settled file) (none : NoneOntoItself world.events) :
    (Seen.watch.visit (Seen.inspector bare) cache binaries.byFileName report file).Ends world
      (fun _ after => NoneOntoItself after.events ∧ Grows world.files after.files)
      fun after => NoneOntoItself after.events := by
  have met : ∀ more, (∀ event ∈ more, Asks file file event) →
      NoneOntoItself (world.events ++ .met file :: more) := by
    intro more each path files source target member
    rcases List.mem_append.1 member with early | late
    · exact none path files source target early
    · cases List.mem_cons.1 late with
      | inl same => cases same
      | inr later => cases each _ later
  refine Seen.ends_visit bare (fun answer _ _ after =>
    answer = reading.buildIdAt world.files file ∧ NoneOntoItself after.events ∧
      Unchanged file world.files after.files) (fun _ => ⟨met [] (by simp), .refl _⟩) ?_ ?_
    fun _ _ _ _ kept => ⟨kept.2.1, kept.2.2.grows⟩
  · refine (reads.buildId file world.bare).mono fun answer after asked => ?_
    refine ⟨asked.1, met [.buildId file answer] (by simpa using .identity answer), ?_⟩
    change Unchanged file world.files after.files
    rw [asked.2]
    exact .refl file _
  · rintro answer before path expected next between member ⟨rfl, none, unchanged⟩
    exact (ends_offer_apart reads noUp next member settled between none unchanged).mono
      (fun _ _ kept => ⟨rfl, kept⟩) fun _ left => left

theorem ends_collect_apart (dirs : List Path) (binaries : RequiredBinaries) (world : World σ) :
    (Seen.collect bare dirs binaries cache).Ends (world.observed [])
      (fun _ after => NoneOntoItself after.events) fun after => NoneOntoItself after.events := by
  rw [Seen.collect, Watch.collect, Action.ends_bind]
  refine (Action.ends_foldlM _ (fun _ _ after => NoneOntoItself after.events) dirs _
    (world.observed []) (fun _ _ _ _ member => by simp at member) ?_).mono (fun _ _ none => none)
    fun _ left => left
  intro before dir rest report between _ none
  refine (ends_walk dir _ (fun _ after => NoneOntoItself after.events) _
    (fun next names now none settled => ?_) (fun _ _ none => none) report between none).mono
    (fun _ _ kept => kept.1) fun _ left => left
  exact ends_visit_apart reads noUp next now settled none

/-- No search copies a file onto itself, so none that is copied is lost: not where links lead into
the cache, and not where the cache is searched. -/
theorem collect_copies_apart (dirs : List Path) (binaries : RequiredBinaries) (world : World σ) :
    ∃ events, Seen.collect bare dirs binaries cache (world.observed []) =
        ((collect bare dirs binaries cache world).1,
          (collect bare dirs binaries cache world).2.observed events) ∧
      ∀ path files source target, .copy path files source target ∈ events →
        ¬FileSystem.SameFile files source target ∧
        ∀ after content, files.copy source target = .ok after →
          (after.read source = .ok content ↔ files.read source = .ok content) := by
  obtain ⟨events, seen, none⟩ := (Seen.collect_erases bare dirs binaries cache).run_with world
    (ends_collect_apart reads noUp dirs binaries world)
  refine ⟨events, seen, fun path files source target member => ?_⟩
  have apart := none path files source target member
  exact ⟨apart, fun after content written => read_source_copied apart written content⟩

end

theorem collect_copies_apart_sample : ∃ events, copies events = ["/a"] ∧ NoneOntoItself events := by
  have root : Sample.cache.root.components = [.name Sample.cacheName] := by cbv
  obtain ⟨events, seen, apart⟩ := collect_copies_apart
    (Inspector.ofContent_reads "sample" Sample.reading : (.ofContent "sample" Sample.reading.buildId
      Sample.reading.sections : Inspector Unit).Reads Sample.reading)
    (by simp [root] : .up ∉ Sample.cache.root.components) [.ofString "c", .ofString "l"]
    (Sample.binaries "1") ⟨Sample.files Sample.stripped Sample.withSymbols, ()⟩
  refine ⟨events, ?_, fun path files source target member =>
    (apart path files source target member).1⟩
  have copied : copies (Seen.collect (.ofContent "sample" Sample.reading.buildId
      Sample.reading.sections : Inspector Unit) [.ofString "c", .ofString "l"] (Sample.binaries "1")
      Sample.cache ((⟨Sample.files Sample.stripped Sample.withSymbols, ()⟩ : World Unit).observed
        [])).2.events = ["/a"] := by cbv
  rwa [seen] at copied

end SearchDirs

end BuildIdCache
