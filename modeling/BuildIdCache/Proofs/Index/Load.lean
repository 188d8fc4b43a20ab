import BuildIdCache.Proofs.Index.Gather
import BuildIdCache.Proofs.Index.Parse

set_option autoImplicit false

namespace BuildIdCache.Index

open FileSystem

variable {σ : Type} {inspector : Inspector σ} {cache : Cache}

theorem load_of_read (world : World σ) (body : String)
    (readable : world.files.read cache.listPath = .ok body.toUTF8) :
    load cache world = (.ok (parse body), world) := by
  have isFile := (world.files.isFile_iff cache.listPath).2 ⟨_, readable⟩
  have decoded : decodeStrict? body.toByteArray = some body := dif_pos body.isValidUTF8
  have ends : (load cache).Ends world (fun index after => index = parse body ∧ after = world)
      fun _ => False := by
    rw [load, Action.ends_bind, Action.ends_isFile, if_pos isFile]
    simp [Action.readText, Action.read, readable, decoded]
  obtain ⟨index, after, ran, rfl, rfl⟩ := ends.of_never
  exact ran

theorem Gathered.record {fs : FileSystem} {listed : List (List Name)} {records : List IndexRecord}
    (gathered : Gathered inspector cache fs listed records)
    (further : ∀ names ∈ listed, names ≠ []) (record : IndexRecord) (member : record ∈ records) :
    ∃ names ∈ listed, inspector.Answers fs (cache.root.extend names) record.buildId ∧
      record.buildId ≠ "" ∧ renderNames names = some record.path := by
  obtain ⟨idOf, answers, rfl⟩ := gathered
  obtain ⟨names, isListed, recorded⟩ := List.mem_filterMap.1 member
  obtain ⟨other, same, known, rendered⟩ :=
    (recordWith_eq_some _ names (further names isListed) record).1 recorded
  exact ⟨names, isListed, same ▸ answers names isListed other, known, rendered⟩

theorem read_recorded (reading : Reading) {made after : FileSystem} {content : ByteArray}
    (written : made.write cache.listPath content = .ok after) (path : Path)
    (known : reading.buildIdAt made path ≠ "") :
    ∃ found, after.read path = .ok found ∧ (after.aimAt path ≠ after.aimAt cache.listPath →
      reading.buildId found = reading.buildIdAt made path) := by
  obtain ⟨filled, target, same⟩ := made.write_sameBut after _ _ written
  have steady := same.steady_of_target? target (by simp)
  obtain ⟨old, readable, hasId⟩ := reading.read_of_buildIdAt made path known
  obtain ⟨place, leads, there⟩ := made.place_of_read path old readable
  by_cases onList : place = filled
  · refine ⟨content, steady.read path place old content readable leads ?_, fun apart => ?_⟩
    · rw [same.at?, if_pos onList]
    · refine absurd ?_ apart
      rw [steady.aimAt, steady.aimAt, leads, made.aimAt_of_target? _ _ target, onList]
  · refine ⟨old, steady.read path place old old readable leads ?_, fun _ => hasId⟩
    rw [same.at?, if_neg onList, there]

/-- A store is read back as it was written if no recorded path breaks its line, and only then. The
recorded paths are those of files in the cache. -/
theorem load_stored (keeps : inspector.KeepsFiles)
    (normal : ∀ path world, (inspector.buildId path world).1 = "" ∨
      BuildId.IsNormal (inspector.buildId path world).1)
    (world after : World σ) (records : List IndexRecord)
    (ran : store inspector cache world = (.ok records, after)) :
    load cache after = (.ok (parse (render records)), after) ∧
      ((parse (render records)).records = records ↔ ∀ record ∈ records, OneLine record.path) ∧
      ∀ reading, inspector.Reads reading → ∀ record ∈ records,
        ∃ names content, names ≠ [] ∧
          cache.root.join (.ofString record.path) = cache.root.extend names ∧
          after.files.read (cache.root.join (.ofString record.path)) = .ok content ∧
          (after.files.aimAt (cache.root.join (.ofString record.path)) ≠
            after.files.aimAt cache.listPath → reading.buildId content = record.buildId) := by
  obtain ⟨made, place, listed, -, isDir, lists, gathered, writing⟩ :=
    store_eq_ok keeps world after records ran
  have found := lists_listing made cache.root place (made.aimAt_of_resolve _ _ isDir) _ listed lists
  have further : ∀ names ∈ listed, names ≠ [] := fun names member => ((found.2 names).1 member).1
  refine ⟨load_of_read after _ (read_stored writing), parse_render_iff records ?_ ?_, ?_⟩
  · intro record member
    obtain ⟨names, -, ⟨asked, -, answer⟩, known, -⟩ := gathered.record further record member
    have id := normal (cache.root.extend names) asked
    rw [answer] at id
    exact id.resolve_left known
  · intro record member
    obtain ⟨names, isListed, -, -, rendered⟩ := gathered.record further record member
    exact rendered_ne_empty (further names isListed) rendered
  · intro reading reads record member
    obtain ⟨names, isListed, answers, known, rendered⟩ := gathered.record further record member
    have joined := join_rendered cache.root (further names isListed) rendered
    have same := reads.answer answers
    obtain ⟨content, readable, hasId⟩ :=
      read_recorded reading writing (cache.root.extend names) (same ▸ known)
    rw [joined]
    exact ⟨names, content, further names isListed, rfl, readable, fun apart =>
      (hasId apart).trans same.symm⟩

def sampleId : String := "0x1111111111111111111111111111111111111111"

def sampleReading : Reading where
  buildId content := if content.data[0]? = some 1 then sampleId else ""
  sections _ := []

def sampleInspector : Inspector Unit :=
  .ofContent "sample" sampleReading.buildId sampleReading.sections

theorem sampleReads : sampleInspector.Reads sampleReading :=
  Inspector.ofContent_reads "sample" sampleReading

theorem sampleId_normal : BuildId.IsNormal sampleId :=
  ⟨sampleId.toList.drop 2, by cbv, by cbv, List.all_eq_true.1 (by cbv)⟩

theorem sampleNormal (path : Path) (world : World Unit) :
    (sampleInspector.buildId path world).1 = "" ∨
      BuildId.IsNormal (sampleInspector.buildId path world).1 := by
  rw [show (sampleInspector.buildId path world).1 = sampleReading.buildIdAt world.files path from
    (sampleReads.buildId path world).1, Reading.buildIdAt]
  split
  next content _ =>
    simp only [sampleReading]
    split
    · exact .inr sampleId_normal
    · exact .inl rfl
  next => exact .inl rfl

theorem store_single (fs : FileSystem) (name : Name) (text : String) (other : name ≠ listName)
    (isDir : fs.resolve true Sample.cache.root = .ok (.dir [Sample.cacheName]))
    (lists : fs.listing Sample.cache.root pathLimit [] = some [[name]])
    (free : fs.resolve true Sample.cache.listPath = .ok (.free [Sample.cacheName] listName))
    (readable : fs.read (Sample.cache.root.extend [name]) = .ok Sample.stripped)
    (rendered : renderNames [name] = some text) :
    ∃ after, store sampleInspector Sample.cache ⟨fs, ()⟩ = (.ok [⟨sampleId, text⟩], after) ∧
      fs.write Sample.cache.listPath (render [⟨sampleId, text⟩]).toUTF8 = .ok after.files := by
  have noSlash : Sample.cache.listPath.endsWithSlash = false := by cbv
  have writes : ∀ content, ∃ written, fs.write Sample.cache.listPath content = .ok written := by
    intro content
    exact ⟨_, by rw [FileSystem.write, if_neg (by simp [noSlash]), free]⟩
  obtain ⟨records, after, ran, listed, lists', gathered, writing⟩ :=
    (ends_store_gather sampleReads.keepsFiles ⟨fs, ()⟩ fs _
      (fs.makeDirAll_of_resolve _ _ isDir) isDir (by simp [lists]) writes).of_never
  rw [lists] at lists'
  obtain rfl := Option.some.inj lists'
  obtain ⟨idOf, answers, rfl⟩ := gathered
  have known : idOf [name] = sampleId := by
    rw [sampleReads.answer (answers [name] (by simp) (by simpa using other)),
      sampleReading.buildIdAt_of_read _ _ _ readable]
    rfl
  have record : recordWith Sample.cache (idOf [name]) (Sample.cache.root.extend [name]) =
      some ⟨sampleId, text⟩ :=
    (recordWith_eq_some _ [name] (by simp) _).2
      ⟨by simpa using other, known.symm, show sampleId ≠ "" by decide, rendered⟩
  rw [List.filterMap_cons, record] at ran writing
  exact ⟨after, ran, writing⟩

theorem load_stored_sample :
    ∃ after, store sampleInspector Sample.cache
        ⟨Sample.files Sample.stripped Sample.unknown, ()⟩ = (.ok [⟨sampleId, "a"⟩], after) ∧
      load Sample.cache after = (.ok ⟨[⟨sampleId, "a"⟩]⟩, after) := by
  obtain ⟨after, ran, -⟩ := store_single (Sample.files Sample.stripped Sample.unknown)
    Sample.fileName "a" (by decide +kernel) (by cbv) (by cbv) (by cbv) (by cbv) (by cbv)
  obtain ⟨loaded, same, -⟩ := load_stored sampleReads.keepsFiles sampleNormal _ after _ ran
  have written : parse (render [⟨sampleId, "a"⟩]) = ⟨[⟨sampleId, "a"⟩]⟩ :=
    congrArg Index.mk (same.2 (by decide))
  exact ⟨after, ran, by rw [loaded, written]⟩

def brokenName : Name := ⟨[0x61, 0x0A], by decide⟩

def brokenFiles : FileSystem :=
  (FileSystem.empty.put [] Sample.cacheName .dir).put [Sample.cacheName] brokenName
    (.file Sample.stripped)

theorem broken_name_lost :
    ∃ after, store sampleInspector Sample.cache ⟨brokenFiles, ()⟩ =
        (.ok [⟨sampleId, "a\n"⟩], after) ∧
      load Sample.cache after = (.ok ⟨[⟨sampleId, "a"⟩]⟩, after) ∧
      after.files.isFile (Sample.cache.root.join (.ofString "a")) = false := by
  obtain ⟨after, ran, writing⟩ := store_single brokenFiles brokenName "a\n" (by decide +kernel)
    (by cbv) (by cbv) (by cbv) (by cbv) (by cbv)
  have parsed : parse (render [⟨sampleId, "a\n"⟩]) = ⟨[⟨sampleId, "a"⟩]⟩ := by cbv
  refine ⟨after, ran, by rw [load_of_read after _ (read_stored writing), parsed], ?_⟩
  -- Only the list has come.
  obtain ⟨filled, target, same⟩ := brokenFiles.write_sameBut after.files _ _ writing
  have list : filled = [Sample.cacheName, listName] := by
    have leads : brokenFiles.target? Sample.cache.listPath =
        some [Sample.cacheName, listName] := by cbv
    rw [leads] at target
    exact (Option.some.inj target).symm
  by_contra isFile
  obtain ⟨content, readable⟩ := (after.files.isFile_iff _).1 (by simpa using isFile)
  obtain ⟨place, leads, there⟩ := after.files.place_of_read _ content readable
  rw [(same.steady_of_target? target (by simp)).aimAt] at leads
  have aimed : brokenFiles.aimAt (Sample.cache.root.join (.ofString "a")) =
      some [Sample.cacheName, Sample.fileName] := by cbv
  obtain rfl := Option.some.inj (aimed.symm.trans leads)
  rw [same.at?, list, if_neg (by decide +kernel)] at there
  have absent : brokenFiles.at? [Sample.cacheName, Sample.fileName] = none := by cbv
  simp [absent] at there

end BuildIdCache.Index
