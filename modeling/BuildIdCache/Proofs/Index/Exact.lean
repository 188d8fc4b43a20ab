import BuildIdCache.Proofs.Index.Gather
import BuildIdCache.Proofs.Index.Parse

set_option autoImplicit false

namespace BuildIdCache

open FileSystem Std

variable {σ : Type}

theorem Name.compare_bytes (a b : List Name) :
    compare (a.map Name.bytes) (b.map Name.bytes) = compare a b := by
  induction a generalizing b with
  | nil => cases b <;> rfl
  | cons x a ih =>
    cases b with
    | nil => rfl
    | cons y b => simp [ih, show compare x.bytes y.bytes = compare x y from rfl]

def IndexRecord.Before (a b : IndexRecord) : Prop :=
  compare (Path.ofString a.path).parts (Path.ofString b.path).parts = .lt

instance : Std.Irrefl IndexRecord.Before :=
  ⟨fun a => by simp [IndexRecord.Before, ReflCmp.compare_self]⟩

instance : Std.Antisymm IndexRecord.Before :=
  ⟨fun a b first second => by
    have swapped := OrientedCmp.gt_of_lt first
    rw [IndexRecord.Before] at second
    simp [swapped] at second⟩

theorem IndexRecord.Before.path_ne {a b : IndexRecord} (before : a.Before b) : a.path ≠ b.path := by
  intro same
  simp [IndexRecord.Before, same, ReflCmp.compare_self] at before

namespace Index

variable {inspector : Inspector σ} {reading : Reading} {cache : Cache}

/-- The records of a cache: one for each file, and each link to one, that has a build-id and a name
that is text, in the order of their names. The list itself has none. -/
structure Exact (inspector : Inspector σ) (cache : Cache) (fs : FileSystem) (place : Location)
    (records : List IndexRecord) : Prop where
  members : ∃ idOf : List Name → String,
    (∀ names, fs.Found cache.root place names → names ≠ [listName] →
      inspector.Answers fs (cache.root.extend names) (idOf names)) ∧
    ∀ record, record ∈ records ↔ ∃ names, fs.Found cache.root place names ∧ names ≠ [listName] ∧
      record.buildId = idOf names ∧ record.buildId ≠ "" ∧ renderNames names = some record.path
  increasing : records.Pairwise IndexRecord.Before

theorem exact_of_gathered {fs : FileSystem} {place : Location} {listed : List (List Name)}
    {records : List IndexRecord} (leads : fs.aimAt cache.root = some place)
    (lists : fs.listing cache.root pathLimit [] = some listed)
    (gathered : Gathered inspector cache fs listed records) :
    Exact inspector cache fs place records := by
  have found := lists_listing fs cache.root place leads pathLimit listed lists
  obtain ⟨idOf, answers, rfl⟩ := gathered
  constructor
  · refine ⟨idOf, fun names there => answers names ((found.2 names).2 there), fun record => ?_⟩
    rw [List.mem_filterMap]
    constructor
    · rintro ⟨names, member, recorded⟩
      have there := (found.2 names).1 member
      exact ⟨names, there, (recordWith_eq_some _ names there.1 record).1 recorded⟩
    · rintro ⟨names, there, recorded⟩
      exact ⟨names, (found.2 names).2 there, (recordWith_eq_some _ names there.1 record).2 recorded⟩
  · refine List.pairwise_filterMap.2
      ((fs.increasing_listing cache.root pathLimit [] listed lists).imp_of_mem ?_)
    intro a b member member' lt record recorded other recorded'
    have further := ((found.2 a).1 member).1
    have further' := ((found.2 b).1 member').1
    have rendered := ((recordWith_eq_some _ a further record).1 recorded).2.2.2
    have rendered' := ((recordWith_eq_some _ b further' other).1 recorded').2.2.2
    rw [IndexRecord.Before, parts_rendered further rendered, parts_rendered further' rendered',
      Name.compare_bytes, lt]

theorem Exact.mem_iff (reads : inspector.Reads reading) {fs : FileSystem} {place : Location}
    {records : List IndexRecord} (holds : Exact inspector cache fs place records)
    (record : IndexRecord) : record ∈ records ↔ ∃ names, fs.Found cache.root place names ∧
      names ≠ [listName] ∧ record.buildId = reading.buildIdAt fs (cache.root.extend names) ∧
      record.buildId ≠ "" ∧ renderNames names = some record.path := by
  obtain ⟨idOf, answers, members⟩ := holds.members
  rw [members]
  constructor
  · rintro ⟨names, found, other, known, rest⟩
    exact ⟨names, found, other, known.trans (reads.answer (answers names found other)), rest⟩
  · rintro ⟨names, found, other, known, rest⟩
    exact ⟨names, found, other, known.trans (reads.answer (answers names found other)).symm, rest⟩

theorem Exact.nodup {fs : FileSystem} {place : Location} {records : List IndexRecord}
    (holds : Exact inspector cache fs place records) : records.Nodup :=
  holds.increasing.imp fun before same => before.path_ne (congrArg IndexRecord.path same)

theorem Exact.split {fs : FileSystem} {place : Location} {records : List IndexRecord}
    (holds : Exact inspector cache fs place records) {record : IndexRecord}
    (member : record ∈ records) :
    ∃ front back, records = front ++ record :: back ∧
      ∀ other ∈ front ++ back, other.path ≠ record.path := by
  obtain ⟨front, back, rfl⟩ := List.append_of_mem member
  obtain ⟨-, behind, ahead⟩ := List.pairwise_append.1 holds.increasing
  refine ⟨front, back, rfl, fun other among => ?_⟩
  rcases List.mem_append.1 among with earlier | later
  · exact (ahead other earlier record (by simp)).path_ne
  · exact ((List.pairwise_cons.1 behind).1 other later).path_ne.symm

/-- What a store leaves: the list consists of the lines of the records, and nothing else has
changed, but that the root and the directories above it were made if they were missing. -/
structure Listed (cache : Cache) (before after : FileSystem) (place : Location)
    (records : List IndexRecord) : Prop where
  list : ∃ content, after.at? (place ++ [listName]) = some (.file content) ∧
    content.toList = records.flatMap lineOf
  others : ∀ other, other ≠ place ++ [listName] → after.at? other = before.at? other ∨
    before.at? other = none ∧ after.at? other = some .dir ∧
      ∃ path ∈ cache.root.ancestors, before.aimAt path = some other
  workingDir : after.workingDir = before.workingDir

-- No link in a cache leads to the list.
def ListUnlinked (cache : Cache) (fs : FileSystem) (place : Location) : Prop :=
  ∀ names target, fs.at? (place ++ names) = some (.link target) →
    fs.target? (cache.root.extend names) ≠ some (place ++ [listName])

section

variable {fs now : FileSystem} {place : Location} {entry : Option Entry}

theorem target?_of_found (leads : fs.aimAt cache.root = some place)
    (unlinked : ListUnlinked cache fs place) (names : List Name)
    (found : fs.Found cache.root place names) (other : names ≠ [listName]) :
    fs.target? (cache.root.extend names) ≠ some (place ++ [listName]) := by
  obtain ⟨-, ⟨content, there⟩ | ⟨⟨target, link⟩, -⟩⟩ := found
  · intro filled
    have aimed := fs.aimAt_of_target? _ _ filled
    rw [fs.aimAt_of_file cache.root place names content leads there] at aimed
    exact other (by simpa using aimed)
  · exact unlinked names target link

variable (same : SameBut fs now (place ++ [listName]) entry)
  (old : fs.at? (place ++ [listName]) = none ∨
    ∃ content, fs.at? (place ++ [listName]) = some (.file content))
  (new : entry = none ∨ ∃ content, entry = some (.file content))
  (leads : fs.aimAt cache.root = some place) (unlinked : ListUnlinked cache fs place)

include same old new unlinked

theorem found_iff (names : List Name) (other : names ≠ [listName]) :
    now.Found cache.root place names ↔ fs.Found cache.root place names := by
  have still : now.at? (place ++ names) = fs.at? (place ++ names) := by
    rw [same.at?, if_neg (by simpa using other)]
  have isFile : ∀ target, fs.at? (place ++ names) = some (.link target) →
      (now.isFile (cache.root.extend names) = true ↔ fs.isFile (cache.root.extend names) =
        true) := by
    intro target link
    simp only [isFile_iff, same.read_iff old new _ (unlinked names target link)]
  rw [Found, Found, still]
  grind

include leads

theorem Exact.unique (reads : inspector.Reads reading) {records records' : List IndexRecord}
    (holds : Exact inspector cache fs place records)
    (holds' : Exact inspector cache now place records') : records' = records := by
  refine holds'.increasing.eq_of_mem_iff holds.increasing fun record => ?_
  rw [holds'.mem_iff reads, holds.mem_iff reads]
  refine exists_congr fun names => ?_
  by_cases other : names = [listName]
  · simp [other]
  rw [found_iff same old new unlinked names other]
  refine and_congr_right fun found => ?_
  rw [Reading.buildIdAt_congr
    (same.read_iff old new _ (target?_of_found leads unlinked names found other))]

end

theorem write_list {fs after : FileSystem} {place : Location} {content : ByteArray}
    (leads : fs.aimAt cache.root = some place)
    (noLink : ∀ target, fs.at? (place ++ [listName]) ≠ some (.link target))
    (h : fs.write cache.listPath content = .ok after) :
    fs.target? cache.listPath = some (place ++ [listName]) ∧
      SameBut fs after (place ++ [listName]) (some (.file content)) := by
  obtain ⟨filled, target, same⟩ := fs.write_sameBut after _ _ h
  have aimed := fs.aimAt_of_target? _ _ target
  rw [cache.listPath_eq_extend, fs.aimAt_extend_of_clear cache.root place [listName] leads
    (FileSystem.clearTo_singleton noLink)] at aimed
  obtain rfl := Option.some.inj aimed
  exact ⟨target, same⟩

theorem listed_of_write {before made after : FileSystem} {place : Location}
    {records : List IndexRecord} (making : before.makeDirAll cache.root = (made, .ok ()))
    (written : SameBut made after (place ++ [listName]) (some (.file (render records).toUTF8))) :
    Listed cache before after place records where
  list := ⟨_, by rw [written.at?, if_pos rfl], bytes_render records⟩
  others other elsewhere := by
    rw [written.at?, if_neg elsewhere]
    obtain ⟨sprouts, madeFor⟩ := before.makeDirs_sprouts cache.root.ancestors
    rw [← makeDirAll, making] at sprouts madeFor
    rcases sprouts.at? other with still | ⟨absent, isDir⟩
    · exact .inl still
    · exact .inr ⟨absent, isDir, (madeFor other (by simp [absent, isDir])).aimed⟩
  workingDir := by
    have sprouts := before.makeDirAll_sprouts cache.root
    rw [making] at sprouts
    exact written.workingDir.trans sprouts.workingDir

theorem store_again (reads : inspector.Reads reading) {made written made' : FileSystem}
    {place : Location} {records : List IndexRecord} {visited : List (List Name)} {old : ByteArray}
    {entry : Option Entry} (holds : Exact inspector cache made place records)
    (isDir : made.resolve true cache.root = .ok (.dir place))
    (lists : made.listing cache.root pathLimit [] = some visited)
    (unlinked : ListUnlinked cache made place)
    (writing : made.write cache.listPath old = .ok written)
    (target : made.target? cache.listPath = some (place ++ [listName])) (again : World σ)
    (making : again.files.makeDirAll cache.root = (made', .ok ()))
    (same : SameBut made made' (place ++ [listName]) entry)
    (new : entry = none ∨ ∃ content, entry = some (.file content)) :
    ∃ last, store inspector cache again = (.ok records, last) ∧
      SameBut made' last.files (place ++ [listName]) (some (.file (render records).toUTF8)) := by
  have before := made.at?_target? _ _ target
  have steady := same.steady_fill before new
  have isDir' : made'.resolve true cache.root = .ok (.dir place) := steady.resolve _ _ isDir
  have writes : ∀ content, ∃ written, made'.write cache.listPath content = .ok written := by
    intro content
    obtain ⟨written', done, -⟩ := steady.write _ _ _ content writing target
      (by rwa [same.at?, if_pos rfl])
    exact ⟨written', done⟩
  obtain ⟨records', last, ran, visited', lists', gathered, writing'⟩ :=
    (ends_store_gather reads.keepsFiles again made' place making isDir'
      (listing_congr same before new cache.root pathLimit [] (by simp [lists])) writes).of_never
  have leads : made.aimAt cache.root = some place := made.aimAt_of_resolve _ _ isDir
  have leads' : made'.aimAt cache.root = some place := made'.aimAt_of_resolve _ _ isDir'
  -- The records are read off a tree that differs in the list alone, so they are the same.
  obtain rfl := holds.unique same before new leads unlinked reads
    (exact_of_gathered leads' lists' gathered)
  refine ⟨last, ran, (write_list leads' (fun link there => ?_) writing').2⟩
  rw [same.at?, if_pos rfl] at there
  rcases new with rfl | ⟨_, rfl⟩ <;> cases there

/-- The index is the cache: a store writes a record for each file with a build-id and for nothing
else. What the list held before makes no difference, so storing again changes nothing. -/
theorem store_exact (keeps : inspector.KeepsFiles) (world after : World σ)
    (records : List IndexRecord)
    (listed : ∀ place target, world.files.aimAt cache.root = some place →
      world.files.at? (place ++ [listName]) ≠ some (.link target))
    (ran : store inspector cache world = (.ok records, after)) :
    ∃ made place, world.files.makeDirAll cache.root = (made, .ok ()) ∧
      made.resolve true cache.root = .ok (.dir place) ∧
      Exact inspector cache made place records ∧
      Listed cache world.files after.files place records ∧
      ∀ reading, inspector.Reads reading → ListUnlinked cache made place →
        (∃ last, store inspector cache after = (.ok records, last) ∧
          ∀ other, last.files.at? other = after.files.at? other) ∧
        ∀ (again : World σ) (made' : FileSystem) (entry : Option Entry),
          again.files.makeDirAll cache.root = (made', .ok ()) →
          SameBut made made' (place ++ [listName]) entry →
          (entry = none ∨ ∃ content, entry = some (.file content)) →
          ∃ last, store inspector cache again = (.ok records, last) ∧
            ∀ other, last.files.at? other = after.files.at? other := by
  obtain ⟨made, place, visited, making, isDir, lists, gathered, writing⟩ :=
    store_eq_ok keeps world after records ran
  have leads : made.aimAt cache.root = some place := made.aimAt_of_resolve _ _ isDir
  have steady : Steady world.files made := by
    have sprouts := world.files.makeDirAll_sprouts cache.root
    rw [making] at sprouts
    exact sprouts.steady
  have noLink : ∀ target, made.at? (place ++ [listName]) ≠ some (.link target) := by
    intro target link
    exact listed place target (by rw [← steady.aimAt, leads]) ((steady.links _ _).1 link)
  obtain ⟨target, written⟩ := write_list leads noLink writing
  have holds := exact_of_gathered leads lists gathered
  refine ⟨made, place, making, isDir, holds, listed_of_write making written, ?_⟩
  intro reading reads unlinked
  -- A store after the first one is the case in which the list is what has changed.
  have unchanged : ∀ (again : World σ) (made' : FileSystem) (entry : Option Entry),
      again.files.makeDirAll cache.root = (made', .ok ()) →
      SameBut made made' (place ++ [listName]) entry →
      (entry = none ∨ ∃ content, entry = some (.file content)) →
      ∃ last, store inspector cache again = (.ok records, last) ∧
        ∀ other, last.files.at? other = after.files.at? other := by
    intro again made' entry making' same new
    obtain ⟨last, ran', written'⟩ :=
      store_again reads holds isDir lists unlinked writing target again making' same new
    refine ⟨last, ran', fun other => ?_⟩
    rw [written'.at?, written.at?, same.at?]
    split_ifs <;> rfl
  have still : after.files.resolve true cache.root = .ok (.dir place) :=
    (written.steady_of_target? target (by simp)).resolve _ _ isDir
  exact ⟨unchanged after after.files _ (after.files.makeDirAll_of_resolve _ place still) written
    (.inr ⟨_, rfl⟩), unchanged⟩

def sampleStore : Except CacheError (List IndexRecord) × World Unit :=
  store (.ofContent "sample" Sample.reading.buildId Sample.reading.sections) Sample.cache
    ⟨Sample.files Sample.stripped Sample.unknown, ()⟩

theorem store_exact_sample :
    ∃ made place,
      Exact (.ofContent "sample" Sample.reading.buildId Sample.reading.sections : Inspector Unit)
        Sample.cache made place [⟨"1", "a"⟩] ∧
      Listed Sample.cache (Sample.files Sample.stripped Sample.unknown) sampleStore.2.files place
        [⟨"1", "a"⟩] ∧
      ∃ last, store (.ofContent "sample" Sample.reading.buildId Sample.reading.sections)
        Sample.cache sampleStore.2 = (.ok [⟨"1", "a"⟩], last) := by
  have reads : (Inspector.ofContent "sample" Sample.reading.buildId Sample.reading.sections :
      Inspector Unit).Reads Sample.reading := Inspector.ofContent_reads "sample" Sample.reading
  obtain ⟨made, place, making, -, holds, listed, again⟩ := store_exact reads.keepsFiles
    ⟨Sample.files Sample.stripped Sample.unknown, ()⟩ sampleStore.2 [⟨"1", "a"⟩]
    (fun place target _ => Sample.noLinks _ _ _ target) (Prod.ext (by cbv) rfl)
  have sprouts := (Sample.files Sample.stripped Sample.unknown).makeDirAll_sprouts Sample.cache.root
  rw [making] at sprouts
  obtain ⟨⟨last, ran, -⟩, -⟩ := again Sample.reading reads fun names target link =>
    absurd ((sprouts.steady.links _ _).1 link) (Sample.noLinks _ _ _ target)
  exact ⟨made, place, holds, listed, last, ran⟩

end Index

end BuildIdCache
