import BuildIdCache.Proofs.FileSystem.Tree
import BuildIdCache.Proofs.Text.Order
import BuildIdCache.Required
import Mathlib.Data.Finset.Card
import Mathlib.Data.List.TakeWhile

set_option autoImplicit false

namespace BuildIdCache

/-- The text behind the last slash of a path, which is all of it where it has none. -/
inductive LastPart : String → String → Prop
  | whole {name : String} (clear : '/' ∉ name.toList) : LastPart name name
  | behind {above name : String} (clear : '/' ∉ name.toList) : LastPart (above ++ "/" ++ name) name

theorem lastPart_fileNameOf (path : String) : LastPart path (fileNameOf path) := by
  have clear : '/' ∉ (fileNameOf path).toList := by
    rw [fileNameOf, String.toList_ofList, List.mem_reverse]
    intro member
    simpa using List.mem_takeWhile_imp member
  have split : path.toList =
      (path.toList.reverse.dropWhile (· ≠ '/')).reverse ++ (fileNameOf path).toList := by
    rw [fileNameOf, String.toList_ofList, ← List.reverse_append, List.takeWhile_append_dropWhile,
      List.reverse_reverse]
  have stops := List.head?_dropWhile_not (· ≠ '/') path.toList.reverse
  generalize path.toList.reverse.dropWhile (· ≠ '/') = front at split stops
  generalize fileNameOf path = name at clear split
  cases front with
  | nil =>
    obtain rfl : path = name := String.toList_inj.1 (by simpa using split)
    exact .whole clear
  | cons c front =>
    obtain rfl : c = '/' := by simpa using stops
    obtain rfl : path = String.ofList front.reverse ++ "/" ++ name :=
      String.toList_inj.1 (by simpa using split)
    exact .behind clear

theorem LastPart.fileNameOf_eq {path name : String} (last : LastPart path name) :
    fileNameOf path = name := by
  have passes {name : List Char} (clear : '/' ∉ name) (rest : List Char) :
      (name.reverse ++ rest).takeWhile (· ≠ '/') = name.reverse ++ rest.takeWhile (· ≠ '/') := by
    apply List.takeWhile_append_of_pos
    intro c member
    have other : c ≠ '/' := fun same => clear (same ▸ List.mem_reverse.1 member)
    simpa using other
  apply String.toList_inj.1
  rw [fileNameOf, String.toList_ofList, List.reverse_eq_iff]
  cases last with
  | whole clear => simpa using passes clear []
  | @behind above _ clear => simpa using passes clear ('/' :: above.toList.reverse)

theorem lastPart_iff (path name : String) : LastPart path name ↔ fileNameOf path = name :=
  ⟨LastPart.fileNameOf_eq, fun named => named ▸ lastPart_fileNameOf path⟩

namespace RequiredBinaries

theorem get?_addToBucket (buckets : SortedMap String (List (String × String)))
    (entry : String × String) (name : String) :
    ((addToBucket buckets entry).get? name).getD [] =
      (buckets.get? name).getD [] ++ if fileNameOf entry.1 = name then [entry] else [] := by
  simp only [addToBucket, SortedMap.get?_insert, Std.LawfulEqOrd.compare_eq_iff_eq]
  by_cases same : fileNameOf entry.1 = name <;> simp [same]

theorem get?_byFileName (binaries : RequiredBinaries) (name : String) :
    (binaries.byFileName.get? name).getD [] =
      binaries.entries.filter fun entry => fileNameOf entry.1 = name := by
  suffices grow : ∀ (entries : List (String × String)) (buckets : SortedMap String _),
      ((entries.foldl addToBucket buckets).get? name).getD [] =
        (buckets.get? name).getD [] ++ entries.filter fun entry => fileNameOf entry.1 = name by
    simpa [byFileName, SortedMap.get?_empty] using grow binaries.entries .empty
  intro entries
  induction entries with
  | nil => simp
  | cons entry rest ih =>
    intro buckets
    rw [List.foldl_cons, ih, get?_addToBucket, List.filter_cons]
    by_cases same : fileNameOf entry.1 = name <;> simp [same]

theorem mem_bucket (binaries : RequiredBinaries) (name path expected : String) :
    (path, expected) ∈ (binaries.byFileName.get? name).getD [] ↔
      binaries.get? path = some expected ∧ fileNameOf path = name := by
  rw [get?_byFileName, List.mem_filter, SortedMap.get?_eq_some_iff]
  simp

theorem byFileName_ne_nil (binaries : RequiredBinaries) (name : String)
    (bucket : List (String × String)) (h : binaries.byFileName.get? name = some bucket) :
    bucket ≠ [] := by
  suffices kept : ∀ (entries : List (String × String)) (buckets : SortedMap String _),
      (∀ name bucket, buckets.get? name = some bucket → bucket ≠ []) →
        ∀ name bucket, (entries.foldl addToBucket buckets).get? name = some bucket →
          bucket ≠ [] by
    exact kept binaries.entries .empty (by simp [SortedMap.get?_empty]) name bucket h
  intro entries
  induction entries with
  | nil => exact fun _ filled => filled
  | cons entry rest ih =>
    intro buckets filled
    refine ih (addToBucket buckets entry) fun name bucket found => ?_
    simp only [addToBucket, SortedMap.get?_insert] at found
    split at found
    · simp [← Option.some.inj found]
    · exact filled name bucket found

theorem mem_byFileName (binaries : RequiredBinaries) (group : String × List (String × String)) :
    group ∈ binaries.byFileName.entries ↔ group.2 ≠ [] ∧
      group.2 = binaries.entries.filter fun entry => fileNameOf entry.1 = group.1 := by
  rw [← SortedMap.get?_eq_some_iff, ← get?_byFileName]
  cases found : binaries.byFileName.get? group.1 with
  | none => simp
  | some bucket =>
    have filled := byFileName_ne_nil binaries group.1 bucket found
    rw [Option.getD_some, Option.some.injEq]
    constructor
    · intro same
      exact ⟨same ▸ filled, same.symm⟩
    · intro ⟨_, same⟩
      exact same.symm

theorem mem_group {binaries : RequiredBinaries} {group : String × List (String × String)}
    (listed : group ∈ binaries.byFileName.entries) (entry : String × String) :
    entry ∈ group.2 ↔ entry ∈ binaries.entries ∧ LastPart entry.1 group.1 := by
  rw [((mem_byFileName binaries group).1 listed).2, List.mem_filter, lastPart_iff]
  simp

theorem existsUnique_group (binaries : RequiredBinaries) (entry : String × String)
    (member : entry ∈ binaries.entries) :
    ∃! group, group ∈ binaries.byFileName.entries ∧ entry ∈ group.2 := by
  let group := (fileNameOf entry.1,
    binaries.entries.filter fun other => fileNameOf other.1 = fileNameOf entry.1)
  have inside : entry ∈ group.2 := by simpa [group] using member
  have listed : group ∈ binaries.byFileName.entries :=
    (mem_byFileName binaries group).2 ⟨List.ne_nil_of_mem inside, rfl⟩
  refine ⟨group, ⟨listed, inside⟩, fun other h => ?_⟩
  have same : group.1 = other.1 := ((mem_group h.1 entry).1 h.2).2.fileNameOf_eq
  apply Prod.ext same.symm
  rw [((mem_byFileName binaries other).1 h.1).2, ← same]

theorem nodup_entries (binaries : RequiredBinaries) : binaries.entries.Nodup :=
  binaries.nodup_keys.of_map

theorem nodup_groups (binaries : RequiredBinaries) :
    (binaries.byFileName.entries.flatMap Prod.snd).Nodup := by
  apply List.nodup_flatMap.2
  constructor
  · intro group listed
    rw [((mem_byFileName binaries group).1 listed).2]
    exact binaries.nodup_entries.filter _
  · -- A pair in two buckets would give one name to both.
    have apart := List.pairwise_map.1 binaries.byFileName.nodup_keys
    apply apart.imp_of_mem
    intro group other listed listed' differ entry member member'
    have first := ((mem_group listed entry).1 member).2.fileNameOf_eq
    have second := ((mem_group listed' entry).1 member').2.fileNameOf_eq
    exact differ (first.symm.trans second)

theorem increasing_bytes (binaries : RequiredBinaries) :
    binaries.entries.Pairwise fun a b => a.1.toUTF8.toList < b.1.toUTF8.toList :=
  binaries.increasing.imp fun {a b} below => bytes_lt a.1 b.1 below

structure Divides (index : SortedMap String (List (String × String)))
    (binaries : RequiredBinaries) :
    Prop where
  filled : ∀ group ∈ index.entries, group.2 ≠ []
  named : ∀ group ∈ index.entries, ∀ entry,
    entry ∈ group.2 ↔ entry ∈ binaries.entries ∧ LastPart entry.1 group.1
  increasing : ∀ group ∈ index.entries,
    group.2.Pairwise fun a b => a.1.toUTF8.toList < b.1.toUTF8.toList
  unique : ∀ entry ∈ binaries.entries, ∃! group, group ∈ index.entries ∧ entry ∈ group.2
  together : (index.entries.flatMap Prod.snd).Perm binaries.entries

theorem byFileName_divides (binaries : RequiredBinaries) :
    Divides binaries.byFileName binaries where
  filled group listed := ((mem_byFileName binaries group).1 listed).1
  named _ listed := mem_group listed
  increasing group listed := by
    rw [((mem_byFileName binaries group).1 listed).2]
    exact binaries.increasing_bytes.filter _
  unique := existsUnique_group binaries
  together := by
    apply (List.perm_ext_iff_of_nodup binaries.nodup_groups binaries.nodup_entries).2
    intro entry
    rw [List.mem_flatMap]
    constructor
    · intro ⟨group, listed, member⟩
      exact ((mem_group listed entry).1 member).1
    · intro member
      exact (existsUnique_group binaries entry member).exists

/-- What is held of the pairs that a mapping was told, in turn: for each path the first. -/
structure Records (calls : List (String × String)) (binaries : RequiredBinaries) : Prop where
  first : ∀ path, binaries.get? path = calls.lookup path
  listed : ∀ path buildId, (path, buildId) ∈ binaries.entries ↔ calls.lookup path = some buildId
  once : ∀ path, binaries.keys.count path = if path ∈ calls.map Prod.fst then 1 else 0
  increasing : binaries.entries.Pairwise fun a b => a.1.toUTF8.toList < b.1.toUTF8.toList
  size : binaries.size = (calls.map Prod.fst).toFinset.card

theorem contains_insertAllIfAbsent (calls : List (String × String)) (path : String) :
    (SortedMap.empty.insertAllIfAbsent calls).2.contains path = true ↔
      path ∈ calls.map Prod.fst := by
  rw [SortedMap.contains_insertAllIfAbsent]
  simp [SortedMap.contains, SortedMap.get?_empty]

theorem insertAllIfAbsent_records (calls : List (String × String)) :
    Records calls (SortedMap.empty.insertAllIfAbsent calls).2 := by
  have contains := contains_insertAllIfAbsent calls
  have first : ∀ path,
      (SortedMap.empty.insertAllIfAbsent calls).2.get? path = calls.lookup path := by
    intro path
    rw [SortedMap.get?_insertAllIfAbsent, SortedMap.get?_empty, Option.none_or]
  generalize (SortedMap.empty.insertAllIfAbsent calls).2 = binaries at contains first
  have keys : ∀ path, path ∈ binaries.keys ↔ path ∈ calls.map Prod.fst := by
    intro path
    rw [SortedMap.mem_keys, contains]
  refine ⟨first, ?_, ?_, increasing_bytes binaries, ?_⟩
  · intro path buildId
    rw [← SortedMap.get?_eq_some_iff, first]
  · intro path
    rw [List.Nodup.count binaries.nodup_keys]
    simp only [keys]
  · have paths : binaries.keys.toFinset = (calls.map Prod.fst).toFinset := by
      ext path
      rw [List.mem_toFinset, List.mem_toFinset, keys]
    rw [← paths, List.toFinset_card_of_nodup binaries.nodup_keys, SortedMap.keys, List.length_map,
      SortedMap.size]

theorem ofList_eq (calls : List (String × String)) :
    ofList calls = (SortedMap.empty.insertAllIfAbsent calls).2 := by
  suffices run : ∀ binaries : RequiredBinaries,
      calls.foldl (fun binaries e => (binaries.insertIfAbsent e.1 e.2).2) binaries =
        (binaries.insertAllIfAbsent calls).2 by
    exact run .empty
  induction calls with
  | nil => exact fun _ => rfl
  | cons call rest ih => exact fun binaries => ih _

theorem insertAllIfAbsent_exact (calls : List (String × String)) :
    let told : List Bool × RequiredBinaries := SortedMap.empty.insertAllIfAbsent calls
    (∀ n, told.1[n]? =
      calls[n]?.map fun call => decide (call.1 ∉ (calls.take n).map Prod.fst)) ∧
      told.2 = ofList calls ∧ Records calls told.2 ∧ Divides told.2.byFileName told.2 := by
  intro told
  refine ⟨fun n => ?_, (ofList_eq calls).symm, insertAllIfAbsent_records calls,
    byFileName_divides told.2⟩
  rw [SortedMap.answers_insertAllIfAbsent]
  congr 1
  funext call
  rw [Bool.eq_iff_iff, Bool.not_eq_true', Bool.eq_false_iff, ne_eq, contains_insertAllIfAbsent,
    decide_eq_true_iff]

example : (SortedMap.empty.insertAllIfAbsent [("a/b", "0x1"), ("b", ""), ("a/b", "0x2")]).1 =
    [true, true, false] := by decide

end RequiredBinaries

end BuildIdCache
