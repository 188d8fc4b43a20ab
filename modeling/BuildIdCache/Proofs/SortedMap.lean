import BuildIdCache.SortedMap
import Mathlib.Data.List.Nodup

set_option autoImplicit false

namespace BuildIdCache

open Std

namespace SortedMap

variable {κ ν : Type} [Ord κ] [LawfulEqOrd κ]

theorem nodup_keys (map : SortedMap κ ν) : map.keys.Nodup := by
  rw [keys, List.Nodup, List.pairwise_map]
  refine map.increasing.imp fun {a b} below same => ?_
  simp [show a.1 = b.1 from same, ReflCmp.compare_self] at below

theorem get?_eq_some_iff (map : SortedMap κ ν) (key : κ) (value : ν) :
    map.get? key = some value ↔ (key, value) ∈ map.entries := by
  simp only [get?, Option.map_eq_some_iff]
  constructor
  · rintro ⟨entry, found, rfl⟩
    have same : entry.1 = key := by simpa using List.find?_some found
    simpa [← same] using List.mem_of_find?_eq_some found
  · intro member
    refine ⟨(key, value), ?_, rfl⟩
    -- The keys differ, so no entry in front of this one has the key.
    obtain ⟨front, rest, split⟩ := List.append_of_mem member
    rw [split, List.find?_append, List.find?_eq_none.2, Option.none_or, List.find?_cons_of_pos]
    · simp
    · intro entry earlier same
      have increasing := map.increasing
      rw [split, List.pairwise_append] at increasing
      have below := increasing.2.2 entry earlier (key, value) (by simp)
      simp [below] at same

theorem get?_of_split {map : SortedMap κ ν} {before rest : List (κ × ν)} {key : κ} {value : ν}
    (split : map.entries = before ++ (key, value) :: rest) : map.get? key = some value :=
  (map.get?_eq_some_iff key value).2 (by simp [split])

omit [LawfulEqOrd κ] in
theorem contains_of_get? {map : SortedMap κ ν} {key : κ} {value : ν}
    (there : map.get? key = some value) : map.contains key = true := by
  simp [contains, there]

theorem contains_iff (map : SortedMap κ ν) (key : κ) :
    map.contains key = true ↔ ∃ value, (key, value) ∈ map.entries := by
  simp [contains, Option.isSome_iff_exists, get?_eq_some_iff]

theorem eq_of_increasing [TransOrd κ] {α : Type} (key : α → κ) {items others : List α}
    (increasing : items.Pairwise fun a b => compare (key a) (key b) = .lt)
    (increasing' : others.Pairwise fun a b => compare (key a) (key b) = .lt)
    (same : ∀ item, item ∈ items ↔ item ∈ others) : items = others := by
  have apart : ∀ {a b : α}, compare (key a) (key b) = .lt → a ≠ b := by
    rintro a _ below rfl
    simp [ReflCmp.compare_self] at below
  have perm : items.Perm others :=
    (List.perm_ext_iff_of_nodup (increasing.imp apart) (increasing'.imp apart)).2 same
  refine perm.eq_of_pairwise (fun a b _ _ below above => ?_) increasing increasing'
  rw [OrientedCmp.gt_iff_lt.symm, below] at above
  cases above

theorem eq_of_get? [TransOrd κ] {map other : SortedMap κ ν}
    (same : ∀ key, map.get? key = other.get? key) : map = other := by
  have entries : map.entries = other.entries := by
    refine eq_of_increasing (·.1) map.increasing other.increasing fun ⟨key, value⟩ => ?_
    rw [← get?_eq_some_iff, ← get?_eq_some_iff, same]
  cases map
  cases other
  simpa using entries

theorem get?_insertIfAbsent [TransOrd κ] (map : SortedMap κ ν) (key k : κ) (value : ν) :
    (map.insertIfAbsent key value).2.get? k =
      (map.get? k).or (if compare key k = .eq then some value else none) := by
  rw [insertIfAbsent, contains]
  cases there : map.get? key with
  | some first =>
    by_cases same : compare key k = .eq
    · simp [← LawfulEqCmp.eq_of_compare same, there]
    · simp [same]
  | none =>
    simp only [Option.isSome_none, Bool.false_eq_true, if_false, get?_insert]
    by_cases same : compare key k = .eq
    · simp [← LawfulEqCmp.eq_of_compare same, there, ReflCmp.compare_self]
    · simp [same]

def insertAllIfAbsent [TransOrd κ] (map : SortedMap κ ν) :
    List (κ × ν) → List Bool × SortedMap κ ν
  | [] => ([], map)
  | (key, value) :: rest =>
    let inserted := map.insertIfAbsent key value
    let later := inserted.2.insertAllIfAbsent rest
    (inserted.1 :: later.1, later.2)

theorem insertIfAbsent_answer [TransOrd κ] (map : SortedMap κ ν) (key : κ) (value : ν) :
    (map.insertIfAbsent key value).1 = !map.contains key := by
  cases there : map.contains key <;> simp [insertIfAbsent, there]

theorem answers_insertAllIfAbsent [TransOrd κ] (map : SortedMap κ ν) (calls : List (κ × ν))
    (n : Nat) :
    (map.insertAllIfAbsent calls).1[n]? = calls[n]?.map fun call =>
      !(map.insertAllIfAbsent (calls.take n)).2.contains call.1 := by
  induction calls generalizing map n with
  | nil => rfl
  | cons call rest ih =>
    cases n with
    | zero => simp [insertAllIfAbsent, insertIfAbsent_answer]
    | succ n => simp [insertAllIfAbsent, ih]

theorem get?_insertAllIfAbsent [TransOrd κ] [DecidableEq κ] (map : SortedMap κ ν)
    (calls : List (κ × ν)) (key : κ) :
    (map.insertAllIfAbsent calls).2.get? key = (map.get? key).or (calls.lookup key) := by
  induction calls generalizing map with
  | nil => simp [insertAllIfAbsent]
  | cons call rest ih =>
    rw [insertAllIfAbsent, ih, get?_insertIfAbsent, Option.or_assoc, List.lookup_cons]
    by_cases same : call.1 = key
    · simp [same, ReflCmp.compare_self]
    · have other : (key == call.1) = false := by simpa using Ne.symm same
      simp [same, other, LawfulEqCmp.compare_eq_iff_eq]

theorem contains_insertAllIfAbsent [TransOrd κ] [DecidableEq κ] (map : SortedMap κ ν)
    (calls : List (κ × ν)) (key : κ) :
    (map.insertAllIfAbsent calls).2.contains key = true ↔
      map.contains key = true ∨ key ∈ calls.map (·.1) := by
  rw [contains, get?_insertAllIfAbsent, Option.isSome_or, Bool.or_eq_true, contains]
  simp [List.lookup_isSome_iff]

omit [LawfulEqOrd κ] in
theorem insertEntry_above [OrientedOrd κ] (key : κ) (value : ν) {entries : List (κ × ν)}
    (above : ∀ e ∈ entries, compare e.1 key = .lt) :
    insertEntry key value entries = entries ++ [(key, value)] := by
  induction entries with
  | nil => rfl
  | cons head rest ih =>
    have further := ih fun e member => above e (by simp [member])
    simp [insertEntry, OrientedCmp.gt_iff_lt.2 (above head (by simp)), further]

theorem entries_foldl_insert [TransOrd κ] (rest : List (κ × ν)) (map : SortedMap κ ν)
    (increasing : (map.entries ++ rest).Pairwise fun a b => compare a.1 b.1 = .lt) :
    (rest.foldl (fun map e => map.insert e.1 e.2) map).entries = map.entries ++ rest := by
  induction rest generalizing map with
  | nil => simp
  | cons e rest ih =>
    have above := (List.pairwise_append.1 increasing).2.2
    have last : (map.insert e.1 e.2).entries = map.entries ++ [e] :=
      insertEntry_above e.1 e.2 fun entry there => above entry there e (by simp)
    have split : map.entries ++ e :: rest = (map.insert e.1 e.2).entries ++ rest := by simp [last]
    rw [List.foldl_cons, split, ih _ (split ▸ increasing)]

theorem ofList_entries [TransOrd κ] (map : SortedMap κ ν) : ofList map.entries = map := by
  have entries : (ofList map.entries).entries = map.entries :=
    entries_foldl_insert map.entries empty map.increasing
  generalize ofList map.entries = other at entries ⊢
  cases map
  cases other
  simpa using entries

theorem mem_keys (map : SortedMap κ ν) (key : κ) : key ∈ map.keys ↔ map.contains key = true := by
  simp [keys, contains_iff]

theorem keys_eq [TransOrd κ] {μ : Type} {map : SortedMap κ ν} {other : SortedMap κ μ}
    (same : ∀ key, key ∈ map.keys ↔ key ∈ other.keys) : map.keys = other.keys :=
  eq_of_increasing id (List.pairwise_map.2 map.increasing)
    (List.pairwise_map.2 other.increasing) same

theorem contains_insert [TransOrd κ] (map : SortedMap κ ν) (key k : κ) (value : ν) :
    (map.insert key value).contains k = true ↔ key = k ∨ map.contains k = true := by
  rw [contains, get?_insert, contains]
  by_cases same : compare key k = .eq
  · simp [LawfulEqCmp.eq_of_compare same]
  · have other : key ≠ k := fun same' => same (same' ▸ ReflCmp.compare_self)
    simp [same, other]

theorem contains_foldl_insert [TransOrd κ] (entries : List (κ × ν)) (map : SortedMap κ ν)
    (key : κ) :
    (entries.foldl (fun map e => map.insert e.1 e.2) map).contains key = true ↔
      key ∈ entries.map (·.1) ∨ map.contains key = true := by
  induction entries generalizing map with
  | nil => simp
  | cons e rest ih =>
    rw [List.foldl_cons, ih, contains_insert, List.map_cons, List.mem_cons]
    grind

theorem mem_keys_ofList [TransOrd κ] (entries : List (κ × ν)) (key : κ) :
    key ∈ (ofList entries).keys ↔ key ∈ entries.map (·.1) := by
  rw [mem_keys, ofList, contains_foldl_insert]
  simp [contains, get?_empty]

end SortedMap

end BuildIdCache
