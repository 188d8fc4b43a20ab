set_option autoImplicit false

namespace BuildIdCache

open Std

structure SortedMap (κ ν : Type) [Ord κ] where
  entries : List (κ × ν)
  increasing : entries.Pairwise fun a b => compare a.1 b.1 = .lt

namespace SortedMap

variable {κ ν : Type} [Ord κ]

def insertEntry (key : κ) (value : ν) : List (κ × ν) → List (κ × ν)
  | [] => [(key, value)]
  | (k, v) :: rest =>
    match compare key k with
    | .lt => (key, value) :: (k, v) :: rest
    | .eq => (key, value) :: rest
    | .gt => (k, v) :: insertEntry key value rest

theorem mem_insertEntry {key : κ} {value : ν} {entries : List (κ × ν)} {e : κ × ν}
    (h : e ∈ insertEntry key value entries) : e = (key, value) ∨ e ∈ entries := by
  induction entries with
  | nil => simpa [insertEntry] using h
  | cons head rest ih =>
    obtain ⟨k, v⟩ := head
    unfold insertEntry at h
    split at h <;> grind

theorem insertEntry_increasing [TransOrd κ] [LawfulEqOrd κ] (key : κ) (value : ν)
    (entries : List (κ × ν)) (h : entries.Pairwise fun a b => compare a.1 b.1 = .lt) :
    (insertEntry key value entries).Pairwise fun a b => compare a.1 b.1 = .lt := by
  induction entries with
  | nil => simp [insertEntry]
  | cons head rest ih =>
    obtain ⟨k, v⟩ := head
    obtain ⟨below, sorted⟩ := List.pairwise_cons.1 h
    unfold insertEntry
    split
    next lt =>
      refine List.pairwise_cons.2 ⟨?_, h⟩
      intro e he
      rcases List.mem_cons.1 he with rfl | he
      · exact lt
      · exact TransCmp.lt_trans lt (below e he)
    next eq =>
      obtain rfl := LawfulEqCmp.eq_of_compare eq
      exact List.pairwise_cons.2 ⟨below, sorted⟩
    next gt =>
      refine List.pairwise_cons.2 ⟨?_, ih sorted⟩
      intro e he
      rcases mem_insertEntry he with rfl | he
      · exact OrientedCmp.gt_iff_lt.1 gt
      · exact below e he

def empty : SortedMap κ ν := ⟨[], .nil⟩

instance : Inhabited (SortedMap κ ν) := ⟨empty⟩

def get? (map : SortedMap κ ν) (key : κ) : Option ν :=
  (map.entries.find? fun e => compare e.1 key == .eq).map (·.2)

def contains (map : SortedMap κ ν) (key : κ) : Bool :=
  (map.get? key).isSome

def size (map : SortedMap κ ν) : Nat := map.entries.length

def keys (map : SortedMap κ ν) : List κ := map.entries.map (·.1)

def insert [TransOrd κ] [LawfulEqOrd κ] (map : SortedMap κ ν) (key : κ) (value : ν) :
    SortedMap κ ν :=
  ⟨insertEntry key value map.entries, insertEntry_increasing _ _ _ map.increasing⟩

def insertIfAbsent [TransOrd κ] [LawfulEqOrd κ] (map : SortedMap κ ν) (key : κ) (value : ν) :
    Bool × SortedMap κ ν :=
  if map.contains key then (false, map) else (true, map.insert key value)

def filter (map : SortedMap κ ν) (keep : κ → Bool) : SortedMap κ ν :=
  ⟨map.entries.filter fun e => keep e.1, map.increasing.filter _⟩

def erase (map : SortedMap κ ν) (key : κ) : SortedMap κ ν :=
  map.filter fun k => compare k key != .eq

def ofList [TransOrd κ] [LawfulEqOrd κ] (entries : List (κ × ν)) : SortedMap κ ν :=
  entries.foldl (fun map e => map.insert e.1 e.2) empty

theorem find?_insertEntry [TransOrd κ] [LawfulEqOrd κ] (key k : κ) (value : ν)
    (entries : List (κ × ν)) :
    (insertEntry key value entries).find? (fun e => compare e.1 k == .eq) =
      if compare key k = .eq then some (key, value)
      else entries.find? fun e => compare e.1 k == .eq := by
  induction entries with
  | nil => by_cases h : compare key k = .eq <;> simp [insertEntry, h]
  | cons head rest ih =>
    obtain ⟨k', v⟩ := head
    unfold insertEntry
    split
    next => by_cases h : compare key k = .eq <;> simp [h]
    next eq =>
      obtain rfl := LawfulEqCmp.eq_of_compare eq
      by_cases h : compare key k = .eq <;> simp [h]
    next gt =>
      by_cases h : compare key k = .eq
      · obtain rfl := LawfulEqCmp.eq_of_compare h
        have other : (compare k' key == .eq) = false := by
          simp [OrientedCmp.gt_iff_lt.1 gt]
        rw [List.find?_cons, other]
        simpa using ih
      · simp only [List.find?_cons, h, if_false] at ih ⊢
        rw [ih]

theorem get?_insert [TransOrd κ] [LawfulEqOrd κ] (map : SortedMap κ ν) (key k : κ) (value : ν) :
    (map.insert key value).get? k =
      if compare key k = .eq then some value else map.get? k := by
  simp only [get?, insert, find?_insertEntry]
  split <;> simp

theorem get?_filter [LawfulEqOrd κ] (map : SortedMap κ ν) (keep : κ → Bool) (key : κ) :
    (map.filter keep).get? key = if keep key then map.get? key else none := by
  have same_test : ∀ e : κ × ν, (keep e.1 && (compare e.1 key == .eq)) =
      (keep key && (compare e.1 key == .eq)) := by
    intro e
    cases h : compare e.1 key == .eq
    · simp
    · rw [LawfulEqCmp.eq_of_compare (eq_of_beq h)]
  unfold get? filter
  rw [List.find?_filter]
  simp only [Bool.decide_and, Bool.decide_eq_true, same_test]
  cases keep key <;> simp

theorem get?_empty (key : κ) : (empty : SortedMap κ ν).get? key = none := rfl

end SortedMap

end BuildIdCache
