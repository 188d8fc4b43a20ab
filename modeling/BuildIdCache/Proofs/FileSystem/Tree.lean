import BuildIdCache.FileSystem.Basic
import BuildIdCache.Proofs.SortedMap
import Mathlib.Data.List.Induction
import Mathlib.Tactic.ByContra

set_option autoImplicit false

namespace BuildIdCache

namespace FileSystem

theorem at?_root (fs : FileSystem) : fs.at? [] = some .dir := by
  simp [at?, entryAt]

theorem at?_parent (fs : FileSystem) (parent : Location) (name : Name)
    (present : fs.at? (parent ++ [name]) ≠ none) : fs.at? parent = some .dir :=
  fs.rooted parent name present

theorem at?_dropLast (fs : FileSystem) (place : Location) (isDir : fs.at? place = some .dir) :
    fs.at? place.dropLast = some .dir := by
  cases place using List.reverseRecOn with
  | nil => exact fs.at?_root
  | append_singleton parent name =>
    simpa using fs.at?_parent parent name (by simp [isDir])

theorem at?_above (fs : FileSystem) (place rest : Location) (notEmpty : rest ≠ [])
    (present : fs.at? (place ++ rest) ≠ none) : fs.at? place = some .dir := by
  induction rest using List.reverseRecOn with
  | nil => exact absurd rfl notEmpty
  | append_singleton rest name ih =>
    rw [← List.append_assoc] at present
    have isDir := fs.at?_parent _ name present
    by_cases last : rest = []
    · simpa [last] using isDir
    · exact ih last (by simp [isDir])

theorem at?_front (fs : FileSystem) (place front : Location) (within : front <+: place)
    (isDir : fs.at? place = some .dir) : fs.at? front = some .dir := by
  obtain ⟨rest, rfl⟩ := within
  by_cases last : rest = []
  · simpa [last] using isDir
  · exact fs.at?_above front rest last (by simp [isDir])

theorem at?_below (fs : FileSystem) (place rest : Location) (notEmpty : rest ≠ [])
    (notDir : fs.at? place ≠ some .dir) : fs.at? (place ++ rest) = none := by
  by_contra present
  exact notDir (fs.at?_above place rest notEmpty present)

theorem entry_of_child {place : Location} {listed : Location × Entry} {child : Name × Entry}
    (kept : (match listed.1.getLast? with
      | some name => if listed.1 = place ++ [name] then some (name, listed.2) else none
      | none => none) = some child) : listed = (place ++ [child.1], child.2) := by
  split at kept
  · split at kept
    next same =>
      obtain rfl := Option.some.inj kept
      exact Prod.ext same rfl
    next => cases kept
  · cases kept

theorem mem_children (fs : FileSystem) (place : Location) (name : Name) (entry : Entry) :
    (name, entry) ∈ fs.children place ↔ fs.at? (place ++ [name]) = some entry := by
  have notRoot : place ++ [name] ≠ [] := by simp
  rw [at?, entryAt, if_neg notRoot, SortedMap.get?_eq_some_iff]
  simp only [children, List.mem_filterMap]
  constructor
  · rintro ⟨listed, member, kept⟩
    exact entry_of_child kept ▸ member
  · intro member
    exact ⟨_, member, by simp⟩

theorem nodup_children (fs : FileSystem) (place : Location) :
    ((fs.children place).map (·.1)).Nodup := by
  have keys := fs.entries.nodup_keys
  rw [SortedMap.keys, List.Nodup, List.pairwise_map] at keys
  rw [List.Nodup, List.pairwise_map, children, List.pairwise_filterMap]
  refine keys.imp fun {a b} apart child childOf other otherOf same => apart ?_
  rw [entry_of_child childOf, entry_of_child otherOf, same]

theorem at?_removeTree (fs : FileSystem) (place other : Location)
    (notDir : fs.at? place ≠ some .dir) :
    (fs.removeTree place).at? other = if other = place then none else fs.at? other := by
  have notRoot : place ≠ [] := by
    rintro rfl
    exact notDir fs.at?_root
  by_cases root : other = []
  · simp [root, at?_root, notRoot.symm]
  · have kept : (fs.removeTree place).at? other =
        if !place.isPrefixOf other then fs.at? other else none := by
      simp [at?, entryAt, root, removeTree, SortedMap.get?_filter]
    rw [kept]
    by_cases below : place <+: other
    · obtain ⟨rest, rfl⟩ := below
      by_cases same : rest = []
      · simp [same, List.isPrefixOf_iff_prefix.2 (List.prefix_refl place)]
      · simp [same, fs.at?_below place rest same notDir]
    · have apart : other ≠ place := by
        rintro rfl
        exact below (List.prefix_refl _)
      simp [below, apart]

end FileSystem

end BuildIdCache
