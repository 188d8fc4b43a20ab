import Mathlib
import BuildIdCache.Proofs.Layout

set_option autoImplicit false

namespace BuildIdCache

theorem slash_notMem_part {recorded : String} {part : List Char}
    (member : part ∈ recorded.toList.splitOn '/') : '/' ∉ part := by
  intro cut
  have clear := notMem_of_mem_splitBy slash (encode recorded.toList) (encode part)
    (splitBy_encode _ ▸ List.mem_map_of_mem member)
  exact clear (List.mem_flatMap.2 ⟨'/', cut, by simp [encode_slash]⟩)

def AreNormal (parts : List (List Char)) : Prop :=
  ∀ part ∈ parts, isNormal part = true ∧ '/' ∉ part

theorem areNormal_normalParts (recorded : String) : AreNormal (normalParts recorded) := by
  intro part member
  obtain ⟨isPart, normal⟩ := List.mem_filter.1 member
  exact ⟨normal, slash_notMem_part isPart⟩

theorem normalParts_joinParts {parts : List (List Char)} (normal : AreNormal parts) :
    normalParts (joinParts parts) = parts := by
  rw [normalParts, joinParts, String.toList_ofList]
  by_cases empty : parts = []
  · subst empty
    decide
  · rw [List.splitOn_intercalate '/' (fun part member => (normal part member).2) empty]
    exact List.filter_eq_self.2 fun part member => (normal part member).1

theorem normalParts_absolute (recorded : String) :
    normalParts ("/" ++ recorded) = normalParts recorded := by
  have split : ("/" ++ recorded).toList.splitOn '/' = [] :: recorded.toList.splitOn '/' := by
    simp [List.splitOn_cons_eq_if_modifyHead]
  rw [normalParts, split]
  rfl

theorem names_cacheRelative_inj (recorded other : String) :
    (cacheRelative recorded).names = (cacheRelative other).names ↔
      normalParts recorded = normalParts other := by
  have bytes : Function.Injective (List.map Name.bytes) :=
    List.map_injective_iff.2 fun _ _ => Name.ext
  have texts : Function.Injective (List.map encode) := List.map_injective_iff.2 encode_injective
  rw [← bytes.eq_iff, bytes_cacheRelative, bytes_cacheRelative, texts.eq_iff]

theorem names_cacheRelative_nil (recorded : String) :
    (cacheRelative recorded).names = [] ↔ normalParts recorded = [] := by
  have bytes := bytes_cacheRelative recorded
  constructor
  · intro none
    simpa [none, eq_comm] using bytes
  · intro none
    simpa [none] using bytes

/-- A recorded path in canonical spelling: names behind a slash, with single slashes between them.
-/
def IsCanonical (recorded : String) : Prop :=
  ∃ parts, AreNormal parts ∧ recorded = "/" ++ joinParts parts

theorem IsCanonical.eq_joinParts {recorded : String} (canonical : IsCanonical recorded) :
    recorded = "/" ++ joinParts (normalParts recorded) := by
  obtain ⟨parts, normal, rfl⟩ := canonical
  rw [normalParts_absolute, normalParts_joinParts normal]

namespace Path

theorem below?_eq_some (path base : Path) (rest : List Component) :
    path.below? base = some rest ↔ path.components = base.components ++ rest := by
  simp only [below?, List.isPrefixOf_iff_prefix]
  split
  next starts =>
    obtain ⟨more, same⟩ := starts
    rw [← same, List.drop_left, Option.some.injEq, List.append_cancel_left_eq]
  next apart =>
    constructor
    · rintro ⟨⟩
    · exact fun same => absurd ⟨rest, same.symm⟩ apart

theorem component_of_behind (path : Path) (front rest : List Component) (notFirst : front ≠ [])
    (split : path.components = front ++ rest) :
    ∀ component ∈ rest, component = .up ∨ ∃ name, component = .name name := by
  have behind : ∀ component ∈ path.lead.2.filterMap Component.ofPart?,
      component = .up ∨ ∃ name, component = .name name := by
    intro component member
    obtain ⟨part, -, is⟩ := List.mem_filterMap.1 member
    unfold Component.ofPart? at is
    split at is
    next => exact .inl (Option.some.inj is).symm
    next =>
      obtain ⟨name, -, rfl⟩ := Option.map_eq_some_iff.1 is
      exact .inr ⟨name, rfl⟩
  intro component member
  apply behind
  unfold components at split
  cases first : path.lead.1 with
  | none =>
    rw [first, Option.toList, List.nil_append] at split
    rw [split]
    exact List.mem_append_right _ member
  | some lead =>
    obtain ⟨c, front, rfl⟩ := List.exists_cons_of_ne_nil notFirst
    rw [first, Option.toList, List.singleton_append, List.cons_append] at split
    rw [(List.cons.inj split).2]
    exact List.mem_append_right _ member

end Path

namespace Cache

variable (cache : Cache) (recorded other : String)

theorem components_pathOf :
    (cache.pathOf recorded).components =
      cache.root.components ++ (cacheRelative recorded).names.map .name :=
  cache.root.components_extend _

theorem relativeString?_pathOf :
    cache.relativeString? (cache.pathOf recorded) =
      if normalParts recorded = [] then none else some (joinParts (normalParts recorded)) := by
  split
  next none =>
    have root : cache.pathOf recorded = cache.root := by
      rw [pathOf_eq_extend, (names_cacheRelative_nil recorded).2 none, Path.extend_nil]
    have nothing : cache.root.below? cache.root = some [] := (Path.below?_eq_some _ _ _).2 (by simp)
    rw [root, relativeString?, nothing]
    rfl
  next some =>
    rw [pathOf_eq_extend, relativeString?_extend _ _ (mt (names_cacheRelative_nil recorded).1 some),
      renderNames_cacheRelative]

theorem pathOf_inj : cache.pathOf recorded = cache.pathOf other ↔
    normalParts recorded = normalParts other := by
  rw [pathOf_eq_extend, pathOf_eq_extend, (Path.extend_injective _).eq_iff, names_cacheRelative_inj]

theorem components_pathOf_inj :
    (cache.pathOf recorded).components = (cache.pathOf other).components ↔
    normalParts recorded = normalParts other := by
  rw [pathOf_eq_extend, pathOf_eq_extend, Path.components_extend_inj, names_cacheRelative_inj]

/-- A recorded path has its place at its parts below the root, which are rendered again as they are;
two recorded paths share a place exactly where they have the same parts, so none in canonical
spelling do. -/
theorem pathOf_parts :
    (∃ names : List Name, names.map Name.bytes = (normalParts recorded).map encode ∧
      (cache.pathOf recorded).components = cache.root.components ++ names.map .name) ∧
    cache.relativeString? (cache.pathOf recorded) =
      (if normalParts recorded = [] then none else some (joinParts (normalParts recorded))) ∧
    cache.pathOf (joinParts (normalParts recorded)) = cache.pathOf recorded ∧
    (cache.pathOf recorded = cache.pathOf other ↔ normalParts recorded = normalParts other) ∧
    ((cache.pathOf recorded).components = (cache.pathOf other).components ↔
      normalParts recorded = normalParts other) ∧
    (IsCanonical recorded → IsCanonical other → recorded ≠ other →
      (cache.pathOf recorded).components ≠ (cache.pathOf other).components) := by
  refine ⟨⟨_, bytes_cacheRelative recorded, cache.components_pathOf recorded⟩,
    cache.relativeString?_pathOf recorded, ?_, cache.pathOf_inj recorded other,
    cache.components_pathOf_inj recorded other, fun canonical canonical' apart same => apart ?_⟩
  · rw [pathOf_inj, normalParts_joinParts (areNormal_normalParts recorded)]
  · rw [canonical.eq_joinParts, canonical'.eq_joinParts, (cache.components_pathOf_inj _ _).1 same]

def oddCache : Cache := ⟨.ofString "a/../b/"⟩

theorem pathOf_parts_sample :
    oddCache.pathOf "/../lib//x/." = .ofString "a/../b/lib/x" ∧
      oddCache.relativeString? (oddCache.pathOf "/../lib//x/.") = some "lib/x" ∧
      oddCache.pathOf "lib/x" = oddCache.pathOf "/../lib//x/." ∧
      IsCanonical "/lib/x" ∧ IsCanonical "/lib/y" ∧
      (oddCache.pathOf "/lib/x").components ≠ (oddCache.pathOf "/lib/y").components := by
  have parts : normalParts "/../lib//x/." = ["lib".toList, "x".toList] := by decide
  have joined : joinParts ["lib".toList, "x".toList] = "lib/x" := by decide
  have canonical : ∀ last ∈ ["x".toList, "y".toList],
      IsCanonical ("/" ++ joinParts ["lib".toList, last]) := by
    have normal : ∀ last ∈ ["x".toList, "y".toList],
        ∀ part ∈ ["lib".toList, last], isNormal part = true ∧ '/' ∉ part := by decide
    exact fun last member => ⟨_, normal last member, rfl⟩
  have first : IsCanonical "/lib/x" := canonical "x".toList (by simp)
  have second : IsCanonical "/lib/y" := canonical "y".toList (by simp)
  obtain ⟨-, rendered, again, -⟩ := pathOf_parts oddCache "/../lib//x/." "/lib/x"
  rw [parts, joined] at rendered again
  refine ⟨by cbv, rendered, again, first, second, ?_⟩
  exact (pathOf_parts oddCache "/lib/x" "/lib/y").2.2.2.2.2 first second (by decide)

end Cache

end BuildIdCache
