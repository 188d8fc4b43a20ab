import BuildIdCache.Proofs.Mapped

set_option autoImplicit false

namespace BuildIdCache

def namesOf (components : List Component) : List Name := components.filterMap Component.name?

theorem eq_names_of_onlyNames {components : List Component}
    (only : ∀ component ∈ components, ∃ name, component = .name name) :
    components = (namesOf components).map .name := by
  induction components with
  | nil => rfl
  | cons component rest ih =>
    obtain ⟨name, rfl⟩ := only component (by simp)
    have further := ih fun other member => only other (by simp [member])
    simpa [namesOf, Component.name?] using further

namespace Cache

variable (cache : Cache) (path : Path)

theorem relativeString?_outside (outside : ¬cache.root.components <+: path.components) :
    cache.relativeString? path = none := by
  have apart : path.below? cache.root = none := by
    simpa [Path.below?, List.isPrefixOf_iff_prefix] using outside
  rw [relativeString?, apart]

variable {cache path} {rest : List Component} {text : String}
  (split : path.components = cache.root.components ++ rest)

include split

theorem relativeString?_eq_some : cache.relativeString? path = some text ↔
    namesOf rest ≠ [] ∧ renderNames (namesOf rest) = some text := by
  rw [relativeString?, (path.below?_eq_some cache.root rest).2 split]
  cases names : rest.filterMap Component.name? with
  | nil => simp [namesOf, names]
  | cons name more => simp [namesOf, names]

variable (rendered : cache.relativeString? path = some text)

include rendered

theorem components_join_rendered : (cache.root.join (.ofString text)).components =
    cache.root.components ++ (namesOf rest).map .name := by
  obtain ⟨further, is⟩ := (relativeString?_eq_some split).1 rendered
  rw [join_rendered cache.root further is, Path.components_extend]

theorem components_join_rendered_iff :
    (cache.root.join (.ofString text)).components = path.components ↔
      ∀ component ∈ rest, ∃ name, component = .name name := by
  rw [components_join_rendered split rendered, split, List.append_cancel_left_eq]
  constructor
  · intro same component member
    rw [← same] at member
    obtain ⟨name, -, is⟩ := List.mem_map.1 member
    exact ⟨name, is.symm⟩
  · exact fun only => (eq_names_of_onlyNames only).symm

end Cache

/-- Nothing is rendered of a path that does not begin with the root. Behind the root the names are
rendered, and nothing else: so what is rendered denotes the path where only names stand there, and
under a root that is not empty, where no ".." does. -/
theorem Cache.relativeString?_renders_names (cache : Cache) (path : Path) :
    (¬cache.root.components <+: path.components → cache.relativeString? path = none) ∧
    ∀ rest, path.components = cache.root.components ++ rest → ∀ text,
      (cache.relativeString? path = some text ↔
        namesOf rest ≠ [] ∧ renderNames (namesOf rest) = some text) ∧
      (cache.relativeString? path = some text →
        (cache.root.join (.ofString text)).components =
          cache.root.components ++ (namesOf rest).map .name ∧
        ((cache.root.join (.ofString text)).components = path.components ↔
          ∀ component ∈ rest, ∃ name, component = .name name) ∧
        (cache.root.components ≠ [] →
          ((cache.root.join (.ofString text)).components = path.components ↔ .up ∉ rest))) := by
  refine ⟨cache.relativeString?_outside path, fun rest split text =>
    ⟨relativeString?_eq_some split, fun rendered => ?_⟩⟩
  have denotes := components_join_rendered_iff split rendered
  refine ⟨components_join_rendered split rendered, denotes, fun notEmpty => denotes.trans ?_⟩
  have behind := path.component_of_behind _ rest notEmpty split
  constructor
  · intro only climbs
    obtain ⟨name, is⟩ := only _ climbs
    cases is
  · exact fun noUp component member => (behind component member).resolve_left fun up =>
      noUp (up ▸ member)

namespace Sample

def plainCache : Cache := ⟨.ofString "cache"⟩
def insideName : Name := ⟨[0x62], by decide⟩

theorem relativeString?_renders_names_sample :
    plainCache.relativeString? (.ofString "cache/.//b") = some "b" ∧
      (plainCache.root.join (.ofString "b")).components = (Path.ofString "cache/.//b").components ∧
      plainCache.relativeString? (.ofString "b") = none := by
  have split : (Path.ofString "cache/.//b").components =
      plainCache.root.components ++ [.name insideName] := by cbv
  obtain ⟨denotes, only⟩ := (plainCache.relativeString?_renders_names _).2 _ split "b"
  have rendered := denotes.2 ⟨by decide, by cbv⟩
  refine ⟨rendered, (only rendered).2.1.2 (by simp), ?_⟩
  exact (plainCache.relativeString?_renders_names _).1 (by decide +kernel)

theorem climbing_path_rendered :
    (Path.ofString "cache/../b").components =
      plainCache.root.components ++ [.up, .name insideName] ∧
      plainCache.relativeString? (.ofString "cache/../b") = some "b" ∧
      (plainCache.root.join (.ofString "b")).components ≠
        (Path.ofString "cache/../b").components := by
  have inside : (plainCache.root.join (.ofString "b")).components =
      plainCache.root.components ++ [.name insideName] := by cbv
  have climbs : (Path.ofString "cache/../b").components =
      plainCache.root.components ++ [.up, .name insideName] := by cbv
  refine ⟨climbs, by cbv, ?_⟩
  simp [inside, climbs]

end Sample

end BuildIdCache
