import BuildIdCache.Proofs.FileSystem.Spare
import BuildIdCache.Proofs.Parent

set_option autoImplicit false

namespace BuildIdCache.FileSystem

def Passes (fs : FileSystem) (path : Path) (place : Location) : Prop :=
  ∃ front left, front <+: path.moves ∧
    fs.aim linkLimit (fs.start path) front = some (place, left)

theorem passes_of_aimAt (fs : FileSystem) (path : Path) (place : Location)
    (leads : fs.aimAt path = some place) : fs.Passes path place := by
  obtain ⟨⟨reached, left⟩, aimed, rfl⟩ := Option.map_eq_some_iff.1 leads
  exact ⟨path.moves, left, List.prefix_refl _, aimed⟩

theorem Steady.passes {before after : FileSystem} (steady : Steady before after) (path : Path)
    (place : Location) : after.Passes path place ↔ before.Passes path place := by
  simp only [Passes, steady.start, steady.aim]

theorem passes_extend (fs : FileSystem) (root : Path) (names : List Name) (place : Location)
    (plain : fs.PlainBelow root) (passes : fs.Passes (root.extend names) place) :
    fs.Passes root place ∨
      ∃ top front, fs.aimAt root = some top ∧ front <+: names ∧ place = top ++ front := by
  obtain ⟨front, left, within, aimed⟩ := passes
  rw [start_extend] at aimed
  rw [Path.moves_extend] at within
  rcases List.prefix_or_prefix_of_prefix within (List.prefix_append _ _) with front | ⟨rest, rfl⟩
  · exact .inl ⟨_, left, front, aimed⟩
  · obtain ⟨spelled, before, rfl⟩ :=
      List.prefix_map_iff.1 ((List.prefix_append_right_inj root.moves).1 within)
    have whole : fs.aimAt (root.extend spelled) = some place := by
      rw [aimAt, start_extend, Path.moves_extend, aimed]
      rfl
    rw [fs.aimAt_extend root spelled plain, Option.map_eq_some_iff] at whole
    obtain ⟨top, leads, rfl⟩ := whole
    exact .inr ⟨top, spelled, leads, before, rfl⟩

theorem aimAt_withoutTrailingSlashes (fs : FileSystem) (path : Path)
    (notEmpty : path.withoutTrailingSlashes.bytes ≠ []) :
    fs.aimAt path.withoutTrailingSlashes = fs.aimAt path := by
  rw [aimAt, aimAt, start, start, path.moves_withoutTrailingSlashes,
    path.isAbsolute_withoutTrailingSlashes notEmpty]

theorem MadeFor.aimed {fs : FileSystem} {paths : List Path} {place : Location}
    (made : fs.MadeFor paths place) : ∃ path ∈ paths, fs.aimAt path = some place := by
  obtain ⟨path, member, between, parent, name, sprouts, found, rfl⟩ := made
  have notEmpty : path.withoutTrailingSlashes.bytes ≠ [] := by
    intro empty
    simp [resolve, empty] at found
  refine ⟨path, member, ?_⟩
  rw [← fs.aimAt_withoutTrailingSlashes path notEmpty, ← sprouts.steady.aimAt]
  exact between.aimAt_of_resolve _ _ found

theorem MadeFor.passes {fs : FileSystem} {path : Path} {place : Location}
    (made : fs.MadeFor path.ancestors place) : fs.Passes path place := by
  obtain ⟨other, member, leads⟩ := made.aimed
  obtain ⟨within, same⟩ := path.moves_ancestors other member
  obtain ⟨front, left, within', reached⟩ := fs.passes_of_aimAt _ _ leads
  refine ⟨front, left, within'.trans within, ?_⟩
  rwa [start, ← same]

theorem withParents_passes (fs : FileSystem) (path : Path) (place : Location)
    (changed : (fs.withParents path).at? place ≠ fs.at? place) : fs.Passes path place := by
  unfold withParents at changed
  split at changed
  next dir parent =>
    obtain ⟨within, same⟩ := path.moves_parent dir parent
    obtain ⟨front, left, within', aimed⟩ :=
      ((fs.makeDirs_sprouts dir.ancestors).2 place changed).passes
    exact ⟨front, left, within'.trans within, by rwa [start, ← same]⟩
  next => exact absurd rfl changed

theorem copied_at? (fs after : FileSystem) (source target : Path)
    (written : (fs.withParents target).copy source target = .ok after) (place : Location) :
    after.at? place = fs.at? place ∨ fs.Passes target place ∧
      (fs.aimAt target = some place ∨ fs.at? place = none ∧ after.at? place = some .dir) := by
  have sprouts := fs.withParents_sprouts target
  obtain ⟨filled, content, leads, same, -⟩ := copy_sameBut _ after _ _ written
  have aimed := aimAt_of_target? _ _ filled leads
  rw [sprouts.steady.aimAt] at aimed
  rw [same.at?]
  split
  next here =>
    subst here
    exact .inr ⟨fs.passes_of_aimAt target place aimed, .inl aimed⟩
  next =>
    rcases sprouts.at? place with still | ⟨absent, made⟩
    · exact .inl still
    · refine .inr ⟨fs.withParents_passes target place ?_, .inr ⟨absent, made⟩⟩
      simp [absent, made]

end BuildIdCache.FileSystem
