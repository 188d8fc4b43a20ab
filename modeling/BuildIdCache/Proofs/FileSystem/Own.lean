import BuildIdCache.Proofs.FileSystem.Apart
import BuildIdCache.Proofs.FileSystem.Reread

set_option autoImplicit false

namespace BuildIdCache.FileSystem

def Meant (fs : FileSystem) (root : Path) (own : List Name → Prop) (place : Location) : Prop :=
  ∃ top names, fs.aimAt root = some top ∧ own names ∧ place = top ++ names

def OnWay (fs : FileSystem) (root : Path) (own : List Name → Prop) (place : Location) : Prop :=
  fs.Passes root place ∨ ∃ top front rest, fs.aimAt root = some top ∧ own (front ++ rest) ∧
    rest ≠ [] ∧ place = top ++ front

/-- A change of nothing but what is meant below a root. Elsewhere directories are made that are
missing on the way there, and none goes away. -/
structure KeepsTo (before after : FileSystem) (root : Path) (own : List Name → Prop)
    (fits : Option Entry → Prop) : Prop where
  steady : Steady before after
  at? : ∀ place, after.at? place = before.at? place ∨
    before.Meant root own place ∧ fits (after.at? place) ∨
    (before.Meant root own place ∨ before.at? place = none) ∧ after.at? place = some .dir ∧
      before.OnWay root own place

section

variable {fs after : FileSystem} {root : Path} {own : List Name → Prop} {fits : Option Entry → Prop}

theorem KeepsTo.refl (fs : FileSystem) : KeepsTo fs fs root own fits :=
    ⟨.refl fs, fun _ => .inl rfl⟩

theorem Steady.meant (steady : Steady fs after) (place : Location) :
    after.Meant root own place ↔ fs.Meant root own place := by
  simp only [Meant, steady.aimAt]

theorem Steady.onWay (steady : Steady fs after) (place : Location) :
    after.OnWay root own place ↔ fs.OnWay root own place := by
  simp only [OnWay, steady.aimAt, steady.passes]

theorem KeepsTo.trans {third : FileSystem} (a : KeepsTo fs after root own fits)
    (b : KeepsTo after third root own fits) : KeepsTo fs third root own fits where
  steady := a.steady.trans b.steady
  at? place := by
    have later := b.at? place
    rw [a.steady.meant, a.steady.onWay] at later
    grind [a.at? place]

theorem KeepsTo.fills (keeps : KeepsTo fs after root own fits) : Fills fs after root where
  steady := keeps.steady
  at? place := by
    have within : fs.Meant root own place → ∃ top, fs.aimAt root = some top ∧ top <+: place := by
      rintro ⟨top, names, leads, -, rfl⟩
      exact ⟨top, leads, List.prefix_append _ _⟩
    rcases keeps.at? place with same | ⟨meant, -⟩ | ⟨meant | absent, made, way⟩
    · exact .inr (.inl same)
    · exact .inl (within meant)
    · exact .inl (within meant)
    · obtain passes | ⟨top, front, -, leads, -, -, rfl⟩ := way
      · exact .inr (.inr ⟨absent, made, passes⟩)
      · exact .inl ⟨top, leads, List.prefix_append _ _⟩

theorem keepsTo_of_makeDirAll : KeepsTo fs (fs.makeDirAll root).1 root own fits := by
  obtain ⟨sprouts, made⟩ := fs.makeDirs_sprouts root.ancestors
  refine ⟨sprouts.steady, fun place => ?_⟩
  rcases sprouts.at? place with same | ⟨absent, isDir⟩
  · exact .inl same
  · exact .inr (.inr ⟨.inr absent, isDir, .inl (made place (by simp [absent, isDir])).passes⟩)

variable (plain : fs.PlainBelow root) {names : List Name} (meant : own names)

include plain meant

theorem keepsTo_of_withParents (further : names ≠ []) :
    KeepsTo fs (fs.withParents (root.extend names)) root own fits := by
  have sprouts := fs.withParents_sprouts (root.extend names)
  refine ⟨sprouts.steady, fun place => ?_⟩
  rcases sprouts.at? place with same | ⟨absent, isDir⟩
  · exact .inl same
  refine .inr (.inr ⟨.inr absent, isDir, ?_⟩)
  -- The directory above spells all names but the last.
  obtain ⟨dir, parent, moves, absolute⟩ := root.parent_extend names further
  have made : fs.Passes (root.extend names.dropLast) place := by
    have changed : (fs.makeDirAll dir).1.at? place ≠ fs.at? place := by
      rw [withParents, parent] at isDir
      simp [absent, isDir]
    obtain ⟨front, left, within, aimed⟩ :=
      ((fs.makeDirs_sprouts dir.ancestors).2 place changed).passes
    refine ⟨front, left, by rwa [Path.moves_extend, ← moves], ?_⟩
    rwa [start_extend, ← fs.start_congr absolute]
  rcases fs.passes_extend root _ place plain made with
    passes | ⟨top, front, leads, ⟨rest, within⟩, rfl⟩
  · exact .inl passes
  · refine .inr ⟨top, front, rest ++ [names.getLast further], leads, ?_, by simp, rfl⟩
    rwa [← List.append_assoc, within, List.dropLast_append_getLast]

theorem keepsTo_of_touchesOnly (touches : fs.TouchesOnly after (root.extend names))
    (left : ∀ place, after.at? place = fs.at? place ∨ fits (after.at? place)) :
    KeepsTo fs after root own fits := by
  refine ⟨touches.steady, fun place => ?_⟩
  rcases left place with same | fit
  · exact .inl same
  obtain rfl | ⟨filled, entry, target, -, same⟩ := touches
  · exact .inl rfl
  by_cases here : place = filled
  · have leads := fs.aimAt_of_target? _ filled target
    rw [fs.aimAt_extend root names plain, Option.map_eq_some_iff] at leads
    obtain ⟨top, leads, rfl⟩ := leads
    exact .inr (.inl ⟨⟨top, names, leads, meant, here⟩, fit⟩)
  · exact .inl (by rw [same.at?, if_neg here])

theorem keepsTo_of_cleared (further : names ≠ []) (cleared : fs.Cleared after (root.extend names))
    (gone : fits none) : KeepsTo fs after root own fits := by
  have touches := touchesOnly_of_cleared plain names further cleared
  refine keepsTo_of_touchesOnly plain meant touches fun place => ?_
  obtain ⟨-, rfl⟩ | ⟨-, removed⟩ := cleared
  · exact .inl rfl
  · rcases fs.removeFile_sameBut after _ removed with ⟨filled, -, same⟩ | ⟨parent, name, -, -, same⟩
    all_goals
      rw [same.at?]
      split
      · exact .inr gone
      · exact .inl rfl

theorem keepsTo_of_write {content : ByteArray} (file : ∀ content, fits (some (.file content)))
    (written : fs.write (root.extend names) content = .ok after) :
    KeepsTo fs after root own fits := by
  obtain ⟨filled, target, same⟩ := fs.write_sameBut after _ content written
  refine keepsTo_of_touchesOnly plain meant (.inr ⟨filled, _, target, by simp, same⟩) fun place =>
    ?_
  rw [same.at?]
  split
  · exact .inr (file content)
  · exact .inl rfl

theorem keepsTo_of_copied (further : names ≠ []) (file : ∀ content, fits (some (.file content)))
    (source : Path)
    (written : (fs.withParents (root.extend names)).copy source (root.extend names) = .ok after) :
    KeepsTo fs after root own fits := by
  have parents : KeepsTo fs _ root own fits := keepsTo_of_withParents plain meant further
  have touches := touchesOnly_of_copy _ after _ _ written
  obtain ⟨filled, content, -, same, -⟩ := copy_sameBut _ after _ _ written
  refine parents.trans (keepsTo_of_touchesOnly (parents.steady.plainBelow plain) meant touches
    fun place => ?_)
  rw [same.at?]
  split
  · exact .inr (file content)
  · exact .inl rfl

end

end BuildIdCache.FileSystem
