import BuildIdCache.Proofs.FileSystem.Reread

set_option autoImplicit false

namespace BuildIdCache.FileSystem

theorem Had.read {before after : FileSystem} {root : Path} {names : List Name} {top : Location}
    {content other : ByteArray} (had : before.Had (root.extend names) content)
    (entered : before.Enters root top) (plain : before.PlainBelow root)
    (plainAfter : after.PlainBelow root) (readable : after.read (root.extend names) = .ok other) :
    before.read (root.extend names) = .ok content := by
  obtain ⟨place, leads, there⟩ := had
  rw [before.aimAt_extend root names plain, entered.aimAt] at leads
  obtain rfl : top ++ names = place := Option.some.inj leads
  have further : names ≠ [] := by
    rintro rfl
    simp [entered.isDir] at there
  obtain ⟨top', again, later⟩ := after.entered_of_read root names other plainAfter further readable
  obtain ⟨parent, name, found⟩ := (after.read_eq_ok _ other).1 readable
  exact (before.read_eq_ok _ content).2
    ⟨_, _, entered.resolve_file again names further content other _ true there later found⟩

/-- A change of the file that has some names below a root. All others are what they were, as far as
they can be read; none comes that was not there; and the root can still be entered. -/
structure Renews (before after : FileSystem) (root : Path) (names : List Name) : Prop where
  plain : after.PlainBelow root
  enters : ∀ top, before.Enters root top → after.Enters root top
  reached : before.Reached root → after.Reached root
  had : ∀ other content, other ≠ names → after.Had (root.extend other) content →
    before.Had (root.extend other) content
  read : ∀ other content, other ≠ names → (other ≠ [] → before.Reached root) →
    (after.read (root.extend other) = .ok content ↔ before.read (root.extend other) = .ok content)

theorem Renews.trans {first second third : FileSystem} {root : Path} {names : List Name}
    (a : Renews first second root names) (b : Renews second third root names) :
    Renews first third root names where
  plain := b.plain
  enters top entered := b.enters top (a.enters top entered)
  reached before := b.reached (a.reached before)
  had other content apart now := a.had other content apart (b.had other content apart now)
  read other content apart before :=
    (b.read other content apart fun further => a.reached (before further)).trans
      (a.read other content apart before)

section

variable {fs after : FileSystem} {root : Path} {names : List Name} (plain : fs.PlainBelow root)

include plain

theorem renews_refl : Renews fs fs root names :=
  ⟨plain, fun _ h => h, fun h => h, fun _ _ _ h => h, fun _ _ _ _ => Iff.rfl⟩

theorem renews_of_sprouts (sprouts : Sprouts fs after)
    (gone : fs.at? (fs.start root) ≠ some .dir → after = fs)
    (reached : ([] : List Name) ≠ names → after.Reached root) : Renews fs after root names where
  plain := sprouts.steady.plainBelow plain
  enters _ entered := sprouts.steady.enters entered
  reached before := before.steady sprouts.steady gone
  had _ _ _ now := now.of_sprouts sprouts
  read other content apart before := by
    by_cases atRoot : other = []
    · subst atRoot
      have unread := (reached apart).unread content
      exact ⟨fun h => absurd h unread, fun h => absurd (sprouts.read root content h) unread⟩
    · exact (rereads_of_sprouts plain (before atRoot) atRoot sprouts gone).read content

theorem renews_of_withParents
    (made : ∀ dir, (root.extend names).parent? = some dir → (fs.makeDirAll dir).2 = .ok ()) :
    Renews fs (fs.withParents (root.extend names)) root names :=
  renews_of_sprouts plain (fs.withParents_sprouts _)
    (fun gone => fs.withParents_of_gone _ (by rwa [start_extend]))
    fun further => reached_of_withParents names further.symm made

theorem renews_of_makeDirAll (made : (fs.makeDirAll root).2 = .ok ()) :
    Renews fs (fs.makeDirAll root).1 root names := by
  by_cases empty : root.bytes = []
  · have unchanged : (fs.makeDirAll root).1 = fs := by
      rw [makeDirAll, Path.ancestors, if_pos empty]
      rfl
    rw [unchanged]
    exact renews_refl plain
  · exact renews_of_sprouts plain (fs.makeDirAll_sprouts root) (fs.makeDirAll_of_gone root)
      fun _ _ => fs.makeDirAll_enters _ root empty (Prod.ext rfl made)

theorem renews_of_touchesOnly (touches : fs.TouchesOnly after (root.extend names)) :
    Renews fs after root names where
  plain := touches.steady.plainBelow plain
  enters _ entered := touches.steady.enters entered
  reached before := before.touches touches
  had other content apart := by
    rintro ⟨place, leads, there⟩
    rw [touches.steady.aimAt] at leads
    refine ⟨place, leads, ?_⟩
    obtain rfl | ⟨filled, entry, target, -, same⟩ := touches
    · exact there
    · have aimed := fs.aimAt_of_target? _ filled target
      rw [fs.aimAt_extend root _ plain, Option.map_eq_some_iff] at aimed leads
      obtain ⟨top, toRoot, rfl⟩ := aimed
      obtain ⟨top', toRoot', rfl⟩ := leads
      obtain rfl : top = top' := Option.some.inj (toRoot.symm.trans toRoot')
      rwa [same.at?, if_neg (by simpa using apart)] at there
  read other content apart before := by
    by_cases atRoot : other = []
    · subst atRoot
      have steady := touches.steady
      obtain rfl | ⟨place, entry, target, -⟩ := touches
      · rfl
      · obtain ⟨found, resolved⟩ := fs.resolve_of_target? _ place target
        obtain ⟨top, entered⟩ := fs.enters_of_extend true root names found apart.symm resolved
        have reached : ∀ now : FileSystem, now.Enters root top → now.read root ≠ .ok content :=
          fun now entered => Reached.unread (fun _ => ⟨top, entered⟩) content
        exact ⟨fun h => absurd h (reached after (steady.enters entered)),
          fun h => absurd h (reached fs entered)⟩
    · exact (rereads_of_touchesOnly plain (before atRoot) atRoot apart.symm touches).read content

theorem renews_of_cleared (cleared : fs.Cleared after (root.extend names)) :
    Renews fs after root names := by
  by_cases atRoot : names = []
  · subst atRoot
    obtain ⟨-, rfl⟩ | ⟨file, removed⟩ := cleared
    · exact renews_refl plain
    have unreached : ¬fs.Reached root := by
      obtain ⟨content, readable⟩ := (fs.isFile_iff root).1 file
      exact fun reached => reached.unread content readable
    rcases fs.removeFile_sameBut after root removed with
      ⟨place, target, same⟩ | ⟨parent, name, target, last, same⟩
    · exact renews_of_touchesOnly plain (.inr ⟨place, none, target, by simp, same⟩)
    · have plainAfter := fs.plainBelow_of_unlinked after root parent name target last file same
      refine ⟨plainAfter, fun top entered => absurd (fun _ => ⟨top, entered⟩) unreached,
        fun reached => absurd reached unreached, fun other content _ => ?_,
        fun other content further before => absurd (before further) unreached⟩
      rintro ⟨place, leads, there⟩
      rw [after.aimAt_extend root other plainAfter, Option.map_eq_some_iff] at leads
      obtain ⟨top, toRoot, rfl⟩ := leads
      simp [fs.nothing_below_unlinked after root parent name target last file same top other toRoot]
        at there
  · exact renews_of_touchesOnly plain (touchesOnly_of_cleared plain names atRoot cleared)

theorem had_of_cleared {ready : FileSystem} {content : ByteArray}
    (cleared : fs.Cleared ready (root.extend names)) (sprouts : Sprouts ready after)
    (readable : after.read (root.extend names) = .ok content) :
    fs.Had (root.extend names) content ∧ ∀ top, ¬fs.Enters root top := by
  have had := (after.place_of_read _ content readable).of_sprouts sprouts
  obtain ⟨absent, rfl⟩ | ⟨file, removed⟩ := cleared
  · refine ⟨had, fun top entered => ?_⟩
    have present := (ready.isFile_iff (root.extend names)).2
      ⟨content, had.read entered plain (sprouts.steady.plainBelow plain) readable⟩
    simp [absent] at present
  · exact absurd had (not_had_of_removed _ file removed content)

theorem renews_of_replaced {ready : FileSystem}
    (made : ∀ dir, (root.extend names).parent? = some dir → (fs.makeDirAll dir).2 = .ok ())
    (cleared : (fs.withParents (root.extend names)).Cleared ready (root.extend names))
    (touches : ready.TouchesOnly after (root.extend names)) : Renews fs after root names := by
  have first : Renews fs (fs.withParents (root.extend names)) root names :=
    renews_of_withParents plain made
  have second := renews_of_cleared first.plain cleared
  exact (first.trans second).trans (renews_of_touchesOnly second.plain touches)

end

end BuildIdCache.FileSystem
