import BuildIdCache.Proofs.Index.Exact
import BuildIdCache.Proofs.Source.Stock
import BuildIdCache.Proofs.Source.Symbols

set_option autoImplicit false

namespace BuildIdCache.Index

open FileSystem

variable {σ : Type} {inspector : Inspector σ} {cache : Cache}

/-- A store has written the records of some files, once their root was made. -/
structure Stored (inspector : Inspector σ) (cache : Cache) (made fs : FileSystem) (place : Location)
    (records : List IndexRecord) : Prop where
  plain : made.PlainBelow cache.root
  gathered : Exact inspector cache made place records
  isDir : made.resolve true cache.root = .ok (.dir place)
  listed : made.listing cache.root pathLimit [] ≠ none
  target : made.target? cache.listPath = some (place ++ [listName])
  written : made.write cache.listPath (render records).toUTF8 = .ok fs

theorem store_stored (keeps : inspector.KeepsFiles) {world after : World σ}
    {records : List IndexRecord} (plain : world.files.PlainBelow cache.root)
    (ran : store inspector cache world = (.ok records, after)) :
    ∃ made place, Sprouts world.files made ∧
      Stored inspector cache made after.files place records := by
  obtain ⟨made, place, visited, making, isDir, lists, gathered, writing⟩ :=
    store_eq_ok keeps world after records ran
  have sprouts := world.files.makeDirAll_sprouts cache.root
  rw [making] at sprouts
  have leads := made.aimAt_of_resolve _ _ isDir
  have plainMade := sprouts.steady.plainBelow plain
  exact ⟨made, place, sprouts, plainMade, exact_of_gathered leads lists gathered, isDir,
    by simp [lists], (write_list leads (fun target => plainMade place _ target leads (by simp))
      writing).1, writing⟩

section

variable {made fs : FileSystem} {place : Location} {records : List IndexRecord}
  (stored : Stored inspector cache made fs place records)

include stored

theorem Stored.sameBut :
    SameBut made fs (place ++ [listName]) (some (.file (render records).toUTF8)) := by
  obtain ⟨filled, target, same⟩ := made.write_sameBut fs _ _ stored.written
  obtain rfl := Option.some.inj (stored.target.symm.trans target)
  exact same

theorem Stored.steady : Steady made fs :=
  stored.sameBut.steady_of_target? stored.target (by simp)

theorem Stored.touches : made.TouchesOnly fs (cache.root.extend [listName]) :=
  .inr ⟨_, _, stored.target, by simp, stored.sameBut⟩

theorem Stored.again {reading : Reading} (reads : inspector.Reads reading) (world : World σ)
    (workingDir : world.files.workingDir = fs.workingDir)
    (same : ∀ other, world.files.at? other = fs.at? other) :
    ∃ last, store inspector cache world = (.ok records, last) ∧
      ∀ other, last.files.at? other = fs.at? other := by
  have unlinked : ListUnlinked cache made place := by
    intro names target link
    have leads := made.aimAt_of_resolve _ _ stored.isDir
    by_cases atRoot : names = []
    · simp [atRoot, show made.at? place = _ from made.resolve_holds true _ _ stored.isDir] at link
    · exact absurd link (stored.plain place names target leads atRoot)
  have changed : SameBut made world.files (place ++ [listName])
      (some (.file (render records).toUTF8)) :=
    ⟨workingDir.trans stored.sameBut.workingDir, fun other => by rw [same, stored.sameBut.at?]⟩
  have still := (changed.steady_of_target? stored.target (by simp)).resolve _ _ stored.isDir
  obtain ⟨visited, lists⟩ := Option.ne_none_iff_exists'.1 stored.listed
  obtain ⟨last, ran, written⟩ := store_again reads stored.gathered stored.isDir lists unlinked
    stored.written stored.target world (world.files.makeDirAll_of_resolve _ place still) changed
    (.inr ⟨_, rfl⟩)
  refine ⟨last, ran, fun other => ?_⟩
  rw [written.at?, same, stored.sameBut.at?]
  split <;> rfl

theorem Stored.stocks {before : FileSystem} {kept : String → Prop}
    {good : String → ByteArray → Prop} (sprouts : Sprouts before made)
    (stocks : cache.Stocks kept good before)
    (others : ∀ path, kept path → (cacheRelative path).names ≠ [listName]) :
    cache.Stocks kept good fs :=
  (stocks.sprouts sprouts).touches [listName] others stored.touches

theorem Stored.at?_kernelSymbols (top : Location) :
    fs.at? (top ++ [kernelSymbolsName]) = made.at? (top ++ [kernelSymbolsName]) := by
  rw [stored.sameBut.at?, if_neg]
  intro same
  exact absurd (List.append_singleton_inj.1 same).2 (by decide +kernel)

theorem Stored.current {before : FileSystem} {symbols : Option ByteArray}
    (sprouts : Sprouts before made) (current : cache.Current symbols before) :
    cache.Current symbols fs := by
  intro top leads
  rw [stored.steady.aimAt] at leads
  rw [stored.at?_kernelSymbols]
  exact current.sprouts sprouts top leads

theorem Stored.had_kernelSymbols {before : FileSystem} {content : ByteArray}
    (sprouts : Sprouts before made) (plain : before.PlainBelow cache.root)
    (had : before.Had cache.kernelSymbolsPath content) :
    fs.Had cache.kernelSymbolsPath content := by
  obtain ⟨other, leads, there⟩ := had
  refine ⟨other, by rw [stored.steady.aimAt, sprouts.steady.aimAt, leads], ?_⟩
  rw [cache.kernelSymbolsPath_eq_extend, before.aimAt_extend _ _ plain, Option.map_eq_some_iff]
    at leads
  obtain ⟨top, -, rfl⟩ := leads
  rw [stored.at?_kernelSymbols]
  exact (sprouts.file _ content).2 there

end

end BuildIdCache.Index
