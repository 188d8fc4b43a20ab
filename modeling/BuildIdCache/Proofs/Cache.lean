import Mathlib
import BuildIdCache.Proofs.Layout
import BuildIdCache.Proofs.Source.SearchDirs
import BuildIdCache.Proofs.Stripping

set_option autoImplicit false

namespace BuildIdCache

open FileSystem

theorem SearchDirs.names_of_sought {binaries : RequiredBinaries} {file : Path}
    {path expected : String} (member : (path, expected) ∈ sought binaries file) :
    (cacheRelative path).names ≠ [] := by
  obtain ⟨-, called⟩ := (mem_sought binaries file path expected).1 member
  obtain ⟨name, -, text⟩ := Option.bind_eq_some_iff.1 called
  exact names_ne_nil_of_called path name text

namespace Cache

/-- The cache has no links below its root, and holds a good file for each path that is kept. -/
structure Stocks (cache : Cache) (kept : String → Prop) (good : String → ByteArray → Prop)
    (fs : FileSystem) : Prop where
  plain : fs.PlainBelow cache.root
  has : ∀ path, kept path → ∃ content, fs.read (cache.pathOf path) = .ok content ∧ good path content

def Fits (reading : Reading) (binaries : RequiredBinaries) (bound : StrippedLevel) (path : String)
    (content : ByteArray) : Prop :=
  binaries.get? path = some (reading.buildId content) ∧ reading.buildId content ≠ "" ∧
    reading.level content ≤ bound

def Trusted (reading : Reading) (binaries : RequiredBinaries) (kept : String → Prop)
    (good : String → ByteArray → Prop) : Prop :=
  ∀ path content, kept path → good path content → ∃ expected,
    binaries.get? path = some expected ∧ (expected = "" ∨ reading.buildId content = expected)

variable {cache : Cache} {reading : Reading} {binaries : RequiredBinaries} {bound : StrippedLevel}
  {kept : String → Prop} {good : String → ByteArray → Prop} {fs after : FileSystem}

theorem fits_trusted : Trusted reading binaries kept (Fits reading binaries bound) :=
  fun _ _ _ fits => ⟨_, fits.1, .inr rfl⟩

theorem stocks_nothing (plain : fs.PlainBelow cache.root) :
    cache.Stocks (fun _ => False) good fs :=
  ⟨plain, fun _ never => never.elim⟩

theorem stocks_of_read {path : String} {content : ByteArray} (plain : fs.PlainBelow cache.root)
    (readable : fs.read (cache.pathOf path) = .ok content) (isGood : good path content) :
    cache.Stocks (· = path) good fs where
  plain := plain
  has := by
    rintro _ rfl
    exact ⟨content, readable, isGood⟩

namespace Stocks

variable (stocks : cache.Stocks kept good fs)

include stocks

theorem mono {fewer : String → Prop} (among : ∀ path, fewer path → kept path) :
    cache.Stocks fewer good fs :=
  ⟨stocks.plain, fun path isKept => stocks.has path (among path isKept)⟩

theorem sprouts (sprouts : Sprouts fs after) : cache.Stocks kept good after where
  plain := sprouts.steady.plainBelow stocks.plain
  has path isKept := by
    obtain ⟨content, readable, isGood⟩ := stocks.has path isKept
    exact ⟨content, sprouts.read _ _ readable, isGood⟩

variable (names : List Name) (others : ∀ path, kept path → (cacheRelative path).names ≠ names)

include others

theorem spares (spares : Spares fs after cache.root names) : cache.Stocks kept good after where
  plain := spares.plain
  has path isKept := by
    obtain ⟨content, readable, isGood⟩ := stocks.has path isKept
    exact ⟨content, spares.others _ content (others path isKept) readable, isGood⟩

theorem touches (touches : fs.TouchesOnly after (cache.root.extend names)) :
    cache.Stocks kept good after :=
  stocks.spares names others (spares_of_touchesOnly stocks.plain touches)

theorem removed (cleared : fs.Cleared after (cache.root.extend names)) :
    cache.Stocks kept good after :=
  stocks.spares names others (fs.spares_of_cleared after cache.root names stocks.plain cleared)

end Stocks

section

variable (distinct : cache.Distinct binaries) {path expected : String} {file : Path}
  (required : binaries.get? path = some expected)
  (lacking : ¬SearchDirs.Suffices reading fs file (cache.pathOf path) expected)
  (written : (fs.withParents (cache.pathOf path)).copy file (cache.pathOf path) = .ok after)

include lacking written

theorem read_offered {offered : ByteArray} (readable : fs.read file = .ok offered)
    (matched : reading.buildId offered = expected)
    (found : ∀ place,
      (fs.withParents (cache.pathOf path)).target? (cache.pathOf path) = some place →
        fs.aimAt file = some place → fs.at? place = some (.file offered) →
          fs.read (cache.pathOf path) = .ok offered) :
    after.read (cache.pathOf path) = .ok offered ∧ after.read file = .ok offered := by
  refine fs.read_copied after file _ offered readable (fun place filled leads => ?_) written
  obtain ⟨origin, leads', there⟩ := fs.place_of_read file offered readable
  obtain rfl : place = origin := Option.some.inj (leads.symm.trans leads')
  refine lacking ⟨offered, found place filled leads there, matched, ?_⟩
  rw [reading.levelAt_of_read fs file offered readable]
  exact lt_irrefl _

include distinct required

theorem Stocks.copied (stocks : cache.Stocks kept (Fits reading binaries bound) fs)
    (matched : ∀ other, kept other → expected ≠ "" → reading.buildIdAt fs file = expected) :
    cache.Stocks kept (Fits reading binaries bound) after ∧
      ∀ other, kept other → expected ≠ "" → reading.buildIdAt after file = expected := by
  have sprouts := fs.withParents_sprouts (cache.pathOf path)
  have touches := touchesOnly_of_copy _ after _ _ written
  have later := stocks.sprouts sprouts
  -- What is copied is still there afterwards, also where a link makes it the cached file itself.
  have offers : ∀ other, kept other → expected ≠ "" → ∃ offered,
      fs.read file = .ok offered ∧ reading.buildId offered = expected ∧
        after.read (cache.pathOf path) = .ok offered ∧ after.read file = .ok offered := by
    intro other isKept known
    have same := matched other isKept known
    obtain ⟨offered, readable, hasId⟩ :=
      reading.read_of_buildIdAt fs file (by rw [same]; exact known)
    rw [same] at hasId
    obtain ⟨content, there, -⟩ := stocks.has other isKept
    exact ⟨offered, readable, hasId, read_offered lacking written readable hasId
      fun place filled _ present => read_of_read stocks.plain sprouts _ place offered filled present
        (cacheRelative other).names content there⟩
  refine ⟨⟨touches.steady.plainBelow later.plain, fun other isKept => ?_⟩,
    fun other isKept known => ?_⟩
  · by_cases same : other = path
    · subst same
      obtain ⟨cached, there, required', known, level⟩ := stocks.has other isKept
      obtain rfl : expected = reading.buildId cached :=
        Option.some.inj (required.symm.trans required')
      obtain ⟨offered, readable, matched, now, -⟩ := offers other isKept known
      have less : reading.levelAt fs file < reading.level cached := by
        by_contra notLess
        exact lacking ⟨cached, there, rfl, notLess⟩
      rw [reading.levelAt_of_read fs file offered readable] at less
      exact ⟨offered, now, by rwa [matched], by rwa [matched], less.le.trans level⟩
    · obtain ⟨cached, there, fits⟩ := later.has other isKept
      exact ⟨cached, (spares_of_touchesOnly later.plain touches).others _ cached
        (distinct.names fits.1 required same) there, fits⟩
  · obtain ⟨offered, -, hasId, -, still⟩ := offers other isKept known
    rw [reading.buildIdAt_of_read after file offered still, hasId]

end

end Cache

namespace Sample

def cacheName : Name := ⟨[0x63], by decide⟩
def searchName : Name := ⟨[0x6C], by decide⟩
def fileName : Name := ⟨[0x61], by decide⟩

def files (cached found : ByteArray) : FileSystem :=
  (((FileSystem.empty.put [] cacheName .dir).put [cacheName] fileName (.file cached)).put
    [] searchName .dir).put [searchName] fileName (.file found)

def cache : Cache := ⟨.ofString "c"⟩

def binaries (expected : String) : RequiredBinaries := ⟨[("/a", expected)], by simp⟩

def reading : Reading where
  buildId content := if content.data[0]? = some 1 then "1" else ""
  sections content := if content.data[1]? = some 1 then [".symtab"] else []

def unknown : ByteArray := ⟨#[0]⟩
def stripped : ByteArray := ⟨#[1]⟩
def withSymbols : ByteArray := ⟨#[1, 1]⟩

theorem noLinks (cached found : ByteArray) (place : Location) (target : Path) :
    (files cached found).at? place ≠ some (.link target) := by
  have cacheDir := put_noLinks _ [] cacheName .dir empty_noLinks (by simp)
  have cachedFile := put_noLinks _ [cacheName] fileName (.file cached) cacheDir (by simp)
  have searchDir := put_noLinks _ [] searchName .dir cachedFile (by simp)
  exact put_noLinks _ [searchName] fileName (.file found) searchDir (by simp) place target

theorem plain (cached found : ByteArray) : (files cached found).PlainBelow cache.root :=
  plainBelow_of_noLinks _ _ (noLinks cached found)

theorem only_path {path expected : String} (required : (binaries expected).contains path) :
    path = "/a" := by
  obtain ⟨value, member⟩ := ((binaries expected).contains_iff path).1 required
  simpa using congrArg Prod.fst (List.mem_singleton.1 member)

theorem separates (expected : String) : cache.Separates (binaries expected) where
  paths path other required required' _ := (only_path required).trans (only_path required').symm
  kernelSymbols path required := by
    rw [only_path required]
    cbv
  list path required := by
    rw [only_path required]
    cbv

end Sample

end BuildIdCache
