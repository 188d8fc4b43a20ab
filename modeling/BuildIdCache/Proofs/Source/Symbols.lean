import BuildIdCache.Proofs.Closed
import BuildIdCache.Proofs.FileSystem.Child
import BuildIdCache.Proofs.FileSystem.Renew

set_option autoImplicit false

namespace BuildIdCache

open FileSystem

variable {σ : Type}

def FileSystem.receive (fs : FileSystem) (target : Path) : Option ByteArray → FileSystem
  | none => fs
  | some content =>
    match fs.write target content with
    | .ok after => after
    | .error _ => fs

/-- A device that answers the same, and gives the same kernel symbols, as long as something lasts
that none of some calls ends. -/
structure Bridge.Constant (bridge : Bridge σ) (calls : Call → Prop) (lasts : σ → Prop)
    (isThere rooted : Bool) (symbols : Option ByteArray) : Prop where
  available : ∀ world, lasts world.rest → bridge.available.After world fun answer after =>
    answer = isThere ∧ lasts after.rest
  switchToRoot : ∀ world, lasts world.rest → bridge.switchToRoot.After world fun answer after =>
    answer = rooted ∧ lasts after.rest
  shell : ∀ arguments, calls (.shell arguments) → ∀ world, lasts world.rest →
    (bridge.shell arguments).After world fun _ after => lasts after.rest
  pull : ∀ source target, calls (.pull source target) → ∀ world, lasts world.rest →
    (bridge.pull source target).After world fun _ after => lasts after.rest
  symbols : ∀ target world, lasts world.rest → bridge.switchToRoot.After world fun answer first =>
    answer = true → ∀ fs, (bridge.shell ["echo", "0", ">/proc/sys/kernel/kptr_restrict"]).After
      { first with files := fs } fun _ second =>
        (bridge.pull DeviceSource.deviceKernelSymbols target).After second fun _ after =>
          after.files = second.files.receive target symbols

namespace Simulated

theorem pull_receives (part : Part σ Device) (source : String) (target : Path) (world : World σ) :
    ((bridge part).pull source target).After world fun _ after =>
      after.files = world.files.receive target ((part.get world.rest).content? source) := by
  simp only [bridge, Effect.after_bind, Effect.after_read]
  split
  next none => simp [none, receive]
  next content given =>
    simp only [Effect.after_bind, Effect.after_files, given, receive]
    cases world.files.write target content <;> rfl

structure Device.Gives (isThere rooted : Bool) (symbols : Option ByteArray) (device : Device) :
    Prop where
  connects : device.connected = isThere
  roots : device.rooted = rooted
  given : rooted = true → device.content? DeviceSource.deviceKernelSymbols = symbols

theorem Device.Gives.shell {isThere rooted : Bool} {symbols : Option ByteArray} {device : Device}
    (gives : device.Gives isThere rooted symbols) (arguments : List String) :
    (device.shell arguments).2.Gives isThere rooted symbols := by
  have same : (device.shell arguments).2.connected = device.connected ∧
      (device.shell arguments).2.rooted = device.rooted ∧
      (device.shell arguments).2.unreadable = device.unreadable ∧
      (device.shell arguments).2.kernelSymbols = device.kernelSymbols := by
    unfold Device.shell
    split
    · split <;> simp
    all_goals simp
  refine ⟨same.1.trans gives.connects, same.2.1.trans gives.roots, fun isRooted => ?_⟩
  rw [← gives.given isRooted]
  simp [Device.content?, same, gives.roots, isRooted, DeviceSource.deviceKernelSymbols]

end Simulated

namespace Cache

variable {cache : Cache} {old : ByteArray → Prop} {fs after : FileSystem}

structure InSight (cache : Cache) (old : ByteArray → Prop) (fs : FileSystem) : Prop where
  plain : fs.PlainBelow cache.root
  entered : ∀ content, fs.Had cache.kernelSymbolsPath content →
    old content ∨ ∃ top, fs.Enters cache.root top

section

variable (inSight : cache.InSight old fs)

include inSight

theorem InSight.sprouts (sprouts : Sprouts fs after) : cache.InSight old after where
  plain := sprouts.steady.plainBelow inSight.plain
  entered content had := (inSight.entered content (had.of_sprouts sprouts)).imp_right
    (Exists.imp fun _ entered => sprouts.steady.enters entered)

theorem InSight.renews {names : List Name} (renews : Renews fs after cache.root names)
    (other : names ≠ [kernelSymbolsName]) : cache.InSight old after where
  plain := renews.plain
  entered content had := (inSight.entered content (renews.had _ content other.symm had)).imp_right
    (Exists.imp fun top entered => renews.enters top entered)

theorem InSight.touches (names : List Name)
    (touches : fs.TouchesOnly after (cache.root.extend names)) : cache.InSight old after := by
  by_cases here : names = [kernelSymbolsName]
  · subst here
    have steady := touches.steady
    obtain rfl | ⟨place, entry, target, -⟩ := touches
    · exact inSight
    · -- What can be written to is seen.
      obtain ⟨found, resolved⟩ := resolve_of_target? _ _ _ target
      obtain ⟨top, entered⟩ := fs.enters_of_extend true cache.root _ found (by simp) resolved
      exact ⟨steady.plainBelow inSight.plain, fun _ _ => .inr ⟨top, steady.enters entered⟩⟩
  · exact inSight.renews (renews_of_touchesOnly inSight.plain touches) here

theorem InSight.cleared (names : List Name) (cleared : fs.Cleared after (cache.root.extend names)) :
    cache.InSight old after := by
  by_cases atRoot : names = []
  · subst atRoot
    exact inSight.renews (renews_of_cleared inSight.plain cleared) (by simp)
  · exact inSight.touches names (touchesOnly_of_cleared inSight.plain names atRoot cleared)

end

def Current (cache : Cache) (leaves : Option ByteArray) (fs : FileSystem) : Prop :=
  ∀ top, fs.aimAt cache.root = some top →
    fs.at? (top ++ [kernelSymbolsName]) = some .dir ∨
      fs.at? (top ++ [kernelSymbolsName]) = leaves.map .file

variable {leaves : Option ByteArray}

theorem Current.sprouts (current : cache.Current leaves fs) (sprouts : Sprouts fs after) :
    cache.Current leaves after := by
  intro top leads
  rw [sprouts.steady.aimAt] at leads
  rcases sprouts.at? (top ++ [kernelSymbolsName]) with same | ⟨-, made⟩
  · exact same ▸ current top leads
  · exact .inl made

/-- The kernel symbols are what a device leaves, unless it leaves none and there is an old file. -/
def CurrentUnless (cache : Cache) (old : ByteArray → Prop) (leaves : Option ByteArray)
    (fs : FileSystem) : Prop :=
  cache.Current leaves fs ∨
    leaves = none ∧ ∃ content, old content ∧ fs.Had cache.kernelSymbolsPath content

theorem currentUnless_of_left (plain : fs.PlainBelow cache.root)
    (left : ∀ content, fs.Had cache.kernelSymbolsPath content → old content) :
    cache.CurrentUnless old none fs := by
  by_cases isLeft : ∃ content, fs.Had cache.kernelSymbolsPath content
  · exact .inr ⟨rfl, isLeft.imp fun content had => ⟨left content had, had⟩⟩
  refine .inl fun top leads => ?_
  have aimed : fs.aimAt cache.kernelSymbolsPath = some (top ++ [kernelSymbolsName]) := by
    rw [cache.kernelSymbolsPath_eq_extend, fs.aimAt_extend _ _ plain, leads]
    rfl
  rcases there : fs.at? (top ++ [kernelSymbolsName]) with _ | (content | _ | target)
  · exact .inr rfl
  · exact absurd ⟨content, _, aimed, there⟩ isLeft
  · exact .inl rfl
  · exact absurd there (plain top _ target leads (by simp))

theorem kernelSymbolsName_fits : kernelSymbolsName.bytes.length ≤ listName.bytes.length ∧
    0 ∉ kernelSymbolsName.bytes ∧ kernelSymbolsName.bytes.length ≤ nameLimit := by
  decide +kernel

section

variable {top : Location} (entered : fs.Enters cache.root top) (plain : fs.PlainBelow cache.root)
  {other : FileSystem} {found : Place} (fits : other.resolve true cache.listPath = .ok found)

include entered plain fits

theorem isFile_kernelSymbolsPath : fs.isFile cache.kernelSymbolsPath = true ↔
    ∃ content, fs.at? (top ++ [kernelSymbolsName]) = some (.file content) := by
  obtain ⟨shorter, clear, short⟩ := kernelSymbolsName_fits
  exact isFile_push entered fits shorter clear short
    fun target => plain top _ target entered.aimAt (by simp)

theorem cleared_kernelSymbolsPath (cleared : fs.Cleared after cache.kernelSymbolsPath) :
    (∀ content, fs.at? (top ++ [kernelSymbolsName]) ≠ some (.file content)) ∧ after = fs ∨
      (∃ content, fs.at? (top ++ [kernelSymbolsName]) = some (.file content)) ∧
        SameBut fs after (top ++ [kernelSymbolsName]) none := by
  obtain ⟨shorter, clear, short⟩ := kernelSymbolsName_fits
  exact cleared_push entered fits shorter clear short
    (fun target => plain top _ target entered.aimAt (by simp)) cleared

theorem receive_kernelSymbolsPath (content : ByteArray) :
    fs.at? (top ++ [kernelSymbolsName]) = some .dir ∧
        fs.receive cache.kernelSymbolsPath (some content) = fs ∨
      fs.at? (top ++ [kernelSymbolsName]) ≠ some .dir ∧
        Steady fs (fs.receive cache.kernelSymbolsPath (some content)) ∧
        SameBut fs (fs.receive cache.kernelSymbolsPath (some content)) (top ++ [kernelSymbolsName])
          (some (.file content)) := by
  obtain ⟨shorter, clear, short⟩ := kernelSymbolsName_fits
  rcases write_push entered fits shorter clear short
    (fun target => plain top _ target entered.aimAt (by simp)) content with
    ⟨isDir, failed⟩ | ⟨notDir, filled, written, changed⟩
  · have failed : fs.write cache.kernelSymbolsPath content = .error .isADirectory := failed
    exact .inl ⟨isDir, by rw [receive, failed]⟩
  · have written : fs.write cache.kernelSymbolsPath content = .ok filled := written
    exact .inr ⟨notDir, by rw [receive, written]; exact changed⟩

theorem current_of_received (content : ByteArray) :
    cache.Current (some content) (fs.receive cache.kernelSymbolsPath (some content)) := by
  intro place leads
  rcases receive_kernelSymbolsPath entered plain fits content with
    ⟨isDir, stays⟩ | ⟨-, steady, same⟩
  · rw [stays] at leads ⊢
    obtain rfl := Option.some.inj (entered.aimAt.symm.trans leads)
    exact .inl isDir
  · obtain rfl := Option.some.inj ((steady.enters entered).aimAt.symm.trans leads)
    exact .inr (by rw [same.at?, if_pos rfl]; rfl)

theorem renewed_current {ready : FileSystem} {leaves : Option ByteArray}
    (current : cache.Current leaves fs) (cleared : fs.Cleared ready cache.kernelSymbolsPath) :
    SameBut fs (ready.receive cache.kernelSymbolsPath leaves) (top ++ [kernelSymbolsName])
      (fs.at? (top ++ [kernelSymbolsName])) := by
  have unchanged : SameBut fs fs (top ++ [kernelSymbolsName])
      (fs.at? (top ++ [kernelSymbolsName])) := ⟨rfl, fun other => by grind -linarith⟩
  rcases cleared_kernelSymbolsPath entered plain fits cleared with
    ⟨noFile, rfl⟩ | ⟨⟨content, there⟩, gone⟩
  · rcases leaves with _ | content
    · exact unchanged
    · rcases receive_kernelSymbolsPath entered plain fits content with
        ⟨isDir, stays⟩ | ⟨notDir, -, -⟩
      · rwa [stays]
      · exact absurd ((current top entered.aimAt).resolve_left notDir) (noFile content)
  · have given := (current top entered.aimAt).resolve_left (by simp [there])
    rw [there, eq_comm, Option.map_eq_some_iff] at given
    obtain ⟨given, rfl, same⟩ := given
    obtain rfl := Entry.file.inj same
    have steady : Steady fs ready := gone.steady (.inr ⟨_, there⟩) (by simp)
    rcases receive_kernelSymbolsPath (steady.enters entered) (steady.plainBelow plain) fits given
      with ⟨isDir, -⟩ | ⟨-, -, filled⟩
    · simp [gone.at?] at isDir
    · rw [there]
      refine ⟨filled.workingDir.trans gone.workingDir, fun other => ?_⟩
      rw [filled.at?, gone.at?]
      split <;> rfl

end

end Cache

namespace SearchDirs

variable {inspector : Inspector σ} {cache : Cache} {binaries : RequiredBinaries}

theorem Closed.inSight (quiet : inspector.Leaves World.files) (old : ByteArray → Prop) :
    Closed inspector cache binaries fun world => cache.InSight old world.files where
  buildId path world inSight := (quiet.buildId path world).mono fun _ _ same => same ▸ inSight
  sections path world inSight := (quiet.sections path world).mono fun _ _ same => same ▸ inSight
  parents _ _ world inSight := inSight.sprouts (world.files.withParents_sprouts _)
  copied path _ source world fs inSight written :=
    (inSight.sprouts (world.files.withParents_sprouts _)).touches (cacheRelative path).names
      (touchesOnly_of_copy _ fs source _ written)

end SearchDirs

namespace DeviceSource

variable {inspector : Inspector σ} {bridge : Bridge σ} {chain : List Strategy} {cache : Cache}
  {binaries : RequiredBinaries}

theorem Closed.inSight (quiet : inspector.KeepsFiles) (confined : bridge.Confined)
    (old : ByteArray → Prop) :
    Closed inspector bridge chain cache binaries fun world => cache.InSight old world.files where
  buildId path world inSight := (quiet path world).mono fun _ _ same => same ▸ inSight
  available world inSight := (confined.available world).mono fun _ _ same => same ▸ inSight
  switchToRoot world inSight := (confined.switchToRoot world).mono fun _ _ same => same ▸ inSight
  shell arguments _ world inSight :=
    (confined.shell arguments world).mono fun _ _ same => same ▸ inSight
  pull source target can world inSight := by
    refine (confined.pull source target world).mono fun _ after touches => ?_
    obtain rfl | ⟨path, -, rfl⟩ := can.receives
    · exact inSight.touches [kernelSymbolsName] touches
    · exact inSight.touches (cacheRelative path).names touches
  made world inSight := inSight.sprouts (world.files.makeDirAll_sprouts _)
  parents _ _ world inSight := inSight.sprouts (world.files.withParents_sprouts _)
  cleared target receives world fs inSight cleared := by
    obtain rfl | ⟨path, -, rfl⟩ := receives
    · exact inSight.cleared [kernelSymbolsName] cleared
    · exact inSight.cleared (cacheRelative path).names cleared

variable {lasts : σ → Prop} {isThere rooted : Bool} {symbols : Option ByteArray}
  (constant : bridge.Constant (CanMake chain binaries cache) lasts isThere rooted symbols)

include constant

theorem Closed.rest (leaves : inspector.Leaves fun world => lasts world.rest) :
    Closed inspector bridge chain cache binaries fun world => lasts world.rest where
  buildId path world lasting := (leaves.buildId path world).mono fun _ _ same => same ▸ lasting
  available world lasting := (constant.available world lasting).mono fun _ _ kept => kept.2
  switchToRoot world lasting := (constant.switchToRoot world lasting).mono fun _ _ kept => kept.2
  shell := constant.shell
  pull := constant.pull
  made _ lasting := lasting
  parents _ _ _ lasting := lasting
  cleared _ _ _ _ lasting _ := lasting

variable (confined : bridge.Confined) {old : ByteArray → Prop} {other : FileSystem} {found : Place}
  (fits : other.resolve true cache.listPath = .ok found)

include confined

theorem ends_pullKernelSymbols_constant (world : World σ) (lasting : lasts world.rest)
    (done failed : FileSystem → Prop)
    (unrooted : ∀ fs, world.files.Cleared fs cache.kernelSymbolsPath → rooted = false → done fs)
    (pulls : ∀ fs, world.files.Cleared fs cache.kernelSymbolsPath → rooted = true →
      (fs.makeDirAll cache.root).2 = .ok () →
        done ((fs.makeDirAll cache.root).1.receive cache.kernelSymbolsPath symbols))
    (stops : ∀ fs e, world.files.Cleared fs cache.kernelSymbolsPath →
      (fs.makeDirAll cache.root).2 = .error e → failed (fs.makeDirAll cache.root).1) :
    (pullKernelSymbols bridge cache).Ends world (fun _ after => done after.files)
      fun after => failed after.files := by
  refine ends_pullKernelSymbols_of world _ _ fun fs cleared => ?_
  have rooting : bridge.switchToRoot.After { world with files := fs } fun answer first =>
      first.files = fs ∧ answer = rooted ∧ (answer = true → ∀ made,
        (bridge.shell ["echo", "0", ">/proc/sys/kernel/kptr_restrict"]).After
          { first with files := made } fun _ second =>
            (bridge.pull deviceKernelSymbols cache.kernelSymbolsPath).After second fun _ after =>
              after.files = second.files.receive cache.kernelSymbolsPath symbols) :=
    ⟨confined.switchToRoot _, (constant.switchToRoot { world with files := fs } lasting).1,
      constant.symbols _ { world with files := fs } lasting⟩
  refine rooting.mono fun answer first now => ?_
  obtain ⟨rfl, rfl, pulling⟩ := now
  refine ⟨fun no => unrooted _ cleared no, fun yes made => ?_,
    fun e unmade => stops _ e cleared unmade⟩
  have both : (bridge.shell ["echo", "0", ">/proc/sys/kernel/kptr_restrict"]).After
      { first with files := (first.files.makeDirAll cache.root).1 } fun _ second =>
        second.files = (first.files.makeDirAll cache.root).1 ∧
        (bridge.pull deviceKernelSymbols cache.kernelSymbolsPath).After second fun _ after =>
          after.files = second.files.receive cache.kernelSymbolsPath symbols :=
    ⟨confined.shell _ _, pulling yes _⟩
  refine both.mono fun _ second now => ?_
  obtain ⟨same, received⟩ := now
  refine received.mono fun _ third given => ?_
  rw [given, same]
  exact pulls _ cleared yes made

include fits

theorem ends_pullKernelSymbols_current (notEmpty : cache.root.bytes ≠ []) (world : World σ)
    (lasting : lasts world.rest) (inSight : cache.InSight old world.files) :
    (pullKernelSymbols bridge cache).Ends world
      (fun _ after => cache.CurrentUnless old (if rooted then symbols else none) after.files)
      fun _ => True := by
  -- Once the file that can be seen is cleared away, only an old one is left, out of sight.
  have left : ∀ fs, world.files.Cleared fs cache.kernelSymbolsPath →
      fs.PlainBelow cache.root ∧
        ∀ content, fs.Had cache.kernelSymbolsPath content → old content := by
    intro fs cleared
    have plain := (inSight.cleared [kernelSymbolsName] cleared).plain
    refine ⟨plain, fun content => ?_⟩
    obtain ⟨unseen, rfl⟩ | ⟨file, removed⟩ := cleared
    · rintro ⟨place, leads, there⟩
      refine (inSight.entered content ⟨place, leads, there⟩).resolve_right ?_
      rintro ⟨top, entered⟩
      rw [cache.kernelSymbolsPath_eq_extend, aimAt_extend _ _ _ plain, entered.aimAt] at leads
      obtain rfl := Option.some.inj leads
      have seen := (Cache.isFile_kernelSymbolsPath entered plain fits).2 ⟨content, there⟩
      exact Bool.noConfusion (unseen.symm.trans seen)
    · exact fun had => absurd had (not_had_of_removed _ file removed content)
  refine ends_pullKernelSymbols_constant constant confined world lasting
    (cache.CurrentUnless old (if rooted then symbols else none)) (fun _ => True)
    (fun fs cleared unrooted => ?_) (fun fs cleared isRooted made => ?_) fun _ _ _ _ => trivial
  · obtain ⟨plain, onlyOld⟩ := left fs cleared
    simpa [unrooted] using Cache.currentUnless_of_left plain onlyOld
  · obtain ⟨plain, onlyOld⟩ := left fs cleared
    have sprouts := fs.makeDirAll_sprouts cache.root
    have plainMade := sprouts.steady.plainBelow plain
    rw [if_pos isRooted]
    cases symbols with
    | none =>
      exact Cache.currentUnless_of_left plainMade fun content had =>
        onlyOld content (had.of_sprouts sprouts)
    | some content =>
      obtain ⟨top, entered⟩ := fs.makeDirAll_enters _ _ notEmpty (Prod.ext rfl made)
      exact .inl (Cache.current_of_received entered plainMade fits content)

theorem ends_pullKernelSymbols_again (world : World σ) (lasting : lasts world.rest)
    (plain : world.files.PlainBelow cache.root) {top : Location}
    (isDir : world.files.resolve true cache.root = .ok (.dir top))
    (current : cache.Current (if rooted then symbols else none) world.files) :
    (pullKernelSymbols bridge cache).Ends world
      (fun _ after => SameBut world.files after.files (top ++ [kernelSymbolsName])
        (world.files.at? (top ++ [kernelSymbolsName])))
      fun _ => False := by
  have entered := world.files.enters_of_resolve _ _ isDir
  have made : ∀ fs, world.files.Cleared fs cache.kernelSymbolsPath →
      fs.makeDirAll cache.root = (fs, .ok ()) := by
    intro fs cleared
    have steady := (touchesOnly_of_cleared plain [kernelSymbolsName] (by simp) cleared).steady
    exact fs.makeDirAll_of_resolve _ top (steady.resolve _ _ isDir)
  refine ends_pullKernelSymbols_constant constant confined world lasting (fun after => SameBut
    world.files after (top ++ [kernelSymbolsName]) (world.files.at? (top ++ [kernelSymbolsName])))
    (fun _ => False) (fun fs cleared unrooted => ?_) (fun fs cleared isRooted _ => ?_)
    fun fs e cleared unmade => ?_
  · simp only [unrooted, Bool.false_eq_true, if_false] at current
    exact Cache.renewed_current entered plain fits current cleared
  · rw [if_pos isRooted] at current
    rw [made fs cleared]
    exact Cache.renewed_current entered plain fits current cleared
  · rw [made fs cleared] at unmade
    cases unmade

theorem ends_collect_current (quiet : inspector.Leaves World.files)
    (leaves : inspector.Leaves fun world => lasts world.rest)
    (notEmpty : cache.root.bytes ≠ []) (world : World σ) (lasting : lasts world.rest)
    (inSight : cache.InSight old world.files) :
    (collect inspector bridge chain binaries cache).Ends world
      (fun _ after => isThere = true →
        cache.CurrentUnless old (if rooted then symbols else none) after.files)
      fun _ => True := by
  have closed := (Closed.inSight quiet.buildId confined old).and (Closed.rest constant leaves)
  refine ends_collect_of chain world (fun _ _ between =>
    cache.InSight old between.files ∧ lasts between.rest) _ _
    (closed.available world ⟨inSight, lasting⟩) (fun first unavailable _ isThere_ => ?_)
    (fun _ path expected _ report between split _ holds =>
      (closed.ends_collectBinary report path expected
        (SortedMap.contains_of_get? (SortedMap.get?_of_split split)) between holds).mono
        (fun _ _ holds => holds) fun _ _ => trivial)
    fun report between _ holds => ?_
  · have answered := ((constant.available world lasting).of_run unavailable).1
    exact Bool.noConfusion (answered.trans isThere_)
  · exact (ends_pullKernelSymbols_current constant confined fits notEmpty between holds.2
      holds.1).mono (fun _ _ current _ => current) fun _ left => left

end DeviceSource

end BuildIdCache
