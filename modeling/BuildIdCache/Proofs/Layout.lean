import BuildIdCache.Inspector
import BuildIdCache.Layout
import BuildIdCache.Proofs.FileSystem.Spare
import BuildIdCache.Proofs.Inspector
import BuildIdCache.Proofs.Required
import BuildIdCache.Proofs.Text.Utf8

set_option autoImplicit false

namespace BuildIdCache

def listName : Name := ⟨listFileName.toUTF8.toList, by decide +kernel⟩
def kernelSymbolsName : Name := ⟨kernelSymbolsFileName.toUTF8.toList, by decide +kernel⟩

theorem toString?_eq_some (name : Name) (text : String) :
    name.toString? = some text ↔ name.bytes = encode text.toList := by
  constructor
  · exact bytes_of_fromUTF8? name.bytes text
  · intro bytes
    rw [Name.toString?, bytes, fromUTF8?_encode, String.ofList_toList]

def isNormal (part : List Char) : Bool := part ≠ [] ∧ part ≠ ['.'] ∧ part ≠ ['.', '.']

def normalParts (recorded : String) : List (List Char) :=
  (recorded.toList.splitOn '/').filter isNormal

def joinParts (parts : List (List Char)) : String := String.ofList (['/'].intercalate parts)

theorem isName_encode (part : List Char) (clear : slash ∉ encode part) :
    IsName (encode part) ↔ isNormal part = true := by
  have same (other : List Char) : encode part = encode other ↔ part = other :=
    encode_injective.eq_iff
  have here : encode ['.'] = [dot] := by decide
  have up : encode ['.', '.'] = [dot, dot] := by decide
  rw [IsName, ← up, ← here, ← encode_nil, Ne, Ne, Ne, same, same, same]
  simp [isNormal, clear]

theorem names_cacheRelative (recorded : String) :
    (cacheRelative recorded).names = (Path.ofString recorded).names := by
  unfold cacheRelative
  cases bytes : (Path.ofString recorded).bytes with
  | nil => simp [Path.names_eq, Path.parts, bytes]
  | cons b rest =>
    by_cases lead : b = slash
    · simp [lead, Path.names_eq, Path.parts, bytes, splitBy, Name.ofBytes?, IsName]
    · simp [lead, Path.names_eq, Path.parts, bytes]

theorem bytes_cacheRelative (recorded : String) :
    (cacheRelative recorded).names.map Name.bytes = (normalParts recorded).map encode := by
  have parts : (Path.ofString recorded).parts = (recorded.toList.splitOn '/').map encode := by
    rw [Path.parts, Path.ofString, toUTF8_toList, splitBy_encode]
  have clear : ∀ part ∈ recorded.toList.splitOn '/', slash ∉ encode part := by
    intro part member
    refine notMem_of_mem_splitBy slash (encode recorded.toList) _ ?_
    rw [splitBy_encode]
    exact List.mem_map_of_mem member
  rw [names_cacheRelative, Path.names_eq, parts, normalParts, List.filterMap_map]
  generalize recorded.toList.splitOn '/' = all at clear
  induction all with
  | nil => rfl
  | cons part rest ih =>
    have further := ih fun other member => clear other (by simp [member])
    have normal := isName_encode part (clear part (by simp))
    by_cases isName : IsName (encode part)
    · simp [Name.ofBytes?, isName, normal.1 isName, further]
    · have dropped : isNormal part = false := by simpa [normal] using isName
      simp [Name.ofBytes?, isName, dropped, further]

theorem renderNames_eq_some (names : List Name) (text : String) :
    renderNames names = some text ↔ ∃ parts : List (List Char),
      names.map Name.bytes = parts.map encode ∧ text = joinParts parts := by
  suffices texts : ∀ texts, names.mapM Name.toString? = some texts ↔
      names.map Name.bytes = texts.map fun text => encode text.toList by
    simp only [renderNames, Option.map_eq_some_iff, texts, joinParts]
    constructor
    · rintro ⟨parts, same, rfl⟩
      exact ⟨parts.map String.toList, by simp [same], by simp [← String.toList_inj]⟩
    · rintro ⟨parts, same, rfl⟩
      exact ⟨parts.map String.ofList, by simp [same], by
        simp [← String.toList_inj, Function.comp_def]⟩
  induction names with
  | nil => intro texts; cases texts <;> simp
  | cons name rest ih =>
    intro texts
    cases texts with
    | nil => simp [Option.bind_eq_some_iff]
    | cons text more => simp [Option.bind_eq_some_iff, ih, toString?_eq_some]

theorem renderNames_cacheRelative (recorded : String) :
    renderNames (cacheRelative recorded).names = some (joinParts (normalParts recorded)) :=
  (renderNames_eq_some _ _).2 ⟨_, bytes_cacheRelative recorded, rfl⟩

theorem splitOn_rendered (names : List Name) (parts : List (List Char)) (further : names ≠ [])
    (same : names.map Name.bytes = parts.map encode) :
    (['/'].intercalate parts).splitOn '/' = parts := by
  refine List.splitOn_intercalate '/' (fun part member cut => ?_) ?_
  · have isBytes : encode part ∈ names.map Name.bytes := same ▸ List.mem_map_of_mem member
    obtain ⟨name, -, bytes⟩ := List.mem_map.1 isBytes
    refine name.isName.1 (bytes ▸ ?_)
    exact List.mem_flatMap.2 ⟨'/', cut, by simp [encode_slash]⟩
  · rintro rfl
    exact further (by simpa using same)

theorem parts_rendered {names : List Name} {text : String} (further : names ≠ [])
    (rendered : renderNames names = some text) :
    (Path.ofString text).parts = names.map Name.bytes := by
  obtain ⟨parts, bytes, rfl⟩ := (renderNames_eq_some names text).1 rendered
  rw [Path.parts, Path.ofString, toUTF8_toList, splitBy_encode, joinParts, String.toList_ofList,
    splitOn_rendered names parts further bytes, bytes]

theorem join_rendered (root : Path) {names : List Name} {text : String} (further : names ≠ [])
    (rendered : renderNames names = some text) :
    root.join (.ofString text) = root.extend names := by
  rw [root.extend_eq_join names further, ← parts_rendered further rendered, Path.parts,
    joinBy_splitBy]

theorem rendered_ne_empty {names : List Name} {text : String} (further : names ≠ [])
    (rendered : renderNames names = some text) : text ≠ "" := by
  rintro rfl
  obtain ⟨name, rest, rfl⟩ := List.exists_cons_of_ne_nil further
  have single : (Path.ofString "").parts = [[]] := by
    rw [Path.parts, Path.ofString, toUTF8_toList]
    rfl
  rw [parts_rendered further rendered] at single
  exact name.isName.2.1 (List.cons.inj single).1

theorem splitOn_fileNameOf (recorded : String) :
    ∃ above, recorded.toList.splitOn '/' = above ++ [(fileNameOf recorded).toList] := by
  have last := lastPart_fileNameOf recorded
  generalize fileNameOf recorded = name at last ⊢
  cases last with
  | whole clear => exact ⟨[], List.splitOn_eq_singleton clear⟩
  | @behind above _ clear =>
    have split : (above ++ "/" ++ name).toList = above.toList ++ '/' :: name.toList := by simp
    rw [split, List.splitOn_append_cons_self, List.splitOn_eq_singleton clear]
    exact ⟨_, rfl⟩

theorem names_of_called (recorded : String) (name : Name)
    (called : name.toString? = some (fileNameOf recorded)) :
    ∃ above, (cacheRelative recorded).names = above ++ [name] := by
  have bytes := (toString?_eq_some name _).1 called
  have normal : isNormal (fileNameOf recorded).toList = true :=
    (isName_encode _ (bytes ▸ name.isName.1)).1 (bytes ▸ name.isName)
  obtain ⟨front, split⟩ := splitOn_fileNameOf recorded
  have spelled := bytes_cacheRelative recorded
  rw [normalParts, split, List.filter_append, List.filter_cons_of_pos normal, List.map_append,
    List.map_eq_append_iff] at spelled
  obtain ⟨above, last, names, -, ends⟩ := spelled
  obtain ⟨final, rest, rfl, same, none⟩ := List.map_eq_cons_iff.1 ends
  obtain rfl : rest = [] := by simpa using none
  obtain rfl : final = name := Name.ext (same.trans bytes.symm)
  exact ⟨above, names⟩

theorem names_ne_nil_of_called (recorded : String) (name : Name)
    (called : name.toString? = some (fileNameOf recorded)) :
    (cacheRelative recorded).names ≠ [] := by
  obtain ⟨above, names⟩ := names_of_called recorded name called
  simp [names]

namespace Cache

theorem pathOf_eq_extend (cache : Cache) (recorded : String) :
    cache.pathOf recorded = cache.root.extend (cacheRelative recorded).names := rfl

theorem fileName?_pathOf (cache : Cache) (recorded : String) (name : Name)
    (called : name.toString? = some (fileNameOf recorded)) :
    (cache.pathOf recorded).fileName? = some name := by
  obtain ⟨above, names⟩ := names_of_called recorded name called
  rw [pathOf_eq_extend, names, Path.fileName?, Path.components_extend]
  simp [Component.name?]

theorem listPath_eq_extend (cache : Cache) : cache.listPath = cache.root.extend [listName] := rfl

theorem kernelSymbolsPath_eq_extend (cache : Cache) :
    cache.kernelSymbolsPath = cache.root.extend [kernelSymbolsName] := rfl

theorem below?_extend (root : Path) (above names : List Name) :
    (root.extend names).below? (root.extend above) = none ↔ ¬above <+: names := by
  have map_prefix : above.map Component.name <+: names.map .name ↔ above <+: names :=
    List.prefix_map_iff_of_injective fun _ _ => Component.name.inj
  simp [Path.below?, Path.components_extend, List.prefix_append_right_inj, map_prefix]

theorem relativeString?_extend (cache : Cache) (names : List Name) (further : names ≠ []) :
    cache.relativeString? (cache.root.extend names) = renderNames names := by
  have below : (cache.root.extend names).below? cache.root = some (names.map .name) := by
    simp [Path.below?, Path.components_extend]
  have kept : (names.map Component.name).filterMap Component.name? = names := by
    simp [List.filterMap_map, Function.comp_def, Component.name?]
  rw [relativeString?, below]
  simp only [kept]

theorem pathOf_ne_of_outside {cache : Cache} {recorded : String} {names : List Name}
    (outside : (cache.pathOf recorded).below? (cache.root.extend names) = none) :
    cache.pathOf recorded ≠ cache.root.extend names := by
  intro same
  rw [same, below?_extend] at outside
  exact outside (List.prefix_refl _)

theorem pathOf_congr (cache : Cache) {path other : String}
    (same : (cacheRelative path).names = (cacheRelative other).names) :
    cache.pathOf path = cache.pathOf other := by
  rw [pathOf_eq_extend, pathOf_eq_extend, same]

theorem pathOf_ne_of_split {cache : Cache} {binaries : RequiredBinaries}
    (distinct : binaries.entries.Pairwise fun a b => cache.pathOf a.1 ≠ cache.pathOf b.1)
    {before rest : List (String × String)} {path expected : String}
    (split : binaries.entries = before ++ (path, expected) :: rest) :
    ∀ entry ∈ before, cache.pathOf entry.1 ≠ cache.pathOf path := by
  intro entry member
  rw [split, List.pairwise_append] at distinct
  exact distinct.2.2 entry member (path, expected) (by simp)

/-- The cached files of the required paths are apart from each other and from the kernel symbols. -/
structure Distinct (cache : Cache) (binaries : RequiredBinaries) : Prop where
  paths : ∀ path other, binaries.contains path → binaries.contains other →
    cache.pathOf path = cache.pathOf other → path = other
  kernelSymbols : ∀ path, binaries.contains path →
    (cache.pathOf path).below? cache.kernelSymbolsPath = none

/-- They are apart from the list of build-ids as well. -/
structure Separates (cache : Cache) (binaries : RequiredBinaries) : Prop
    extends Distinct cache binaries where
  list : ∀ path, binaries.contains path → (cache.pathOf path).below? cache.listPath = none

section

variable {cache : Cache} {binaries : RequiredBinaries} {path : String}

theorem Distinct.names (distinct : cache.Distinct binaries) {expected other wanted : String}
    (required : binaries.get? path = some expected) (required' : binaries.get? other = some wanted)
    (apart : path ≠ other) : (cacheRelative path).names ≠ (cacheRelative other).names := by
  intro same
  exact apart (distinct.paths path other (SortedMap.contains_of_get? required)
    (SortedMap.contains_of_get? required') (cache.pathOf_congr same))

variable (required : binaries.contains path)

include required

theorem Distinct.pathOf_ne_kernelSymbols (distinct : cache.Distinct binaries) :
    cache.pathOf path ≠ cache.root.extend [kernelSymbolsName] := by
  have outside := distinct.kernelSymbols path required
  rw [kernelSymbolsPath_eq_extend] at outside
  exact pathOf_ne_of_outside outside

theorem Separates.pathOf_ne_list (separates : cache.Separates binaries) :
    cache.pathOf path ≠ cache.root.extend [listName] := by
  have outside := separates.list path required
  rw [listPath_eq_extend] at outside
  exact pathOf_ne_of_outside outside

theorem Distinct.names_ne_kernelSymbols (distinct : cache.Distinct binaries) :
    (cacheRelative path).names ≠ [kernelSymbolsName] := by
  intro same
  exact distinct.pathOf_ne_kernelSymbols required (by rw [pathOf_eq_extend, same])

theorem Separates.names_ne_list (separates : cache.Separates binaries) :
    (cacheRelative path).names ≠ [listName] := by
  intro same
  exact separates.pathOf_ne_list required (by rw [pathOf_eq_extend, same])

end

end Cache

end BuildIdCache
