import BuildIdCache.FileSystem.Resolve
import Mathlib.Data.List.Basic
import Mathlib.Data.List.Induction

set_option autoImplicit false

namespace BuildIdCache

theorem splitBy_append_separator (separator : UInt8) (a b : List UInt8) :
    splitBy separator (a ++ separator :: b) = splitBy separator a ++ splitBy separator b := by
  induction a with
  | nil => simp [splitBy]
  | cons x rest ih =>
    have parts := splitBy_ne_nil separator rest
    by_cases same : x = separator
    · simp [splitBy, same, ih]
    · cases h : splitBy separator rest with
      | nil => exact absurd h parts
      | cons part more => simp [splitBy, same, ih, h]

theorem splitBy_append_of_notMem (separator : UInt8) (front rest : List UInt8)
    (clear : separator ∉ front) :
    splitBy separator (front ++ rest) = (splitBy separator rest).modifyHead (front ++ ·) := by
  induction front with
  | nil => cases h : splitBy separator rest <;> simp [h]
  | cons x front ih =>
    have apart : x ≠ separator := fun same => clear (by simp [same])
    rw [List.cons_append, splitBy, if_neg apart, ih fun member => clear (by simp [member])]
    cases h : splitBy separator rest with
    | nil => exact absurd h (splitBy_ne_nil separator rest)
    | cons part parts => rfl

theorem splitBy_of_notMem (separator : UInt8) (bytes : List UInt8) (clear : separator ∉ bytes) :
    splitBy separator bytes = [bytes] := by
  simpa [splitBy] using splitBy_append_of_notMem separator bytes [] clear

theorem notMem_of_mem_splitBy (separator : UInt8) (bytes part : List UInt8)
    (member : part ∈ splitBy separator bytes) : separator ∉ part := by
  induction bytes generalizing part with
  | nil =>
    rw [splitBy, List.mem_singleton] at member
    simp [member]
  | cons x rest ih =>
    by_cases same : x = separator
    · rw [splitBy, if_pos same, List.mem_cons] at member
      rcases member with rfl | member
      · simp
      · exact ih part member
    · cases h : splitBy separator rest with
      | nil => exact absurd h (splitBy_ne_nil separator rest)
      | cons first parts =>
        rw [splitBy, if_neg same, h, List.mem_cons] at member
        rcases member with rfl | member
        · have clear := ih first (by simp [h])
          simp [clear, Ne.symm same]
        · exact ih part (by simp [h, member])

theorem splitBy_joinBy (separator : UInt8) (parts : List (List UInt8)) (notEmpty : parts ≠ [])
    (clear : ∀ part ∈ parts, separator ∉ part) :
    splitBy separator (joinBy separator parts) = parts := by
  induction parts with
  | nil => exact absurd rfl notEmpty
  | cons part rest ih =>
    have single := splitBy_of_notMem separator part (clear part (by simp))
    cases rest with
    | nil => simpa [joinBy] using single
    | cons next rest =>
      rw [joinBy, splitBy_append_separator, single,
        ih (by simp) fun other member => clear other (by simp [member])]
      · rfl
      · simp

theorem Step.ofPart_name (name : Name) : Step.ofPart name.bytes = .into name := by
  obtain ⟨bytes, isName⟩ := name
  simp [Step.ofPart, Name.ofBytes?, isName, isName.2.2.2]

theorem Component.ofPart?_name (name : Name) :
    Component.ofPart? name.bytes = some (.name name) := by
  obtain ⟨bytes, isName⟩ := name
  simp [Component.ofPart?, Name.ofBytes?, isName, isName.2.2.2]

theorem Name.isRelative (name : Name) : Path.isAbsolute ⟨name.bytes⟩ = false := by
  obtain ⟨bytes, isName⟩ := name
  cases bytes with
  | nil => rfl
  | cons b rest => simpa [Path.isAbsolute] using fun same : b = slash => isName.1 (by simp [same])

def Step.moves : Step → Bool
  | .stay => false
  | _ => true

namespace Path

def moves (path : Path) : List Step := path.steps.filter Step.moves

def extend (base : Path) (names : List Name) : Path := names.foldl push base

@[simp] theorem extend_nil (base : Path) : base.extend [] = base := rfl

@[simp] theorem extend_cons (base : Path) (name : Name) (rest : List Name) :
    base.extend (name :: rest) = (base.push name).extend rest := rfl

theorem extend_append (base : Path) (names more : List Name) :
    base.extend (names ++ more) = (base.extend names).extend more := List.foldl_append

theorem extend_concat (base : Path) (names : List Name) (name : Name) :
    base.extend (names ++ [name]) = (base.extend names).push name := extend_append base names [name]

theorem bytes_of_isAbsolute {path : Path} (absolute : path.isAbsolute = true) :
    ∃ rest, path.bytes = slash :: rest := by
  simpa [isAbsolute, List.head?_eq_some_iff] using absolute

theorem first_of_isAbsolute {path : Path} (absolute : path.isAbsolute = true)
    {first : List UInt8} {rest : List (List UInt8)} (parts : path.parts = first :: rest) :
    first = [] := by
  obtain ⟨more, bytes⟩ := bytes_of_isAbsolute absolute
  rw [Path.parts, bytes, splitBy, if_pos rfl] at parts
  exact (List.cons.inj parts).1.symm

theorem isAbsolute_push (base : Path) (name : Name) :
    (base.push name).isAbsolute = base.isAbsolute := by
  obtain ⟨bytes⟩ := base
  simp only [push, join, name.isRelative]
  cases bytes with
  | nil => simpa [isAbsolute] using name.isRelative
  | cons b rest =>
    cases h : (b :: rest).getLast? with
    | none => simp at h
    | some last => simp [isAbsolute]

theorem parts_push (base : Path) :
    ∃ front last, base.parts = front ++ last ∧ (last = [] ∨ last = [[]]) ∧
      ∀ name, (base.push name).parts = front ++ [name.bytes] := by
  have single (name : Name) := splitBy_of_notMem slash name.bytes name.isName.1
  cases h : base.bytes using List.reverseRecOn with
  | nil =>
    refine ⟨[], [[]], by simp [parts, h, splitBy], .inr rfl, fun name => ?_⟩
    simp [parts, push, join, name.isRelative, h, single]
  | append_singleton front last =>
    by_cases same : last = slash
    · refine ⟨splitBy slash front, [[]], ?_, .inr rfl, fun name => ?_⟩
      · simpa [parts, h, same, splitBy] using splitBy_append_separator slash front []
      · simp [parts, push, join, name.isRelative, h, same, splitBy_append_separator, single]
    · refine ⟨base.parts, [], by simp, .inl rfl, fun name => ?_⟩
      have apart := splitBy_append_separator slash base.bytes name.bytes
      simpa [parts, push, join, name.isRelative, h, same, single] using apart

theorem steps_push (base : Path) :
    ∃ front, (base.steps = front ∨ base.steps = front ++ [.stay]) ∧
      ∀ name, (base.push name).steps = front ++ [.into name] := by
  obtain ⟨front, last, before, trailing, after⟩ := base.parts_push
  refine ⟨front.map Step.ofPart, ?_, fun name => by simp [steps, after, Step.ofPart_name]⟩
  rcases trailing with rfl | rfl
  · exact .inl (by simp [steps, before])
  · exact .inr (by simp [steps, before]; rfl)

theorem steps_extend_push (base : Path) (name : Name) (names : List Name) :
    ((base.push name).extend names).steps = (base.push name).steps ++ names.map .into := by
  induction names generalizing base name with
  | nil => simp
  | cons next rest ih =>
    obtain ⟨front, spelled, pushed⟩ := (base.push name).steps_push
    obtain ⟨before, -, named⟩ := base.steps_push
    have exact : (base.push name).steps = front := by
      rcases spelled with same | trailing
      · exact same
      · have last := congrArg List.getLast? trailing
        simp [named] at last
    rw [extend_cons, ih, pushed, exact]
    simp

theorem moves_push (base : Path) (name : Name) :
    (base.push name).moves = base.moves ++ [.into name] := by
  obtain ⟨front, spelled, pushed⟩ := base.steps_push
  rcases spelled with same | same <;> simp [moves, pushed, same, Step.moves]

theorem moves_extend (base : Path) (names : List Name) :
    (base.extend names).moves = base.moves ++ names.map .into := by
  induction names generalizing base with
  | nil => simp
  | cons name rest ih => simp [ih, moves_push]

theorem isAbsolute_name (name : Name) (more : List UInt8) :
    isAbsolute ⟨name.bytes ++ more⟩ = false := by
  have relative := name.isRelative
  cases bytes : name.bytes with
  | nil => exact absurd bytes name.isName.2.1
  | cons b rest => simpa [isAbsolute, bytes] using relative

theorem join_relative (base : Path) :
    ∃ front, ∀ rest, isAbsolute ⟨rest⟩ = false → base.join ⟨rest⟩ = ⟨front ++ rest⟩ := by
  cases last : base.bytes.getLast? with
  | none => exact ⟨[], fun rest relative => by simp [join, relative, last]⟩
  | some b =>
    exact ⟨base.bytes ++ if b = slash then [] else [slash], fun rest relative => by
      simp [join, relative, last]⟩

theorem push_join (base : Path) (name : Name) (rest : List UInt8)
    (relative : isAbsolute ⟨rest⟩ = false) :
    (base.push name).join ⟨rest⟩ = base.join ⟨name.bytes ++ slash :: rest⟩ := by
  have notEmpty := name.isName.2.1
  obtain ⟨front, joined⟩ := base.join_relative
  have last : (front ++ name.bytes).getLast? = some (name.bytes.getLast notEmpty) := by
    rw [List.getLast?_append_of_ne_nil _ notEmpty, List.getLast?_eq_some_getLast notEmpty]
  have apart : name.bytes.getLast notEmpty ≠ slash := fun same =>
    name.isName.1 (same ▸ List.getLast_mem notEmpty)
  rw [push, joined _ name.isRelative, joined _ (isAbsolute_name name _), join, if_neg
    (by simp [relative])]
  simp [last, apart]

theorem extend_eq_join (base : Path) (names : List Name) (further : names ≠ []) :
    base.extend names = base.join ⟨joinBy slash (names.map Name.bytes)⟩ := by
  induction names generalizing base with
  | nil => exact absurd rfl further
  | cons name rest ih =>
    cases rest with
    | nil => rfl
    | cons next rest =>
      have relative : isAbsolute ⟨joinBy slash ((next :: rest).map Name.bytes)⟩ = false := by
        cases rest with
        | nil => exact next.isRelative
        | cons last rest => exact isAbsolute_name next _
      rw [extend_cons, ih (base.push name) (by simp), push_join base name _ relative]
      rfl

theorem isAbsolute_extend (base : Path) (names : List Name) :
    (base.extend names).isAbsolute = base.isAbsolute := by
  induction names generalizing base with
  | nil => rfl
  | cons name rest ih => rw [extend_cons, ih, isAbsolute_push]

theorem parts_ne_nil (path : Path) : path.parts ≠ [] := splitBy_ne_nil slash path.bytes

theorem name?_ofPart? (part : List UInt8) :
    (Component.ofPart? part).bind Component.name? = Name.ofBytes? part := by
  unfold Component.ofPart?
  split
  next up =>
    have noName : ¬IsName part := fun isName => isName.2.2.2 up
    simp [Component.name?, Name.ofBytes?, noName]
  next => cases Name.ofBytes? part <;> rfl

theorem names_eq (path : Path) : path.names = path.parts.filterMap Name.ofBytes? := by
  have kept (parts : List (List UInt8)) :
      (parts.filterMap Component.ofPart?).filterMap Component.name? =
        parts.filterMap Name.ofBytes? := by
    rw [List.filterMap_filterMap]
    exact congrArg (List.filterMap · parts) (funext name?_ofPart?)
  unfold names components lead
  cases parts : path.parts with
  | nil => exact absurd parts (splitBy_ne_nil slash path.bytes)
  | cons first rest =>
    simp only [List.filterMap_append]
    split_ifs with absolute here
    · have empty := first_of_isAbsolute absolute parts
      simp [kept, empty, Component.name?, Name.ofBytes?, IsName]
    · simp [kept, here, Component.name?, Name.ofBytes?, IsName]
    · simpa using kept (first :: rest)

theorem components_push (base : Path) (name : Name) :
    (base.push name).components = base.components ++ [.name name] := by
  obtain ⟨front, last, before, trailing, pushed⟩ := base.parts_push
  have after := pushed name
  have still : last.filterMap Component.ofPart? = [] := by
    rcases trailing with rfl | rfl <;> rfl
  have named := Component.ofPart?_name name
  have notHere : name.bytes ≠ [dot] := name.isName.2.2.1
  simp only [components, lead, before, after, isAbsolute_push]
  cases front with
  | nil =>
    have empty : base.bytes = [] := by
      rcases trailing with rfl | rfl
      · exact absurd before base.parts_ne_nil
      · simpa [before, joinBy] using (joinBy_splitBy slash base.bytes).symm.trans
          (congrArg (joinBy slash) before)
    have single : List.filterMap Component.ofPart? [name.bytes] = [.name name] := by
      simp [named]
    rcases trailing with rfl | rfl
    · exact absurd before base.parts_ne_nil
    · simp [isAbsolute, empty, notHere, single, still]
  | cons first rest =>
    by_cases absolute : base.isAbsolute
    · simp [absolute, still, named]
    · by_cases here : first = [dot] <;> simp [absolute, here, still, named, List.filterMap_cons]
      split <;> simp

theorem components_extend (base : Path) (names : List Name) :
    (base.extend names).components = base.components ++ names.map .name := by
  induction names generalizing base with
  | nil => simp
  | cons name rest ih => simp [ih, components_push]

theorem components_extend_inj (base : Path) (a b : List Name) :
    (base.extend a).components = (base.extend b).components ↔ a = b := by
  rw [components_extend, components_extend, List.append_cancel_left_eq]
  exact (List.map_injective_iff.2 fun _ _ h => Component.name.inj h).eq_iff

theorem extend_injective (base : Path) : Function.Injective base.extend := fun a b same =>
  (base.components_extend_inj a b).1 (congrArg components same)

def movesOf (parts : List (List UInt8)) : List Step := (parts.map Step.ofPart).filter Step.moves

theorem movesOf_front {a b : List (List UInt8)} (h : a <+: b) : movesOf a <+: movesOf b :=
  (h.map Step.ofPart).filter Step.moves

theorem trimParts_front (parts : List (List UInt8)) : trimParts parts <+: parts := by
  have suffix := List.dropWhile_suffix (fun part : List UInt8 => decide (part = [] ∨ part = [dot]))
    (l := parts.reverse)
  simpa [trimParts] using List.reverse_prefix.2 suffix

theorem moves_eq_lead (path : Path) : path.moves = movesOf path.lead.2 := by
  have whole : path.moves = movesOf path.parts := rfl
  rw [whole, lead]
  cases parts : path.parts with
  | nil => rfl
  | cons first rest =>
    simp only
    split_ifs with absolute here
    · obtain rfl := first_of_isAbsolute absolute parts
      rfl
    · rw [here]
      rfl
    · rfl

theorem up_mem_moves (path : Path) : .up ∈ path.moves ↔ .up ∈ path.components := by
  have ahead : Component.up ∉ path.lead.1.toList := by
    unfold lead
    cases path.parts with
    | nil => simp
    | cons first rest =>
      simp only
      split_ifs <;> simp
  have steps : ∀ part, Step.ofPart part = .up ↔ part = [dot, dot] := by
    intro part
    unfold Step.ofPart
    split
    next up => simp [up]
    next other => cases Name.ofBytes? part <;> simp [other]
  have components : ∀ part, Component.ofPart? part = some .up ↔ part = [dot, dot] := by
    intro part
    unfold Component.ofPart?
    split
    next up => simp [up]
    next other => cases Name.ofBytes? part <;> simp [other]
  rw [moves_eq_lead, movesOf, Path.components, List.mem_filter, List.mem_append,
    or_iff_right ahead, List.mem_map, List.mem_filterMap]
  simp only [steps, components, Step.moves, and_true]

theorem moves_joinBy (parts : List (List UInt8)) (clear : ∀ part ∈ parts, slash ∉ part) :
    moves ⟨joinBy slash parts⟩ = movesOf parts := by
  cases parts with
  | nil => rfl
  | cons part rest =>
    change movesOf (splitBy slash (joinBy slash (part :: rest))) = _
    rw [splitBy_joinBy slash (part :: rest) (by simp) clear]

theorem isAbsolute_of_front {a b : List UInt8} (within : a <+: b) (notEmpty : a ≠ []) :
    isAbsolute ⟨a⟩ = isAbsolute ⟨b⟩ := by
  obtain ⟨more, rfl⟩ := within
  cases a with
  | nil => exact absurd rfl notEmpty
  | cons first rest => rfl

theorem joinBy_front {a b : List (List UInt8)} (h : a <+: b) :
    joinBy slash a <+: joinBy slash b := by
  obtain ⟨more, rfl⟩ := h
  induction a with
  | nil => simp [joinBy]
  | cons part rest ih =>
    cases rest with
    | nil => cases more <;> simp [joinBy]
    | cons next rest =>
      simp only [joinBy, List.cons_append]
      exact (List.prefix_append_right_inj part).2 (List.cons_prefix_cons.2 ⟨rfl, ih⟩)

theorem lead_parts (path : Path) :
    (∀ part ∈ path.lead.2, slash ∉ part) ∧
      (path.lead.1 = some .root ∧ path.isAbsolute = true ∨
        path.lead.1 = some .here ∧ path.isAbsolute = false ∨
        path.lead.1 = none ∧ path.isAbsolute = false ∧ path.lead.2 = path.parts) := by
  have clear : ∀ part ∈ path.parts, slash ∉ part := notMem_of_mem_splitBy slash path.bytes
  unfold lead
  cases parts : path.parts with
  | nil => exact absurd parts path.parts_ne_nil
  | cons first rest =>
    rw [parts] at clear
    have later : ∀ part ∈ rest, slash ∉ part := fun part member => clear part (by simp [member])
    simp only
    split_ifs with absolute here
    · exact ⟨later, .inl ⟨rfl, absolute⟩⟩
    · exact ⟨later, .inr (.inl ⟨rfl, by simpa using absolute⟩)⟩
    · exact ⟨clear, .inr (.inr ⟨rfl, by simpa using absolute, rfl⟩)⟩

def spelled (lead : Option Component) (body : List (List UInt8)) : Path :=
  match lead with
  | some .root => ⟨slash :: joinBy slash body⟩
  | some _ => ⟨joinBy slash ([dot] :: body)⟩
  | none => ⟨joinBy slash body⟩

theorem moves_spelled (lead : Option Component) (body : List (List UInt8))
    (clear : ∀ part ∈ body, slash ∉ part) : (spelled lead body).moves = movesOf body := by
  unfold spelled
  split
  · exact moves_joinBy body clear
  · exact moves_joinBy ([dot] :: body) (by simpa using ⟨by decide, clear⟩)
  · exact moves_joinBy body clear

theorem parent?_of_kept (path : Path) (part : List UInt8) (more : List (List UInt8))
    (kept : trimParts path.lead.2 = part :: more) :
    path.parent? = some (spelled path.lead.1 (trimParts (part :: more).dropLast)) := by
  rcases lead : path.lead with ⟨front, rest⟩
  rw [lead] at kept
  simp only [parent?, lead, kept]
  rcases front with _ | _ | _ | _ | _ <;> rfl

theorem moves_parent (path dir : Path) (h : path.parent? = some dir) :
    dir.moves <+: path.moves ∧ dir.isAbsolute = path.isAbsolute := by
  obtain ⟨clear, kind⟩ := path.lead_parts
  rw [path.moves_eq_lead]
  cases trimmed : trimParts path.lead.2 with
  | nil =>
    simp only [parent?, trimmed] at h
    split_ifs at h with here
    obtain rfl := Option.some.inj h
    have relative : path.isAbsolute = false := by simpa [here] using kind
    exact ⟨List.nil_prefix, relative.symm⟩
  | cons part more =>
    have kept : trimParts (part :: more).dropLast <+: path.lead.2 :=
      (trimParts_front _).trans ((List.dropLast_prefix _).trans (trimmed ▸ trimParts_front _))
    rw [path.parent?_of_kept part more trimmed] at h
    obtain rfl := Option.some.inj h
    -- Only that the parts which are left are a front of all parts matters from here on.
    generalize trimParts (part :: more).dropLast = body at kept
    rw [moves_spelled _ body fun part member => clear part (kept.subset member)]
    refine ⟨movesOf_front kept, ?_⟩
    rcases kind with ⟨root, absolute⟩ | ⟨here, relative⟩ | ⟨none, relative, whole⟩
    · rw [root, absolute]
      rfl
    · rw [here, relative]
      cases body <;> rfl
    · rw [none]
      have front : joinBy slash body <+: path.bytes := by
        have inside := joinBy_front (whole ▸ kept : body <+: path.parts)
        rwa [parts, joinBy_splitBy] at inside
      by_cases empty : joinBy slash body = []
      · rw [spelled, empty, relative]
        rfl
      · exact isAbsolute_of_front front empty

end Path

end BuildIdCache
