import BuildIdCache.Proofs.FileSystem.Passes

set_option autoImplicit false

namespace BuildIdCache

theorem Path.endsWithSlash_push (base : Path) (name : Name) :
    (base.push name).endsWithSlash = false := by
  obtain ⟨lead, joined⟩ := base.join_relative
  have notEmpty := name.isName.2.1
  have noSlash : slash ∉ name.bytes := name.isName.1
  rw [endsWithSlash, Path.push, joined _ name.isRelative]
  refine decide_eq_false fun last => noSlash ?_
  rw [List.getLast?_append_of_ne_nil _ notEmpty] at last
  exact List.mem_of_getLast? last

namespace FileSystem

section

variable {fs other : FileSystem} {base : Path} {place : Location} (entered : fs.Enters base place)
  {long name : Name} {found : Place} (resolved : other.resolve true (base.push long) = .ok found)
  (shorter : name.bytes.length ≤ long.bytes.length) (clear : 0 ∉ name.bytes)
  (fits : name.bytes.length ≤ nameLimit)
  (noLink : ∀ target, fs.at? (place ++ [name]) ≠ some (.link target))

include entered resolved shorter clear fits noLink

theorem resolve_push (through : Bool) :
    fs.resolve through (base.push name) = .ok (fs.settle (.free place name)) := by
  obtain ⟨front, -, pushed, reached, begun⟩ := entered
  obtain ⟨left, same⟩ := fs.follow_from _ _ _ _ reached
  obtain ⟨lead, joined⟩ := base.join_relative
  have bytes : ∀ name : Name, (base.push name).bytes = lead ++ name.bytes := fun name => by
    rw [Path.push, joined _ name.isRelative]
  have begins : fs.start (base.push name) = fs.start base := fs.start_extend base [name]
  unfold resolve at resolved ⊢
  split_ifs at resolved with empty nul long gone
  rw [bytes, List.mem_append, not_or] at nul
  rw [bytes, List.length_append] at long
  rw [bytes, begins, pushed, same through _ (by simp), if_neg (by simp [name.isName.2.1]),
    if_neg (by simp [nul.1, clear]), if_neg (by rw [List.length_append]; omega),
    if_neg (not_not.2 begun)]
  rcases there : fs.at? (place ++ [name]) with _ | (content | _ | target)
  · simp [follow, settle, there, Nat.not_lt.2 fits]
  · simp [follow, settle, there, Nat.not_lt.2 fits]
  · simp [follow, settle, there, Nat.not_lt.2 fits]
  · exact absurd there (noLink target)

theorem isFile_push : fs.isFile (base.push name) = true ↔
    ∃ content, fs.at? (place ++ [name]) = some (.file content) := by
  have leads := resolve_push entered resolved shorter clear fits noLink true
  rw [isFile_iff]
  simp only [read_eq_ok, leads, settle]
  split <;> simp [*]

theorem cleared_push {after : FileSystem} (cleared : fs.Cleared after (base.push name)) :
    (∀ content, fs.at? (place ++ [name]) ≠ some (.file content)) ∧ after = fs ∨
      (∃ content, fs.at? (place ++ [name]) = some (.file content)) ∧
        SameBut fs after (place ++ [name]) none := by
  have isFile := isFile_push entered resolved shorter clear fits noLink
  obtain ⟨absent, rfl⟩ | ⟨file, removed⟩ := cleared
  · refine .inl ⟨fun content there => ?_, rfl⟩
    rw [isFile.2 ⟨content, there⟩] at absent
    cases absent
  · obtain ⟨content, there⟩ := isFile.1 file
    have leads := resolve_push entered resolved shorter clear fits noLink false
    rw [removeFile, leads, settle, there] at removed
    cases removed
    exact .inr ⟨⟨content, there⟩, fs.removeTree_sameBut _ (by rw [there]; simp)⟩

theorem write_push (content : ByteArray) :
    fs.at? (place ++ [name]) = some .dir ∧
        fs.write (base.push name) content = .error .isADirectory ∨
      fs.at? (place ++ [name]) ≠ some .dir ∧ ∃ after,
        fs.write (base.push name) content = .ok after ∧ Steady fs after ∧
          SameBut fs after (place ++ [name]) (some (.file content)) := by
  have leads := resolve_push entered resolved shorter clear fits noLink true
  have aimed := fs.aimAt_of_resolve _ _ leads
  have writes : fs.at? (place ++ [name]) = some .dir ∧
        fs.write (base.push name) content = .error .isADirectory ∨
      fs.at? (place ++ [name]) ≠ some .dir ∧
        ∃ after, fs.write (base.push name) content = .ok after := by
    rw [write, if_neg (by simp [base.endsWithSlash_push name]), leads, settle]
    rcases there : fs.at? (place ++ [name]) with _ | (old | _ | target)
    · exact .inr ⟨by simp, _, rfl⟩
    · exact .inr ⟨by simp, _, rfl⟩
    · exact .inl ⟨rfl, rfl⟩
    · exact absurd there (noLink target)
  refine writes.imp_right ?_
  rintro ⟨notDir, after, written⟩
  obtain ⟨filled, target, same⟩ := fs.write_sameBut after _ content written
  refine ⟨notDir, after, written, same.steady_of_target? target (by simp), ?_⟩
  rw [fs.aimAt_of_target? _ _ target, settle] at aimed
  have here : filled = place ++ [name] := by
    rcases there : fs.at? (place ++ [name]) with _ | (old | _ | target) <;>
      simpa [there, Place.location] using aimed
  exact here ▸ same

end

end FileSystem

end BuildIdCache
