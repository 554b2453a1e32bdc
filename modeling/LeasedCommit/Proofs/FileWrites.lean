import LeasedCommit.Storage.FileTree
import Mathlib.Data.List.Basic

set_option autoImplicit false

/-! # Files that have been written

Where a file can be written no directory stands, so no way leads through that place. Whatever was
found before a write is therefore found afterwards, and at the path of the write that is the new
file (`FileTree.readText_write`). A write that fails changes nothing
(`FileTree.write_of_refused`). -/

namespace LeasedCommit.FileTree

variable {t t' : FileTree} {p : Path} {location : Location} {node : Node} {content : ByteArray}

/-- A file can be written at a path: the way is free, and no directory stands at its end. -/
def IsWritable (t : FileTree) (p : Path) : Prop :=
  ∃ location, t.locateNew p = .ok location ∧ t.node? location ≠ some .directory

/-! ## One more file -/

theorem node?_put_self (h : location.isAtOrAboveRoot = false) :
    (t.put location node).node? location = some node := by
  rw [node?, h, if_neg Bool.false_ne_true, put, List.lookup_cons_self]

theorem lookup_filter_ne {other : Location} (hne : other ≠ location)
    (nodes : List (Location × Node)) :
    (nodes.filter (·.1 != location)).lookup other = nodes.lookup other := by
  induction nodes with
  | nil => rfl
  | cons entry nodes ih =>
      obtain ⟨found, node⟩ := entry
      by_cases hsame : found = location
      · subst hsame
        rw [List.filter_cons, if_neg (by simp), ih, List.lookup_cons, beq_eq_false_iff_ne.mpr hne]
      · rw [List.filter_cons, if_pos (by simpa using hsame), List.lookup_cons, List.lookup_cons, ih]

theorem node?_put_ne {other : Location} (hne : other ≠ location) :
    (t.put location node).node? other = t.node? other := by
  unfold node?
  rw [← lookup_filter_ne hne t.nodes, put, List.lookup_cons, beq_eq_false_iff_ne.mpr hne]

/-- A place where no directory stands is below the root. -/
theorem isAtOrAboveRoot_eq_false (h : t.node? location ≠ some .directory) :
    location.isAtOrAboveRoot = false := by
  rw [← Bool.not_eq_true]
  intro hroot
  exact h (by rw [node?, if_pos hroot])

/-- Nothing that was found is lost by a new file, since no way leads through its place. -/
theorem follow_put (hplace : t.node? location ≠ some .directory) {start found : Location}
    {names : List String} (h : t.follow start names = .ok found) :
    (t.put location node).follow start names = .ok found := by
  induction names generalizing start with
  | nil => exact h
  | cons name names ih =>
      rw [follow] at h ⊢
      split at h
      · cases h
      · cases h
      · rename_i hdirectory
        have hne : start ≠ location := by
          rintro rfl
          exact hplace hdirectory
        rw [node?_put_ne hne, hdirectory]
        split at h
        · rename_i hstays
          rw [if_pos hstays]
          exact ih h
        · rename_i hgoes
          rw [if_neg hgoes]
          split at h
          · rename_i hup
            rw [if_pos hup]
            exact ih h
          · rename_i hdown
            rw [if_neg hdown]
            split at h
            · cases h
            · rename_i hshort
              rw [if_neg hshort]
              exact ih h

/-- Where a path has a file, its names lead there, and nothing says that a directory is meant. -/
theorem locateNew_eq_ok_iff : t.locateNew p = .ok location ↔
    checkPath p = .ok () ∧ p.wayToDirectory? = none ∧
      t.follow (origin p) p.names = .ok location := by
  unfold locateNew
  cases checkPath p with
  | error e =>
      constructor
      · intro h
        cases h
      · rintro ⟨h, -⟩
        cases h
  | ok u =>
      cases p.wayToDirectory? with
      | none => exact ⟨fun h => ⟨rfl, rfl, h⟩, fun h => h.2.2⟩
      | some way =>
          constructor
          · intro h
            cases hfollow : t.follow (origin p) (way ++ [""]) <;>
              simp only [bind, Except.bind, hfollow] at h <;> cases h
          · rintro ⟨-, h, -⟩
            cases h

/-- Where a file can be written it is looked for too. -/
theorem locate_of_locateNew (h : t.locateNew p = .ok location) : t.locate p = .ok location := by
  obtain ⟨hcheck, -, hfollow⟩ := locateNew_eq_ok_iff.mp h
  rw [locate, hcheck]
  exact hfollow

theorem locate_put (hplace : t.node? location ≠ some .directory) {found : Location}
    (h : t.locate p = .ok found) : (t.put location node).locate p = .ok found := by
  unfold locate at h ⊢
  cases hcheck : checkPath p with
  | error e =>
      rw [hcheck] at h
      cases h
  | ok u =>
      rw [hcheck] at h
      exact follow_put hplace h

/-! ## Writing -/

theorem write_eq (h : t.locateNew p = .ok location) (hplace : t.node? location ≠ some .directory)
    (content : ByteArray) : t.write p content = (.ok (), t.put location (.file content)) := by
  simp only [write, h]

/-- **Writing succeeds just where a file can be written**, whatever its content. -/
theorem write_isOk_iff : (t.write p content).1 = .ok () ↔ t.IsWritable p := by
  constructor
  · intro h
    cases hlocate : t.locateNew p with
    | error e =>
        simp only [write, hlocate] at h
        cases h
    | ok location =>
        refine ⟨location, hlocate, fun hdirectory => ?_⟩
        simp only [write, hlocate, hdirectory] at h
        cases h
  · rintro ⟨location, hlocate, hplace⟩
    rw [write_eq hlocate hplace]

/-- A write that is refused changes nothing. -/
theorem write_of_refused {e : FileError} (h : (t.write p content).1 = .error e) :
    (t.write p content).2 = t := by
  unfold write at h ⊢
  split
  · rfl
  · rename_i location hlocate
    simp only [hlocate] at h
    split
    · rfl
    · rename_i hplace
      split at h
      · rename_i hdirectory
        exact absurd hdirectory hplace
      · cases h

/-- A way that leads to a place for a file is not barred by that file. -/
theorem locateNew_put (hplace : t.node? location ≠ some .directory)
    (h : t.locateNew p = .ok location) :
    (t.put location (.file content)).locateNew p = .ok location := by
  obtain ⟨hcheck, hway, hfollow⟩ := locateNew_eq_ok_iff.mp h
  exact locateNew_eq_ok_iff.mpr ⟨hcheck, hway, follow_put hplace hfollow⟩

/-- Where a file can be written it can be written again. -/
theorem isWritable_write (h : t.IsWritable p) (content : ByteArray) :
    (t.write p content).2.IsWritable p := by
  obtain ⟨location, hlocate, hplace⟩ := h
  rw [write_eq hlocate hplace]
  refine ⟨location, locateNew_put hplace hlocate, fun hdirectory => ?_⟩
  rw [node?_put_self (isAtOrAboveRoot_eq_false hplace)] at hdirectory
  cases hdirectory

/-- **What has been written is found and read at the path of the write.** -/
theorem readBytes_write (h : t.IsWritable p) (content : ByteArray) :
    ∃ t', t.write p content = (.ok (), t') ∧ t'.hasNode p = true ∧
      t'.readBytes p = .ok content := by
  obtain ⟨location, hlocate, hplace⟩ := h
  have hfound : (t.put location (.file content)).locate p = .ok location :=
    locate_put hplace (locate_of_locateNew hlocate)
  have hnode : (t.put location (.file content)).node? location = some (.file content) :=
    node?_put_self (isAtOrAboveRoot_eq_false hplace)
  refine ⟨_, write_eq hlocate hplace content, ?_, ?_⟩
  · simp only [hasNode, hfound, hnode, Option.isSome_some]
  · simp only [readBytes, hfound, bind, Except.bind, hnode]

/-- Text that has been written is read as the same text. -/
theorem readText_write (h : t.IsWritable p) (text : String) :
    ∃ t', t.write p text.toUTF8 = (.ok (), t') ∧ t'.hasNode p = true ∧
      t'.readText p = .ok text := by
  obtain ⟨t', hwrite, hnode, hbytes⟩ := readBytes_write h text.toUTF8
  have htext : String.fromUTF8? text.toUTF8 = some text := dif_pos text.isValidUTF8
  refine ⟨t', hwrite, hnode, ?_⟩
  simp only [readText, hbytes, bind, Except.bind, htext]

end LeasedCommit.FileTree
