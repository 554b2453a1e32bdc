import LeasedCommit.Proofs.Numerals
import LeasedCommit.Toml.Document

set_option autoImplicit false

/-! # Documents of settings

A document of settings has a line for each of them, the name, an equals sign and the number. It is
read as the names with their numbers, as long as no name comes twice (`Toml.read?_settingsText`).
The reader is followed from the characters of a line to its statement, then from line to line, and
at last through the table that the statements build. -/

namespace LeasedCommit.Toml

open Text

/-- A number with its name. -/
abbrev Setting := String × Nat

namespace Setting

/-- The line of a setting. -/
def line (s : Setting) : String := s.1 ++ " = " ++ toString s.2 ++ "\n"

/-- What the line puts into a table. -/
def entry (s : Setting) : String × Value := (s.1, .integer s.2)

/-- The statement that the line makes. -/
def statement (s : Setting) : Statement := .define { path := [], name := s.1 } (.integer s.2)

/-- The name is bare and not empty, and the number is an integer of TOML. -/
structure Legible (s : Setting) : Prop where
  nonempty : s.1 ≠ ""
  bare : ∀ c ∈ s.1.toList, isBare c = true
  small : s.2 < 9223372036854775808

end Setting

/-- The document of some settings. -/
def settingsText (settings : List Setting) : String := String.join (settings.map Setting.line)

variable {cs rest : List Char} {c : Char} {n : Nat} {s : Setting} {settings : List Setting}

/-! ## Names -/

theorem ne_of_isBare {d : Char} (h : isBare c = true) (hd : isBare d = false) : c ≠ d := by
  rintro rfl
  rw [h] at hd
  cases hd

/-- A name is not a blank. -/
theorem skipBlanks_bare (h : isBare c = true) : skipBlanks (c :: cs) = c :: cs := by
  have hspace := ne_of_isBare h (d := ' ') (by decide)
  have htab := ne_of_isBare h (d := '\t') (by decide)
  have hblank : isBlank c = false := by
    simp [isBlank, hspace, htab]
  rw [skipBlanks, List.dropWhile_cons, hblank]
  rfl

/-- A line that begins with a name is not empty. -/
theorem endOfLine?_bare (h : isBare c = true) : endOfLine? (c :: cs) = none := by
  have hcomment : skipComment (c :: cs) = c :: cs := by
    rw [skipComment]
    exact cons_ne (ne_of_isBare h (d := '#') (by decide))
  rw [endOfLine?, skipBlanks_bare h, hcomment]
  show newline? (c :: cs) = none
  rw [newline?]
  · exact cons_ne (ne_of_isBare h (d := '\n') (by decide))
  · intro rest
    exact cons_ne (ne_of_isBare h (d := '\r') (by decide)) ('\n' :: rest)

theorem name?_bare (hne : cs ≠ []) (h : ∀ c ∈ cs, isBare c = true) :
    name? (cs ++ ' ' :: rest) = some (String.ofList cs, ' ' :: rest) := by
  have htaken : (cs ++ ' ' :: rest).takeWhile isBare = cs := by
    rw [List.takeWhile_append_of_pos h, List.takeWhile_cons, if_neg (by decide), List.append_nil]
  have hleft : (cs ++ ' ' :: rest).dropWhile isBare = ' ' :: rest := by
    rw [List.dropWhile_append_of_pos h]
    rfl
  have hsome : some? isBare (cs ++ ' ' :: rest) = some (cs, ' ' :: rest) := by
    unfold some?
    rw [htaken, hleft]
    split
    · exact absurd rfl hne
    · rfl
  obtain ⟨c, ds, rfl⟩ := List.exists_cons_of_ne_nil hne
  have hc := h c List.mem_cons_self
  unfold name?
  split
  · rename_i heq
    exact absurd heq (cons_ne (ne_of_isBare hc (by decide)) _)
  · rename_i heq
    exact absurd heq (cons_ne (ne_of_isBare hc (by decide)) _)
  · rw [hsome]
    rfl

theorem key?_bare (hne : cs ≠ []) (h : ∀ c ∈ cs, isBare c = true) :
    key? (cs ++ ' ' :: '=' :: rest) =
      some ({ path := [], name := String.ofList cs }, '=' :: rest) := by
  have hskip : skipBlanks (cs ++ ' ' :: '=' :: rest) = cs ++ ' ' :: '=' :: rest := by
    obtain ⟨c, ds, rfl⟩ := List.exists_cons_of_ne_nil hne
    exact skipBlanks_bare (h c List.mem_cons_self)
  have hnames : names? nameBound (cs ++ ' ' :: '=' :: rest) =
      some ([String.ofList cs], '=' :: rest) := by
    rw [show nameBound = 78 + 1 from rfl, names?, hskip, name?_bare hne h]
    rfl
  rw [key?, hnames]
  rfl

/-! ## Lines -/

/-- **A number is read as it is written.** -/
theorem value?_numeral (h : IsNumeral n cs) (hn : n < 9223372036854775808) (levels : Nat) :
    value? levels (cs ++ '\n' :: rest) = some (.integer n, '\n' :: rest) := by
  have hscalar : scalar? (cs ++ '\n' :: rest) = some (.integer n, '\n' :: rest) := by
    have hmoment : moment? (cs ++ '\n' :: rest) = none := moment?_numeral h
    have hdecimal : decimal? (cs ++ '\n' :: rest) = none := decimal?_numeral h
    have hspecial : special? (cs ++ '\n' :: rest) = none := special?_numeral h
    have hread : integer? (cs ++ '\n' :: rest) = some (.integer n, '\n' :: rest) :=
      integer?_numeral h hn
    obtain ⟨c, ds, rfl, hc⟩ := h.exists_cons
    unfold scalar?
    split
    · rename_i heq
      exact absurd heq (cons_ne (hc.ne (by decide)) _)
    · rename_i heq
      exact absurd heq (cons_ne (hc.ne (by decide)) _)
    · rename_i heq
      exact absurd heq (cons_ne (hc.ne (by decide)) _)
    · rename_i heq
      exact absurd heq (cons_ne (hc.ne (by decide)) _)
    · rw [hmoment, hdecimal, hspecial, hread]
      rfl
  cases levels with
  | zero => exact hscalar
  | succ levels =>
      obtain ⟨c, ds, rfl, hc⟩ := h.exists_cons
      rw [value?]
      · exact hscalar
      · exact cons_ne (hc.ne (by decide))
      · exact cons_ne (hc.ne (by decide))

theorem line_append (s : Setting) (rest : List Char) :
    s.line.toList ++ rest =
      s.1.toList ++ ' ' :: '=' :: ' ' :: (Nat.toDigits 10 s.2 ++ '\n' :: rest) := by
  simp [Setting.line]

/-- A legible name begins with a bare character. -/
theorem Setting.Legible.exists_cons (h : s.Legible) :
    ∃ c ds, s.1.toList = c :: ds ∧ isBare c = true := by
  have hne : s.1.toList ≠ [] := by
    intro hnil
    exact h.nonempty (String.toList_eq_nil_iff.mp hnil)
  obtain ⟨c, ds, hcs⟩ := List.exists_cons_of_ne_nil hne
  exact ⟨c, ds, hcs, h.bare c (hcs ▸ List.mem_cons_self)⟩

/-- A setting is read as its statement. -/
theorem statement?_line (h : s.Legible) (rest : List Char) :
    statement? (s.line.toList ++ rest) = some (s.statement, '\n' :: rest) := by
  rw [line_append]
  obtain ⟨c, ds, hcs, hc⟩ := h.exists_cons
  have hne : s.1.toList ≠ [] := hcs ▸ List.cons_ne_nil c ds
  have hnumeral := isNumeral_toDigits s.2
  have hskip : skipBlanks (' ' :: (Nat.toDigits 10 s.2 ++ '\n' :: rest)) =
      Nat.toDigits 10 s.2 ++ '\n' :: rest := by
    obtain ⟨d, digits, hdigits, hd⟩ := hnumeral.exists_cons
    have hspace := hd.ne (show ∀ d < 10, Nat.digitChar d ≠ ' ' by decide)
    have htab := hd.ne (show ∀ d < 10, Nat.digitChar d ≠ '\t' by decide)
    rw [hdigits]
    simp [skipBlanks, isBlank, hspace, htab]
  have hpair : pair? (value? levelBound)
      (s.1.toList ++ ' ' :: '=' :: ' ' :: (Nat.toDigits 10 s.2 ++ '\n' :: rest)) =
      some (({ path := [], name := s.1 }, .integer s.2), '\n' :: rest) := by
    simp only [pair?, key?_bare hne h.bare, String.ofList_toList, Option.bind_eq_bind,
      Option.bind_some, hskip, value?_numeral hnumeral h.small, Option.pure_def]
  have hbracket : c ≠ '[' := ne_of_isBare hc (by decide)
  rw [hcs] at hpair ⊢
  rw [statement?]
  · rw [hpair]
    rfl
  · intro rest
    exact cons_ne hbracket ('[' :: rest)
  · exact cons_ne hbracket

/-! ## Documents -/

theorem toList_settingsText (settings : List Setting) :
    (settingsText settings).toList = settings.flatMap fun s => s.line.toList := by
  rw [settingsText, String.toList_join, List.flatMap_map]

/-- **A document of settings is read line by line.** -/
theorem statements?_lines (h : ∀ s ∈ settings, s.Legible) {fuel : Nat}
    (hfuel : settings.length < fuel) :
    statements? fuel (settings.flatMap fun s => s.line.toList) =
      some (settings.map Setting.statement) := by
  induction settings generalizing fuel with
  | nil =>
      obtain ⟨fuel, rfl⟩ := Nat.exists_eq_add_one_of_ne_zero (Nat.ne_of_gt hfuel)
      rfl
  | cons s settings ih =>
      obtain ⟨fuel, rfl⟩ := Nat.exists_eq_add_one_of_ne_zero (Nat.ne_zero_of_lt hfuel)
      have hline := h s List.mem_cons_self
      have hrest := ih (fun s hs => h s (List.mem_cons_of_mem _ hs)) (Nat.lt_of_succ_lt_succ hfuel)
      rw [List.flatMap_cons]
      generalize settings.flatMap (fun s => s.line.toList) = rest at hrest ⊢
      have hstatement := statement?_line hline rest
      have hend : endOfLine? ('\n' :: rest) = some rest := rfl
      obtain ⟨c, ds, hcs, hc⟩ := hline.exists_cons
      rw [line_append, hcs, List.cons_append] at hstatement ⊢
      rw [statements?, endOfLine?_bare hc, skipBlanks_bare hc, hstatement]
      · simp only [Option.bind_eq_bind, Option.bind_some, hend, hrest]
        rfl
      · intro hnil
        cases hnil

/-- A definition on the top level adds an entry, unless there is one of its name. -/
theorem after?_statement {root : Entries} (h : ∀ entry ∈ root, entry.1 ≠ s.1) :
    Draft.after? { root := root, place := [] } s.statement =
      some { root := root ++ [s.entry], place := [] } := by
  have hnone : root.lookup s.1 = none := by
    rw [List.lookup_eq_none_iff]
    intro entry hentry
    exact bne_iff_ne.mpr (h entry hentry).symm
  have hinsert : root.insert? s.1 (.integer s.2) = some (root ++ [s.entry]) := by
    rw [Entries.insert?, hnone]
    rfl
  have hdefine : root.defineAt [] { path := [], name := s.1 } (.integer s.2) =
      some (root ++ [s.entry]) := hinsert
  rw [Setting.statement, Draft.after?, hdefine]
  rfl

/-- The settings of a document become the entries of its table. -/
theorem foldlM_statements {root : Entries}
    (h : ((root ++ settings.map Setting.entry).map Prod.fst).Nodup) :
    (settings.map Setting.statement).foldlM Draft.after? { root := root, place := [] } =
      some { root := root ++ settings.map Setting.entry, place := [] } := by
  induction settings generalizing root with
  | nil =>
      rw [List.map_nil, List.map_nil, List.append_nil, List.foldlM_nil]
      rfl
  | cons s settings ih =>
      rw [List.map_cons, List.append_cons] at h
      have hnew : ∀ entry ∈ root, entry.1 ≠ s.1 := by
        intro entry hentry heq
        rw [List.map_append, List.map_append] at h
        have hroot := (List.nodup_append.mp h).1
        exact (List.nodup_append.mp hroot).2.2 entry.1 (List.mem_map_of_mem hentry) s.1
          List.mem_cons_self heq
      rw [List.map_cons, List.map_cons, List.append_cons, List.foldlM_cons, after?_statement hnew]
      exact ih h

/-- There are no more lines than characters. -/
theorem length_le_settingsText (settings : List Setting) :
    settings.length ≤ (settingsText settings).length := by
  rw [← String.length_toList, toList_settingsText]
  induction settings with
  | nil => exact Nat.le_refl _
  | cons s settings ih =>
      have hline : 1 ≤ s.line.toList.length := by
        simp [Setting.line]
        omega
      rw [List.flatMap_cons, List.length_append, List.length_cons]
      omega

/-- No byte order mark stands in front of a name. -/
theorem skipMark_settingsText (h : ∀ s ∈ settings, s.Legible) :
    skipMark (settingsText settings).toList = (settingsText settings).toList := by
  rw [toList_settingsText]
  cases settings with
  | nil => rfl
  | cons s settings =>
      obtain ⟨c, ds, hcs, hc⟩ := (h s List.mem_cons_self).exists_cons
      have hmark : c.toNat ≠ 0xFEFF := by
        intro heq
        have hchar : c = Char.ofNat 0xFEFF := by
          rw [← heq, Char.ofNat_toNat]
        exact ne_of_isBare hc (by decide) hchar
      rw [List.flatMap_cons, line_append, hcs, List.cons_append, skipMark, if_neg hmark]

/-- **A document of settings is read as these settings.** -/
theorem read?_settingsText (h : ∀ s ∈ settings, s.Legible)
    (hnames : (settings.map Prod.fst).Nodup) :
    read? (settingsText settings) = some (settings.map Setting.entry) := by
  have hfuel : settings.length < (settingsText settings).length + 1 :=
    Nat.lt_succ_of_le (length_le_settingsText settings)
  have hentries : (([] ++ settings.map Setting.entry).map Prod.fst).Nodup := by
    rw [List.nil_append, List.map_map]
    exact hnames
  rw [read?, skipMark_settingsText h, toList_settingsText, statements?_lines h hfuel,
    Option.bind_some, Entries.ofStatements?, foldlM_statements hentries]
  rfl

end LeasedCommit.Toml
