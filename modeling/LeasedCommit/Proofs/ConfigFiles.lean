import LeasedCommit.Config.File
import LeasedCommit.Proofs.FileWrites
import LeasedCommit.Proofs.TomlLines

set_option autoImplicit false

/-! # Configurations that are written and read back

The writer of a configuration makes a line for each setting, and the reader looks the settings up by
name, each with a default and a range of its own. That both agree is shown on numbers that are
looked up by name (`Config.ofNumbers?_numbers`); the text between them is a document of settings,
and the file that holds it is one that has been written. A configuration that cannot be written
leaves all files as they are (`Config.toFile_of_refused`). -/

namespace LeasedCommit.Config

open Toml

variable {c : Config} {t t' : FileTree} {p : Path} {document : String}

/-! ## The numbers -/

/-- The settings of 64 bits. -/
def words (c : Config) : List UInt64 :=
  [c.defaultLeaseMs] ++ c.maxLeaseMs.toList ++
    [c.sweepIntervalMs, c.retentionMs, c.rollForwardBackoffMs]

/-- Only settings of 64 bits can be too large for a document. -/
theorem numbers_all_iff (c : Config) :
    c.numbers.all (·.2 ≤ largestInteger) = true ↔ ∀ w ∈ c.words, w.toNat ≤ largestInteger := by
  have hretries : c.rollForwardRetries.toNat ≤ largestInteger := by
    have hlt := c.rollForwardRetries.toNat_lt
    unfold largestInteger
    omega
  cases hmax : c.maxLeaseMs with
  | none => simp [numbers, words, hmax, hretries]
  | some bound => simp [numbers, words, hmax, hretries]

theorem names_numbers (c : Config) : (c.numbers.map Prod.fst).Sublist names := by
  cases hmax : c.maxLeaseMs with
  | none => simp [numbers, names, hmax]
  | some bound => simp [numbers, names, hmax]

theorem nodup_names : names.Nodup := by decide

/-- A number in a document of settings is the one that was written. -/
theorem numberIn?_map (settings : List Setting) (name : String) :
    numberIn? (settings.map Setting.entry) name = some (settings.lookup name) := by
  induction settings with
  | nil => rfl
  | cons s settings ih =>
      obtain ⟨other, n⟩ := s
      unfold numberIn? at ih ⊢
      rw [List.map_cons, Setting.entry, List.lookup_cons, List.lookup_cons]
      cases hsame : name == other with
      | true => exact if_pos (Int.natCast_nonneg n)
      | false => exact ih

/-- **The reader finds every setting under the name that the writer gives it.** -/
theorem ofNumbers?_numbers (c : Config) :
    ofNumbers? (fun name => some (c.numbers.lookup name)) = some c := by
  obtain ⟨defaultLeaseMs, maxLeaseMs, sweepIntervalMs, retentionMs, retries, backoffMs⟩ := c
  cases maxLeaseMs with
  | none =>
      simp [ofNumbers?, numbers, List.lookup_cons, word64?_toNat, word32?_toNat, standard]
  | some bound =>
      simp [ofNumbers?, numbers, List.lookup_cons, word64?_toNat, word32?_toNat]

/-! ## The documents -/

/-- The names of the settings are bare. -/
theorem bare_names {name : String} (h : name ∈ names) :
    name ≠ "" ∧ ∀ c ∈ name.toList, isBare c = true := by
  -- decided name by name: for all names it would be decided by going through every character
  have hall : names.all (fun name => name != "" && name.toList.all isBare) = true := by
    decide +kernel
  have hname := List.all_eq_true.mp hall name h
  rwa [Bool.and_eq_true, bne_iff_ne, List.all_eq_true] at hname

theorem legible_numbers (h : ∀ w ∈ c.words, w.toNat ≤ largestInteger) :
    ∀ s ∈ c.numbers, Setting.Legible s := by
  intro s hs
  have hname : s.1 ∈ names := (names_numbers c).subset (List.mem_map_of_mem hs)
  have hsmall := List.all_eq_true.mp ((numbers_all_iff c).mpr h) s hs
  obtain ⟨hne, hbare⟩ := bare_names hname
  exact ⟨hne, hbare, Nat.lt_succ_of_le (of_decide_eq_true hsmall)⟩

/-- **The document of a configuration is read as this configuration.** -/
theorem ofToml?_toDocument (h : ∀ w ∈ c.words, w.toNat ≤ largestInteger) :
    ∃ document, c.toDocument = .ok document ∧ ofToml? document = some c := by
  have hnames : (c.numbers.map Prod.fst).Nodup := nodup_names.sublist (names_numbers c)
  have hfind : numberIn? (c.numbers.map Setting.entry) =
      fun name => some (c.numbers.lookup name) := by
    funext name
    rw [numberIn?_map]
  refine ⟨settingsText c.numbers, if_pos ((numbers_all_iff c).mpr h), ?_⟩
  rw [ofToml?, read?_settingsText (legible_numbers h) hnames, Option.bind_some, hfind,
    ofNumbers?_numbers]

/-- A configuration with a number that is too large has no document. -/
theorem toDocument_of_exceeds (h : ∃ w ∈ c.words, largestInteger < w.toNat) :
    c.toDocument = .error (.invalidConfig "failed to serialize config") := by
  refine if_neg fun hall => ?_
  obtain ⟨w, hw, hlarge⟩ := h
  exact Nat.not_lt.mpr ((numbers_all_iff c).mp hall w hw) hlarge

/-- The reader on the characters of a document. -/
theorem ofToml?_ofList (cs : List Char) :
    ofToml? (String.ofList cs) =
      ((statements? (cs.length + 1) (skipMark cs)).bind Entries.ofStatements?).bind
        fun entries => ofNumbers? (numberIn? entries) := by
  rw [ofToml?, read?, String.toList_ofList, String.length_ofList]

set_option maxRecDepth 4000 in
/-- **The standard document says what holds without a document.** -/
theorem ofToml?_standardDocument : ofToml? standardDocument = some standard :=
  (ofToml?_ofList _).trans (by decide +kernel)

/-! ## The files -/

/-- A configuration is accepted, or there is a message about it. -/
theorem validate_cases (c : Config) :
    c.validate = .ok c ∨ ∃ message, c.validate = .error (.invalidConfig message) := by
  unfold validate
  cases c.fault? with
  | none => exact .inl rfl
  | some fault => exact .inr ⟨fault.message, rfl⟩

/-- The file at a path gives a configuration if that is accepted. Otherwise it gives the message
about it, which then names the file. -/
def FoundAt (c : Config) (t : FileTree) (p : Path) : Prop :=
  (c.validate = .ok c ∧ ofFile t p = .ok c) ∨
    ∃ message, c.validate = .error (.invalidConfig message) ∧
      ofFile t p = .error (.invalidConfig (p.shown ++ ": " ++ message))

theorem FoundAt.ofFile_eq (h : c.FoundAt t p) (hvalid : c.validate = .ok c) :
    ofFile t p = .ok c := by
  rcases h with ⟨-, hfile⟩ | ⟨message, hfault, -⟩
  · exact hfile
  · rw [hvalid] at hfault
    cases hfault

/-- A document in a file is read like any other. -/
theorem foundAt_of_readText (htext : t.readText p = .ok document)
    (hread : ofToml? document = some c) : c.FoundAt t p := by
  rcases validate_cases c with hvalid | ⟨message, hfault⟩
  · left
    refine ⟨hvalid, ?_⟩
    simp only [ofFile, htext, ofDocument, hread, hvalid]
  · right
    refine ⟨message, hfault, ?_⟩
    simp only [ofFile, htext, ofDocument, hread, hfault]

/-- A document that has been written is found and read. -/
theorem readText_store (h : t.IsWritable p) (document : String) :
    ∃ t', store t p document = (.ok (), t') ∧ load t' p = ofFile t' p ∧
      t'.readText p = .ok document := by
  obtain ⟨t', hwrite, hnode, htext⟩ := FileTree.readText_write h document
  refine ⟨t', ?_, if_pos hnode, htext⟩
  rw [store, hwrite]
  rfl

/-- A document that cannot be stored changes nothing. -/
theorem store_of_refused {e : TransactionError} (h : (store t p document).1 = .error e) :
    (store t p document).2 = t := by
  have hmapped : (t.write p document.toUTF8).1.mapError (fun e => .io e.message) = .error e := h
  cases hwrite : (t.write p document.toUTF8).1 with
  | ok u =>
      rw [hwrite] at hmapped
      cases hmapped
  | error e' => exact FileTree.write_of_refused hwrite

/-- **A configuration that cannot be written changes nothing**, wherever it was to be written. -/
theorem toFile_of_refused {e : TransactionError} (h : (c.toFile t p).1 = .error e) :
    (c.toFile t p).2 = t := by
  unfold toFile at h ⊢
  cases hdocument : c.toDocument with
  | error e' => rfl
  | ok document =>
      rw [hdocument] at h
      exact store_of_refused h

/-- Whatever became of it, a configuration can be written to the same file again. -/
theorem isWritable_toFile (h : t.IsWritable p) (c : Config) : (c.toFile t p).2.IsWritable p := by
  unfold toFile
  cases c.toDocument with
  | error e => exact h
  | ok document => exact FileTree.isWritable_write h _

/-- **A configuration that has been written is found again**, or refused for its own fault. -/
theorem load_toFile (h : t.IsWritable p) (hsmall : ∀ w ∈ c.words, w.toNat ≤ largestInteger) :
    ∃ t', c.toFile t p = (.ok (), t') ∧ load t' p = ofFile t' p ∧ c.FoundAt t' p := by
  obtain ⟨document, hdocument, hread⟩ := ofToml?_toDocument hsmall
  obtain ⟨t', hstore, hload, htext⟩ := readText_store h document
  refine ⟨t', ?_, hload, foundAt_of_readText htext hread⟩
  rw [toFile, hdocument]
  exact hstore

/-- A new file that says what holds without a file changes nothing. -/
theorem load_store_of_missing (h : t.IsWritable p) (hmissing : t.hasNode p = false)
    (hread : ofToml? document = some standard) :
    ∃ t', store t p document = (.ok (), t') ∧ load t' p = load t p := by
  obtain ⟨t', hstore, hload, htext⟩ := readText_store h document
  have hfile : ofFile t' p = .ok standard := (foundAt_of_readText htext hread).ofFile_eq rfl
  have hnone : load t p = .ok standard := by
    rw [load, hmissing, if_neg Bool.false_ne_true]
  exact ⟨t', hstore, by rw [hload, hfile, hnone]⟩

/-- **The standard document changes nothing** for those who load the settings. -/
theorem load_storeStandardIfMissing (h : t.IsWritable p) :
    ∃ t', storeStandardIfMissing t p = (.ok (), t') ∧ load t' p = load t p := by
  cases hnode : t.hasNode p with
  | true => exact ⟨t, if_pos hnode, rfl⟩
  | false =>
      obtain ⟨t', hstore, hload⟩ := load_store_of_missing h hnode ofToml?_standardDocument
      rw [← Bool.not_eq_true] at hnode
      exact ⟨t', (if_neg hnode).trans hstore, hload⟩

/-- **Configuration files.** Where a file can be written, a configuration whose numbers fit into a
document is found again by everyone who reads the file, as long as its values can be used together,
and is refused otherwise. A larger number keeps anything from being written: all files are what they
were. The standard document where there is none is as good as no file. -/
theorem config_files (h : t.IsWritable p) (c : Config) :
    ((∀ w ∈ c.words, w.toNat ≤ largestInteger) →
      ∃ t', c.toFile t p = (.ok (), t') ∧ load t' p = ofFile t' p ∧ c.FoundAt t' p) ∧
    ((∃ w ∈ c.words, largestInteger < w.toNat) →
      c.toFile t p = (.error (.invalidConfig "failed to serialize config"), t)) ∧
    ∃ t', storeStandardIfMissing t p = (.ok (), t') ∧ load t' p = load t p := by
  refine ⟨load_toFile h, fun hlarge => ?_, load_storeStandardIfMissing h⟩
  have hrefused : (c.toFile t p).1 = .error (.invalidConfig "failed to serialize config") := by
    rw [toFile, toDocument_of_exceeds hlarge]
  exact Prod.ext hrefused (toFile_of_refused hrefused)

/-- A file that can be written again: settings with a bound are kept. Then a retention that no
document can hold is refused and the settings stay. The standard document goes where nothing
stands. -/
theorem config_files_bounded :
    let p : Path := { root := "root", names := [fileName] }
    let bounded : Config := { standard with maxLeaseMs := some 7200000, rollForwardRetries := 2 }
    let lasting : Config := { bounded with retentionMs := 9223372036854775808 }
    (∃ t', bounded.toFile .empty p = (.ok (), t') ∧ load t' p = .ok bounded ∧
      lasting.toFile t' p = (.error (.invalidConfig "failed to serialize config"), t') ∧
      ∃ t'', storeStandardIfMissing t' p = (.ok (), t'') ∧ load t'' p = .ok bounded) ∧
    ∃ t', storeStandardIfMissing .empty p = (.ok (), t') ∧ load t' p = .ok standard := by
  intro p bounded lasting
  have hwritable : FileTree.empty.IsWritable p := by
    refine ⟨[fileName], by decide, fun hdirectory => ?_⟩
    cases hdirectory
  have hvalid : bounded.validate = .ok bounded := by decide
  have hsmall := (numbers_all_iff bounded).mp (by decide)
  have hlarge : ∃ w ∈ lasting.words, largestInteger < w.toNat :=
    ⟨lasting.retentionMs, by decide, by decide⟩
  constructor
  · obtain ⟨t', hwrite, hload, hfound⟩ := (config_files hwritable bounded).1 hsmall
    have hkept : load t' p = .ok bounded := hload.trans (hfound.ofFile_eq hvalid)
    have hagain := isWritable_toFile hwritable bounded
    rw [hwrite] at hagain
    obtain ⟨-, hrefused, t'', hstandard, hsame⟩ := config_files hagain lasting
    exact ⟨t', hwrite, hkept, hrefused hlarge, t'', hstandard, hsame.trans hkept⟩
  · obtain ⟨-, -, t', hstandard, hload⟩ := config_files hwritable bounded
    exact ⟨t', hstandard, hload.trans rfl⟩

end LeasedCommit.Config
