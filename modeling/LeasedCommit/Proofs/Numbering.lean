import LeasedCommit.Proofs.Agreement
import LeasedCommit.Proofs.ManagerRun
import Mathlib.Data.List.Nodup

set_option autoImplicit false

/-! # Numbers, places and the table

The number of a transaction follows from its place: the first one is 1. So as long as the
numbers have not run out, an entry that comes into the table displaces no other one, and since
a sweep evicts decided transactions only, every undecided transaction is in the table or about
to enter it (`Manager.Run.tracks`). -/

namespace LeasedCommit

/-! ## Transactions without a decision -/

namespace Coordinator

/-- Whether there is a transaction without a decision at a place. -/
def isActive (c : Coordinator) (place : Nat) : Bool :=
  (c.record? place).any fun record => !record.phase.isTerminal

variable {rules : Rules} {c d : Coordinator}

theorem lt_of_isActive {place : Nat} (h : c.isActive place = true) :
    place < c.transactions.length := by
  simp only [isActive, record?, Option.any_map, Option.any_eq_true] at h
  obtain ⟨x, hx, -⟩ := h
  exact (List.getElem?_eq_some_iff.mp hx).1

/-- A decision is not taken back. -/
theorem Reached.isActive_of_step (hc : Reached rules c) {place : Nat} {action : Action}
    (h : c.step place action = some d) {p : Nat} (hp : d.isActive p = true) :
    c.isActive p = true := by
  simp only [Coordinator.step, Option.bind_eq_some_iff, Option.map_eq_some_iff] at h
  obtain ⟨x, hx, ⟨y, counts⟩, hmove, rfl⟩ := h
  simp only [isActive, record?, Option.any_map, Option.any_eq_true,
    Bool.not_eq_true', List.getElem?_set] at hp ⊢
  obtain ⟨z, hz, hundecided⟩ := hp
  split at hz
  · rename_i hplace
    subst hplace
    split at hz
    · obtain rfl := Option.some.inj hz
      refine ⟨x, hx, ?_⟩
      cases hd : x.record.phase.isTerminal with
      | false => rfl
      | true =>
          have hphase : y.record.phase = x.record.phase :=
            ((hc.sound hx).step_later hmove).phase_eq hd
          rw [← hd, ← hphase]
          exact hundecided
    · cases hz
  · exact ⟨z, hz, hundecided⟩

theorem isActive_openTransaction {id : TransactionId} {request : LeaseRequest} {now : Timestamp}
    {p : Nat} (h : (c.openTransaction id request now).1.isActive p = true) :
    c.isActive p = true ∨ p = c.transactions.length := by
  have hlt : p < c.transactions.length + 1 := by
    simpa [openTransaction] using lt_of_isActive h
  by_cases hp : p = c.transactions.length
  · exact .inr hp
  · have hold : p < c.transactions.length := by omega
    left
    simpa [isActive, record?, openTransaction, List.getElem?_append, hold] using h

end Coordinator

namespace Manager

/-! ## Numbers and places -/

/-- The number of the transaction at a place. -/
def numberAt (place : Nat) : TransactionId := ⟨UInt64.ofNat (place + 1)⟩

/-- Numbers are different until they have run out. -/
theorem numberAt_inj {p q : Nat} (hp : p + 1 < UInt64.size) (hq : q + 1 < UInt64.size)
    (h : numberAt p = numberAt q) : p = q := by
  have hvalue : UInt64.ofNat (p + 1) = UInt64.ofNat (q + 1) := congrArg TransactionId.value h
  have htoNat := congrArg UInt64.toNat hvalue
  rw [UInt64.toNat_ofNat', UInt64.toNat_ofNat'] at htoNat
  simp only [UInt64.size] at hp hq
  omega

/-- An entry that is in the table or about to enter it. -/
def Knows (m : Manager) (entry : Entry) : Prop :=
  entry ∈ m.table ∨ ∃ e ∈ m.errands, e.storing? = some entry

/-- The number of transactions ever opened. -/
def issued (m : Manager) : Nat := m.coordinator.transactions.length

theorem issued_opened {m : Manager} {request : LeaseRequest} {now : Timestamp} :
    (m.opened request now).issued = m.issued + 1 := by
  simp [issued, opened, Coordinator.openTransaction]

/-- The numbers are given out in order, and the table has each of them once. -/
structure Numbered (m : Manager) : Prop where
  next : numberAt m.issued = ⟨m.nextId⟩
  place : ∀ entry, m.Knows entry → entry.place < m.issued
  id : ∀ entry, m.Knows entry → entry.id = numberAt entry.place
  nodup : (m.table.map Entry.id).Nodup

/-- Every undecided transaction is in the table or about to enter it. -/
def Tracks (m : Manager) : Prop :=
  m.issued < UInt64.size →
    ∀ place, m.coordinator.isActive place = true → ∃ entry, m.Knows entry ∧ entry.place = place

variable {m m₁ : Manager} {i : Nat} {e e' : Errand}

/-- What is known after an errand has moved was known before, or is what it holds now. -/
theorem knows_put {entry : Entry} (h : (m.put i e').Knows entry) :
    m.Knows entry ∨ e'.storing? = some entry := by
  rcases h with h | ⟨e, he, hstoring⟩
  · exact .inl (.inl h)
  · rcases List.mem_or_eq_of_mem_set he with he | rfl
    · exact .inl (.inr ⟨e, he, hstoring⟩)
    · exact .inr hstoring

/-- What is known stays known if the errand that moves did not hold it. -/
theorem Knows.put {entry : Entry} (h : m.Knows entry) (he : m.errand? i = some e)
    (hne : e.storing? ≠ some entry) : (m.put i e').Knows entry := by
  rcases h with h | ⟨e₁, he₁, hstoring⟩
  · exact .inl h
  · obtain ⟨j, hj⟩ := List.mem_iff_getElem?.mp he₁
    have hij : i ≠ j := by
      rintro rfl
      obtain rfl := Option.some.inj (hj.symm.trans he)
      exact hne hstoring
    refine .inr ⟨e₁, List.mem_iff_getElem?.mpr ⟨j, ?_⟩, hstoring⟩
    show (m.errands.set i e')[j]? = some e₁
    rw [List.getElem?_set_ne hij, hj]

/-- An errand that holds a new transaction makes it known. -/
theorem knows_put_self {entry : Entry} (he : m.errand? i = some e)
    (hstoring : e'.storing? = some entry) : (m.put i e').Knows entry := by
  obtain ⟨hlt, -⟩ := List.getElem?_eq_some_iff.mp he
  exact .inr ⟨e', List.mem_iff_getElem?.mpr ⟨i, List.getElem?_set_self hlt⟩, hstoring⟩

/-- An errand that does not come to hold a new transaction adds none to those that are held. -/
theorem Does.held (hdoes : m.Does e m₁ e') (he' : e'.storing? = none) :
    ∀ e₁ ∈ (m₁.put i e').errands, e₁ ∈ m.errands ∨ e₁.storing? = none := by
  intro e₁ he₁
  rcases List.mem_or_eq_of_mem_set he₁ with h | rfl
  · exact .inl (hdoes.errands ▸ h)
  · exact .inr he'

/-! ### The numbers -/

theorem numbered_create (config : Config) : (create config).Numbered where
  next := rfl
  place entry h := by simp [Knows, create] at h
  id entry h := by simp [Knows, create] at h
  nodup := List.nodup_nil

/-- The numbers stay in order if nothing is opened and nothing enters the table. -/
theorem Numbered.keep {m' : Manager} (h : m.Numbered) (hissued : m'.issued = m.issued)
    (hnext : m'.nextId = m.nextId) (htable : m'.table.Sublist m.table)
    (hheld : ∀ e ∈ m'.errands, e ∈ m.errands ∨ e.storing? = none) : m'.Numbered := by
  have hknows : ∀ entry, m'.Knows entry → m.Knows entry := by
    rintro entry (hentry | ⟨e, he, hstoring⟩)
    · exact .inl (htable.subset hentry)
    · rcases hheld e he with hold | hnone
      · exact .inr ⟨e, hold, hstoring⟩
      · rw [hnone] at hstoring
        cases hstoring
  exact ⟨by rw [hissued, hnext, h.next],
    fun entry hentry => hissued ▸ h.place entry (hknows entry hentry),
    fun entry hentry => h.id entry (hknows entry hentry), h.nodup.sublist (htable.map Entry.id)⟩

/-- A new transaction has the number that follows from its place. -/
theorem Numbered.opened (h : m.Numbered) (request : LeaseRequest) (now : Timestamp) :
    ((m.opened request now).put i (.storing ⟨⟨m.nextId⟩, m.issued⟩)).Numbered := by
  have hknows : ∀ entry,
      ((m.opened request now).put i (.storing ⟨⟨m.nextId⟩, m.issued⟩)).Knows entry →
      m.Knows entry ∨ entry = ⟨⟨m.nextId⟩, m.issued⟩ := by
    intro entry hentry
    exact (knows_put hentry).imp_right fun heq => (Option.some.inj heq).symm
  refine ⟨?_, fun entry hentry => ?_, fun entry hentry => ?_, h.nodup⟩
  · show numberAt (m.opened request now).issued = ⟨m.nextId + 1⟩
    have hvalue : UInt64.ofNat (m.issued + 1) = m.nextId := congrArg TransactionId.value h.next
    rw [issued_opened, numberAt, UInt64.ofNat_add, hvalue]
    rfl
  · show entry.place < (m.opened request now).issued
    rw [issued_opened]
    rcases hknows entry hentry with hold | rfl
    · exact Nat.lt_succ_of_lt (h.place entry hold)
    · exact Nat.lt_succ_self _
  · rcases hknows entry hentry with hold | rfl
    · exact h.id entry hold
    · exact h.next.symm

/-- An entry that comes into the table takes the place of another one of its number. -/
theorem Numbered.stored (h : m.Numbered) {entry : Entry} (hentry : m.Knows entry)
    (he' : e'.storing? = none) : ((m.insert entry).put i e').Numbered := by
  have hknows : ∀ entry', ((m.insert entry).put i e').Knows entry' → m.Knows entry' := by
    intro entry' h'
    rcases knows_put h' with hold | hnew
    · rcases hold with hold | hold
      · rcases List.mem_append.mp hold with hold | hold
        · exact .inl (List.mem_of_mem_filter hold)
        · exact List.mem_singleton.mp hold ▸ hentry
      · exact .inr hold
    · rw [he'] at hnew
      cases hnew
  refine ⟨h.next, fun _ h' => h.place _ (hknows _ h'), fun _ h' => h.id _ (hknows _ h'), ?_⟩
  show ((m.table.filter (fun e => e.id ≠ entry.id) ++ [entry]).map Entry.id).Nodup
  rw [List.map_append, List.map_singleton, List.nodup_append]
  refine ⟨h.nodup.sublist (List.filter_sublist.map _), by simp, ?_⟩
  rintro id hid id' hid' rfl
  -- the filter has left no entry of this number
  obtain ⟨e₁, he₁, rfl⟩ := List.mem_map.mp hid
  exact absurd (List.mem_singleton.mp hid') (by simpa using List.of_mem_filter he₁)

theorem Numbered.does (h : m.Numbered) (he : m.errand? i = some e) (hdoes : m.Does e m₁ e') :
    (m₁.put i e').Numbered := by
  have hheld := hdoes.held (i := i)
  cases hdoes with
  | opens => exact h.opened _ _
  | stores => exact h.stored (.inr ⟨_, List.mem_of_getElem? he, rfl⟩) rfl
  | goes _ hp' => exact h.keep rfl rfl (List.Sublist.refl _) (hheld hp'.storing?)
  | begins _ hp' hc =>
      exact h.keep (Coordinator.step_length hc) rfl (List.Sublist.refl _) (hheld hp'.storing?)
  | visits _ hc =>
      exact h.keep (Coordinator.step_length hc) rfl (List.Sublist.refl _) (hheld rfl)
  | evicts => exact h.keep rfl rfl List.filter_sublist (hheld rfl)
  | counts | surveys | expires | keeps | unwinds | settles =>
      exact h.keep rfl rfl (List.Sublist.refl _) (hheld rfl)

theorem Run.numbered {config : Config} {turns : List Turn} (h : Run config turns m) :
    m.Numbered := by
  refine Run.invariant (numbered_create config) (fun m task ih => ?_)
    (fun _ _ _ _ _ _ ih hc => ?_) (fun _ _ _ _ _ _ _ ih he hdoes => ih.does he hdoes) h
  · refine ih.keep rfl rfl (List.Sublist.refl _) fun e he => ?_
    rcases List.mem_append.mp he with he | he
    · exact .inl he
    -- a task that has just been asked for holds nothing
    · exact .inr (List.mem_singleton.mp he ▸ rfl)
  · exact ih.keep (Coordinator.step_length hc) rfl (List.Sublist.refl _) fun _ => .inl

/-! ### Undecided transactions -/

/-- Those who are tracked stay so if no undecided transaction leaves the table. -/
theorem Tracks.keep (h : m.Tracks) (he : m.errand? i = some e) (hplain : e.storing? = none)
    (hissued : m₁.issued = m.issued) (herrands : m₁.errands = m.errands)
    (hactive : ∀ p, m₁.coordinator.isActive p = true → m.coordinator.isActive p = true)
    (htable : ∀ entry ∈ m.table, m₁.coordinator.isActive entry.place = true → entry ∈ m₁.table) :
    (m₁.put i e').Tracks := by
  intro hbound p hp
  obtain ⟨entry, hknows, rfl⟩ := h (hissued ▸ hbound) p (hactive p hp)
  have he₁ : m₁.errand? i = some e := by rw [errand?, herrands]; exact he
  refine ⟨entry, Knows.put ?_ he₁ (by simp [hplain]), rfl⟩
  rcases hknows with hentry | hheld
  · exact .inl (htable entry hentry hp)
  · exact .inr (herrands ▸ hheld)

/-- A new transaction is held by the errand that opened it. -/
theorem Tracks.opened (h : m.Tracks) {request : LeaseRequest}
    (he : m.errand? i = some (.begun (.create request))) (now : Timestamp) :
    ((m.opened request now).put i (.storing ⟨⟨m.nextId⟩, m.issued⟩)).Tracks := by
  intro hbound p hp
  rcases Coordinator.isActive_openTransaction hp with hold | rfl
  · have hbound' : m.issued + 1 < UInt64.size := issued_opened ▸ hbound
    obtain ⟨entry, hknows, rfl⟩ := h (by omega) p hold
    exact ⟨entry, Knows.put (m := m.opened request now) hknows he (by simp [Errand.storing?]), rfl⟩
  · exact ⟨_, knows_put_self (m := m.opened request now) he rfl, rfl⟩

/-- The entry that comes into the table displaces none of another place. -/
theorem Tracks.stored (h : m.Tracks) (hm : m.Numbered) {entry : Entry}
    (he : m.errand? i = some (.storing entry)) : ((m.insert entry).put i e').Tracks := by
  intro hbound p hp
  have hin : entry ∈ (m.insert entry).table := by simp [insert]
  have hentry : m.Knows entry := .inr ⟨_, List.mem_of_getElem? he, rfl⟩
  obtain ⟨known, hknows, rfl⟩ := h hbound p hp
  by_cases hsame : known.place = entry.place
  · exact ⟨entry, .inl hin, hsame.symm⟩
  · refine ⟨known, Knows.put (m := m.insert entry) ?_ he ?_, rfl⟩
    · rcases hknows with hknown | hheld
      · refine .inl (List.mem_append_left _ (List.mem_filter.mpr ⟨hknown, ?_⟩))
        -- the number of the new entry is that of its place alone
        have hplaces := hm.place known (.inl hknown)
        have hplace := hm.place entry hentry
        rw [decide_eq_true_eq, hm.id known (.inl hknown), hm.id entry hentry]
        have hlt : m.issued < UInt64.size := hbound
        exact fun hid => hsame (numberAt_inj (by omega) (by omega) hid)
      · exact .inr hheld
    · intro heq
      exact hsame (congrArg Entry.place (Option.some.inj heq)).symm

/-- The transaction that is evicted has a decision, and no other one has its number. -/
theorem mem_without (hm : m.Numbered) {id : TransactionId} {record : Record}
    (hrecord : m.record? id = some record) (hterminal : record.phase.isTerminal = true)
    {entry : Entry} (hentry : entry ∈ m.table)
    (hactive : m.coordinator.isActive entry.place = true) : entry ∈ (m.without id).table := by
  refine List.mem_filter.mpr ⟨hentry, ?_⟩
  rw [decide_eq_true_eq]
  rintro rfl
  simp only [record?, entry?, Option.bind_eq_some_iff] at hrecord
  obtain ⟨found, hfound, hplace⟩ := hrecord
  have hid : found.id = entry.id := by simpa using List.find?_some hfound
  have heq : found = entry :=
    List.inj_on_of_nodup_map hm.nodup (List.mem_of_find?_eq_some hfound) hentry hid
  rw [heq] at hplace
  simp [Coordinator.isActive, hplace, hterminal] at hactive

theorem Tracks.does {rules : Rules} (h : m.Tracks) (hm : m.Numbered)
    (hc : Coordinator.Reached rules m.coordinator) (he : m.errand? i = some e)
    (hdoes : m.Does e m₁ e') : (m₁.put i e').Tracks := by
  cases hdoes with
  | opens => exact h.opened he _
  | stores => exact h.stored hm he
  | goes hp _ => exact h.keep he hp.storing? rfl rfl (fun _ => id) fun _ hentry _ => hentry
  | begins hp _ hstep =>
      exact h.keep he hp.storing? (Coordinator.step_length hstep) rfl
        (fun _ => hc.isActive_of_step hstep) fun _ hentry _ => hentry
  | visits _ hstep =>
      exact h.keep he rfl (Coordinator.step_length hstep) rfl
        (fun _ => hc.isActive_of_step hstep) fun _ hentry _ => hentry
  | evicts hrecord hterminal =>
      exact h.keep he rfl rfl rfl (fun _ => id) fun _ => mem_without hm hrecord hterminal
  | counts | surveys | expires | keeps | unwinds | settles =>
      exact h.keep he rfl rfl rfl (fun _ => id) fun _ hentry _ => hentry

end Manager

end LeasedCommit
