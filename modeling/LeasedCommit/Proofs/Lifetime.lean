import LeasedCommit.Proofs.Evictions
import Mathlib.Data.List.Induction

set_option autoImplicit false

/-! # The life of a number

A number is given out once, when a transaction is created. From then on it names that transaction
until a sweep evicts it, and after that it names nothing for good. `Manager.entry?_of_step` says
what a move can do to the entry of a number; the rest follows from it along runs. -/

namespace LeasedCommit

namespace Errand

/-- The number of the transaction that an errand has put in the table. -/
def named? : Errand → Option TransactionId
  | .counting id _ | .finished (.created id _) => some id
  | _ => none

theorem created?_of_named? {e : Errand} {id : TransactionId} (h : e.named? = some id) :
    e.created? = some id := by
  cases e with
  | counting => exact h
  | finished result =>
      cases result with
      | created => exact h
      | _ => cases h
  | _ => cases h

end Errand

namespace Manager

/-- A turn takes a number out of the table. -/
def Turn.Evicts (id : TransactionId) (t : Turn) : Prop :=
  t.before.entry? id ≠ none ∧ t.after.entry? id = none

variable {config : Config} {turns : List Turn} {m m' m₁ : Manager} {i : Nat} {e e' : Errand}
  {move : Move} {id : TransactionId}

/-! ## Numbers that name one transaction -/

/-- At most one of the transactions has the number. -/
def NumbersOne (m : Manager) (id : TransactionId) : Prop :=
  ∀ p < m.issued, ∀ q < m.issued, numberAt p = id → numberAt q = id → p = q

theorem NumbersOne.of_le (h : m'.NumbersOne id) (hle : m.issued ≤ m'.issued) : m.NumbersOne id :=
  fun p hp q hq => h p (Nat.lt_of_lt_of_le hp hle) q (Nat.lt_of_lt_of_le hq hle)

theorem NumbersOne.before (h : m'.NumbersOne id) (hstep : m.step move = some m') :
    m.NumbersOne id :=
  h.of_le (issued_le hstep)

/-- Until the numbers run out, none is given to two transactions. -/
theorem numbersOne_of_issued (hbound : m.issued < UInt64.size) (id : TransactionId) :
    m.NumbersOne id :=
  fun _ hp _ hq hp' hq' => numberAt_inj (by omega) (by omega) (hp'.trans hq'.symm)

/-! ## The entry of a number -/

theorem entry?_insert_self (m : Manager) (entry : Entry) :
    Manager.entry? (m.insert entry) entry.id = some entry := by
  have hnone :
      (m.table.filter fun e => e.id ≠ entry.id).find? (fun e => e.id = entry.id) = none := by
    rw [List.find?_eq_none]
    intro e he
    simpa using List.of_mem_filter he
  simp only [Manager.entry?, insert, List.find?_append, hnone, Option.none_or, List.find?_singleton,
    decide_true, if_true]

theorem entry?_insert_ne (m : Manager) {entry : Entry} (hne : entry.id ≠ id) :
    Manager.entry? (m.insert entry) id = m.entry? id := by
  have hkeep : (m.table.filter fun e => e.id ≠ entry.id).find? (fun e => e.id = id) =
      m.table.find? fun e => e.id = id := by
    rw [List.find?_filter]
    congr 1
    funext e
    by_cases he : e.id = id
    · simp [he, Ne.symm hne]
    · simp [he]
  simp only [Manager.entry?, insert, List.find?_append, hkeep, List.find?_singleton, hne,
    decide_false, if_false, Option.or_none, Bool.false_eq_true]

theorem entry?_without_self (m : Manager) (id : TransactionId) :
    Manager.entry? (m.without id) id = none := by
  simp [Manager.entry?, without, List.find?_eq_none]

theorem entry?_without_ne (m : Manager) {other : TransactionId} (hne : other ≠ id) :
    Manager.entry? (m.without other) id = m.entry? id := by
  simp only [Manager.entry?, without, List.find?_filter]
  congr 1
  funext e
  by_cases he : e.id = id
  · simp [he, Ne.symm hne]
  · simp [he]

/-- The entry that a number has in the table. -/
theorem mem_of_entry?_eq_some {entry : Entry} (h : m.entry? id = some entry) :
    entry ∈ m.table ∧ entry.id = id :=
  ⟨List.mem_of_find?_eq_some h, by simpa using List.find?_some h⟩

/-- A number that is being created is not in the table yet. -/
theorem Apart.entry?_eq_none (h : m.Apart) (hm : m.Numbered) {entry : Entry}
    (hone : m.NumbersOne entry.id) (hheld : m.held? i = some entry) :
    m.entry? entry.id = none := by
  rw [Manager.entry?, List.find?_eq_none]
  intro old hold heq
  have hid : old.id = entry.id := by simpa using heq
  have hknown := held?_known hheld
  have hsame := hone old.place (hm.place old (.inl hold)) entry.place (hm.place entry hknown)
    ((hm.id old (.inl hold)).symm.trans hid) (hm.id entry hknown).symm
  exact h.table i entry hheld old hold hsame

/-- **What a move does to the entry of a number**: nothing, or the errand that has created it puts
it in the table, or a sweep evicts it. -/
theorem entry?_of_step (h : m.step move = some m') (hm : m.Numbered) (hapart : m.Apart)
    (hone : m.NumbersOne id) :
    m'.entry? id = m.entry? id ∨
    (∃ i entry, move.errand? = some i ∧ m.errand? i = some (.storing entry) ∧ entry.id = id ∧
      m.entry? id = none ∧ m'.entry? id = some entry) ∨
    ∃ i sweep entry operation record, move.errand? = some i ∧
      m.errand? i = some (.expiring sweep entry operation) ∧ entry.id = id ∧
      m.record? id = some record ∧ record.phase.isTerminal = true ∧
      record.isEvictable sweep.now m.config.retention = true ∧ m'.entry? id = none := by
  rcases step_cases h with ⟨task, -, rfl⟩ | ⟨place, action, c, -, hc, rfl⟩ |
    ⟨i, e, m₁, e', hmove, he, hdoes, rfl⟩
  · exact .inl rfl
  · exact .inl rfl
  · cases hdoes with
    | @stores entry expiration =>
        by_cases hid : entry.id = id
        · subst hid
          have hheld : m.held? i = some entry := Option.bind_eq_some_iff.mpr ⟨_, he, rfl⟩
          exact .inr (.inl ⟨i, entry, hmove, he, rfl, hapart.entry?_eq_none hm hone hheld,
            entry?_insert_self m entry⟩)
        · exact .inl (entry?_insert_ne m hid)
    | @evicts sweep entry operation record hrecord hterminal hevictable =>
        by_cases hid : entry.id = id
        · subst hid
          exact .inr (.inr ⟨i, sweep, entry, operation, record, hmove, he, rfl, hrecord, hterminal,
            hevictable, entry?_without_self m entry.id⟩)
        · exact .inl (entry?_without_ne m hid)
    | _ => exact .inl rfl

/-- An entry stays until it is evicted. -/
theorem entry?_stays (h : m.step move = some m') (hm : m.Numbered) (hapart : m.Apart)
    (hone : m.NumbersOne id) {entry : Entry} (hentry : m.entry? id = some entry) :
    m'.entry? id = some entry ∨ m'.entry? id = none := by
  rcases entry?_of_step h hm hapart hone with hsame | ⟨i, new, -, -, -, hnone, -⟩ |
    ⟨i, sweep, old, operation, record, -, -, -, -, -, -, hnone⟩
  · exact .inl (hsame.trans hentry)
  · rw [hentry] at hnone
    cases hnone
  · exact .inr hnone

/-! ## The errands -/

theorem errand?_put_self (he : m.errand? i = some e) (herrands : m₁.errands = m.errands) :
    (m₁.put i e').errand? i = some e' := by
  have hlt : i < m₁.errands.length := herrands ▸ (List.getElem?_eq_some_iff.mp he).1
  exact List.getElem?_set_self hlt

theorem errand?_put_ne {j : Nat} (hne : j ≠ i) (herrands : m₁.errands = m.errands) :
    (m₁.put i e').errand? j = m.errand? j := by
  show (m₁.errands.set i e')[j]? = _
  rw [herrands, List.getElem?_set_ne hne.symm]
  rfl

/-- An errand stays where it stands until it moves. -/
theorem errand?_next (h : m.step move = some m') (he : m.errand? i = some e) :
    m'.errand? i = some e ∨
      ∃ m₁ e', move.errand? = some i ∧ m.Does e m₁ e' ∧ m' = m₁.put i e' := by
  rcases step_cases h with ⟨task, -, rfl⟩ | ⟨place, action, c, -, hc, rfl⟩ |
    ⟨j, e₁, m₁, e', hmove, he₁, hdoes, rfl⟩
  · have hlt : i < m.errands.length := (List.getElem?_eq_some_iff.mp he).1
    exact .inl ((List.getElem?_append_left hlt).trans he)
  · exact .inl he
  · by_cases hij : i = j
    · subst hij
      obtain rfl := Option.some.inj (he₁.symm.trans he)
      exact .inr ⟨m₁, e', hmove, hdoes, rfl⟩
    · exact .inl ((errand?_put_ne hij hdoes.errands).trans he)

/-- Where an errand stands after a move: where it stood, at its beginning, or where its own move
has led. -/
theorem errand?_of_step (h : m.step move = some m') (hi : m'.errand? i = some e') :
    m.errand? i = some e' ∨ (∃ task, e' = .begun task) ∨
      ∃ e m₁, move.errand? = some i ∧ m.errand? i = some e ∧ m.Does e m₁ e' ∧
        m' = m₁.put i e' := by
  rcases step_cases h with ⟨task, -, rfl⟩ | ⟨place, action, c, -, hc, rfl⟩ |
    ⟨j, e, m₁, e₁', hmove, he, hdoes, rfl⟩
  · have hget : (m.errands ++ [.begun task])[i]? = some e' := hi
    rw [List.getElem?_append] at hget
    split at hget
    · exact .inl hget
    · exact .inr (.inl ⟨task, List.mem_singleton.mp (List.mem_of_getElem? hget)⟩)
  · exact .inl hi
  · by_cases hij : i = j
    · subst hij
      obtain rfl := Option.some.inj ((errand?_put_self he hdoes.errands).symm.trans hi)
      exact .inr (.inr ⟨e, m₁, hmove, he, hdoes, rfl⟩)
    · exact .inl ((errand?_put_ne hij hdoes.errands).symm.trans hi)

/-! ## Every number is given out once -/

/-- The number of the transaction that an errand creates or has created. -/
def created? (m : Manager) (i : Nat) : Option TransactionId := (m.errand? i).bind Errand.created?

/-- The numbers that were given out are those of the places, and each was given out once if it is
the number of one place only. -/
structure Births (m : Manager) : Prop where
  number : ∀ i id, m.created? i = some id → ∃ place < m.issued, id = numberAt place
  once : ∀ id, m.NumbersOne id → ∀ i j, m.created? i = some id → m.created? j = some id → i = j

/-- A move of an errand gives out the next number, or none. -/
theorem Does.gives (h : m.Does e m₁ e') :
    (e'.created? = e.created? ∧ m.issued ≤ m₁.issued) ∨
      (e.created? = none ∧ e'.created? = some ⟨m.nextId⟩ ∧ m₁.issued = m.issued + 1) := by
  cases h with
  | goes hp hp' => exact .inl ⟨by rw [hp.created?, hp'.created?], Nat.le_refl _⟩
  | begins hp hp' hc =>
      exact .inl ⟨by rw [hp.created?, hp'.created?], Nat.le_of_eq (Coordinator.step_length hc).symm⟩
  | opens => exact .inr ⟨rfl, rfl, issued_opened⟩
  | visits _ hc => exact .inl ⟨rfl, Nat.le_of_eq (Coordinator.step_length hc).symm⟩
  | _ => exact .inl ⟨rfl, Nat.le_refl _⟩

/-- After an errand has moved, the others have created what they had created. -/
theorem created?_put {j : Nat} (herrands : m₁.errands = m.errands) (he : m.errand? i = some e) :
    (m₁.put i e').created? j = if j = i then e'.created? else m.created? j := by
  by_cases hj : j = i
  · subst hj
    rw [if_pos rfl, created?, errand?_put_self he herrands, Option.bind_some]
  · rw [if_neg hj, created?, errand?_put_ne hj herrands, created?]

theorem Births.does (h : m.Births) (hm : m.Numbered) (he : m.errand? i = some e)
    (hdoes : m.Does e m₁ e') : (m₁.put i e').Births := by
  have hput : ∀ j, (m₁.put i e').created? j = if j = i then e'.created? else m.created? j :=
    fun j => created?_put hdoes.errands he
  have hself : m.created? i = e.created? := by rw [created?, he, Option.bind_some]
  rcases hdoes.gives with ⟨hsame, hle⟩ | ⟨-, hnew, hissued⟩
  · -- nothing is given out
    have hkeep : ∀ j, (m₁.put i e').created? j = m.created? j := by
      intro j
      rw [hput]
      split
      · rename_i hj
        rw [hj, hself, hsame]
      · rfl
    refine ⟨fun j id hj => ?_, fun id hone j k hj hk => ?_⟩
    · obtain ⟨place, hplace, rfl⟩ := h.number j id (hkeep j ▸ hj)
      exact ⟨place, Nat.lt_of_lt_of_le hplace hle, rfl⟩
    · have hone₁ : m₁.NumbersOne id := hone
      exact h.once id (hone₁.of_le hle) j k (hkeep j ▸ hj) (hkeep k ▸ hk)
  · -- the new number is that of the new place
    have hnext : (⟨m.nextId⟩ : TransactionId) = numberAt m.issued := hm.next.symm
    have hother : ∀ {j id}, m₁.NumbersOne id → m.created? j = some id →
        id ≠ numberAt m.issued := by
      intro j id hone hj heq
      obtain ⟨place, hplace, hid⟩ := h.number j id hj
      have hsame := hone place (by omega) m.issued (by omega) hid.symm heq.symm
      omega
    refine ⟨fun j id hj => ?_, fun id hone j k hj hk => ?_⟩
    · show ∃ place < m₁.issued, _
      rw [hput] at hj
      split at hj
      · rw [hnew] at hj
        exact ⟨m.issued, by omega, (Option.some.inj hj).symm.trans hnext⟩
      · obtain ⟨place, hplace, rfl⟩ := h.number j id hj
        exact ⟨place, by omega, rfl⟩
    · have hone₁ : m₁.NumbersOne id := hone
      rw [hput] at hj hk
      split at hj <;> split at hk
      · rename_i hj' hk'
        rw [hj', hk']
      · rw [hnew, hnext] at hj
        exact absurd (Option.some.inj hj).symm (hother hone₁ hk)
      · rw [hnew, hnext] at hk
        exact absurd (Option.some.inj hk).symm (hother hone₁ hj)
      · exact h.once id (hone₁.of_le (by omega)) j k hj hk

theorem Run.births (h : Run config turns m) : m.Births := by
  refine Run.invariant ⟨fun i id hi => ?_, fun id _ i j hi => ?_⟩ (fun m task ih => ?_)
    (fun _ m place action c _ ih hc => ?_)
    (fun _ _ _ _ _ _ hrun ih he hdoes => ih.does hrun.numbered he hdoes) h
  · simp [created?, errand?, create] at hi
  · simp [created?, errand?, create] at hi
  · -- a task that has just been asked for has created nothing
    have hkeep : ∀ j id, created? { m with errands := m.errands ++ [.begun task] } j = some id →
        m.created? j = some id := by
      intro j id hj
      obtain ⟨e, he, hcreated⟩ := Option.bind_eq_some_iff.mp hj
      have hget : (m.errands ++ [.begun task])[j]? = some e := he
      rw [List.getElem?_append] at hget
      split at hget
      · exact Option.bind_eq_some_iff.mpr ⟨e, hget, hcreated⟩
      · obtain rfl := List.mem_singleton.mp (List.mem_of_getElem? hget)
        cases hcreated
    exact ⟨fun j id hj => ih.number j id (hkeep j id hj),
      fun id hone j k hj hk => ih.once id hone j k (hkeep j id hj) (hkeep k id hk)⟩
  · have hissued : issued { m with coordinator := c } = m.issued := Coordinator.step_length hc
    refine ⟨fun j id hj => ?_, fun id hone j k hj hk => ?_⟩
    · rw [hissued]
      exact ih.number j id hj
    · exact ih.once id (hone.of_le (Nat.le_of_eq hissued.symm)) j k hj hk

/-! ## From its creation to its eviction a number names its transaction -/

/-- The number that an errand has put in the table. -/
def named? (m : Manager) (i : Nat) : Option TransactionId := (m.errand? i).bind Errand.named?

theorem created?_of_named? (h : m.named? i = some id) : m.created? i = some id := by
  obtain ⟨e, he, hnamed⟩ := Option.bind_eq_some_iff.mp h
  exact Option.bind_eq_some_iff.mpr ⟨e, he, Errand.created?_of_named? hnamed⟩

/-- What a move of an errand puts in the table. -/
theorem Does.names (h : m.Does e m₁ e') :
    e'.named? = e.named? ∨ ∃ entry, e = .storing entry ∧ e'.named? = some entry.id ∧
      m₁ = m.insert entry := by
  have hplain : ∀ {e : Errand}, e.Plain → e.named? = none := by
    intro e hp
    cases hnamed : e.named? with
    | none => rfl
    | some id =>
        have hcreated := Errand.created?_of_named? hnamed
        rw [hp.created?] at hcreated
        cases hcreated
  cases h with
  | goes hp hp' | begins hp hp' _ => exact .inl (by rw [hplain hp, hplain hp'])
  | @stores entry expiration => exact .inr ⟨entry, rfl, rfl, rfl⟩
  | _ => exact .inl rfl

/-- What is in the table by an errand was there before, or has just been put there. -/
theorem named?_of_step (h : m.step move = some m') (hi : m'.named? i = some id) :
    m.named? i = some id ∨ ∃ entry, entry.id = id ∧ m'.entry? id = some entry := by
  obtain ⟨e', he', hnamed⟩ := Option.bind_eq_some_iff.mp hi
  rcases errand?_of_step h he' with he | ⟨task, rfl⟩ | ⟨e, m₁, -, he, hdoes, rfl⟩
  · exact .inl (Option.bind_eq_some_iff.mpr ⟨e', he, hnamed⟩)
  · cases hnamed
  · rcases hdoes.names with hsame | ⟨entry, rfl, hnew, rfl⟩
    · exact .inl (Option.bind_eq_some_iff.mpr ⟨e, he, hsame ▸ hnamed⟩)
    · obtain rfl := Option.some.inj (hnew.symm.trans hnamed)
      exact .inr ⟨entry, rfl, entry?_insert_self m entry⟩

theorem named?_stays (h : m.step move = some m') (hi : m.named? i = some id) :
    m'.named? i = some id := by
  obtain ⟨e, he, hnamed⟩ := Option.bind_eq_some_iff.mp hi
  rcases errand?_next h he with he' | ⟨m₁, e', -, hdoes, rfl⟩
  · exact Option.bind_eq_some_iff.mpr ⟨e, he', hnamed⟩
  · have hput : (m₁.put i e').errand? i = some e' := errand?_put_self he hdoes.errands
    rcases hdoes.names with hsame | ⟨entry, rfl, -, -⟩
    · exact Option.bind_eq_some_iff.mpr ⟨e', hput, hsame.trans hnamed⟩
    · cases hnamed

/-- Every entry was put in the table by the errand that has created its transaction. -/
theorem Run.entry_named (h : Run config turns m) :
    ∀ entry ∈ m.table, ∃ i, m.named? i = some entry.id := by
  induction h with
  | start => exact fun entry hentry => nomatch hentry
  | @next turns m m' move hrun hstep ih =>
      have hstays : ∀ entry ∈ m.table, ∃ i, m'.named? i = some entry.id := by
        intro entry hentry
        obtain ⟨i, hi⟩ := ih entry hentry
        exact ⟨i, named?_stays hstep hi⟩
      rcases step_cases hstep with ⟨task, -, rfl⟩ | ⟨place, action, c, -, hc, rfl⟩ |
        ⟨i, e, m₁, e', -, he, hdoes, rfl⟩
      · exact hstays
      · exact hstays
      · intro entry hentry
        have hentry₁ : entry ∈ m₁.table := hentry
        cases hdoes with
        | @stores new expiration =>
            rcases List.mem_append.mp hentry₁ with hold | hnew
            · exact hstays entry (List.mem_of_mem_filter hold)
            · obtain rfl := List.mem_singleton.mp hnew
              have hself : ((m.insert entry).put i (.counting entry.id expiration)).errand? i =
                  some (.counting entry.id expiration) := errand?_put_self he rfl
              exact ⟨i, Option.bind_eq_some_iff.mpr ⟨_, hself, rfl⟩⟩
        | evicts => exact hstays entry (List.mem_of_mem_filter hentry₁)
        | _ => exact hstays entry hentry₁

/-- The moves before the last one lead to where it begins. -/
theorem Run.last {t : Turn} (h : Run config (turns ++ [t]) m) :
    Run config turns t.before ∧ t.before.step t.move = some t.after ∧ m = t.after := by
  generalize hall : turns ++ [t] = all at h
  cases h with
  | start => simp at hall
  | next hrun hstep =>
      obtain ⟨rfl, heq⟩ := List.append_inj' hall rfl
      obtain rfl := List.singleton_inj.mp heq
      exact ⟨hrun, hstep, rfl⟩

/-- The moves before a turn lead to where it begins. -/
theorem Run.cut {past rest : List Turn} {t : Turn} (h : Run config (past ++ t :: rest) m) :
    Run config past t.before ∧ t.before.step t.move = some t.after ∧
      t.after.issued ≤ m.issued := by
  induction rest using List.reverseRecOn generalizing m with
  | nil =>
      obtain ⟨hpast, hstep, rfl⟩ := h.last
      exact ⟨hpast, hstep, Nat.le_refl _⟩
  | append_singleton rest u ih =>
      have hsplit : past ++ t :: (rest ++ [u]) = (past ++ t :: rest) ++ [u] := by simp
      rw [hsplit] at h
      obtain ⟨hbefore, hstep, rfl⟩ := h.last
      obtain ⟨hpast, hmove, hle⟩ := ih hbefore
      exact ⟨hpast, hmove, Nat.le_trans hle (issued_le hstep)⟩

/-- The moves of a run say where it leads. -/
theorem Run.unique (h : Run config turns m) (h' : Run config turns m') : m = m' := by
  induction turns using List.reverseRecOn with
  | nil =>
      have hstart : ∀ {m : Manager}, Run config [] m → m = create config := by
        intro m hm
        generalize hnil : ([] : List Turn) = turns at hm
        cases hm with
        | start => rfl
        | next => simp at hnil
      rw [hstart h, hstart h']
  | append_singleton turns t _ =>
      obtain ⟨-, -, rfl⟩ := h.last
      obtain ⟨-, -, rfl⟩ := h'.last
      rfl

/-- **A number names its transaction** as soon as it is in the table, until it is evicted. -/
theorem Run.resolves (h : Run config turns m) (hone : m.NumbersOne id)
    (hi : m.named? i = some id) :
    (∃ t ∈ turns, t.Evicts id) ∨
      ∃ place, numberAt place = id ∧ m.entry? id = some { id := id, place := place } := by
  induction h with
  | start => simp [named?, errand?, create] at hi
  | @next turns m m' move hrun hstep ih =>
      have hone' := hone.before hstep
      have hnumbered := (hrun.next hstep).numbered
      rcases named?_of_step hstep hi with hold | ⟨entry, rfl, hentry⟩
      · rcases ih hone' hold with ⟨t, ht, hevicts⟩ | ⟨place, hplace, hentry⟩
        · exact .inl ⟨t, List.mem_append_left _ ht, hevicts⟩
        · rcases entry?_stays hstep hrun.numbered hrun.apart hone' hentry with hstays | hnone
          · exact .inr ⟨place, hplace, hstays⟩
          · refine .inl ⟨_, List.mem_append_right _ (List.mem_singleton_self _), ?_, hnone⟩
            rw [hentry]
            exact Option.some_ne_none _
      · -- it has just come into the table
        have hid := hnumbered.id entry (.inl (mem_of_entry?_eq_some hentry).1)
        exact .inr ⟨entry.place, hid.symm, hentry⟩

/-! ## After its eviction a number names nothing -/

/-- An evicted number is not given out again and does not come back. -/
theorem Run.gone (h : Run config turns m) (hone : m.NumbersOne id)
    (hevicted : ∃ t ∈ turns, t.Evicts id) :
    m.entry? id = none ∧ ∃ i, m.named? i = some id := by
  induction h with
  | start =>
      obtain ⟨t, ht, -⟩ := hevicted
      cases ht
  | @next turns m m' move hrun hstep ih =>
      have hone' := hone.before hstep
      by_cases hearlier : ∃ t ∈ turns, t.Evicts id
      · obtain ⟨hnone, i, hi⟩ := ih hone' hearlier
        refine ⟨?_, i, named?_stays hstep hi⟩
        rcases entry?_of_step hstep hrun.numbered hrun.apart hone' with
          hsame | ⟨j, entry, -, hj, hid, -, -⟩ | ⟨j, sweep, entry, operation, record, -, -, -, -, -,
            -, hgone⟩
        · rw [hsame, hnone]
        · -- whoever creates the number has put it in the table already
          have hcreated : m.created? j = some id :=
            Option.bind_eq_some_iff.mpr ⟨_, hj, congrArg _ hid⟩
          obtain rfl := hrun.births.once id hone' j i hcreated (created?_of_named? hi)
          rw [named?, hj] at hi
          cases hi
        · exact hgone
      · obtain ⟨t, ht, hevicts⟩ := hevicted
        have hlast : t = { before := m, move := move, after := m' } := by
          rcases List.mem_append.mp ht with ht | ht
          · exact absurd ⟨t, ht, hevicts⟩ hearlier
          · exact List.mem_singleton.mp ht
        subst hlast
        obtain ⟨hpresent, hnone⟩ := hevicts
        obtain ⟨entry, hentry⟩ := Option.ne_none_iff_exists'.mp hpresent
        obtain ⟨hmem, rfl⟩ := mem_of_entry?_eq_some hentry
        obtain ⟨i, hi⟩ := hrun.entry_named entry hmem
        exact ⟨hnone, i, named?_stays hstep hi⟩

/-- A task on a number that is not in the table is refused as soon as it looks the number up. -/
theorem step_of_absent (hnone : m.entry? id = none) {task : Task}
    (hi : m.errand? i = some (.begun task)) (hid : task.id? = some id) (now : Timestamp) :
    m.step (.proceed i now) = some (m.put i (.finished (.refused (task.unknown id)))) := by
  have hlook : m.lookUp i task id = some (m.put i (.finished (.refused (task.unknown id)))) := by
    rw [lookUp, hnone]
  rw [step, hi, Option.bind_some]
  cases task with
  | create | sweep => cases hid
  | _ =>
      obtain rfl := Option.some.inj hid
      exact hlook

/-! ## What a sweep goes by -/

/-- The sweep that an errand makes. -/
def sweep? (m : Manager) (i : Nat) : Option Sweep := (m.errand? i).bind Errand.sweep?

/-- A sweep keeps to the clock reading with which it began. -/
theorem Does.sweep_now (h : m.Does e m₁ e') {sweep : Sweep} (hsweep : e'.sweep? = some sweep) :
    e = .begun .sweep ∨ ∃ old, e.sweep? = some old ∧ old.now = sweep.now := by
  cases h with
  | surveys => exact .inl rfl
  | goes _ hp' | begins _ hp' _ =>
      rw [hp'.sweep?] at hsweep
      cases hsweep
  | visits | expires | evicts | keeps =>
      obtain rfl := Option.some.inj hsweep
      exact .inr ⟨_, rfl, rfl⟩
  | _ => cases hsweep

/-- A sweep begins with a survey. -/
theorem survey_of_step (h : m.step move = some m') (hmove : move.errand? = some i)
    (he : m.errand? i = some (.begun .sweep)) {sweep : Sweep} (hsweep : m'.sweep? i = some sweep) :
    ∃ order, move = .survey i sweep.now order := by
  cases move with
  | ask | act => cases hmove
  | proceed j now =>
      obtain rfl := Option.some.inj hmove
      rw [step, he] at h
      cases h
  | survey j now order =>
      obtain rfl := Option.some.inj hmove
      simp only [step, he] at h
      split at h
      · obtain rfl := Option.some.inj h
        rw [sweep?, errand?_put_self he rfl] at hsweep
        obtain rfl := Option.some.inj hsweep
        exact ⟨order, rfl⟩
      · cases h

/-- A sweep under way has begun with a survey, and its clock reading is that of the survey. -/
theorem Run.surveyed (h : Run config turns m) {sweep : Sweep} (hi : m.sweep? i = some sweep) :
    ∃ s ∈ turns, ∃ order, s.move = .survey i sweep.now order := by
  induction h generalizing sweep with
  | start => simp [sweep?, errand?, create] at hi
  | @next turns m m' move hrun hstep ih =>
      have hearlier : ∀ {old : Sweep}, m.sweep? i = some old → old.now = sweep.now →
          ∃ s ∈ turns ++ [({ before := m, move := move, after := m' } : Turn)], ∃ order,
            s.move = .survey i sweep.now order := by
        intro old hold hnow
        obtain ⟨s, hs, order, hsurvey⟩ := ih hold
        exact ⟨s, List.mem_append_left _ hs, order, hnow ▸ hsurvey⟩
      obtain ⟨e', he', hsweep⟩ := Option.bind_eq_some_iff.mp hi
      rcases errand?_of_step hstep he' with he | ⟨task, rfl⟩ | ⟨e, m₁, hmove, he, hdoes, -⟩
      · exact hearlier (Option.bind_eq_some_iff.mpr ⟨e', he, hsweep⟩) rfl
      · cases hsweep
      · rcases hdoes.sweep_now hsweep with rfl | ⟨old, hold, hnow⟩
        · obtain ⟨order, hsurvey⟩ := survey_of_step hstep hmove he hi
          exact ⟨_, List.mem_append_right _ (List.mem_singleton_self _), order, hsurvey⟩
        · exact hearlier (Option.bind_eq_some_iff.mpr ⟨e, he, hold⟩) hnow

theorem config_of_step (h : m.step move = some m') : m'.config = m.config := by
  rcases step_cases h with ⟨task, -, rfl⟩ | ⟨place, action, c, -, hc, rfl⟩ |
    ⟨i, e, m₁, e', -, -, hdoes, rfl⟩
  · rfl
  · rfl
  · cases hdoes <;> rfl

theorem Run.config_eq (h : Run config turns m) : m.config = config := by
  induction h with
  | start => rfl
  | next _ hstep ih => exact (config_of_step hstep).trans ih

/-- **What is evicted is past its retention**, by the clock reading with which the sweep began. -/
theorem Run.evicts_settled {past rest : List Turn} {t : Turn}
    (h : Run config (past ++ t :: rest) m) (hone : m.NumbersOne id)
    (hevicts : t.Evicts id) :
    ∃ i sweep entry operation record settled, t.move.errand? = some i ∧
      t.before.errand? i = some (.expiring sweep entry operation) ∧ entry.id = id ∧
      t.before.record? id = some record ∧ record.phase.isTerminal = true ∧
      record.settledAt = some settled ∧ settled.plus config.retention < sweep.now ∧
      ∃ s ∈ past, ∃ order, s.move = .survey i sweep.now order := by
  obtain ⟨hpast, hstep, hle⟩ := h.cut
  have hone' : t.before.NumbersOne id := hone.of_le (Nat.le_trans (issued_le hstep) hle)
  obtain ⟨hpresent, hnone⟩ := hevicts
  rcases entry?_of_step hstep hpast.numbered hpast.apart hone' with
    hsame | ⟨i, entry, -, -, -, hnone', -⟩ | ⟨i, sweep, entry, operation, record, hmove, he, hid,
      hrecord, hterminal, hevictable, -⟩
  · exact absurd (hsame.symm.trans hnone) hpresent
  · exact absurd hnone' hpresent
  · have hsweep : t.before.sweep? i = some sweep := Option.bind_eq_some_iff.mpr ⟨_, he, rfl⟩
    have hsurvey := hpast.surveyed hsweep
    unfold Record.isEvictable at hevictable
    split at hevictable
    · rename_i settled hsettled
      have hlate := (Bool.and_eq_true_iff.mp hevictable).2
      rw [hpast.config_eq, decide_eq_true_eq] at hlate
      exact ⟨i, sweep, entry, operation, record, settled, hmove, he, hid, hrecord, hterminal,
        hsettled, hlate, hsurvey⟩
    · cases hevictable

end Manager

end LeasedCommit
