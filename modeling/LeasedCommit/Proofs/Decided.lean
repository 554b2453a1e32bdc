import LeasedCommit.Proofs.Verbs

set_option autoImplicit false

/-! # A decided record and those who come late

A record with a decision answers every request at its first visit, and the visit leaves the record
as it is (`Stage.visit?_decided`). So the operations that are under way at some moment after the
decision, because they still deliver it, do not notice those that begin later:
`Transaction.AgreesTo n` compares a transaction with one in which only the first `n` operations
have gone on. -/

namespace LeasedCommit

/-- What a decided record answers to a request. -/
def Record.decidedAnswer (r : Record) : Request → Answer
  | .join _ => .refused (.cannotJoin r.id r.phase)
  | .commit =>
    .refused (if r.phase = .committed then .notModifiable r.id .committed else r.cannotCommit)
  | .abort => if r.phase = .aborted then .done else .refused (.cannotAbort r.id .committed)
  | .renew _ | .cancel => .refused (.unknownLease r.id)
  | .expire => .expired false
  | .awaitPhase _ => .reached r.phase

/-- A decided record answers at once, and is left as it is. -/
theorem Stage.visit?_decided {r : Record} (hd : r.phase.isTerminal = true) (policy : LeasePolicy)
    (t : Readings) (q : Request) :
    (Stage.requested q).visit? policy r t = some (r.leave (.finished (r.decidedAnswer q))) := by
  have hexpire : r.expire? t = none := by simp [Record.expire?, hd]
  cases q with
  | join p =>
      have hp : r.phase ≠ .active := by
        intro hp
        rw [hp] at hd
        cases hd
      simp [visit?, Record.join, hexpire, hp, Record.refuse, Record.decidedAnswer]
  | commit =>
      cases hp : r.phase with
      | active | voting => rw [hp] at hd; cases hd
      | committed | aborted =>
          simp [visit?, Record.openVote, hexpire, hp, Record.refuse, Record.decidedAnswer]
  | abort =>
      cases hp : r.phase with
      | active | voting => rw [hp] at hd; cases hd
      | committed | aborted => simp [visit?, Record.abort, hp, Record.refuse, Record.decidedAnswer]
  | renew request => simp [visit?, Record.renew, hexpire, hd, Record.refuse, Record.decidedAnswer]
  | cancel => simp [visit?, Record.cancel, hexpire, hd, Record.refuse, Record.decidedAnswer]
  | expire => simp [visit?, Record.expire, hexpire, Record.decidedAnswer]
  | awaitPhase target =>
      have hover : (Wait.phase target).isOver r = true := by
        simp [Wait.isOver, Phase.settlesWaitFor, hd]
      simp [visit?, Wait.look, hover, Wait.answer, Record.decidedAnswer]

namespace Transaction

/-- The first `n` operations stand alike, and the records are equal. -/
structure AgreesTo (n : Nat) (x y : Transaction) : Prop where
  record : y.record = x.record
  stage : ∀ i < n, y.stage? i = x.stage? i
  asleep : ∀ i < n, (i ∈ y.asleep ↔ i ∈ x.asleep)

/-- The record is decided, and the operations from number `n` on have not begun or are over. -/
structure QuietFrom (n : Nat) (y : Transaction) : Prop where
  decided : y.record.phase.isTerminal = true
  idle : ∀ i s, n ≤ i → y.stage? i = some s → (∃ q, s = .requested q) ∨ ∃ a, s = .finished a
  length : n ≤ y.operations.length

variable {rules : Rules} {x y x' y' : Transaction} {n i : Nat} {a : Action}
  {counts : OutcomeCounts}

theorem AgreesTo.refl (n : Nat) (x : Transaction) : x.AgreesTo n x :=
  ⟨rfl, fun _ _ => rfl, fun _ _ => Iff.rfl⟩

theorem AgreesTo.symm (h : x.AgreesTo n y) : y.AgreesTo n x :=
  ⟨h.record.symm, fun i hi => (h.stage i hi).symm, fun i hi => (h.asleep i hi).symm⟩

theorem AgreesTo.trans {z : Transaction} (h : x.AgreesTo n y) (h' : y.AgreesTo n z) :
    x.AgreesTo n z :=
  ⟨h'.record.trans h.record, fun i hi => (h'.stage i hi).trans (h.stage i hi),
    fun i hi => (h'.asleep i hi).trans (h.asleep i hi)⟩

/-- All operations of a decided transaction are among the first ones. -/
theorem quietFrom_length (hd : x.record.phase.isTerminal = true) :
    x.QuietFrom x.operations.length where
  decided := hd
  idle _ _ hi hs := absurd (List.getElem?_eq_some_iff.mp hs).1 (Nat.not_lt_of_le hi)
  length := Nat.le_refl _

theorem stage?_put {s : Stage} {j : Nat} {s₀ : Stage} (hi : x.stage? i = some s₀) :
    (x.put i s).stage? j = if j = i then some s else x.stage? j := by
  have hlt : i < x.operations.length := (List.getElem?_eq_some_iff.mp hi).1
  show (x.operations.set i s)[j]? = _
  by_cases hj : j = i
  · subst hj
    rw [if_pos rfl, List.getElem?_set_self hlt]
  · rw [if_neg hj, List.getElem?_set_ne (Ne.symm hj)]
    rfl

theorem stage?_visit {v : Visit} {j : Nat} {s₀ : Stage} (hi : x.stage? i = some s₀) :
    (x.visit i v).stage? j = if j = i then some v.next else x.stage? j :=
  stage?_put hi

theorem mem_asleep_visit {v : Visit} {j : Nat} :
    j ∈ (x.visit i v).asleep ↔
      (j = i ∧ ∃ w, v.next = .awaiting w) ∨ (j ∈ x.asleep ∧ v.wakes = false) := by
  have hawake : j ∈ (if v.wakes then [] else x.asleep) ↔ j ∈ x.asleep ∧ v.wakes = false := by
    cases v.wakes <;> simp
  unfold visit
  cases hnext : v.next <;> simp [hawake]

/-- Putting an operation at a stage keeps up the agreement. -/
theorem AgreesTo.put (h : x.AgreesTo n y) {s₀ : Stage} (hi : x.stage? i = some s₀) (hlt : i < n)
    (s : Stage) : (x.put i s).AgreesTo n (y.put i s) where
  record := h.record
  stage j hj := by
    rw [stage?_put hi, stage?_put ((h.stage i hlt).trans hi), h.stage j hj]
  asleep := h.asleep

theorem AgreesTo.visit (h : x.AgreesTo n y) {s₀ : Stage} (hi : x.stage? i = some s₀) (hlt : i < n)
    (v : Visit) : (x.visit i v).AgreesTo n (y.visit i v) where
  record := rfl
  stage j hj := by
    rw [stage?_visit hi, stage?_visit ((h.stage i hlt).trans hi), h.stage j hj]
  asleep j hj := by rw [mem_asleep_visit, mem_asleep_visit, h.asleep j hj]

/-- **The first operations move alike.** -/
theorem AgreesTo.step (h : x.AgreesTo n y) (hi : a.operation? = some i) (hlt : i < n)
    (hstep : y.step rules a = some (y', counts)) :
    ∃ x', x.step rules a = some (x', counts) ∧ x'.AgreesTo n y' := by
  have hrecord := h.record
  have hstage := h.stage i hlt
  cases a with
  | begin q => cases hi
  | visit j t =>
      obtain rfl : j = i := Option.some.inj hi
      simp only [Transaction.step, h.asleep j hlt, hstage, hrecord] at hstep ⊢
      split at hstep
      · cases hstep
      · rename_i hawake
        simp only [Option.bind_eq_some_iff, Option.map_eq_some_iff, Prod.mk.injEq] at hstep
        obtain ⟨s, hs, v, hv, rfl, rfl⟩ := hstep
        refine ⟨x.visit j v, ?_, h.visit hs hlt v⟩
        simp [hawake, hs, hv]
  | vote j reply | combinedVote j reply | acknowledge j reply | resume j =>
      obtain rfl : j = i := Option.some.inj hi
      simp only [Transaction.step, hstage, hrecord, Option.bind_eq_some_iff,
        Option.map_eq_some_iff, Prod.mk.injEq] at hstep ⊢
      obtain ⟨s, hs, s', hs', rfl, rfl⟩ := hstep
      exact ⟨x.put j s', ⟨s, hs, s', hs', rfl, rfl⟩, h.put hs hlt s'⟩
  | giveUp j =>
      obtain rfl : j = i := Option.some.inj hi
      simp only [Transaction.step, hstage, hrecord] at hstep ⊢
      split at hstep
      · rename_i target hs
        obtain ⟨rfl, rfl⟩ := Prod.mk.inj (Option.some.inj hstep)
        refine ⟨_, rfl, hrecord, fun k hk => ?_, fun k hk => ?_⟩
        · exact (h.put hs hlt _).stage k hk
        · simp [h.asleep k hk]
      · cases hstep

/-- **Later operations change nothing** once the record is decided. -/
theorem AgreesTo.step_late (h : x.AgreesTo n y) (hquiet : y.QuietFrom n)
    (ha : ∀ i, a.operation? = some i → n ≤ i) (hstep : y.step rules a = some (y', counts)) :
    x.AgreesTo n y' ∧ y'.QuietFrom n := by
  obtain ⟨hd, hidle, hn⟩ := hquiet
  cases a with
  | begin q =>
      obtain ⟨rfl, -⟩ := Prod.mk.inj (Option.some.inj hstep)
      have hold : ∀ j < y.operations.length,
          (y.operations ++ [.requested q])[j]? = y.stage? j :=
        fun j hj => List.getElem?_append_left hj
      refine ⟨⟨h.record, fun j hj => ?_, h.asleep⟩, hd, fun j s hj hs => ?_, ?_⟩
      · exact (hold j (by omega)).trans (h.stage j hj)
      · by_cases hlast : j < y.operations.length
        · exact hidle j s hj ((hold j hlast).symm.trans hs)
        · -- the request that has just come in
          have hget : (y.operations ++ [.requested q])[j]? = some s := hs
          rw [List.getElem?_append_right (by omega)] at hget
          exact .inl ⟨q, List.mem_singleton.mp (List.mem_of_getElem? hget)⟩
      · show n ≤ (y.operations ++ [Stage.requested q]).length
        rw [List.length_append]
        omega
  | visit i t =>
      have hni := ha i rfl
      simp only [Transaction.step] at hstep
      split at hstep
      · cases hstep
      · simp only [Option.bind_eq_some_iff, Option.map_eq_some_iff, Prod.mk.injEq] at hstep
        obtain ⟨s, hs, v, hv, rfl, -⟩ := hstep
        rcases hidle i s hni hs with ⟨q, rfl⟩ | ⟨answer, rfl⟩
        · rw [Stage.visit?_decided hd] at hv
          obtain rfl := Option.some.inj hv
          refine ⟨⟨h.record, fun j hj => ?_, fun j hj => ?_⟩, hd, fun j s hj hs' => ?_, ?_⟩
          · rw [stage?_visit hs, if_neg (by omega), h.stage j hj]
          · rw [mem_asleep_visit, ← h.asleep j hj]
            simp [Record.leave]
          · rw [stage?_visit hs] at hs'
            split at hs'
            · exact .inr ⟨_, (Option.some.inj hs').symm⟩
            · exact hidle j s hj hs'
          · show n ≤ (y.operations.set i _).length
            rw [List.length_set]
            exact hn
        · cases hv
  | vote i reply | combinedVote i reply | acknowledge i reply | resume i =>
      simp only [Transaction.step, Option.bind_eq_some_iff, Option.map_eq_some_iff] at hstep
      obtain ⟨s, hs, s', hs', -⟩ := hstep
      -- no call of such an operation is out
      rcases hidle i s (ha i rfl) hs with ⟨q, rfl⟩ | ⟨answer, rfl⟩ <;> cases hs'
  | giveUp i =>
      simp only [Transaction.step] at hstep
      split at hstep
      · rename_i target hs
        rcases hidle i _ (ha i rfl) hs with ⟨q, hq⟩ | ⟨answer, hanswer⟩
        · cases hq
        · cases hanswer
      · cases hstep

/-- A move of one of the first operations leaves the later ones as they are. -/
theorem QuietFrom.step (h : x.QuietFrom n) (hx : x.Sound) (hi : a.operation? = some i) (hlt : i < n)
    (hstep : x.step rules a = some (x', counts)) : x'.QuietFrom n := by
  rcases step_cases hx.shape hx.fits hstep with ⟨q, rfl, -⟩ | ⟨j, s, r', s', hj, hm, hmoved⟩
  · cases hi
  · obtain rfl : j = i := Option.some.inj (hj.symm.trans hi)
    refine ⟨?_, fun k t hk ht => ?_, ?_⟩
    · rw [hmoved.record, (hm.later (hx.fits j s hmoved.stage)).phase_eq h.decided]
      exact h.decided
    · have hne : k ≠ j := by omega
      exact h.idle k t hk ((hmoved.stage?_of_ne hne).symm.trans ht)
    · rw [hmoved.operations, List.length_set]
      exact h.length

/-- An operation stays where it stands while others move. -/
theorem Sound.stage?_of_other (hx : x.Sound) {s : Stage} (hs : x.stage? i = some s)
    (hother : a.operation? ≠ some i) (hstep : x.step rules a = some (x', counts)) :
    x'.stage? i = some s := by
  rcases step_cases hx.shape hx.fits hstep with ⟨q, -, rfl⟩ | ⟨j, t, r', s', hj, -, hmoved⟩
  · exact stage?_begun_of_some hs
  · have hne : i ≠ j := by
      rintro rfl
      exact hother hj
    exact (hmoved.stage?_of_ne hne).trans hs

end Transaction

end LeasedCommit
