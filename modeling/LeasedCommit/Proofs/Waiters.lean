import LeasedCommit.Proofs.Effect
import LeasedCommit.Proofs.Sound

set_option autoImplicit false

/-! # Nobody sleeps through a change

A visit that changes the phase or files the report wakes everybody who sleeps
(`Stage.visit?_notifies`). So an operation is asleep only while its wait is not over. -/

namespace LeasedCommit

/-- A change of the record that the waiting operations learn of, if it matters to them. -/
def Record.Notifies (r r' : Record) (wakes : Bool) : Prop :=
  wakes = true ∨ (r'.phase = r.phase ∧ r'.report = r.report)

theorem Record.Effect.notifies {r r' : Record} {counts : OutcomeCounts} {wakes : Bool}
    (h : r.Effect r' counts wakes) : r.Notifies r' wakes := by
  cases h with
  | quiet hp _ hreport => exact .inr ⟨hp, hreport⟩
  | opens | aborts | commits | reports => exact .inl rfl

/-- **A change is never silent**: a visit that changes the phase or the report wakes everybody. -/
theorem Stage.visit?_notifies {policy : LeasePolicy} {r : Record} {t : Readings} {s : Stage}
    {v : Visit} (hs : s.Fits r) (h : s.visit? policy r t = some v) :
    r.Notifies v.record v.wakes :=
  (visit?_effect hs h).notifies

/-- A wait is over or not by the phase and the report alone. -/
theorem Wait.isOver_congr {w : Wait} {r r' : Record} (hp : r'.phase = r.phase)
    (hreport : r'.report = r.report) : w.isOver r' = w.isOver r := by
  cases w <;> simp only [isOver, hp, hreport]

/-- Whoever goes to wait has seen that the wait is not over, and has changed nothing. -/
theorem Advance.waits {rules : Rules} {r r' : Record} {a : Action} {s s' : Stage} {w : Wait}
    (h : Advance rules r a s r' s') (hw : s' = .awaiting w) : r' = r ∧ w.isOver r = false := by
  have hlead : s'.leads = false := by rw [hw]; rfl
  have haborts : ∀ {owner owed x}, Stage.deliverAborts owner owed x ≠ .awaiting w := by
    rintro owner (_ | _) x <;> exact Stage.noConfusion
  cases h with
  | wait hover | lookAgain hover =>
      obtain rfl := Stage.awaiting.inj hw
      exact ⟨rfl, hover⟩
  | openVote | prepared | rollForward | commitReturns => simp at hlead
  | abort | abandon | abortReturns => exact absurd hw haborts
  | abortPanics => split at hw <;> cases hw
  | _ => cases hw

namespace Transaction

/-- Whoever sleeps waits for something that has not come about. -/
def Rested (x : Transaction) : Prop :=
  ∀ i ∈ x.asleep, ∃ w, x.stage? i = some (.awaiting w) ∧ w.isOver x.record = false

variable {rules : Rules} {x y : Transaction}

theorem rested_opened (policy : LeasePolicy) (id : TransactionId) (request : LeaseRequest)
    (now : Timestamp) : (opened policy id request now).Rested := by
  intro i hi
  cases hi

/-- An operation that is awake can make its visit. -/
theorem step_visit {i : Nat} {s : Stage} {v : Visit} {t : Readings} (hs : x.stage? i = some s)
    (hawake : i ∉ x.asleep) (hv : s.visit? rules.lease x.record t = some v) :
    x.step rules (.visit i t) = some (x.visit i v, v.counts) := by
  simp [step, hawake, hs, hv]

/-- Whoever sleeps waits. -/
theorem Rested.awake (h : x.Rested) {i : Nat} {s : Stage} (hs : x.stage? i = some s)
    (hw : ∀ w, s ≠ .awaiting w) : i ∉ x.asleep := by
  intro hi
  obtain ⟨w, hstage, -⟩ := h i hi
  exact hw w (Option.some.inj (hs.symm.trans hstage))

/-- After a visit the operation sleeps if it waits, and others sleep on if nobody wakes them. -/
theorem asleep_visit {i i' : Nat} {v : Visit} (h : i' ∈ (x.visit i v).asleep) :
    (i' = i ∧ ∃ w, v.next = .awaiting w) ∨ (i' ∈ x.asleep ∧ v.wakes = false) := by
  have hawake : i' ∈ (if v.wakes then [] else x.asleep) → i' ∈ x.asleep ∧ v.wakes = false := by
    intro h
    cases hw : v.wakes with
    | true =>
        rw [hw] at h
        cases h
    | false =>
        rw [hw] at h
        exact ⟨h, rfl⟩
  simp only [visit] at h
  split at h
  · rename_i w hw
    rcases List.mem_cons.mp h with rfl | h
    · exact .inl ⟨rfl, w, hw⟩
    · exact .inr (hawake h)
  · exact .inr (hawake h)

/-- Without a visit nobody falls asleep, and an operation that stops waiting stops sleeping. -/
theorem step_asleep {a : Action} {i : Nat} {counts : OutcomeCounts}
    (h : x.step rules a = some (y, counts)) (hi : a.operation? = some i) :
    (∃ t s v, i ∉ x.asleep ∧ x.stage? i = some s ∧ s.visit? rules.lease x.record t = some v ∧
      y = x.visit i v) ∨
    (y.record = x.record ∧ ∀ i' ∈ y.asleep, i' ∈ x.asleep ∧
      ∀ w, x.stage? i = some (.awaiting w) → i' ≠ i) := by
  cases a with
  | begin q => cases hi
  | visit i t =>
      cases hi
      simp only [step] at h
      split at h
      · cases h
      · rename_i hawake
        simp only [Option.bind_eq_some_iff, Option.map_eq_some_iff, Prod.mk.injEq] at h
        obtain ⟨s, hs, v, hv, rfl, -⟩ := h
        exact .inl ⟨t, s, v, hawake, hs, hv, rfl⟩
  | vote | combinedVote | acknowledge | resume =>
      cases hi
      simp only [step, Option.bind_eq_some_iff, Option.map_eq_some_iff, Prod.mk.injEq] at h
      obtain ⟨s, hs, s', hs', rfl, -⟩ := h
      -- nobody waits for a participant and for the record at once
      refine .inr ⟨rfl, fun i' hi' => ⟨hi', fun w hw => ?_⟩⟩
      obtain rfl := Option.some.inj (hs.symm.trans hw)
      cases hs'
  | giveUp i =>
      cases hi
      simp only [step] at h
      split at h
      · simp only [Option.some.injEq, Prod.mk.injEq] at h
        obtain ⟨rfl, -⟩ := h
        refine .inr ⟨rfl, fun i' hi' => ?_⟩
        obtain ⟨hold, hne⟩ := List.mem_filter.mp hi'
        exact ⟨hold, fun _ _ => by simpa using hne⟩
      · cases h

section Steps

variable {action : Action} {counts : OutcomeCounts}

/-- Those who sleep through a move sleep on if it changes neither the phase nor the report. -/
theorem Rested.keep {i i' : Nat} {s s' : Stage} {r' : Record} (h : x.Rested)
    (hy : x.Moved i s r' s' y) (hp : r'.phase = x.record.phase)
    (hreport : r'.report = x.record.report) (hi' : i' ∈ x.asleep) (hne : i' ≠ i) :
    ∃ w, y.stage? i' = some (.awaiting w) ∧ w.isOver y.record = false := by
  obtain ⟨w, hs, hw⟩ := h i' hi'
  refine ⟨w, (hy.stage?_of_ne hne).trans hs, ?_⟩
  rw [hy.record, Wait.isOver_congr hp hreport]
  exact hw

/-- The move of a visit is the one that the visit says. -/
theorem Moved.visit_eq {i : Nat} {s s' : Stage} {r' : Record} {v : Visit}
    (h : x.Moved i s r' s' (x.visit i v)) : r' = v.record ∧ s' = v.next := by
  obtain ⟨hlt, -⟩ := List.getElem?_eq_some_iff.mp h.stage
  have hset : (x.operations.set i v.next)[i]? = some s' := h.stage?_self
  rw [List.getElem?_set_self hlt] at hset
  exact ⟨h.record.symm, (Option.some.inj hset).symm⟩

theorem Rested.step (h : x.Rested) (hx : x.Sound) (hstep : x.step rules action = some (y, counts)) :
    y.Rested := by
  rcases step_cases hx.shape hx.fits hstep with ⟨q, -, rfl⟩ | ⟨i, s, r', s', hi, hm, hy⟩
  · intro i hi
    obtain ⟨w, hs, hw⟩ := h i hi
    exact ⟨w, stage?_begun_of_some hs, hw⟩
  · intro i' hi'
    rcases step_asleep hstep hi with ⟨t, s₀, v, hawake, hs₀, hv, rfl⟩ | ⟨hrecord, hasleep⟩
    · obtain ⟨rfl, rfl⟩ := hy.visit_eq
      rcases asleep_visit hi' with ⟨rfl, w, hw⟩ | ⟨hold, hwakes⟩
      · -- it has looked and fallen asleep
        obtain ⟨hr, hover⟩ := hm.waits hw
        refine ⟨w, by rw [hy.stage?_self, hw], ?_⟩
        rw [hy.record, hr, hover]
      · -- it was not woken, so nothing has changed that it waits for
        have hnotifies := Stage.visit?_notifies (hx.fits i s₀ hs₀) hv
        obtain ⟨hp, hreport⟩ := hnotifies.resolve_left (by simp [hwakes])
        exact h.keep hy hp hreport hold fun heq => hawake (heq ▸ hold)
    -- no visit: the record is as it was
    · obtain ⟨hold, hstops⟩ := hasleep i' hi'
      rw [hy.record] at hrecord
      refine h.keep hy (by rw [hrecord]) (by rw [hrecord]) hold ?_
      rintro rfl
      obtain ⟨w, hs, -⟩ := h _ hold
      exact hstops w hs rfl

/-- A step that changes the phase or the report leaves nobody asleep. -/
theorem Sound.step_wakes (hx : x.Sound) (hstep : x.step rules action = some (y, counts))
    (hchange : y.record.phase ≠ x.record.phase ∨ y.record.report ≠ x.record.report) :
    y.asleep = [] := by
  rcases step_cases hx.shape hx.fits hstep with ⟨q, -, rfl⟩ | ⟨i, s, r', s', hi, hm, hy⟩
  · rcases hchange with hchange | hchange <;> exact absurd rfl hchange
  · rw [List.eq_nil_iff_forall_not_mem]
    intro i' hi'
    rcases step_asleep hstep hi with ⟨t, s₀, v, -, hs₀, hv, rfl⟩ | ⟨hrecord, -⟩
    · obtain ⟨rfl, rfl⟩ := hy.visit_eq
      have hnotify := Stage.visit?_notifies (hx.fits i s₀ hs₀) hv
      rcases asleep_visit hi' with ⟨-, w, hw⟩ | ⟨-, hwakes⟩
      -- a visit that ends in a wait does not change anything
      · obtain ⟨hr, -⟩ := hm.waits hw
        rw [hy.record, hr] at hchange
        rcases hchange with hchange | hchange <;> exact hchange rfl
      · obtain ⟨hp, hreport⟩ := hnotify.resolve_left (by simp [hwakes])
        exact hchange.elim (fun hne => hne hp) (fun hne => hne hreport)
    · rw [hrecord] at hchange
      rcases hchange with hchange | hchange <;> exact hchange rfl

end Steps

end Transaction

theorem Run.rested {rules : Rules} {x₀ x : Transaction} {turns : List Turn} (h₀ : x₀.Sound)
    (hstart : x₀.Rested) (h : Run rules x₀ turns x) : x.Rested := by
  induction h with
  | start => exact hstart
  | next hrun hstep ih => exact ih.step (hrun.sound h₀) hstep

end LeasedCommit
