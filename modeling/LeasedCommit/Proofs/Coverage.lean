import LeasedCommit.Proofs.Accord
import LeasedCommit.Proofs.Decision

set_option autoImplicit false

/-! # Nobody is forgotten

An abort leaves a slot whose question is open to the operation that has asked. So who tells a slot
of the decision depends on the interleaving, and `Transaction.Covers` says that somebody does. As
long as no call panics, a slot is held by an operation, or the conversation with it is concluded
(`Progress.Concluded`), or it can be claimed and an operation is on its way to claim it
(`Stage.owes`). When all operations are over, only the second is left. -/

namespace LeasedCommit

/-! ## Runs without a panic -/

/-- Whether a call ends in a panic. -/
def Action.panics : Action → Bool
  | .vote _ (.panicked _) | .combinedVote _ (.panicked _) | .acknowledge _ (.panicked _) => true
  | _ => false

namespace Stage

/-- No call of the operation has panicked. -/
def calm : Stage → Bool
  | .unwinding _ | .panicked _ => false
  | _ => true

@[simp] theorem calm_deliverAborts (owner : Bool) (owed : List Claim) (a : Answer) :
    (deliverAborts owner owed a).calm = true := by
  cases owed <;> rfl

@[simp] theorem calm_deliverCommits (id : TransactionId) (n : Nat) (owed : List Claim)
    (failures : List CommitFailure) : (deliverCommits id n owed failures).calm = true := by
  cases owed <;> rfl

@[simp] theorem calm_ask (k n : Nat) : (ask k n).calm = true := by
  unfold ask
  split <;> rfl

@[simp] theorem calm_firstQuestion (n : Nat) : (Record.firstQuestion n).calm = true := by
  rcases n with _ | _ | n <;> rfl

end Stage

/-- An exchange without a panic does not end in one. -/
theorem Action.ends_ne_panicked {a : Action} (h : a.panics = false) (p : Participant) (e : Exchange)
    (m : String) : a.ends (.solePending p e) ≠ [.soleVoted (.panicked m)] := by
  intro hends
  unfold ends at hends
  split at hends <;> try cases hends
  -- the vote of a party that has no combined call, and the commit call after it
  · rename_i reply _ _
    rcases reply with ((_ | _) | _) | _ <;> cases hends
    cases h
  · cases h
  · rename_i reply _ hends
    rcases reply with (_ | _) | _ <;> cases hends
    cases h

section Moves

variable {rules : Rules} {r r' : Record} {a : Action} {s s' : Stage}

theorem Advance.calm (h : Advance rules r a s r' s') (ha : a.panics = false)
    (hs : s.calm = true) : s'.calm = true := by
  cases h with
  | abort | abandon | abortReturns => exact Stage.calm_deliverAborts ..
  | rollForward | commitReturns => exact Stage.calm_deliverCommits ..
  | openVote => exact Stage.calm_firstQuestion _
  | prepared => exact Stage.calm_ask ..
  | interruptVote | interruptCommit | interruptLate => cases hs
  | votePanics | commitPanics | abortPanics => cases ha
  | solePanics hends => exact absurd hends (Action.ends_ne_panicked ha _ _ _)
  | _ => rfl

/-! ## Slots that an operation holds -/

/-- The progress of the slots that an operation holds. -/
def Stage.mark : Stage → Progress
  | .votePending .. | .voteHeard .. | .solePending .. | .soleHeard _ => .preparing
  | .abortPending .. => .settled .abort
  | _ => .settled .commit

theorem Stage.not_acceptsDecision_mark (s : Stage) : s.mark.acceptsDecision = false := by
  cases s <;> rfl

theorem Stage.mark_deliverAborts {j : Nat} {owed : List Claim} (hj : j ∈ owed.map Claim.position)
    (owner : Bool) (a : Answer) : (deliverAborts owner owed a).mark = .settled .abort := by
  cases owed with
  | nil => cases hj
  | cons c rest => rfl

theorem Stage.mark_deliverCommits (id : TransactionId) (n : Nat) (owed : List Claim)
    (failures : List CommitFailure) :
    (deliverCommits id n owed failures).mark = .settled .commit := by
  cases owed <;> rfl

theorem Advance.marks (h : Advance rules r a s r' s')
    (hmark : ∀ j ∈ s.holds, r.registry.progress? j = some s.mark) {j : Nat} (hj : j ∈ s'.holds) :
    r'.registry.progress? j = some s'.mark := by
  cases h with
  | abort | abandon =>
      rw [Stage.holds_deliverAborts] at hj
      rw [Stage.mark_deliverAborts hj]
      exact Registry.progress?_claimAll_of_canClaim (Registry.mem_claimable_iff.mp hj) .abort
  | rollForward =>
      rw [Stage.holds_deliverCommits] at hj
      rw [Stage.mark_deliverCommits]
      exact Registry.progress?_claimAll_of_canClaim (Registry.mem_claimable_iff.mp hj) .commit
  | ask _ hk | askSole _ hk =>
      obtain rfl := List.mem_singleton.mp hj
      exact Registry.progress?_setProgress_self hk .preparing
  | commitReturns =>
      rw [Stage.holds_deliverCommits] at hj
      rw [Stage.mark_deliverCommits]
      exact hmark j (List.mem_cons_of_mem _ hj)
  | abortReturns =>
      rw [Stage.holds_deliverAborts] at hj
      rw [Stage.mark_deliverAborts hj]
      exact hmark j (List.mem_cons_of_mem _ hj)
  | voteReturns | soleGoesOn | soleReturns | commitLost | repeatCommit => exact hmark j hj
  | openVote | prepared => simp at hj
  | abortPanics => split at hj <;> cases hj
  | _ => cases hj

/-! ## Slots that nobody holds -/

/-- What has become of the conversation with slot `j` if nobody holds the slot. Only a slot that
can be claimed still waits for a call. -/
def Progress.Concluded (j : Nat) (st : Standing) : Progress → Prop
  | .joined | .prepared | .unresolved => True
  | .preparing => False
  | .settled .commit => st = .committed ∨ st = .lost
  | .settled .abort => st = .aborted
  | .settled .committedInPrepare => st = .answered (.soleVoted (.returned (.answered .committed)))
  | .settled .selfAborted => ∃ e : Event, e.refuses j = true ∧ st = .answered e

/-- A slot that no operation comes to hold or lets go stays as it is, or is open to claims. -/
theorem Advance.progress?_of_not_held (h : Advance rules r a s r' s') {j : Nat} {p : Progress}
    (hs : j ∉ s.holds) (hs' : j ∉ s'.holds) (hp : r'.registry.progress? j = some p) :
    r.registry.progress? j = some p ∨ p.acceptsDecision = true := by
  have hclaim : ∀ {g : Registry} {how : Settlement}, j ∉ g.claimable.map Claim.position →
      (g.claimAll how).1.progress? j = some p → g.progress? j = some p := by
    intro g how hg hp
    have hfirm : g.canClaim j = false := by
      rw [← Bool.not_eq_true, ← Registry.mem_claimable_iff]
      exact hg
    rwa [Registry.progress?_claimAll_of_not_canClaim hfirm] at hp
  have hset : ∀ {g : Registry} {k : Nat} {q : Progress}, k ≠ j →
      (g.setProgress k q).progress? j = some p → g.progress? j = some p := by
    intro g k q hk hp
    rwa [Registry.progress?_setProgress, if_neg hk] at hp
  have hne : ∀ {k : Nat}, s.holds = [k] → k ≠ j := by
    rintro k hk rfl
    exact hs (by rw [hk]; exact List.mem_singleton_self _)
  cases h with
  | join =>
      rw [Record.withRegistry_registry, Registry.progress?_enlist] at hp
      split at hp
      · obtain rfl := Option.some.inj hp
        exact .inr rfl
      · exact .inl hp
  | abort | abandon =>
      rw [Stage.holds_deliverAborts] at hs'
      exact .inl (hclaim (g := r.registry) hs' hp)
  | rollForward =>
      rw [Stage.holds_deliverCommits] at hs'
      exact .inl (hclaim hs' hp)
  | ask | askSole => exact .inl (hset (fun hk => hs' (List.mem_singleton.mpr hk.symm)) hp)
  | prepared => exact .inl (hset (hne rfl) hp)
  | refuse _ _ hsettles =>
      exact .inl (hset (g := r.registry.freeze) (hne hsettles.holds_eq) hp)
  | late _ _ hsettles => exact .inl (hset (hne hsettles.holds_eq) hp)
  | decideSole => exact .inl (hset (g := r.registry.freeze) (hne rfl) hp)
  | _ => exact .inl hp

/-- An answer that settles a slot is the end of its conversation, or leaves the slot open. -/
theorem Stage.Settles.concluded {j : Nat} {p : Progress} {st : Standing} (h : s.Settles j p)
    (hst : s.Expects j st) : p.Concluded j st := by
  cases h with
  | voted => exact ⟨.voted j (.returned (.answered .abort)), by simp [Event.refuses], hst⟩
  | soleVoted => exact ⟨.soleVoted (.returned (.answered .abort)), rfl, hst⟩
  | failed | soleFailed | soleCommitted => trivial

/-- A call that has come back concludes the conversation with its slot. -/
theorem Advance.concludes (h : Advance rules r a s r' s') (hcalm : s'.calm = true)
    {st : Standing} {j : Nat} {p : Progress} (hs : j ∈ s.holds) (hs' : j ∉ s'.holds)
    (hexpects : s.Expects j st) (hmark : r.registry.progress? j = some s.mark)
    (hp : r'.registry.progress? j = some p) : p.Concluded j (st.moved j a s s') := by
  have hset : ∀ {g : Registry} {q : Progress}, g.progress? j = some s.mark →
      (g.setProgress j q).progress? j = some p → p = q := by
    intro g q hg hp
    rw [Registry.progress?_setProgress_self hg] at hp
    exact (Option.some.inj hp).symm
  have hself : ∀ {k : Nat}, s.holds = [k] → j = k := by
    intro k hk
    rw [hk] at hs
    exact List.mem_singleton.mp hs
  -- the slot is let go, so only the end of a call can have passed there
  have hbegins : ∀ e ∈ s'.begins, e.position ≠ j := by
    rintro e he rfl
    exact hs' (Stage.position_mem_holds he)
  rw [Standing.moved, List.foldl_append, foldl_hear_eq_self hbegins]
  cases h with
  | prepared =>
      obtain rfl := hself rfl
      obtain rfl := hset hmark hp
      trivial
  | refuse _ _ hsettles =>
      obtain rfl := hself hsettles.holds_eq
      obtain rfl := hset (g := r.registry.freeze) hmark hp
      exact hsettles.concluded hexpects
  | late _ _ hsettles =>
      obtain rfl := hself hsettles.holds_eq
      obtain rfl := hset hmark hp
      exact hsettles.concluded hexpects
  | decideSole =>
      obtain rfl := hself rfl
      obtain rfl := hset (g := r.registry.freeze) hmark hp
      exact hexpects
  | @commitReturns _ d response =>
      -- of the slots that were held, only the one that has answered is not held any more
      rw [Stage.holds_deliverCommits] at hs'
      obtain rfl := (List.mem_cons.mp hs).resolve_right hs'
      obtain rfl := Option.some.inj (hmark.symm.trans hp)
      rw [Stage.Expects, if_pos rfl] at hexpects
      rw [hexpects, Action.ends, List.foldl_cons, Standing.hear_told]
      exact Standing.after_told_commit _ _
  | @abortReturns _ _ c =>
      rw [Stage.holds_deliverAborts] at hs'
      obtain rfl := (List.mem_cons.mp hs).resolve_right hs'
      obtain rfl := Option.some.inj (hmark.symm.trans hp)
      rw [Stage.Expects, if_pos rfl] at hexpects
      rw [hexpects, Action.ends, List.foldl_cons, Standing.hear_told]
      rfl
  | votePanics | solePanics | commitPanics => cases hcalm
  | abortPanics => split at hcalm <;> cases hcalm
  | voteReturns | soleGoesOn | soleReturns | commitLost | repeatCommit => exact absurd hs hs'
  | giveIn hask => rcases hask with ⟨k, n, rfl⟩ | rfl | rfl <;> cases hs
  | _ => cases hs

/-! ## Slots that can be claimed -/

/-- Whether an operation is on its way to claim whoever can be claimed. -/
def Stage.owes : Stage → Bool
  | .asking .. | .votePending .. | .voteHeard .. | .askingSole | .solePending .. | .soleHeard _
  | .deciding | .rollingForward | .abandoning => true
  | _ => false

theorem Stage.owes_ask (k n : Nat) : (ask k n).owes = true := by
  unfold ask
  split <;> rfl

/-- Whoever can be claimed once the record is decided is owed something by the operation that moves,
or by another one. -/
theorem Advance.owes (h : Advance rules r a s r' s') (hcalm : s'.calm = true)
    (hd : r'.phase.isTerminal = true) {j : Nat} (hj : r'.registry.canClaim j = true) :
    s'.owes = true ∨
      (r.phase.isTerminal = true ∧ r.registry.canClaim j = true ∧ s.owes = false) := by
  cases h with
  -- everybody has just been claimed
  | abort | rollForward | abandon =>
      rw [Record.withRegistry_registry, Registry.canClaim_claimAll] at hj
      cases hj
  | join hp =>
      rw [Record.withRegistry_phase, hp] at hd
      cases hd
  | openVote => cases hd
  | renew hu =>
      rw [hu] at hd
      cases hd
  | prepared => exact .inl (Stage.owes_ask ..)
  | votePanics | solePanics | commitPanics | interruptVote | interruptCommit | interruptLate =>
      cases hcalm
  | ask | askSole | giveIn | refuse | late | lapse | decide | decideSole | voteReturns
  | soleGoesOn | soleReturns => exact .inl rfl
  | _ => exact .inr ⟨hd, hj, rfl⟩

end Moves

/-! ## The invariant -/

namespace Transaction

/-- Every slot is held, concluded, or about to be claimed. -/
structure Covers (x : Transaction) (events : List Event) : Prop where
  calm : ∀ i s, x.stage? i = some s → s.calm = true
  marked : ∀ i s, x.stage? i = some s → ∀ j ∈ s.holds,
    x.record.registry.progress? j = some s.mark
  concluded : ∀ j p, x.record.registry.progress? j = some p →
    (∀ i s, x.stage? i = some s → j ∉ s.holds) → p.Concluded j (standing j events)
  owed : x.record.phase.isTerminal = true → ∀ j, x.record.registry.canClaim j = true →
    ∃ i s, x.stage? i = some s ∧ s.owes = true

variable {rules : Rules} {x y : Transaction} {events : List Event}

theorem covers_opened (policy : LeasePolicy) (id : TransactionId) (request : LeaseRequest)
    (now : Timestamp) : (opened policy id request now).Covers [] where
  calm i s h := by simp at h
  marked i s h := by simp at h
  concluded j p h := by simp [opened, create, Record.create] at h
  owed h := by cases h

theorem Covers.begun (h : x.Covers events) (q : Request) : (x.begun q).Covers events where
  calm i s hs := by
    rcases stage?_begun hs with hs | ⟨-, rfl⟩
    · exact h.calm i s hs
    · rfl
  marked i s hs := by
    rcases stage?_begun hs with hs | ⟨-, rfl⟩
    · exact h.marked i s hs
    · intro j hj
      cases hj
  concluded j p hp hfree := h.concluded j p hp fun i s hs => hfree i s (stage?_begun_of_some hs)
  owed hd j hj := by
    obtain ⟨i, s, hs, howes⟩ := h.owed hd j hj
    exact ⟨i, s, stage?_begun_of_some hs, howes⟩

section Moves

variable {a : Action} {i : Nat} {s s' : Stage} {r' : Record}

/-- What the operations hold stays marked. -/
theorem Covers.moved_marked (h : x.Covers events) (hx : x.Sound)
    (hm : Advance rules x.record a s r' s') (hy : x.Moved i s r' s' y) (i' : Nat) (t : Stage)
    (ht : y.stage? i' = some t) (j : Nat) (hj : j ∈ t.holds) :
    r'.registry.progress? j = some t.mark := by
  rcases hy.stage?_cases ht with ⟨-, rfl⟩ | ⟨hne, ht⟩
  · exact hm.marks (h.marked i s hy.stage) hj
  · rcases hm.progress?_cases (h.marked i' t ht j hj) with hsame | haccepts | ⟨-, hholds⟩
    · exact hsame
    · rw [t.not_acceptsDecision_mark] at haccepts
      cases haccepts
    -- the answer that is counted comes from a slot that the operation itself holds
    · refine absurd ?_ (hx.apart i' i t s ht hy.stage hne j hj)
      rw [hholds]
      exact List.mem_singleton_self j

theorem Covers.moved_concluded (h : x.Covers events) (haccords : x.Accords events)
    (hm : Advance rules x.record a s r' s') (hcalm : s'.calm = true) (hy : x.Moved i s r' s' y)
    {j : Nat} {p : Progress} (hp : r'.registry.progress? j = some p)
    (hfree : ∀ i' t, y.stage? i' = some t → j ∉ t.holds) :
    p.Concluded j (standing j (events ++ (a.ends s ++ s'.begins))) := by
  have hs' : j ∉ s'.holds := hfree i s' hy.stage?_self
  rw [standing_append]
  by_cases hs : j ∈ s.holds
  · have hexpects := haccords.held i s hy.stage j hs
    exact hm.concludes hcalm hs hs' hexpects (h.marked i s hy.stage j hs) hp
  · change p.Concluded j ((standing j events).moved j a s s')
    rw [Standing.moved_of_not_held hs hs']
    rcases hm.progress?_of_not_held hs hs' hp with hp | haccepts
    · -- nobody else has let it go
      refine h.concluded j p hp fun i' t ht => ?_
      by_cases hne : i' = i
      · subst hne
        obtain rfl := Option.some.inj (hy.stage.symm.trans ht)
        exact hs
      · exact hfree i' t ((hy.stage?_of_ne hne).trans ht)
    · cases p <;> trivial

theorem Covers.moved_owed (h : x.Covers events) (hm : Advance rules x.record a s r' s')
    (hcalm : s'.calm = true) (hy : x.Moved i s r' s' y) (hd : r'.phase.isTerminal = true) {j : Nat}
    (hj : r'.registry.canClaim j = true) : ∃ i s, y.stage? i = some s ∧ s.owes = true := by
  rcases hm.owes hcalm hd hj with howes | ⟨hd, hj, hs⟩
  · exact ⟨i, s', hy.stage?_self, howes⟩
  · obtain ⟨i', t, ht, howes⟩ := h.owed hd j hj
    refine ⟨i', t, (hy.stage?_of_ne ?_).trans ht, howes⟩
    -- it is not the operation that moves
    rintro rfl
    obtain rfl := Option.some.inj (hy.stage.symm.trans ht)
    rw [hs] at howes
    cases howes

theorem Covers.moved (h : x.Covers events) (hx : x.Sound) (haccords : x.Accords events)
    (ha : a.panics = false) (hm : Advance rules x.record a s r' s') (hy : x.Moved i s r' s' y) :
    y.Covers (events ++ (a.ends s ++ s'.begins)) := by
  have hcalm : s'.calm = true := hm.calm ha (h.calm i s hy.stage)
  refine ⟨fun i' t ht => ?_, ?_, ?_, ?_⟩
  · rcases hy.stage?_cases ht with ⟨-, rfl⟩ | ⟨-, ht⟩
    · exact hcalm
    · exact h.calm i' t ht
  · rw [hy.record]
    exact h.moved_marked hx hm hy
  · rw [hy.record]
    intro j p hp hfree
    exact h.moved_concluded haccords hm hcalm hy hp hfree
  · rw [hy.record]
    intro hd j hj
    exact h.moved_owed hm hcalm hy hd hj

end Moves

end Transaction

theorem Run.covers {rules : Rules} {x₀ x : Transaction} {turns : List Turn} (h₀ : x₀.Sound)
    (haccords : x₀.Accords []) (hstart : x₀.Covers []) (h : Run rules x₀ turns x)
    (hcalm : ∀ t ∈ turns, t.action.panics = false) : x.Covers (history turns) := by
  refine Run.invariant_accords (P := fun turns x => (∀ t ∈ turns, t.action.panics = false) →
    x.Covers (history turns)) h₀ haccords (fun _ => hstart) ?_ ?_ h hcalm
  · intro turns x q _ _ ih hcalm
    rw [history_concat, Turn.events_begin, List.append_nil]
    exact (ih fun t ht => hcalm t (List.mem_append_left _ ht)).begun q
  · intro turns x y a i s r' s' hx hacc ih hi hm hy hcalm
    have hbefore := ih fun t ht => hcalm t (List.mem_append_left _ ht)
    have ha : a.panics = false :=
      hcalm _ (List.mem_append_right _ (List.mem_singleton_self _))
    rw [history_concat, hy.events hi]
    exact hbefore.moved hx hacc ha hm hy

/-! ## When all operations are over -/

theorem Stage.holds_eq_nil {s : Stage} (h : s.isOver = true) : s.holds = [] := by
  cases s <;> first | rfl | cases h

theorem Stage.owes_eq_false {s : Stage} (h : s.isOver = true) : s.owes = false := by
  cases s <;> first | rfl | cases h

/-- In the end every slot of a decided record is settled, and its conversation concluded. -/
theorem Transaction.Covers.ended {x : Transaction} {events : List Event} (h : x.Covers events)
    (hover : ∀ s ∈ x.operations, s.isOver = true)
    (hd : x.record.phase.isTerminal = true) {j : Nat} {p : Progress}
    (hp : x.record.registry.progress? j = some p) :
    p.isSettled = true ∧ p.Concluded j (standing j events) := by
  have hconcluded : p.Concluded j (standing j events) := by
    refine h.concluded j p hp fun i s hs hj => ?_
    rw [Stage.holds_eq_nil (hover s (List.mem_of_getElem? hs))] at hj
    cases hj
  refine ⟨?_, hconcluded⟩
  have hfirm : p.acceptsDecision = false := by
    rw [← Bool.not_eq_true]
    intro haccepts
    obtain ⟨i, s, hs, howes⟩ := h.owed hd j (Registry.canClaim_iff.mpr ⟨p, hp, haccepts⟩)
    rw [Stage.owes_eq_false (hover s (List.mem_of_getElem? hs))] at howes
    cases howes
  cases p with
  | settled => rfl
  | preparing => exact hconcluded.elim
  | joined | prepared | unresolved => cases hfirm

/-- The end of a slot in an aborted record: it was told to abort once, unless it has said so
itself. -/
theorem Progress.Concluded.of_aborted {j : Nat} {p : Progress} {events : List Event}
    (h : p.Concluded j (standing j events)) (hunbroken : standing j events ≠ .broken)
    (hp : p = .settled .abort ∨ p = .settled .selfAborted) :
    events.count (.called j .abort) = if events.any (Event.refuses j) then 0 else 1 := by
  rw [count_abort hunbroken]
  rcases hp with rfl | rfl
  · have haborted : standing j events = .aborted := h
    rw [if_neg, haborted, Standing.aborts]
    rw [List.any_eq_true]
    rintro ⟨e, hmem, he⟩
    rw [standing_of_refuses he hmem hunbroken] at haborted
    cases haborted
  · obtain ⟨e, he, hanswered⟩ := h
    rw [if_pos (List.any_eq_true.mpr ⟨e, mem_of_standing hanswered, he⟩), hanswered]
    rfl

/-- The end of a slot that is marked as told to commit: it was told so. -/
theorem Progress.Concluded.of_commit {j : Nat} {events : List Event}
    (h : (settled .commit).Concluded j (standing j events)) : .called j .commit ∈ events := by
  apply mem_of_commits
  rcases h with h | h <;> rw [h] <;> rfl

/-! ## The main result -/

/-- **Nobody is forgotten.** However the operations on a new record interleave, and whether the
calls of the participants are answered or fail: once all operations are over and the record is
decided, every slot is settled.

* If it is aborted, a slot that has voted for the abort was not told to abort. Every other slot was
  told so in exactly one call, whether it was never asked, was prepared, had failed, or was asked
  when the abort came.
* If it is committed, no slot was told to abort. Every slot was told to commit, or is the only one
  and has committed in the combined call. -/
theorem nobody_forgotten {rules : Rules} {id : TransactionId} {request : LeaseRequest}
    {now : Timestamp} {turns : List Turn} {x : Transaction}
    (h : Run rules (Transaction.opened rules.lease id request now) turns x)
    (hcalm : ∀ t ∈ turns, t.action.panics = false)
    (hover : ∀ s ∈ x.operations, s.isOver = true)
    (hd : x.record.phase.isTerminal = true) :
    x.record.registry.isSettled = true ∧
    (x.record.phase = .aborted → ∀ j < x.record.registry.size,
      (history turns).count (.called j .abort) =
        if (history turns).any (Event.refuses j) then 0 else 1) ∧
    (x.record.phase = .committed → ∀ j < x.record.registry.size,
      .called j .abort ∉ history turns ∧
      (.called j .commit ∈ history turns ∨
        (x.record.registry.size = 1 ∧
          .soleVoted (.returned (.answered .committed)) ∈ history turns))) := by
  have h₀ := Transaction.sound_opened rules.lease id request now
  have haccords := h.accords h₀ (Transaction.accords_opened ..)
  have hshape := (h.sound h₀).shape
  have hcovers := h.covers h₀ (Transaction.accords_opened ..) (Transaction.covers_opened ..) hcalm
  refine ⟨?_, fun hp j hj => ?_, fun hp j hj => ?_⟩
  · rw [Registry.isSettled_iff]
    intro j p hprogress
    exact (hcovers.ended hover hd hprogress).1
  · obtain ⟨p, hprogress⟩ := Registry.lt_size_iff.mp hj
    obtain ⟨hsettled, hconcluded⟩ := hcovers.ended hover hd hprogress
    refine hconcluded.of_aborted (haccords.unbroken j) ?_
    obtain ⟨k, hslots⟩ := hshape.aborted hp
    obtain ⟨hcommit, hsole, -⟩ := hslots j p hprogress
    cases p with
    | settled how => cases how <;> simp_all
    | _ => cases hsettled
  · obtain ⟨p, hprogress⟩ := Registry.lt_size_iff.mp hj
    obtain ⟨hsettled, hconcluded⟩ := hcovers.ended hover hd hprogress
    constructor
    · intro hcall
      have haborted : x.record.phase = .aborted := haccords.calls j .abort hcall
      rw [hp] at haborted
      cases haborted
    · rcases hshape.committed hp j p hprogress with rfl | rfl | ⟨rfl, hsize⟩
      · cases hsettled
      · exact .inl hconcluded.of_commit
      · exact .inr ⟨hsize, mem_of_standing hconcluded⟩

/-- An abort comes while the first of two parties is asked. It tells the second party, and its call
fails; the first party, which votes for the commit too late, is told by the commit. -/
theorem nobody_forgotten_of_two :
    ∃ turns x,
      Run { lease := .standard, rollForward := .standard }
        (Transaction.opened .standard ⟨1⟩ .forever .epoch) turns x ∧
      x.record.phase = .aborted ∧
      .voted 0 (.returned (.answered .prepared)) ∈ history turns ∧
      .told 1 .abort (.returned (.failed (.communication "down"))) ∈ history turns ∧
      (history turns).count (.called 0 .abort) = 1 ∧
      (history turns).count (.called 1 .abort) = 1 := by
  have hrun : Run { lease := .standard, rollForward := .standard }
      (Transaction.opened .standard ⟨1⟩ .forever .epoch) _ _ :=
    Run.of_play [.begin (.join { key := 0, combines := false }), .visit 0 (.steady .epoch),
      .begin (.join { key := 1, combines := false }), .visit 1 (.steady .epoch),
      .begin .commit, .visit 2 (.steady .epoch), .visit 2 (.steady .epoch),
      .begin .abort, .visit 3 (.steady .epoch),
      .acknowledge 3 (.returned (.failed (.communication "down"))),
      .vote 2 (.returned (.answered .prepared)), .visit 2 (.steady .epoch),
      .visit 2 (.steady .epoch), .visit 2 (.steady .epoch),
      .acknowledge 2 (.returned (.answered ()))] rfl
  obtain ⟨-, haborted, -⟩ := nobody_forgotten hrun (by decide) (by decide) rfl
  refine ⟨_, _, hrun, rfl, ?_, ?_, ?_, ?_⟩
  · decide
  · decide
  · exact haborted rfl 0 (by decide)
  · exact haborted rfl 1 (by decide)

end LeasedCommit
