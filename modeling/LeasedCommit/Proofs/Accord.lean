import LeasedCommit.Proofs.Dialogue
import LeasedCommit.Proofs.Sound

set_option autoImplicit false

/-! # What the record says has been said

`Transaction.Accords` ties the history of a run to its last state: the conversation with a slot
stands where the progress of the slot says (`Progress.Reflects`), or, while an operation holds the
slot, where the stage of that operation says (`Stage.Expects`). Every call was made in a phase in
which it may be made (`Verb.Backed`), and a commit is backed by the votes of all slots. -/

namespace LeasedCommit

/-- The phase and the number of slots that a call needs. -/
def Verb.Backed (r : Record) : Verb → Prop
  | .prepare => r.phase ≠ .active ∧ 2 ≤ r.registry.size
  | .prepareAndCommit => r.phase ≠ .active ∧ r.registry.size = 1
  | .commit => r.phase = .committed
  | .abort => r.phase = .aborted

/-- Where the conversation with slot `j` of `n` stands if the slot can be claimed. -/
def Progress.Reflects (n j : Nat) (st : Standing) : Progress → Prop
  | .joined => st = .silent
  | .prepared => st = .answered (.yes n j)
  | .unresolved => ∃ error, st = .answered (.voted j (.returned (.failed error))) ∨
    st = .answered (.soleVoted (.returned (.failed error)))
  | .preparing | .settled _ => True

/-- Where the conversation with slot `j` stands if the operation holds the slot. -/
def Stage.Expects (j : Nat) (st : Standing) : Stage → Prop
  | .votePending _ _ _ => st = .asked .prepare
  | .voteHeard _ _ vote => st = .answered (.voted j (.returned vote))
  | .solePending _ _ => st = .asked .prepareAndCommit
  | .soleHeard vote => st = .answered (.soleVoted (.returned vote))
  | .commitPending d =>
    st = if j = d.claim.position then .committing
      else .answered (.voted j (.returned (.answered .prepared)))
  | .pausing d =>
    st = if j = d.claim.position then .lost
      else .answered (.voted j (.returned (.answered .prepared)))
  | .abortPending _ c _ _ => if j = c.position then st = .aborting else st.admitsAbort = true
  | _ => True

/-! ## Votes and calls -/

theorem Event.yes_of_ne {n : Nat} (h : n ≠ 1) (j : Nat) :
    yes n j = .voted j (.returned (.answered .prepared)) := by
  rw [yes, if_neg h]

theorem Event.admitsAbort_yes (n j : Nat) : (yes n j).admitsAbort = true := by
  unfold yes
  split <;> rfl

theorem Verb.Backed.later {r r' : Record} {v : Verb} (h : v.Backed r) (hl : r.Later r') :
    v.Backed r' := by
  cases v with
  | prepare => exact ⟨hl.ne_active h.1, Nat.le_trans h.2 hl.grows⟩
  | prepareAndCommit => exact ⟨hl.ne_active h.1, (hl.size h.1).trans h.2⟩
  | commit => exact hl.committed h
  | abort => exact hl.aborted h

/-- The calls of a stage that fits are backed. -/
theorem Stage.Fits.backed {r : Record} {s : Stage} (h : s.Fits r) {j : Nat} {v : Verb}
    (hv : .called j v ∈ s.begins) : v.Backed r := by
  cases s with
  | votePending k n p =>
      obtain ⟨-, rfl⟩ := Event.called.inj (List.mem_singleton.mp hv)
      exact ⟨h.ne_active rfl, h.1 ▸ h.2.1⟩
  | solePending p e =>
      cases e with
      | committing => cases hv
      | combined | voting =>
          obtain ⟨-, rfl⟩ := Event.called.inj (List.mem_singleton.mp hv)
          exact ⟨h.ne_active rfl, h.1⟩
  | commitPending d =>
      obtain ⟨-, rfl⟩ := Event.called.inj (List.mem_singleton.mp hv)
      exact h.1
  | abortPending owner c rest a =>
      obtain ⟨-, rfl⟩ := Event.called.inj (List.mem_singleton.mp hv)
      exact h.1
  | _ => cases hv

/-! ## Where events take place -/

theorem Action.position_mem_holds {a : Action} {s : Stage} {e : Event} (h : e ∈ a.ends s) :
    e.position ∈ s.holds := by
  unfold ends at h
  split at h <;> try (rw [List.mem_singleton] at h; subst h; exact List.mem_cons_self ..)
  · split at h
    · cases h
    · rw [List.mem_singleton] at h
      subst h
      exact List.mem_cons_self ..
  · cases h

theorem Stage.position_mem_holds {s : Stage} {e : Event} (h : e ∈ s.begins) :
    e.position ∈ s.holds := by
  unfold begins at h
  split at h <;> first
    | (rw [List.mem_singleton] at h; subst h; exact List.mem_cons_self ..)
    | cases h

/-- Events at other slots do not move the conversation with slot `j`. -/
theorem foldl_hear_eq_self {j : Nat} {events : List Event} (h : ∀ e ∈ events, e.position ≠ j)
    (st : Standing) : events.foldl (Standing.hear j) st = st := by
  induction events with
  | nil => rfl
  | cons e events ih =>
      rw [List.foldl_cons, Standing.hear_of_ne (h e (List.mem_cons_self ..))]
      exact ih fun e he => h e (List.mem_cons_of_mem _ he)

/-- Only visits change the record. -/
theorem Advance.record_eq {rules : Rules} {r r' : Record} {a : Action} {s s' : Stage}
    (h : Advance rules r a s r' s') : (∃ i t, a = .visit i t) ∨ r' = r := by
  cases h <;> first | exact .inr rfl | exact .inl ⟨_, _, rfl⟩

@[simp] theorem Action.ends_visit (i : Nat) (t : Readings) (s : Stage) :
    ends (.visit i t) s = [] := rfl

/-- The conversation with slot `j` after a move. -/
def Standing.moved (j : Nat) (st : Standing) (a : Action) (s s' : Stage) : Standing :=
  (a.ends s ++ s'.begins).foldl (Standing.hear j) st

/-- A move is not heard at the slots that its operation does not hold. -/
theorem Standing.moved_of_not_held {j : Nat} {a : Action} {s s' : Stage} (hs : j ∉ s.holds)
    (hs' : j ∉ s'.holds) (st : Standing) : st.moved j a s s' = st := by
  refine foldl_hear_eq_self (fun e he => ?_) st
  rw [List.mem_append] at he
  rintro rfl
  rcases he with he | he
  · exact hs (Action.position_mem_holds he)
  · exact hs' (Stage.position_mem_holds he)

/-- Nothing is heard from a slot that can be claimed after the move. -/
theorem Advance.quiet {rules : Rules} {r r' : Record} {a : Action} {s s' : Stage}
    (h : Advance rules r a s r' s') (hand : HandOver r s r' s')
    (hheld : ∀ j ∈ s.holds, r.registry.canClaim j = false) {j : Nat}
    (hj : r'.registry.canClaim j = true) (st : Standing) : st.moved j a s s' = st := by
  have hs' : j ∉ s'.holds := by
    intro hmem
    rw [hand.firm j hmem] at hj
    cases hj
  rcases h.record_eq with ⟨i, t, rfl⟩ | rfl
  · -- a visit ends no call
    refine foldl_hear_eq_self (fun e he => ?_) st
    rw [Action.ends_visit, List.nil_append] at he
    rintro rfl
    exact hs' (Stage.position_mem_holds he)
  · -- the record has not changed, so the slot could be claimed before
    refine Standing.moved_of_not_held (fun hmem => ?_) hs' st
    rw [hheld j hmem] at hj
    cases hj

/-! ## Slots that can be claimed -/

theorem Progress.Reflects.admitsAbort {n j : Nat} {st : Standing} {p : Progress}
    (h : p.Reflects n j st) (hp : p.acceptsDecision = true) : st.admitsAbort = true := by
  cases p with
  | joined =>
      rw [show st = .silent from h]
      rfl
  | prepared =>
      rw [show st = _ from h]
      exact Event.admitsAbort_yes n j
  | unresolved =>
      obtain ⟨error, rfl | rfl⟩ := h <;> rfl
  | preparing | settled => cases hp

theorem Progress.reflects_claimed (n j : Nat) (st : Standing) (how : Settlement) (p : Progress) :
    (p.claimed how).Reflects n j st := by
  cases p <;> trivial

section Slots

variable {g : Registry} {st : Nat → Standing}

/-- One slot changes, to something that its conversation bears out. -/
theorem Registry.reflects_setProgress {k : Nat} {q : Progress}
    (hfree : ∀ j p, g.progress? j = some p → p.Reflects g.size j (st j))
    (hq : q.Reflects g.size k (st k)) {j : Nat} {p : Progress}
    (hp : (g.setProgress k q).progress? j = some p) :
    p.Reflects (g.setProgress k q).size j (st j) := by
  rw [size_setProgress]
  rw [progress?_setProgress] at hp
  split at hp
  · rename_i hk
    obtain ⟨-, -, rfl⟩ := Option.map_eq_some_iff.mp hp
    exact hk ▸ hq
  · exact hfree j p hp

/-- A slot that has just been claimed need not reflect anything. -/
theorem Registry.reflects_claimAll {n j : Nat} {how : Settlement} {p : Progress}
    (hp : (g.claimAll how).1.progress? j = some p) : p.Reflects n j (st j) := by
  rw [progress?_claimAll] at hp
  obtain ⟨q, -, rfl⟩ := Option.map_eq_some_iff.mp hp
  exact Progress.reflects_claimed n j (st j) how q

end Slots

/-- What an answer leaves behind reflects it. -/
theorem Stage.Settles.reflects {r : Record} {s : Stage} {j : Nat} {p : Progress} {st : Standing}
    (h : s.Settles j p) (hs : s.Fits r) (hst : s.Expects j st) :
    p.Reflects r.registry.size j st := by
  cases h with
  | voted | soleVoted => trivial
  | failed => exact ⟨_, .inl hst⟩
  | soleFailed => exact ⟨_, .inr hst⟩
  | soleCommitted =>
      rw [hs.1]
      exact hst

theorem Advance.reflects {rules : Rules} {r r' : Record} {a : Action} {s s' : Stage}
    (h : Advance rules r a s r' s') (hr : r.Shape) (hs : s.Fits r) {st : Nat → Standing}
    (hheld : ∀ j ∈ s.holds, s.Expects j (st j))
    (hfree : ∀ j p, r.registry.progress? j = some p → p.Reflects r.registry.size j (st j))
    (hsilent : ∀ j, r.registry.size ≤ j → st j = .silent) {j : Nat} {p : Progress}
    (hp : r'.registry.progress? j = some p) : p.Reflects r'.registry.size j (st j) := by
  cases h with
  | join hactive =>
      rw [Record.withRegistry_registry, Registry.progress?_enlist] at hp
      split at hp
      -- nothing has passed at a slot before it joins
      · obtain rfl := Option.some.inj hp
        exact hsilent j (by omega)
      · obtain rfl := hr.active hactive j p hp
        exact hfree j _ hp
  | abort | rollForward | abandon => exact Registry.reflects_claimAll hp
  | ask | askSole => exact Registry.reflects_setProgress (q := .preparing) hfree trivial hp
  | decideSole =>
      exact Registry.reflects_setProgress (g := r.registry.freeze)
        (q := .settled .committedInPrepare) hfree trivial hp
  | @prepared _ k =>
      refine Registry.reflects_setProgress hfree ?_ hp
      rw [Progress.Reflects, Event.yes_of_ne (by have := hs.1; have := hs.2.1; omega)]
      exact hheld k (List.mem_cons_self ..)
  | @refuse _ k _ _ _ _ _ _ _ _ hsettles =>
      refine Registry.reflects_setProgress (g := r.registry.freeze) hfree ?_ hp
      exact hsettles.reflects hs (hheld k (by rw [hsettles.holds_eq]; exact List.mem_cons_self ..))
  | @late _ k _ _ _ _ _ hsettles =>
      refine Registry.reflects_setProgress hfree ?_ hp
      exact hsettles.reflects hs (hheld k (by rw [hsettles.holds_eq]; exact List.mem_cons_self ..))
  | _ => exact hfree j p hp

/-! ## Slots that are held -/

/-- The first abort goes out, and the others may follow. -/
theorem Stage.expects_deliverAborts {owed : List Claim} {f : Nat → Standing}
    (h : ∀ j ∈ owed.map Claim.position, (f j).admitsAbort = true) (owner : Bool) (a : Answer)
    {j : Nat} (hj : j ∈ owed.map Claim.position) :
    (deliverAborts owner owed a).Expects j
      ((deliverAborts owner owed a).begins.foldl (Standing.hear j) (f j)) := by
  cases owed with
  | nil => cases hj
  | cons c rest =>
      simp only [deliverAborts, begins, List.foldl_cons, List.foldl_nil, Expects]
      split
      · rename_i hc
        subst hc
        rw [Standing.hear_called, Standing.after_abort (h _ hj)]
      · rename_i hc
        rw [Standing.hear_of_ne (Ne.symm hc)]
        exact h j hj

/-- The first commit goes out, and the others may follow. -/
theorem Stage.expects_deliverCommits {owed : List Claim} {f : Nat → Standing}
    (h : ∀ j ∈ owed.map Claim.position,
      f j = .answered (.voted j (.returned (.answered .prepared))))
    (id : TransactionId) (n : Nat) (failures : List CommitFailure) {j : Nat}
    (hj : j ∈ owed.map Claim.position) :
    (deliverCommits id n owed failures).Expects j
      ((deliverCommits id n owed failures).begins.foldl (Standing.hear j) (f j)) := by
  cases owed with
  | nil => cases hj
  | cons c rest =>
      simp only [deliverCommits, begins, List.foldl_cons, List.foldl_nil, Expects]
      rw [h j hj]
      split
      · rename_i hc
        subst hc
        rw [Standing.hear_called]
        rfl
      · rename_i hc
        rw [Standing.hear_of_ne (Ne.symm hc)]

/-- Slots to which nothing was sent can be told to abort, and so can slots that have answered. -/
theorem Registry.admitsAbort_of_mem_claimable {g : Registry} {st : Nat → Standing}
    (hfree : ∀ j p, g.progress? j = some p → p.Reflects g.size j (st j)) {j : Nat}
    (hj : j ∈ g.claimable.map Claim.position) : (st j).admitsAbort = true := by
  obtain ⟨c, hc, rfl⟩ := List.mem_map.mp hj
  obtain ⟨p, hp, hacc⟩ := canClaim_iff.mp (canClaim_of_mem_claimable hc)
  exact (hfree _ p hp).admitsAbort hacc

/-- Whoever is told to commit has voted for it, and not by the combined call. -/
theorem Stage.Fits.prepared_of_mem_claimable {r : Record} {st : Nat → Standing}
    (h : Stage.rollingForward.Fits r)
    (hfree : ∀ j p, r.registry.progress? j = some p → p.Reflects r.registry.size j (st j)) {j : Nat}
    (hj : j ∈ r.registry.claimable.map Claim.position) :
    st j = .answered (.voted j (.returned (.answered .prepared))) := by
  obtain ⟨c, hc, rfl⟩ := List.mem_map.mp hj
  obtain ⟨p, hp, hacc⟩ := Registry.canClaim_iff.mp (Registry.canClaim_of_mem_claimable hc)
  have hprogress := h.2.2 _ p hp
  split at hprogress
  · subst hprogress
    cases hacc
  · rename_i hsize
    subst hprogress
    rw [← Event.yes_of_ne hsize]
    exact hfree _ _ hp

theorem Advance.expects {rules : Rules} {r r' : Record} {a : Action} {s s' : Stage}
    (h : Advance rules r a s r' s') (hs : s.Fits r) {st : Nat → Standing}
    (hnodup : s.holds.Nodup) (hheld : ∀ j ∈ s.holds, s.Expects j (st j))
    (hfree : ∀ j p, r.registry.progress? j = some p → p.Reflects r.registry.size j (st j))
    {j : Nat} (hj : j ∈ s'.holds) : s'.Expects j ((st j).moved j a s s') := by
  unfold Standing.moved
  cases h with
  | abort | abandon =>
      rw [Stage.holds_deliverAborts] at hj
      exact Stage.expects_deliverAborts
        (fun j hj => Registry.admitsAbort_of_mem_claimable hfree hj) _ _ hj
  | rollForward =>
      rw [Stage.holds_deliverCommits] at hj
      exact Stage.expects_deliverCommits
        (fun j hj => hs.prepared_of_mem_claimable hfree hj) _ _ _ hj
  | ask hp hk =>
      -- the question is the first that passes at its slot
      obtain rfl := List.mem_singleton.mp hj
      rw [Action.ends_visit, show st j = .silent from hfree j _ hk]
      simp [Stage.begins, Standing.hear, Event.position, Standing.after, Stage.Expects]
  | @askSole _ _ p hp hk =>
      obtain rfl := List.mem_singleton.mp hj
      rw [Action.ends_visit, show st 0 = .silent from hfree 0 _ hk]
      unfold Exchange.first
      split <;> rfl
  | voteReturns =>
      obtain rfl := List.mem_singleton.mp hj
      rw [show st j = .asked .prepare from hheld j hj]
      exact Standing.hear_voted ..
  | soleGoesOn => exact hheld j hj
  | soleReturns hends =>
      obtain rfl := List.mem_singleton.mp hj
      rw [hends, show st 0 = .asked .prepareAndCommit from hheld 0 hj]
      rfl
  | @commitReturns _ d response failures =>
      rw [Stage.holds_deliverCommits] at hj
      rw [List.foldl_append]
      refine Stage.expects_deliverCommits (f := fun j => (st j).hear j
        (.told d.claim.position .commit (.returned response))) (fun j hj => ?_) _ _ _ hj
      -- the slot that has answered is not owed another call
      have hne : j ≠ d.claim.position := by
        rintro rfl
        exact (List.nodup_cons.mp hnodup).1 hj
      have hst := hheld j (List.mem_cons_of_mem _ hj)
      rw [Stage.Expects, if_neg hne] at hst
      exact (Standing.hear_of_ne hne.symm (e := .told d.claim.position .commit _) _).trans hst
  | @commitLost _ d m =>
      -- the conversation waits for the call to be repeated
      have hst := hheld j hj
      simp only [Stage.Expects] at hst ⊢
      rw [hst]
      exact Standing.hear_ite j
        (.told d.claim.position .commit (.returned (.failed (.communication m)))) _ _
  | @repeatCommit _ d =>
      have hst := hheld j hj
      simp only [Stage.Expects] at hst ⊢
      rw [hst]
      exact Standing.hear_ite j (.called d.claim.position .commit) _ _
  | @abortReturns _ owner c rest x response =>
      rw [Stage.holds_deliverAborts] at hj
      rw [List.foldl_append]
      refine Stage.expects_deliverAborts (f := fun j => (st j).hear j
        (.told c.position .abort (.returned response))) (fun j hj => ?_) _ _ hj
      have hne : j ≠ c.position := by
        rintro rfl
        exact (List.nodup_cons.mp hnodup).1 hj
      have hst := hheld j (List.mem_cons_of_mem _ hj)
      rw [Stage.Expects, if_neg hne] at hst
      rw [Standing.hear_of_ne (e := .told c.position .abort _) hne.symm]
      exact hst
  | openVote | prepared => simp at hj
  | abortPanics => split at hj <;> cases hj
  | _ => cases hj

/-! ## Nothing passes that may not -/

theorem Stage.Expects.ne_broken {s : Stage} {j : Nat} {st : Standing} (h : s.Expects j st)
    (hj : j ∈ s.holds) : st ≠ .broken := by
  rintro rfl
  cases s with
  | votePending | voteHeard | solePending | soleHeard => cases h
  | commitPending | pausing | abortPending =>
      simp only [Expects] at h
      split at h <;> cases h
  | _ => cases hj

/-- A call that was made can come back. -/
theorem Stage.Expects.ends_ne_broken {s : Stage} {j : Nat} {st : Standing} (h : s.Expects j st)
    (hj : j ∈ s.holds) (a : Action) : (a.ends s).foldl (Standing.hear j) st ≠ .broken := by
  have hsole : ∀ reply, st = .asked .prepareAndCommit → j = 0 →
      [Event.soleVoted reply].foldl (Standing.hear j) st ≠ .broken := by
    rintro reply rfl rfl
    exact Standing.noConfusion
  have hne := h.ne_broken hj
  unfold Action.ends
  split
  -- a vote
  · obtain rfl := List.mem_singleton.mp hj
    rw [show st = .asked .prepare from h, List.foldl_cons, Standing.hear_voted]
    exact Standing.noConfusion
  -- the combined call, which may go on with another call of its exchange
  · split
    · exact hne
    · exact hsole _ h (List.mem_singleton.mp hj)
  · exact hsole _ h (List.mem_singleton.mp hj)
  · exact hsole _ h (List.mem_singleton.mp hj)
  -- a commit call, of this slot or of another one that is delivered before it
  · rename_i reply d
    simp only [Stage.Expects] at h
    split at h
    · rename_i hc
      subst hc
      rw [h, List.foldl_cons, Standing.hear_told]
      rcases reply with (_ | _ | _) | _ <;> exact Standing.noConfusion
    · rename_i hc
      rw [List.foldl_cons, Standing.hear_of_ne (Ne.symm hc)]
      exact hne
  -- an abort call, likewise
  · simp only [Stage.Expects] at h
    split at h
    · rename_i hc
      subst hc
      rw [h, List.foldl_cons, Standing.hear_told]
      exact Standing.noConfusion
    · rename_i hc
      rw [List.foldl_cons, Standing.hear_of_ne (Ne.symm hc)]
      exact hne
  · exact hne

theorem Advance.unbroken {rules : Rules} {r r' : Record} {a : Action} {s s' : Stage}
    (h : Advance rules r a s r' s') (hs : s.Fits r) {st : Nat → Standing}
    (hnodup : s.holds.Nodup) (hheld : ∀ j ∈ s.holds, s.Expects j (st j))
    (hfree : ∀ j p, r.registry.progress? j = some p → p.Reflects r.registry.size j (st j))
    {j : Nat} (hj : st j ≠ .broken) : (st j).moved j a s s' ≠ .broken := by
  by_cases hs' : j ∈ s'.holds
  -- a slot that is held stands where the new stage expects it
  · exact (h.expects hs hnodup hheld hfree hs').ne_broken hs'
  · by_cases hold : j ∈ s.holds
    · -- a slot that is let go only sees the end of the old call
      have hbegins : ∀ e ∈ s'.begins, e.position ≠ j := by
        rintro e he rfl
        exact hs' (Stage.position_mem_holds he)
      rw [Standing.moved, List.foldl_append, foldl_hear_eq_self hbegins]
      exact (hheld j hold).ends_ne_broken hold a
    · rw [Standing.moved_of_not_held hold hs']
      exact hj

/-! ## The votes behind a commit -/

/-- With all votes in, the conversation with every slot stands at the vote for the commit. -/
theorem Stage.Fits.standing_eq_yes {r : Record} {s : Stage} (h : s.Fits r) (hp : r.phase = .voting)
    (hall : s.hasAllVotes = true) {st : Nat → Standing} (hheld : ∀ j ∈ s.holds, s.Expects j (st j))
    (hfree : ∀ j p, r.registry.progress? j = some p → p.Reflects r.registry.size j (st j)) {j : Nat}
    (hj : j < r.registry.size) : st j = .answered (.yes r.registry.size j) := by
  cases s with
  | deciding =>
      -- the poll has gone through all slots
      obtain ⟨p, hprogress⟩ := Registry.lt_size_iff.mp hj
      obtain rfl := (h.2.polledTo hp).all_prepared hprogress
      exact hfree j _ hprogress
  | soleHeard vote =>
      have hsize : r.registry.size = 1 := h.1
      obtain rfl : j = 0 := by omega
      rcases vote with (_ | _) | _
      · rw [hsize]
        exact hheld 0 (List.mem_cons_self ..)
      all_goals cases hall
  | _ => cases hall

/-- A record commits when the conversation with every slot stands at the vote for it. -/
theorem Advance.decided {rules : Rules} {r r' : Record} {a : Action} {s s' : Stage}
    (h : Advance rules r a s r' s') (hs : s.Fits r) {st : Nat → Standing}
    (hheld : ∀ j ∈ s.holds, s.Expects j (st j))
    (hfree : ∀ j p, r.registry.progress? j = some p → p.Reflects r.registry.size j (st j))
    (hp : r.phase ≠ .committed) (hp' : r'.phase = .committed) {j : Nat}
    (hj : j < r.registry.size) : st j = .answered (.yes r.registry.size j) := by
  cases h with
  | decide hv | decideSole hv => exact hs.standing_eq_yes hv rfl hheld hfree hj
  | abort | refuse | lapse | interruptVote => cases hp'
  | openVote => cases hp'
  | _ => exact absurd hp' hp

/-! ## The invariant -/

namespace Transaction

/-- The history leaves every conversation where the transaction expects it. -/
structure Accords (x : Transaction) (events : List Event) : Prop where
  silent : ∀ j, x.record.registry.size ≤ j → standing j events = .silent
  free : ∀ j p, x.record.registry.progress? j = some p →
    p.Reflects x.record.registry.size j (standing j events)
  held : ∀ i s, x.stage? i = some s → ∀ j ∈ s.holds, s.Expects j (standing j events)
  unbroken : ∀ j, standing j events ≠ .broken
  calls : ∀ j v, .called j v ∈ events → v.Backed x.record
  votes : x.record.phase = .committed → ∀ j < x.record.registry.size,
    .yes x.record.registry.size j ∈ events

variable {rules : Rules} {x y : Transaction} {events : List Event}

/-- Nothing has passed in a new transaction. -/
theorem accords_opened (policy : LeasePolicy) (id : TransactionId) (request : LeaseRequest)
    (now : Timestamp) : (opened policy id request now).Accords [] where
  silent j hj := rfl
  free j p hp := by simp [opened, create, Record.create] at hp
  held i s h := by simp at h
  unbroken j := by simp
  calls j v h := by cases h
  votes h := by cases h

theorem Accords.begun (h : x.Accords events) (q : Request) : (x.begun q).Accords events where
  silent := h.silent
  free := h.free
  held i s hs := by
    rcases stage?_begun hs with hs | ⟨-, rfl⟩
    · exact h.held i s hs
    · intro j hj
      cases hj
  unbroken := h.unbroken
  calls := h.calls
  votes := h.votes

section Moves

variable {a : Action} {i : Nat} {s s' : Stage} {r' : Record}

/-- A record that commits in a move has the votes of all its slots behind it. -/
theorem Accords.decided (h : x.Accords events) (hx : x.Sound)
    (hm : Advance rules x.record a s r' s') (hy : x.Moved i s r' s' y)
    (hp : x.record.phase ≠ .committed) (hp' : r'.phase = .committed) :
    ∀ j < r'.registry.size, .yes r'.registry.size j ∈ events := by
  have hl := hx.later hm hy
  -- no slot joins in a move that decides
  have hne : x.record.phase ≠ .active := by
    intro hactive
    rcases hl.phase with hl | hl <;> rw [hp', hactive] at hl <;> cases hl
  rw [hl.size hne]
  intro j hj
  exact mem_of_standing (hm.decided (hx.fits i s hy.stage) (h.held i s hy.stage) h.free hp hp' hj)

theorem Accords.moved (h : x.Accords events) (hx : x.Sound)
    (hm : Advance rules x.record a s r' s') (hy : x.Moved i s r' s' y) :
    y.Accords (events ++ (a.ends s ++ s'.begins)) := by
  have hfits := hx.fits i s hy.stage
  have hnodup := hx.nodup i s hy.stage
  have hexpects := h.held i s hy.stage
  have hl := hx.later hm hy
  have hfirm : ∀ j ∈ s.holds, x.record.registry.canClaim j = false :=
    fun j hj => (hx.held i s hy.stage j hj).2
  have hstanding : ∀ j, standing j (events ++ (a.ends s ++ s'.begins)) =
      (standing j events).moved j a s s' := fun j => standing_append ..
  refine ⟨fun j hj => ?_, fun j p hp => ?_, fun i' t ht j hj => ?_, fun j => ?_, fun j v hv => ?_,
    fun hp j hj => ?_⟩
  -- silent: a slot that does not exist yet is not held
  · rw [hy.record] at hj
    have hlt : x.record.registry.size ≤ j := Nat.le_trans hl.grows hj
    rw [hstanding, Standing.moved_of_not_held, h.silent j hlt]
    · intro hmem
      have := (hx.held i s hy.stage j hmem).1
      omega
    · intro hmem
      have := (hx.moved_held hm hy i s' hy.stage?_self j hmem).1
      omega
  -- free: only slots that can be claimed have to reflect anything, and nothing is heard from them
  · rw [hy.record] at hp ⊢
    rw [hstanding]
    cases hacc : p.acceptsDecision with
    | false => cases p <;> trivial
    | true =>
        rw [hm.quiet (hx.handOver hm hy) hfirm (Registry.canClaim_iff.mpr ⟨p, hp, hacc⟩)]
        exact hm.reflects hx.shape hfits hexpects h.free h.silent hp
  -- held: what another operation holds is not held by the one that moves
  · rw [hstanding]
    rcases hy.stage?_cases ht with ⟨-, rfl⟩ | ⟨hne, ht⟩
    · exact hm.expects hfits hnodup hexpects h.free hj
    · rw [Standing.moved_of_not_held (hx.apart i' i t s ht hy.stage hne j hj)
        (hx.moved_apart hm hy hne ht hj)]
      exact h.held i' t ht j hj
  -- unbroken
  · rw [hstanding]
    exact hm.unbroken hfits hnodup hexpects h.free (h.unbroken j)
  -- calls: those of before, and those of the new stage
  · rw [hy.record]
    rw [List.mem_append, List.mem_append] at hv
    rcases hv with hv | hv | hv
    · exact (h.calls j v hv).later hl
    · exact absurd hv (a.called_not_mem_ends s j v)
    · exact (hm.fits hx.shape hfits).backed hv
  -- votes: a record that is committed stays so, and one that commits has them all
  · rw [hy.record] at hp hj ⊢
    rw [List.mem_append]
    by_cases hold : x.record.phase = .committed
    · rw [hl.size (by rw [hold]; decide)] at hj ⊢
      exact .inl (h.votes hold j hj)
    · exact .inl (h.decided hx hm hy hold hp j hj)

end Moves

end Transaction

/-- The history of a run is in accord with where the run has led. -/
theorem Run.accords {rules : Rules} {x₀ x : Transaction} {turns : List Turn} (h₀ : x₀.Sound)
    (hstart : x₀.Accords []) (h : Run rules x₀ turns x) : x.Accords (history turns) := by
  refine Run.invariant (P := fun turns x => x.Accords (history turns)) h₀ hstart ?_ ?_ h
  · intro turns x q _ ih
    rw [history_append]
    exact (List.append_nil (history turns)).symm ▸ ih.begun q
  · intro turns x y a i s r' s' hx ih hi hm hy
    have hturn : history [{ before := x, action := a, after := y }] = a.ends s ++ s'.begins := by
      rw [history, List.flatMap_singleton, hy.events hi]
    rw [history_append, hturn]
    exact ih.moved hx hm hy

/-- What holds along every run may be proved with the history at hand. -/
theorem Run.invariant_accords {rules : Rules} {x₀ x : Transaction} {turns : List Turn}
    {P : List Turn → Transaction → Prop} (h₀ : x₀.Sound) (haccords : x₀.Accords [])
    (hstart : P [] x₀)
    (hbegun : ∀ (turns : List Turn) (x : Transaction) (q : Request), x.Sound →
      x.Accords (history turns) → P turns x →
      P (turns ++ [{ before := x, action := .begin q, after := x.begun q }]) (x.begun q))
    (hmoved : ∀ (turns : List Turn) (x y : Transaction) (a : Action) (i : Nat) (s : Stage)
      (r' : Record) (s' : Stage), x.Sound → x.Accords (history turns) → P turns x →
      a.operation? = some i → Advance rules x.record a s r' s' → x.Moved i s r' s' y →
      P (turns ++ [{ before := x, action := a, after := y }]) y)
    (h : Run rules x₀ turns x) : P turns x := by
  induction h with
  | start => exact hstart
  | next hrun hstep ih =>
      have hx := hrun.sound h₀
      have hhistory := hrun.accords h₀ haccords
      rcases Transaction.step_cases hx.shape hx.fits hstep with
        ⟨q, rfl, rfl⟩ | ⟨i, s, r', s', hi, hm, hy⟩
      · exact hbegun _ _ q hx hhistory ih
      · exact hmoved _ _ _ _ i s r' s' hx hhistory ih hi hm hy

/-- Every call is backed by the record as it is when the call goes out. -/
theorem Run.calls_backed {rules : Rules} {x₀ x : Transaction} {turns : List Turn}
    (h₀ : x₀.Sound) (h : Run rules x₀ turns x) {t : Turn} (ht : t ∈ turns) {j : Nat} {v : Verb}
    (hv : .called j v ∈ t.events) : v.Backed t.after.record := by
  obtain ⟨hx, counts, hstep⟩ := h.turn h₀ t ht
  rcases Transaction.step_cases hx.shape hx.fits hstep with ⟨q, ha, -⟩ | ⟨i, s, r', s', hi, hm, hy⟩
  · simp [Turn.events, ha, Action.operation?] at hv
  · have hevents : t.events = t.action.ends s ++ s'.begins := hy.events hi
    rw [hevents, List.mem_append] at hv
    rw [hy.record]
    rcases hv with hv | hv
    · exact absurd hv (t.action.called_not_mem_ends s j v)
    · exact (hm.fits hx.shape (hx.fits i s hy.stage)).backed hv

end LeasedCommit
