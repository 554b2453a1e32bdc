import LeasedCommit.Proofs.LeaseInForce

set_option autoImplicit false

/-! # The grounds of an abort

An operation counts an answer that it has heard in a later visit, and others can decide the record
in between. `Transaction.Listened` ties the two together: while the vote is open, an operation that
comes to count an answer has heard it while the vote was open, and an answer that leads to an abort
(`Event.cause?`) is counted in the next visit of the operation that has heard it. So the cause of an
abort says what has come before (`Turn.Grounds`). -/

namespace LeasedCommit

/-! ## Answers that lead to an abort -/

/-- The cause of the abort to which an answer leads, if the record is undecided when it is
counted. -/
def Event.cause? : Event → Option AbortCause
  | .voted k (.returned (.answered .abort)) => some (.votedAbort k)
  | .voted k (.returned (.failed e)) => some (.prepareFailed k e)
  | .soleVoted (.returned (.answered .abort)) => some (.votedAbort 0)
  | .soleVoted (.returned (.failed e)) => some (.prepareFailed 0 e)
  | .voted _ (.panicked _) | .soleVoted (.panicked _) => some .interrupted
  | _ => none

namespace Stage

/-- Whether an operation comes to count an answer. -/
def hears : Stage → Bool
  | .voteHeard .. | .soleHeard _ | .unwinding _ => true
  | _ => false

/-- The operation comes to count this answer. -/
inductive Heard : Stage → Event → Prop
  | vote {k n : Nat} {vote : Response Vote} :
    Heard (.voteHeard k n vote) (.voted k (.returned vote))
  | soleVote {vote : Response CombinedVote} :
    Heard (.soleHeard vote) (.soleVoted (.returned vote))
  | panic {k : Nat} {m : String} : Heard (.unwinding m) (.voted k (.panicked m))
  | solePanic {m : String} : Heard (.unwinding m) (.soleVoted (.panicked m))

@[simp] theorem hears_deliverAborts (owner : Bool) (owed : List Claim) (a : Answer) :
    (deliverAborts owner owed a).hears = false := by
  cases owed <;> rfl

@[simp] theorem hears_deliverCommits (id : TransactionId) (n : Nat) (owed : List Claim)
    (failures : List CommitFailure) : (deliverCommits id n owed failures).hears = false := by
  cases owed <;> rfl

@[simp] theorem hears_ask (k n : Nat) : (ask k n).hears = false := by
  unfold ask
  split <;> rfl

@[simp] theorem hears_firstQuestion (n : Nat) : (Record.firstQuestion n).hears = false := by
  rcases n with _ | _ | n <;> rfl

theorem leads_of_hears {s : Stage} (h : s.hears = true) : s.leads = true := by
  cases s <;> first | rfl | cases h

theorem called_of_begins {s : Stage} {e : Event} (h : e ∈ s.begins) :
    ∃ j v, e = .called j v := by
  unfold begins at h
  split at h <;> first
    | exact ⟨_, _, List.mem_singleton.mp h⟩
    | cases h

theorem Heard.hears {s : Stage} {e : Event} (h : s.Heard e) : s.hears = true := by
  cases h <;> rfl

end Stage

section Moves

variable {rules : Rules} {r r' : Record} {a : Action} {s s' : Stage}

/-- An operation that has ended a call with an answer comes to count it. -/
theorem Advance.heard_of_ends (h : Advance rules r a s r' s') {e : Event} {cause : AbortCause}
    (he : e ∈ a.ends s) (hcause : e.cause? = some cause) : s'.Heard e := by
  cases h with
  | voteReturns =>
      obtain rfl := List.mem_singleton.mp he
      exact .vote
  | votePanics =>
      obtain rfl := List.mem_singleton.mp he
      exact .panic
  | soleReturns hends =>
      rw [hends] at he
      obtain rfl := List.mem_singleton.mp he
      exact .soleVote
  | solePanics hends =>
      rw [hends] at he
      obtain rfl := List.mem_singleton.mp he
      exact .solePanic
  | commitReturns | commitLost | commitPanics | abortReturns | abortPanics =>
      obtain rfl := List.mem_singleton.mp he
      cases hcause
  | _ => cases he

/-- An operation comes to count an answer by a call that ends in a vote. -/
theorem Advance.hears (h : Advance rules r a s r' s') (hs : s.Fits r) (hv : r'.phase = .voting)
    (hs' : s'.hears = true) :
    r' = r ∧ ∃ e, a.ends s = [e] ∧ s'.Heard e ∧
      ∀ j < e.position, r.registry.size ≠ 1 ∧ r.registry.progress? j = some .prepared := by
  have hbelow : ∀ {k n : Nat} {p : Participant}, (Stage.votePending k n p).Fits r →
      r.phase = .voting → ∀ j < k,
        r.registry.size ≠ 1 ∧ r.registry.progress? j = some .prepared := by
    rintro k n p ⟨rfl, h2, hk, hpoll⟩ hp j hj
    have hlt := Registry.lt_size_of_progress? hk
    obtain ⟨q, hq⟩ := Registry.lt_size_iff.mp (show j < r.registry.size by omega)
    have hprogress := hpoll.polledTo hp j q hq
    rw [if_pos hj] at hprogress
    exact ⟨by omega, hprogress ▸ hq⟩
  have hsole : ∀ {reply : Reply CombinedVote}, ∀ j < (Event.soleVoted reply).position,
      r.registry.size ≠ 1 ∧ r.registry.progress? j = some .prepared :=
    fun j hj => absurd hj (Nat.not_lt_zero j)
  cases h with
  | voteReturns => exact ⟨rfl, _, rfl, .vote, hbelow hs hv⟩
  | votePanics => exact ⟨rfl, _, rfl, .panic, hbelow hs hv⟩
  | soleReturns hends => exact ⟨rfl, _, hends, .soleVote, hsole⟩
  | solePanics hends => exact ⟨rfl, _, hends, .solePanic, hsole⟩
  -- these come after the decision
  | commitPanics =>
      rw [hs.1] at hv
      cases hv
  | abortPanics =>
      rw [hs.1] at hv
      cases hv
  | abort | abandon | abortReturns | rollForward | commitReturns | prepared | openVote =>
      simp at hs'
  | _ => cases hs'

/-- Counting such an answer aborts an undecided record, for the cause that belongs to the answer. -/
theorem Advance.counted (h : Advance rules r a s r' s') (hp : r.phase = .voting) {e : Event}
    {cause : AbortCause} (he : s.Heard e) (hcause : e.cause? = some cause) :
    r'.phase = .aborted ∧ r'.abortCause = some cause := by
  cases h with
  | refuse _ _ _ hrefuses =>
      refine ⟨rfl, ?_⟩
      cases hrefuses with
      | voted | failed | soleVoted | soleFailed =>
          cases he
          exact hcause
      | soleLapsed =>
          cases he
          cases hcause
  | interruptVote =>
      refine ⟨rfl, ?_⟩
      cases he <;> exact hcause
  | prepared | decideSole =>
      cases he
      cases hcause
  | late ha | interruptLate ha =>
      rw [hp] at ha
      cases ha
  | interruptCommit hc =>
      rw [hp] at hc
      cases hc
  | giveIn hask => rcases hask with ⟨k, n, rfl⟩ | rfl | rfl <;> cases he
  | _ => cases he

end Moves

/-! ## Hearing first, counting later -/

/-- Operation `i` has heard the answer while the vote was open, and all slots before the one that
has answered have voted for the commit. -/
def HeardWhileVoting (turns : List Turn) (i : Nat) (e : Event) : Prop :=
  (∃ u ∈ turns, u.action.operation? = some i ∧ u.before.record.phase = .voting ∧ e ∈ u.events) ∧
    ∀ j < e.position, .voted j (.returned (.answered .prepared)) ∈ history turns

theorem HeardWhileVoting.concat {turns : List Turn} {i : Nat} {e : Event}
    (h : HeardWhileVoting turns i e) (t : Turn) : HeardWhileVoting (turns ++ [t]) i e := by
  obtain ⟨⟨u, hu, htail⟩, hbelow⟩ := h
  refine ⟨⟨u, List.mem_append_left _ hu, htail⟩, fun j hj => ?_⟩
  rw [history_concat]
  exact List.mem_append_left _ (hbelow j hj)

namespace Transaction

/-- What the operations come to count is what they have heard. -/
structure Listened (x : Transaction) (turns : List Turn) : Prop where
  /-- Whoever comes to count an answer has heard it. -/
  heard : x.record.phase = .voting → ∀ i s, x.stage? i = some s → s.hears = true →
    ∃ e, s.Heard e ∧ HeardWhileVoting turns i e
  /-- Whoever has heard an answer that leads to an abort comes to count it next. -/
  counts : x.record.phase.isTerminal = false → ∀ u ∈ turns, ∀ i e cause,
    u.action.operation? = some i → u.before.record.phase = .voting → e ∈ u.events →
      e.cause? = some cause → ∃ s, x.stage? i = some s ∧ s.Heard e

variable {rules : Rules} {x y : Transaction} {turns : List Turn}

theorem listened_opened (policy : LeasePolicy) (id : TransactionId) (request : LeaseRequest)
    (now : Timestamp) : (opened policy id request now).Listened [] where
  heard h := by cases h
  counts h u hu := by cases hu

theorem Listened.begun (h : x.Listened turns) (q : Request) :
    (x.begun q).Listened (turns ++ [{ before := x, action := .begin q, after := x.begun q }]) where
  heard hp i s hs hhears := by
    rcases stage?_begun hs with hs | ⟨-, rfl⟩
    · obtain ⟨e, he, hheard⟩ := h.heard hp i s hs hhears
      exact ⟨e, he, hheard.concat _⟩
    · cases hhears
  counts hu u hmem i e cause hi hp he hcause := by
    rcases List.mem_append.mp hmem with hmem | hmem
    · obtain ⟨s, hs, hheard⟩ := h.counts hu u hmem i e cause hi hp he hcause
      exact ⟨s, stage?_begun_of_some hs, hheard⟩
    · rw [List.mem_singleton.mp hmem] at hi
      cases hi

/-- A slot that is prepared has voted for the commit. -/
theorem Accords.voted_of_prepared {events : List Event} (h : x.Accords events) {j : Nat}
    (hsize : x.record.registry.size ≠ 1) (hj : x.record.registry.progress? j = some .prepared) :
    .voted j (.returned (.answered .prepared)) ∈ events := by
  have hstanding : standing j events = .answered (.yes x.record.registry.size j) := h.free j _ hj
  rw [Event.yes_of_ne hsize] at hstanding
  exact mem_of_standing hstanding

section Moves

variable {a : Action} {i : Nat} {s s' : Stage} {r' : Record}

theorem Listened.moved_heard (h : x.Listened turns) (hx : x.Sound)
    (haccords : x.Accords (history turns)) (hi : a.operation? = some i)
    (hm : Advance rules x.record a s r' s') (hy : x.Moved i s r' s' y) (hp : r'.phase = .voting)
    {i' : Nat} {t : Stage} (ht : y.stage? i' = some t) (hhears : t.hears = true) :
    ∃ e, t.Heard e ∧
      HeardWhileVoting (turns ++ [{ before := x, action := a, after := y }]) i' e := by
  have hfits := hx.fits i s hy.stage
  rcases hy.stage?_cases ht with ⟨rfl, rfl⟩ | ⟨-, ht⟩
  · -- it hears the answer in this move
    obtain ⟨rfl, e, hends, he, hbelow⟩ := hm.hears hfits hp hhears
    refine ⟨e, he, ⟨_, List.mem_append_right _ (List.mem_singleton_self _), hi, hp, ?_⟩, ?_⟩
    · rw [hy.events hi, hends]
      exact List.mem_append_left _ (List.mem_singleton_self e)
    · intro j hj
      obtain ⟨hsize, hprogress⟩ := hbelow j hj
      rw [history_concat]
      exact List.mem_append_left _ (haccords.voted_of_prepared hsize hprogress)
  · -- it has heard it before, and then the vote was open already
    have hactive := (hx.fits i' t ht).ne_active (Stage.leads_of_hears hhears)
    have hvoting : x.record.phase = .voting := by
      rcases (hm.later hfits).phase with hsame | hmove
      · rw [← hsame, hp]
      · rw [hp] at hmove
        cases hq : x.record.phase with
        | active => exact absurd hq hactive
        | voting => rfl
        | committed | aborted =>
            rw [hq] at hmove
            cases hmove
    obtain ⟨e, he, hheard⟩ := h.heard hvoting i' t ht hhears
    exact ⟨e, he, hheard.concat _⟩

theorem Listened.moved_counts (h : x.Listened turns) (hx : x.Sound) (hi : a.operation? = some i)
    (hm : Advance rules x.record a s r' s') (hy : x.Moved i s r' s' y)
    (hu : r'.phase.isTerminal = false) {u : Turn}
    (hmem : u ∈ turns ++ [{ before := x, action := a, after := y }]) {i' : Nat} {e : Event}
    {cause : AbortCause} (hi' : u.action.operation? = some i')
    (hp : u.before.record.phase = .voting) (he : e ∈ u.events) (hcause : e.cause? = some cause) :
    ∃ t, y.stage? i' = some t ∧ t.Heard e := by
  have hfits := hx.fits i s hy.stage
  rcases List.mem_append.mp hmem with hmem | hmem
  · have hbefore : x.record.phase.isTerminal = false := by
      rw [← Bool.not_eq_true]
      intro hd
      rw [(hm.later hfits).phase_eq hd, hd] at hu
      cases hu
    obtain ⟨t, ht, hheard⟩ := h.counts hbefore u hmem i' e cause hi' hp he hcause
    by_cases hne : i' = i
    · -- if it moves then it counts the answer, and the record is decided
      subst hne
      obtain rfl := Option.some.inj (hy.stage.symm.trans ht)
      have hactive := hfits.ne_active (Stage.leads_of_hears hheard.hears)
      have hvoting := Phase.eq_voting hactive hbefore
      rw [(hm.counted hvoting hheard hcause).1] at hu
      cases hu
    · exact ⟨t, (hy.stage?_of_ne hne).trans ht, hheard⟩
  · obtain rfl := List.mem_singleton.mp hmem
    obtain rfl := Option.some.inj (hi.symm.trans hi')
    rw [hy.events hi, List.mem_append] at he
    rcases he with he | he
    · exact ⟨s', hy.stage?_self, hm.heard_of_ends he hcause⟩
    · -- a call that goes out is no answer
      obtain ⟨j, v, rfl⟩ := Stage.called_of_begins he
      cases hcause

theorem Listened.moved (h : x.Listened turns) (hx : x.Sound) (haccords : x.Accords (history turns))
    (hi : a.operation? = some i) (hm : Advance rules x.record a s r' s')
    (hy : x.Moved i s r' s' y) :
    y.Listened (turns ++ [{ before := x, action := a, after := y }]) where
  heard hp i' t ht hhears := by
    rw [hy.record] at hp
    exact h.moved_heard hx haccords hi hm hy hp ht hhears
  counts hu u hmem i' e cause hi' hp he hcause := by
    rw [hy.record] at hu
    exact h.moved_counts hx hi hm hy hu hmem hi' hp he hcause

end Moves

end Transaction

theorem Run.listened {rules : Rules} {x₀ x : Transaction} {turns : List Turn} (h₀ : x₀.Sound)
    (haccords : x₀.Accords []) (hstart : x₀.Listened []) (h : Run rules x₀ turns x) :
    x.Listened turns :=
  Run.invariant_accords (P := fun turns x => x.Listened turns) h₀ haccords hstart
    (fun _ _ q _ _ ih => ih.begun q)
    (fun _ _ _ _ _ _ _ _ hx hacc ih hi hm hy => ih.moved hx hacc hi hm hy) h

/-! ## The turn that aborts -/

/-- What an operation that comes to an undecided record has as a ground to abort it. -/
def Turn.Grounds (t : Turn) (past : List Turn) (i : Nat) (clock : Readings) : AbortCause → Prop
  | .requested => t.before.stage? i = some (.requested .abort) ∧
    t.before.record.lease.hasLapsed clock.first = false
  | .leaseCancelled => t.before.stage? i = some (.requested .cancel) ∧
    t.before.record.lease.hasLapsed clock.first = false ∧ t.after.record.phase = .aborted
  | .leaseExpired => t.after.record.lease.status = .expired
  | cause => ∃ e, HeardWhileVoting past i e ∧ e.cause? = some cause

/-- The status of the lease tells the two causes that come from it. -/
theorem Record.LeaseAgrees.cancelled_iff {r : Record} (h : r.LeaseAgrees) :
    r.lease.status = .cancelled ↔ r.abortCause = some .leaseCancelled := by
  rw [h]
  rcases r.abortCause with _ | cause
  · simp
  · cases cause <;> simp [AbortCause.leaseStatus]

theorem Record.LeaseAgrees.expired_iff {r : Record} (h : r.LeaseAgrees) :
    r.lease.status = .expired ↔ r.abortCause = some .leaseExpired := by
  rw [h]
  rcases r.abortCause with _ | cause
  · simp
  · cases cause <;> simp [AbortCause.leaseStatus]

/-- A visit that aborts a record for its lease has found the lease lapsed, and marks it. -/
theorem Stage.Aborts.lapsed {r : Record} {clock : Readings} {s : Stage} {lease : Lease}
    {now : Timestamp} (h : s.Aborts r clock lease .leaseExpired now) :
    r.lease.hasLapsed clock.first = true ∧ lease = r.lease.markExpired ∧ now = clock.second := by
  cases h with
  | forfeits hforfeits =>
      cases hforfeits with
      | lapsed hl => exact ⟨hl, rfl, rfl⟩
  | refuses _ hrefuses =>
      cases hrefuses with
      | soleLapsed hl => exact ⟨hl, rfl, rfl⟩
  | lapses _ hl => exact ⟨hl, rfl, rfl⟩

/-- A record that is aborted for its lease was past the expiration. -/
theorem Stage.Aborts.hasPassed {r : Record} {clock : Readings} {s : Stage} {lease : Lease}
    {now : Timestamp} (h : s.Aborts r clock lease .leaseExpired now)
    (hsteady : clock.second = clock.first) : lease.expiration.hasPassed now = true := by
  obtain ⟨hl, rfl, rfl⟩ := h.lapsed
  rw [Lease.expiration_markExpired, hsteady]
  exact Lease.hasPassed_of_hasLapsed hl

/-- A request that aborts a record whose lease has not lapsed is an abort or a cancellation. -/
theorem Stage.Aborts.of_requested {r : Record} {clock : Readings} {q : Request} {lease : Lease}
    {cause : AbortCause} {now : Timestamp} (h : (Stage.requested q).Aborts r clock lease cause now)
    (hl : r.lease.hasLapsed clock.first = false) :
    (q = .abort ∧ cause = .requested) ∨ (q = .cancel ∧ cause = .leaseCancelled) := by
  cases h with
  | forfeits hforfeits =>
      cases hforfeits with
      | lapsed hlapsed =>
          rw [hl] at hlapsed
          cases hlapsed
      | requested => exact .inl ⟨rfl, rfl⟩
      | cancelled => exact .inr ⟨rfl, rfl⟩
  | refuses _ hrefuses => cases hrefuses

/-- An abort of an undecided record is accepted. -/
theorem Advance.accepts_abort {rules : Rules} {r r' : Record} {a : Action} {s s' : Stage}
    (h : Advance rules r a s r' s') (hs : s = .requested .abort)
    (hu : r.phase.isTerminal = false) : r'.phase = .aborted := by
  cases h with
  | abort => rfl
  | answer hadmits htrue =>
      obtain rfl := Stage.requested.inj hs
      rcases hadmits.abort_cases htrue with ⟨-, hp⟩ | ⟨-, hp⟩ <;> rw [hp] at hu <;> cases hu
  | @wait _ _ w => cases w <;> cases hs
  | giveIn hask => rcases hask with ⟨k, n, rfl⟩ | rfl | rfl <;> cases hs
  | refuse _ _ hsettles | late _ _ hsettles => cases hsettles <;> cases hs
  | _ => cases hs

section Turns

variable {rules : Rules} {x₀ x : Transaction} {turns past rest : List Turn} {t : Turn}

/-- An aborted record was aborted in a visit, and is as this visit has left it. -/
theorem Run.abort_turn (h₀ : x₀.Sound) {cause : AbortCause}
    (hstart : x₀.record.abortCause ≠ some cause) (h : Run rules x₀ turns x)
    (hcause : x.record.abortCause = some cause) :
    ∃ past t rest, turns = past ++ t :: rest ∧
      ∃ i s clock lease now, t.action = .visit i clock ∧ t.before.stage? i = some s ∧
        t.before.record.phase.isTerminal = false ∧
        s.Aborts t.before.record clock lease cause now ∧ t.after.record.phase = .aborted ∧
        t.after.record.abortCause = some cause ∧ x.record.lease = lease ∧
        x.record.settledAt = some now := by
  obtain ⟨past, t, rest, rfl, hbefore, hafter, -, ht, ht', hrest, i, s, s', hi, hm, hy⟩ :=
    h.crossing_move (P := fun r => r.abortCause = some cause) h₀ hstart hcause
  have hu : t.before.record.phase.isTerminal = false := by
    rw [← Bool.not_eq_true]
    intro hd
    rw [((ht.later hm hy).decided hd).1] at hafter
    exact hbefore hafter
  have haborted : t.after.record.phase = .aborted := ht'.shape.cause.mp (by rw [hafter]; rfl)
  obtain ⟨i', clock, lease, cause', now, ha, haborts, hlease, hcause', hsettled⟩ :=
    hm.aborts (Phase.ne_aborted_of_undecided hu) haborted
  rw [ha] at hi
  obtain rfl := Option.some.inj hi
  obtain rfl := Option.some.inj (hafter.symm.trans hcause')
  obtain ⟨-, -, hsettled', hlease', -⟩ := hrest.decided ht' (by rw [haborted]; rfl)
  exact ⟨past, t, rest, rfl, _, s, clock, lease, now, ha, hy.stage, hu, haborts, haborted, hafter,
    hlease'.trans hlease, hsettled'.trans hsettled⟩

/-- A visit that aborts has grounds. -/
theorem Stage.Aborts.grounds {i : Nat} {s : Stage} {clock : Readings} {lease : Lease}
    {cause : AbortCause} {now : Timestamp} (h : s.Aborts t.before.record clock lease cause now)
    (hs : t.before.stage? i = some s) (hlistened : t.before.Listened past)
    (haborted : t.after.record.phase = .aborted)
    (hexpired : cause = .leaseExpired → t.after.record.lease.status = .expired) :
    t.Grounds past i clock cause := by
  cases h with
  | forfeits hforfeits =>
      cases hforfeits with
      | lapsed => exact hexpired rfl
      | requested hl => exact ⟨hs, hl⟩
      | cancelled hl => exact ⟨hs, hl, haborted⟩
  | refuses hp hrefuses =>
      cases hrefuses with
      | voted | failed | soleVoted | soleFailed =>
          obtain ⟨e, he, hheard⟩ := hlistened.heard hp i _ hs rfl
          cases he
          exact ⟨_, hheard, rfl⟩
      | soleLapsed => exact hexpired rfl
  | lapses => exact hexpired rfl
  | interrupts hp =>
      obtain ⟨e, he, hheard⟩ := hlistened.heard hp i _ hs rfl
      cases he <;> exact ⟨_, hheard, rfl⟩

section Visits

variable {i : Nat} {clock : Readings} {counts : OutcomeCounts}

/-- An operation that has heard an answer which leads to an abort counts it in its next visit. -/
theorem Transaction.Listened.abortCause_eq (h : t.before.Listened past) (ht : t.before.Sound)
    (hstep : t.before.step rules t.action = some (t.after, counts))
    (hi : t.action.operation? = some i) (hu : t.before.record.phase.isTerminal = false)
    {e : Event} {cause : AbortCause} (he : HeardWhileVoting past i e)
    (hcause : e.cause? = some cause) : t.after.record.abortCause = some cause := by
  obtain ⟨⟨u, hmem, hui, hup, hevent⟩, -⟩ := he
  obtain ⟨s, hs, hheard⟩ := h.counts hu u hmem i e cause hui hup hevent hcause
  obtain ⟨r', s', hm, hy⟩ := ht.advance hstep hi hs
  have hactive := (ht.fits i s hs).ne_active (Stage.leads_of_hears hheard.hears)
  rw [hy.record]
  exact (hm.counted (Phase.eq_voting hactive hu) hheard hcause).2

/-- A request that aborts an undecided record whose lease has not lapsed. -/
theorem Transaction.Sound.requested_cases (ht : t.before.Sound)
    (hstep : t.before.step rules t.action = some (t.after, counts))
    (ha : t.action = .visit i clock) {q : Request} (hs : t.before.stage? i = some (.requested q))
    (hu : t.before.record.phase.isTerminal = false)
    (hl : t.before.record.lease.hasLapsed clock.first = false)
    (haborted : t.after.record.phase = .aborted) :
    (q = .abort ∧ t.after.record.abortCause = some .requested) ∨
      (q = .cancel ∧ t.after.record.abortCause = some .leaseCancelled) := by
  obtain ⟨r', s', hm, hy⟩ := ht.advance hstep (by rw [ha]; rfl) hs
  rw [hy.record] at haborted ⊢
  obtain ⟨i', clock', lease, cause, now, ha', haborts, -, hcause, -⟩ :=
    hm.aborts (Phase.ne_aborted_of_undecided hu) haborted
  rw [ha] at ha'
  obtain ⟨rfl, rfl⟩ := Action.visit.inj ha'
  rcases haborts.of_requested hl with ⟨hq, rfl⟩ | ⟨hq, rfl⟩
  · exact .inl ⟨hq, hcause⟩
  · exact .inr ⟨hq, hcause⟩

/-- An operation that comes to an undecided record with grounds aborts it. -/
theorem Turn.Grounds.abortCause_eq {cause : AbortCause} (h : t.Grounds past i clock cause)
    (ht : t.before.Sound) (hlistened : t.before.Listened past)
    (hagrees : t.after.record.LeaseAgrees)
    (hstep : t.before.step rules t.action = some (t.after, counts))
    (ha : t.action = .visit i clock) (hu : t.before.record.phase.isTerminal = false) :
    t.after.record.abortCause = some cause := by
  have hi : t.action.operation? = some i := by rw [ha]; rfl
  cases cause with
  | requested =>
      obtain ⟨hs, hl⟩ := h
      have haborted : t.after.record.phase = .aborted := by
        obtain ⟨r', s', hm, hy⟩ := ht.advance hstep hi hs
        rw [hy.record]
        exact hm.accepts_abort rfl hu
      rcases ht.requested_cases hstep ha hs hu hl haborted with ⟨-, hcause⟩ | ⟨hq, -⟩
      · exact hcause
      · cases hq
  | leaseCancelled =>
      obtain ⟨hs, hl, haborted⟩ := h
      rcases ht.requested_cases hstep ha hs hu hl haborted with ⟨hq, -⟩ | ⟨-, hcause⟩
      · cases hq
      · exact hcause
  | leaseExpired => exact hagrees.expired_iff.mp h
  | votedAbort | prepareFailed | interrupted =>
      obtain ⟨e, he, hcause⟩ := h
      exact hlistened.abortCause_eq ht hstep hi hu he hcause

end Visits

end Turns

/-! ## The main result -/

/-- Whether the answer to a question is on its way or about to be counted. -/
def Stage.polls : Stage → Bool
  | .votePending .. | .voteHeard .. | .solePending .. | .soleHeard _ => true
  | _ => false

/-- **The cause of an abort is true.** However the operations on a new record interleave, whatever
the participants answer and wherever the clock goes:

* a record has a cause just when it is aborted;
* it has a cause just when an operation has come to the undecided record with this ground
  (`Turn.Grounds`). For a vote or a failure, the operation has heard it from the slot while the vote
  was open, after the votes of all earlier slots for the commit. For an interruption, a question has
  panicked in this way. For a request, the operation is an abort that has found the lease not
  lapsed;
* the lease is cancelled, or expired, just when that is the cause. If the clock stands still during
  each visit, an expired lease was past its expiration at the time of the decision;
* an answer that is heard or counted when the vote is not open any more leaves the cause alone. -/
theorem abort_cause_true {rules : Rules} {id : TransactionId} {request : LeaseRequest}
    {now : Timestamp} {turns : List Turn} {x : Transaction}
    (h : Run rules (Transaction.opened rules.lease id request now) turns x) :
    (x.record.abortCause.isSome = true ↔ x.record.phase = .aborted) ∧
    (∀ cause, x.record.abortCause = some cause ↔
      ∃ past t rest i clock, turns = past ++ t :: rest ∧ t.action = .visit i clock ∧
        t.before.record.phase.isTerminal = false ∧ t.Grounds past i clock cause) ∧
    (x.record.lease.status = .cancelled ↔ x.record.abortCause = some .leaseCancelled) ∧
    (x.record.lease.status = .expired ↔ x.record.abortCause = some .leaseExpired) ∧
    ((∀ t ∈ turns, ∀ i clock, t.action = .visit i clock → ∃ now, clock = .steady now) →
      x.record.abortCause = some .leaseExpired →
      ∃ now, x.record.settledAt = some now ∧ x.record.lease.expiration.hasPassed now = true) ∧
    (∀ past t rest, turns = past ++ t :: rest → ∀ i s, t.action.operation? = some i →
      t.before.stage? i = some s → s.polls = true → t.before.record.phase ≠ .voting →
      x.record.abortCause = t.before.record.abortCause) := by
  have h₀ := Transaction.sound_opened rules.lease id request now
  have haccords := Transaction.accords_opened rules.lease id request now
  have hlistened := Transaction.listened_opened rules.lease id request now
  have hagrees := h.leaseAgrees h₀ rfl
  have hstart : ∀ cause,
      (Transaction.opened rules.lease id request now).record.abortCause ≠ some cause :=
    fun cause h => by cases h
  refine ⟨(h.sound h₀).shape.cause, fun cause => ⟨fun hcause => ?_, ?_⟩, hagrees.cancelled_iff,
    hagrees.expired_iff, fun hsteady hcause => ?_, ?_⟩
  · obtain ⟨past, t, rest, rfl, i, s, clock, lease, now, ha, hs, hu, haborts, haborted, hafter,
      -⟩ := h.abort_turn h₀ (hstart cause) hcause
    obtain ⟨hpast, ⟨counts, hstep⟩, hrest⟩ := h.cut
    have hagrees' := (hpast.next hstep).leaseAgrees h₀ rfl
    refine ⟨past, t, rest, i, clock, rfl, ha, hu, ?_⟩
    refine haborts.grounds hs (hpast.listened h₀ haccords hlistened) haborted ?_
    rintro rfl
    exact hagrees'.expired_iff.mpr hafter
  · rintro ⟨past, t, rest, i, clock, rfl, ha, hu, hgrounds⟩
    obtain ⟨hpast, ⟨counts, hstep⟩, hrest⟩ := h.cut
    have ht := hpast.sound h₀
    have hagrees' := (hpast.next hstep).leaseAgrees h₀ rfl
    have hcause := hgrounds.abortCause_eq ht (hpast.listened h₀ haccords hlistened) hagrees' hstep
      ha hu
    have haborted : t.after.record.phase = .aborted :=
      (ht.step hstep).shape.cause.mp (by rw [hcause]; rfl)
    rw [(hrest.decided (ht.step hstep) (by rw [haborted]; rfl)).2.1, hcause]
  · obtain ⟨past, t, rest, rfl, i, s, clock, lease, now, ha, -, -, haborts, -, -, hlease,
      hsettled⟩ := h.abort_turn h₀ (hstart _) hcause
    obtain ⟨now', rfl⟩ :=
      hsteady t (List.mem_append_right _ (List.mem_cons_self ..)) i clock ha
    refine ⟨now, hsettled, ?_⟩
    rw [hlease]
    exact haborts.hasPassed rfl
  · rintro past t rest rfl i s hi hs hpolls hp
    obtain ⟨hpast, ⟨counts, hstep⟩, hrest⟩ := h.cut
    have ht := hpast.sound h₀
    have hactive : t.before.record.phase ≠ .active :=
      (ht.fits i s hs).ne_active (by cases s <;> first | rfl | cases hpolls)
    have hd := Phase.isTerminal_of_ne hactive hp
    have hl := ht.step_later hstep
    rw [(hrest.decided (ht.step hstep) (by rw [hl.phase_eq hd]; exact hd)).2.1, (hl.decided hd).1]

/-- The second of two parties votes for the abort. So the cause is its vote, which was heard after
that of the first party for the commit. -/
theorem abort_cause_true_of_two :
    ∃ turns x past t rest i clock,
      Run { lease := .standard, rollForward := .standard }
        (Transaction.opened .standard ⟨1⟩ .forever .epoch) turns x ∧
      x.record.abortCause = some (.votedAbort 1) ∧
      turns = past ++ t :: rest ∧ t.Grounds past i clock (.votedAbort 1) := by
  have hrun : Run { lease := .standard, rollForward := .standard }
      (Transaction.opened .standard ⟨1⟩ .forever .epoch) _ _ :=
    Run.of_play [.begin (.join { key := 0, combines := false }), .visit 0 (.steady .epoch),
      .begin (.join { key := 1, combines := false }), .visit 1 (.steady .epoch),
      .begin .commit, .visit 2 (.steady .epoch), .visit 2 (.steady .epoch),
      .vote 2 (.returned (.answered .prepared)), .visit 2 (.steady .epoch),
      .visit 2 (.steady .epoch), .vote 2 (.returned (.answered .abort)),
      .visit 2 (.steady .epoch)] rfl
  obtain ⟨-, hgrounds, -⟩ := abort_cause_true hrun
  obtain ⟨past, t, rest, i, clock, hcut, -, -, hground⟩ := (hgrounds (.votedAbort 1)).mp rfl
  exact ⟨_, _, past, t, rest, i, clock, hrun, rfl, hcut, hground⟩

end LeasedCommit
