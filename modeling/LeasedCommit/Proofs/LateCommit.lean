import LeasedCommit.Proofs.Grounds

set_option autoImplicit false

/-! # Commits that come too late

The only party of a transaction can commit while it is asked, before the record is decided. Others
can abort the record until the operation that has asked comes to count this answer; then the commit
has come too late, and the party is owed an abort. `Turn.Overtakes` says what such an abort can be:
somebody else has asked for it, or has given up the lease, or the lease is found lapsed. It happens
while the operation has the question out or the answer in hand (`Run.asksSole_at`), so nobody can
hold it against the operation itself. -/

namespace LeasedCommit

/-! ## The answer to a question -/

/-- Whether a question ends with this event. -/
def Event.isAnswer : Event → Bool
  | .voted .. | .soleVoted _ => true
  | .called .. | .told .. => false

@[simp] theorem Event.isAnswer_called (j : Nat) (v : Verb) : (called j v).isAnswer = false := rfl

theorem Event.Answers.isAnswer {ask : Verb} {j : Nat} {e : Event} (h : e.Answers ask j) :
    e.isAnswer = true := by
  cases e with
  | voted | soleVoted => rfl
  | called | told => exact h.elim

theorem filter_isAnswer_callTo (j : Nat) (v : Verb) (reply : Option (Reply Unit)) :
    (callTo j v reply).filter Event.isAnswer = [] := by
  cases reply <;> rfl

theorem filter_isAnswer_lostCommits (j : Nat) (lost : List String) :
    (lostCommits j lost).filter Event.isAnswer = [] := by
  rw [List.filter_eq_nil_iff]
  intro e he
  obtain ⟨m, -, he⟩ := List.mem_flatMap.mp he
  exact List.filter_eq_nil_iff.mp (filter_isAnswer_callTo ..) e he

/-- A conversation has one answer at most, and it is one to its question. -/
theorem Protocol.one_answer {ask : Verb} {j : Nat} {l : List Event} (h : Protocol ask j l) :
    l.filter Event.isAnswer = [] ∨
      ∃ e, l.filter Event.isAnswer = [e] ∧ e.Answers ask j ∧ .called j ask ∈ l := by
  cases h with
  | nothing | question => exact .inl rfl
  | abort reply => exact .inl (filter_isAnswer_callTo ..)
  | answer e he => exact .inr ⟨e, by simp [he.isAnswer], he, List.mem_cons_self ..⟩
  | abortAfter e reply he =>
      refine .inr ⟨e, ?_, he, List.mem_cons_self ..⟩
      simp [he.isAnswer, filter_isAnswer_callTo]
  | commits lost reply hask =>
      have hvote : Event.Answers ask j (.voted j (.returned (.answered .prepared))) := ⟨hask, rfl⟩
      refine .inr ⟨_, ?_, hvote, List.mem_cons_self ..⟩
      simp [hvote.isAnswer, filter_isAnswer_callTo, filter_isAnswer_lostCommits]

namespace Transaction

variable {x : Transaction} {events : List Event}

/-- An answer that was heard is the only one of its slot, and the question was called for. -/
theorem Accords.answer (h : x.Accords events) {e : Event} (he : e ∈ events)
    (hanswer : e.isAnswer = true) :
    (∃ ask : Verb, e.Answers ask e.position ∧ ask.Backed x.record) ∧
      ∀ e' ∈ events, e'.isAnswer = true → e'.position = e.position → e' = e := by
  obtain ⟨ask, -, hprotocol⟩ := protocol_of_standing (h.unbroken e.position)
  have hmem : ∀ e' ∈ events, e'.isAnswer = true → e'.position = e.position →
      e' ∈ (eventsAt e.position events).filter Event.isAnswer := by
    intro e' he' hanswer' hposition
    simp [eventsAt, he', hanswer', hposition]
  rcases hprotocol.one_answer with hnone | ⟨e₀, hone, hanswers, hcalled⟩
  · have := hmem e he hanswer rfl
    rw [hnone] at this
    cases this
  · rw [hone] at hmem
    obtain rfl := List.mem_singleton.mp (hmem e he hanswer rfl)
    refine ⟨⟨ask, hanswers, h.calls _ _ (mem_of_mem_eventsAt hcalled)⟩, ?_⟩
    exact fun e' he' hanswer' hposition => List.mem_singleton.mp (hmem e' he' hanswer' hposition)

/-- The combined request is put to one party alone, and comes back once. -/
theorem Accords.soleVoted (h : x.Accords events) {reply : Reply CombinedVote}
    (he : .soleVoted reply ∈ events) :
    x.record.registry.size = 1 ∧ ∀ reply', .soleVoted reply' ∈ events → reply' = reply := by
  obtain ⟨⟨ask, hanswers, hbacked⟩, hunique⟩ := h.answer he rfl
  obtain ⟨rfl, -⟩ := hanswers
  exact ⟨hbacked.2, fun reply' he' => Event.soleVoted.inj (hunique _ he' rfl rfl)⟩

/-- A vote comes from one of several parties. -/
theorem Accords.voted (h : x.Accords events) {k : Nat} {reply : Reply Vote}
    (he : .voted k reply ∈ events) : 2 ≤ x.record.registry.size := by
  obtain ⟨⟨ask, hanswers, hbacked⟩, -⟩ := h.answer he rfl
  obtain ⟨rfl, -⟩ := hanswers
  exact hbacked.2

end Transaction

/-! ## The operation that asks the only party -/

namespace Stage

/-- Whether an operation has the combined request out, or has heard the commit that answers it and
not counted it yet. -/
def asksSole : Stage → Bool
  | .solePending .. | .soleHeard (.answered .committed) => true
  | _ => false

@[simp] theorem asksSole_deliverAborts (owner : Bool) (owed : List Claim) (a : Answer) :
    (deliverAborts owner owed a).asksSole = false := by
  cases owed <;> rfl

@[simp] theorem asksSole_deliverCommits (id : TransactionId) (n : Nat) (owed : List Claim)
    (failures : List CommitFailure) : (deliverCommits id n owed failures).asksSole = false := by
  cases owed <;> rfl

@[simp] theorem asksSole_ask (k n : Nat) : (ask k n).asksSole = false := by
  unfold ask
  split <;> rfl

@[simp] theorem asksSole_firstQuestion (n : Nat) :
    (Record.firstQuestion n).asksSole = false := by
  rcases n with _ | _ | n <;> rfl

theorem leads_of_asksSole {s : Stage} (h : s.asksSole = true) : s.leads = true := by
  cases s <;> first | rfl | cases h

end Stage

section Moves

variable {rules : Rules} {r r' : Record} {a : Action} {s s' : Stage}

/-- Nobody puts the combined request to the party of an aborted record. -/
theorem Advance.asksSole_of_aborted (h : Advance rules r a s r' s') (hp : r'.phase = .aborted)
    (hs' : s'.asksSole = true) : s.asksSole = true := by
  cases h with
  | soleGoesOn | soleReturns => rfl
  | askSole hv =>
      rw [show r.phase = .aborted from hp] at hv
      cases hv
  | openVote | prepared | abort | abandon | abortReturns | rollForward | commitReturns =>
      simp at hs'
  | abortPanics => split at hs' <;> cases hs'
  | _ => cases hs'

/-- Once the commit is counted the record is decided. -/
theorem Advance.decides_of_soleHeard (h : Advance rules r a s r' s')
    (hs : s = .soleHeard (.answered .committed)) : r'.phase.isTerminal = true := by
  cases h with
  | refuse | decideSole => rfl
  | late ha =>
      show r.phase.isTerminal = true
      rw [ha]
      rfl
  | giveIn hask => rcases hask with ⟨k, n, rfl⟩ | rfl | rfl <;> cases hs
  | _ => cases hs

end Moves

section Runs

variable {rules : Rules} {x y : Transaction} {a : Action} {turns : List Turn} {i : Nat}
  {s s' : Stage}

theorem Transaction.Sound.asksSole_of_aborted {counts : OutcomeCounts} (hx : x.Sound)
    (hstep : x.step rules a = some (y, counts)) (hp : y.record.phase = .aborted)
    (hs' : y.stage? i = some s') (hasks : s'.asksSole = true) :
    ∃ s, x.stage? i = some s ∧ s.asksSole = true := by
  rcases Transaction.step_cases hx.shape hx.fits hstep with
    ⟨q, -, rfl⟩ | ⟨k, t, r', t', -, hm, hy⟩
  · rcases stage?_begun hs' with hs | ⟨-, rfl⟩
    · exact ⟨s', hs, hasks⟩
    · cases hasks
  · rcases hy.stage?_cases hs' with ⟨rfl, rfl⟩ | ⟨-, hs⟩
    · exact ⟨t, hy.stage, hm.asksSole_of_aborted (hy.record ▸ hp) hasks⟩
    · exact ⟨s', hs, hasks⟩

/-- Whoever asks the only party of an aborted record has asked before it was aborted. -/
theorem Run.asksSole_of_aborted (hx : x.Sound) (h : Run rules x turns y)
    (hp : x.record.phase = .aborted) (hs' : y.stage? i = some s') (hasks : s'.asksSole = true) :
    ∃ s, x.stage? i = some s ∧ s.asksSole = true := by
  induction h generalizing s' with
  | start => exact ⟨s', hs', hasks⟩
  | next hrun hstep ih =>
      have haborted := ((hrun.next hstep).decided hx (by rw [hp]; rfl)).1.trans hp
      obtain ⟨s, hs, hasks⟩ := (hrun.sound hx).asksSole_of_aborted hstep haborted hs' hasks
      exact ih hs hasks

/-- Whoever has heard the commit of the only party counts it before the record is decided, or not
at all. -/
theorem Run.soleHeard_of_undecided (hx : x.Sound) (h : Run rules x turns y)
    (hs : x.stage? i = some (.soleHeard (.answered .committed)))
    (hu : y.record.phase.isTerminal = false) :
    y.stage? i = some (.soleHeard (.answered .committed)) := by
  induction h with
  | start => exact hs
  | @next turns y z a counts hrun hstep ih =>
      have hy := hrun.sound hx
      have hbefore : y.record.phase.isTerminal = false := by
        rw [← Bool.not_eq_true]
        intro hd
        rw [(hy.step_later hstep).phase_eq hd, hd] at hu
        cases hu
      rcases Transaction.step_cases hy.shape hy.fits hstep with
        ⟨q, -, rfl⟩ | ⟨k, t, r', t', -, hm, hz⟩
      · exact Transaction.stage?_begun_of_some (ih hbefore)
      · by_cases hne : i = k
        · subst hne
          obtain rfl := Option.some.inj (hz.stage.symm.trans (ih hbefore))
          rw [hz.record, hm.decides_of_soleHeard rfl] at hu
          cases hu
        · rw [hz.stage?_of_ne hne]
          exact ih hbefore

end Runs

/-! ## The turn that overtakes a commit -/

/-- In this turn an undecided record is aborted, and not because of what operation `i` has heard:
another operation asks for it or gives up the lease, or the lease has lapsed. -/
inductive Turn.Overtakes (t : Turn) (i : Nat) : AbortCause → Prop
  | request {k : Nat} {clock : Readings} : k ≠ i → t.action = .visit k clock →
    t.before.stage? k = some (.requested .abort) → Overtakes t i .requested
  | cancellation {k : Nat} {clock : Readings} : k ≠ i → t.action = .visit k clock →
    t.before.stage? k = some (.requested .cancel) → Overtakes t i .leaseCancelled
  | lapse {k : Nat} {clock : Readings} : t.action = .visit k clock →
    t.before.record.lease.hasLapsed clock.first = true → Overtakes t i .leaseExpired

section Turns

variable {rules : Rules} {x₀ x : Transaction} {turns past rest : List Turn} {t u : Turn} {i : Nat}
  {q : Participant}

/-- After its commit call the operation has heard the commit of the only party. -/
theorem Transaction.Sound.soleHeard {counts : OutcomeCounts} (ht : t.before.Sound)
    (hstep : t.before.step rules t.action = some (t.after, counts))
    (ha : t.action = .acknowledge i (.returned (.answered ())))
    (hs : t.before.stage? i = some (.solePending q .committing)) :
    t.after.stage? i = some (.soleHeard (.answered .committed)) := by
  obtain ⟨r', s', hm, hy⟩ := ht.advance hstep (by rw [ha]; rfl) hs
  rw [hy.stage?_self]
  rw [ha] at hm
  cases hm with
  | soleReturns hends =>
      obtain ⟨rfl⟩ := Event.soleVoted.inj (List.singleton_inj.mp hends)
      rfl
  | solePanics hends => cases hends

/-- The operation that hears the commit of the only party has its question out, or the answer in
hand, in the turn in which the record is aborted. -/
theorem Run.asksSole_at (h₀ : x₀.Sound) (h : Run rules x₀ (past ++ u :: rest) x)
    (hu : u.before.record.phase.isTerminal = false) (hu' : u.after.record.phase = .aborted)
    (ht : t ∈ past ++ u :: rest) (ha : t.action = .acknowledge i (.returned (.answered ())))
    (hs : t.before.stage? i = some (.solePending q .committing)) :
    ∃ s, u.before.stage? i = some s ∧ s.asksSole = true := by
  obtain ⟨hpast, ⟨counts, hstep⟩, hrest⟩ := h.cut
  have hub := hpast.sound h₀
  have hua := hub.step hstep
  rcases List.mem_append.mp ht with ht | ht
  · -- the commit is heard first, and is not counted as long as the record is undecided
    obtain ⟨before, between, rfl⟩ := List.append_of_mem ht
    obtain ⟨hbefore, ⟨_, hheard⟩, hbetween⟩ := hpast.cut
    have htb := hbefore.sound h₀
    exact ⟨_, hbetween.soleHeard_of_undecided (htb.step hheard) (htb.soleHeard hheard ha hs) hu,
      rfl⟩
  rcases List.mem_cons.mp ht with rfl | ht
  · exact hub.asksSole_of_aborted hstep hu' (hub.soleHeard hstep ha hs) rfl
  · -- the record is aborted first, and whoever has its question out then has asked before
    obtain ⟨between, after, rfl⟩ := List.append_of_mem ht
    obtain ⟨hbetween, -, -⟩ := hrest.cut
    obtain ⟨s, hs', hasks⟩ := hbetween.asksSole_of_aborted hua hu' hs rfl
    exact hub.asksSole_of_aborted hstep hu' hs' hasks

/-- **What overtakes a commit.** If the only party has committed in the combined request and the
record is aborted even so, then it was aborted while the vote was open and the operation that had
asked had its question out or the answer in hand: by another operation, or because its lease had
lapsed. -/
theorem Run.overtaken (h₀ : x₀.Sound) (haccords : x₀.Accords []) (hlistened : x₀.Listened [])
    (hagrees : x₀.record.LeaseAgrees) (hcause₀ : x₀.record.abortCause = none)
    (h : Run rules x₀ turns x) (ht : t ∈ turns)
    (ha : t.action = .acknowledge i (.returned (.answered ())))
    (hs : t.before.stage? i = some (.solePending q .committing)) {cause : AbortCause}
    (hcause : x.record.abortCause = some cause) :
    ∃ past u rest, turns = past ++ u :: rest ∧ u.before.record.phase = .voting ∧
      u.after.record.phase = .aborted ∧ u.after.record.abortCause = some cause ∧
      (∃ s, u.before.stage? i = some s ∧ s.asksSole = true) ∧ u.Overtakes i cause := by
  have hcommitted : .soleVoted (.returned (.answered .committed)) ∈ history turns := by
    refine List.mem_flatMap.mpr ⟨t, ht, ?_⟩
    simp [Turn.events, ha, Action.operation?, hs, Action.ends, Exchange.afterCommit]
  obtain ⟨past, u, rest, rfl, k, s, clock, lease, now, hvisit, hk, hu, haborts, haborted, hafter,
    -⟩ := h.abort_turn h₀ (by simp [hcause₀]) hcause
  obtain ⟨hpast, ⟨counts, hstep⟩, -⟩ := h.cut
  have hub := hpast.sound h₀
  have hagrees' := (hpast.next hstep).leaseAgrees h₀ hagrees
  obtain ⟨s', hs', hasks⟩ := h.asksSole_at h₀ hu haborted ht ha hs
  have hvoting : u.before.record.phase = .voting :=
    Phase.eq_voting ((hub.fits i s' hs').ne_active (Stage.leads_of_asksSole hasks)) hu
  refine ⟨past, u, rest, rfl, hvoting, haborted, hafter, ⟨s', hs', hasks⟩, ?_⟩
  -- an operation that is only asked for something is not the one that asks the party
  have hother : ∀ {q : Request}, u.before.stage? k = some (.requested q) → k ≠ i := by
    rintro q hq rfl
    obtain rfl := Option.some.inj (hs'.symm.trans hq)
    cases hasks
  have hgrounds := haborts.grounds hk (hpast.listened h₀ haccords hlistened) haborted
    (by rintro rfl; exact hagrees'.expired_iff.mpr hafter)
  obtain ⟨hsize, hunique⟩ := (h.accords h₀ haccords).soleVoted hcommitted
  -- a vote or a panic would have been another answer to the only question
  have hnone : ∀ e, HeardWhileVoting past k e → e.cause? ≠ some cause := by
    rintro e ⟨⟨v, hmem, -, -, he⟩, -⟩ hecause
    have hheard : e ∈ history (past ++ u :: rest) :=
      List.mem_flatMap.mpr ⟨v, List.mem_append_left _ hmem, he⟩
    cases e with
    | called | told => cases hecause
    | voted k reply =>
        have := (h.accords h₀ haccords).voted hheard
        omega
    | soleVoted reply =>
        rw [hunique reply hheard] at hecause
        cases hecause
  cases cause with
  | requested => exact .request (hother hgrounds.1) hvisit hgrounds.1
  | leaseCancelled => exact .cancellation (hother hgrounds.1) hvisit hgrounds.1
  | leaseExpired => exact .lapse hvisit haborts.lapsed.1
  | votedAbort | prepareFailed | interrupted =>
      obtain ⟨e, he, hecause⟩ := hgrounds
      exact absurd hecause (hnone e he)

end Turns

end LeasedCommit
