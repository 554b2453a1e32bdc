import LeasedCommit.Proofs.Coverage
import LeasedCommit.Proofs.LateCommit
import LeasedCommit.Proofs.Parties
import LeasedCommit.Proofs.Verbs

set_option autoImplicit false

/-! # Parties without a combined call

A party that answers only `prepare`, `commit` and `abort` can be the only one of its transaction.
Then it is told to commit inside the combined request, before the record is decided, and may have
to be told to abort after all, if somebody else has aborted the record by then
(`Run.overtaken`). `Transaction.Plain` ties what was said to such a party to the conversation with
its slot. -/

namespace LeasedCommit

/-! ## The exchange with the only party -/

/-- An operation comes to speak to the only party by asking it, or by telling it to commit. -/
theorem Advance.to_sole {rules : Rules} {r r' : Record} {a : Action} {s : Stage} {p : Participant}
    {e : Exchange} (h : Advance rules r a s r' (.solePending p e)) :
    (a.ends s = [] ∧ e = .first p ∧ r.registry.progress? 0 = some .joined) ∨
      (a.ends s = [] ∧ e = .committing ∧ s = .solePending p .voting) := by
  generalize hs' : Stage.solePending p e = s' at h
  have haborts : ∀ {owner owed x}, Stage.solePending p e ≠ .deliverAborts owner owed x := by
    rintro owner (_ | _) x <;> exact Stage.noConfusion
  have hcommits : ∀ {id n owed failures},
      Stage.solePending p e ≠ .deliverCommits id n owed failures := by
    rintro id n (_ | _) failures <;> exact Stage.noConfusion
  cases h with
  | askSole _ hjoined =>
      obtain ⟨rfl, rfl⟩ := Stage.solePending.inj hs'
      exact .inl ⟨rfl, rfl, hjoined⟩
  | soleGoesOn =>
      obtain ⟨rfl, rfl⟩ := Stage.solePending.inj hs'
      exact .inr ⟨rfl, rfl, rfl⟩
  | abort | abandon | abortReturns => exact absurd hs' haborts
  | rollForward | commitReturns => exact absurd hs' hcommits
  | openVote | prepared =>
      have hclaims : (Stage.solePending p e).claims.length = 1 := rfl
      rw [hs'] at hclaims
      simp at hclaims
  | abortPanics => split at hs' <;> cases hs'
  | _ => cases hs'

/-- The exchange with the only party is not heard at other slots. -/
theorem Advance.sole_quiet {rules : Rules} {r r' : Record} {a : Action} {s : Stage}
    {p : Participant} {e : Exchange} (h : Advance rules r a s r' (.solePending p e)) {j : Nat}
    (hj : j ≠ 0) (st : Standing) : st.moved j a s (.solePending p e) = st := by
  have hends : a.ends s = [] := by rcases h.to_sole with h | h <;> exact h.1
  rw [Standing.moved, hends, List.nil_append]
  refine foldl_hear_eq_self (fun event hevent => ?_) st
  rw [List.mem_singleton.mp (Stage.position_mem_holds hevent)]
  exact Ne.symm hj

/-! ## Along a run -/

namespace Transaction

/-- What has been said to the party of slot `j`, if it has no combined call, belongs to its
conversation. -/
structure Plain (x : Transaction) (turns : List Turn) (j : Nat) : Prop where
  spoken : (standing j (history turns)).Spoken (.called j .prepareAndCommit ∈ history turns)
    (.called j .prepare ∈ history turns) (verbsAt j turns)
  exchange : ∀ i p e, x.stage? i = some (.solePending p e) → j = 0 → verbsAt j turns = e.said

variable {rules : Rules} {x y : Transaction} {turns : List Turn} {j : Nat}

theorem plain_opened (policy : LeasePolicy) (id : TransactionId) (request : LeaseRequest)
    (now : Timestamp) (j : Nat) : (opened policy id request now).Plain [] j where
  spoken := rfl
  exchange i p e h := by simp at h

theorem Plain.begun (h : x.Plain turns j) (q : Request) :
    (x.begun q).Plain (turns ++ [{ before := x, action := .begin q, after := x.begun q }]) j where
  spoken := by
    have hhistory : history (turns ++ [{ before := x, action := .begin q, after := x.begun q }]) =
        history turns := by
      rw [history_concat, Turn.events_begin, List.append_nil]
    rw [hhistory, verbsAt_begin]
    exact h.spoken
  exchange i p e hs hj := by
    rw [verbsAt_begin]
    rcases stage?_begun hs with hs | ⟨-, hs⟩
    · exact h.exchange i p e hs hj
    · cases hs

section Moves

variable {a : Action} {i : Nat} {s s' : Stage} {r' : Record}

/-- The exchange with the only party goes on as long as it has to. -/
theorem Plain.moved_exchange (h : x.Plain turns 0) (haccords : x.Accords (history turns))
    {p : Participant} {e : Exchange} (hm : Advance rules x.record a s r' (.solePending p e))
    (hstage : x.stage? i = some s) (hp : p.combines = false) :
    verbsAt 0 turns ++ (Stage.solePending p e).saysTo 0 = e.said ∧
      (standing 0 (history turns)).moved 0 a s (.solePending p e) = .asked .prepareAndCommit ∧
      (.called 0 .prepareAndCommit ∈ history turns ∨
        .called 0 .prepareAndCommit ∈ (Stage.solePending p e).begins) := by
  rcases hm.to_sole with ⟨hends, rfl, hjoined⟩ | ⟨hends, rfl, rfl⟩
  · -- nothing has been said to the party before it is asked
    have hsilent : standing 0 (history turns) = .silent := haccords.free 0 _ hjoined
    have hspoken := h.spoken
    rw [hsilent] at hspoken
    have hsaid : verbsAt 0 turns = [] := hspoken
    have hfirst : Exchange.first p = .voting := by rw [Exchange.first, hp]; rfl
    rw [Standing.moved, hends, hsilent, hsaid, hfirst]
    exact ⟨rfl, rfl, .inr (List.mem_singleton_self _)⟩
  · -- it is prepared and is told to commit, which is not an answer
    have hexpects : standing 0 (history turns) = .asked .prepareAndCommit :=
      haccords.held i _ hstage 0 (List.mem_cons_self ..)
    have hspoken := h.spoken
    rw [hexpects] at hspoken
    rw [Standing.moved, hends, h.exchange i p _ hstage rfl]
    exact ⟨rfl, hexpects, .inl hspoken.1⟩

/-- What is said in the exchange belongs to the combined request. -/
theorem Plain.moved_sole (h : x.Plain turns 0) (haccords : x.Accords (history turns))
    {p : Participant} {e : Exchange} (hm : Advance rules x.record a s r' (.solePending p e))
    (hstage : x.stage? i = some s) (hp : p.combines = false)
    (hsuits : (Stage.solePending p e).Suits)
    {several : Prop} :
    ((standing 0 (history turns)).moved 0 a s (.solePending p e)).Spoken
      (.called 0 .prepareAndCommit ∈
        history turns ++ (a.ends s ++ (Stage.solePending p e).begins)) several
      (verbsAt 0 turns ++ (Stage.solePending p e).saysTo 0) := by
  obtain ⟨hsaid, hasked, hcalled⟩ := h.moved_exchange haccords hm hstage hp
  rw [hsaid, hasked]
  refine ⟨?_, ?_⟩
  · rw [List.mem_append, List.mem_append]
    exact hcalled.imp_right .inr
  · cases e with
    | voting => exact .inl rfl
    | committing => exact .inr rfl
    | combined =>
        -- the party has no such call
        have hcombines := hsuits.mp rfl
        rw [hp] at hcombines
        cases hcombines

theorem Plain.moved (h : x.Plain turns j) (hx : x.Sound) (haccords : x.Accords (history turns))
    (hi : a.operation? = some i) (hm : Advance rules x.record a s r' s')
    (hy : x.Moved i s r' s' y) (haddressed : y.Addressed)
    (hp : ∀ p, y.record.registry.participants[j]? = some p → p.combines = false) :
    y.Plain (turns ++ [{ before := x, action := a, after := y }]) j := by
  have hhistory : history (turns ++ [{ before := x, action := a, after := y }]) =
      history turns ++ (a.ends s ++ s'.begins) := by
    rw [history_concat, hy.events hi]
  have hstanding : standing j (history turns ++ (a.ends s ++ s'.begins)) =
      (standing j (history turns)).moved j a s s' := standing_append ..
  have hparty : j = 0 → ∀ p e, s' = .solePending p e → p.combines = false := by
    rintro rfl p e rfl
    exact hp p (haddressed.claims i _ _ hy.stage?_self (List.mem_cons_self ..))
  have hspoken : (standing j (history turns)).Spoken
      (.called j .prepareAndCommit ∈ history turns ++ (a.ends s ++ s'.begins))
      (.called j .prepare ∈ history turns ++ (a.ends s ++ s'.begins)) (verbsAt j turns) :=
    h.spoken.mono (List.mem_append_left _) (List.mem_append_left _)
  refine ⟨?_, fun i' p e ht hj => ?_⟩
  · rw [hhistory, hstanding, hy.verbsAt hi]
    by_cases hsole : ∃ p e, s' = .solePending p e
    · obtain ⟨p, e, rfl⟩ := hsole
      by_cases hj : j = 0
      · subst hj
        exact h.moved_sole haccords hm hy.stage (hparty rfl p e rfl)
          (haddressed.suits i _ hy.stage?_self)
      · rw [hm.sole_quiet hj, Stage.saysTo_of_not_held (by simpa [Stage.holds] using hj),
          List.append_nil]
        exact hspoken
    · have hother : ∀ p e, s' ≠ .solePending p e := fun p e he => hsole ⟨p, e, he⟩
      refine hspoken.moved hother (fun hv => ?_) ?_
      · exact List.mem_append_right _ (List.mem_append_right _
          (Stage.called_of_mem_saysTo hother hv))
      · rw [← hstanding]
        exact (haccords.moved hx hm hy).unbroken j
  · rw [hy.verbsAt hi]
    rcases hy.stage?_cases ht with ⟨-, rfl⟩ | ⟨hne, ht⟩
    · subst hj
      exact (h.moved_exchange haccords hm hy.stage (hparty rfl p e rfl)).1
    · -- the only slot is held by the other operation
      have hheld : j ∉ s'.holds := by
        subst hj
        exact hx.moved_apart hm hy hne ht (List.mem_cons_self ..)
      rw [Stage.saysTo_of_not_held hheld, List.append_nil]
      exact h.exchange i' p e ht hj

end Moves

end Transaction

theorem Run.plain {rules : Rules} {x₀ x : Transaction} {turns : List Turn} {j : Nat}
    (h₀ : x₀.Sound) (haccords : x₀.Accords []) (haddressed : x₀.Addressed)
    (hstart : x₀.Plain [] j) (h : Run rules x₀ turns x)
    (hp : ∀ p, x.record.registry.participants[j]? = some p → p.combines = false) :
    x.Plain turns j := by
  induction h with
  | start => exact hstart
  | next hrun hstep ih =>
      have hx := hrun.sound h₀
      rcases Transaction.step_cases hx.shape hx.fits hstep with
        ⟨q, rfl, rfl⟩ | ⟨i, s, r', s', hi, hm, hy⟩
      · exact (ih hp).begun q
      · refine (ih fun p hparty => hp p ?_).moved hx (hrun.accords h₀ haccords) hi hm hy
          ((hrun.next hstep).addressed h₀ haddressed) hp
        obtain ⟨more, hmore⟩ := hm.participants_prefix
        rw [hy.record, ← hmore, List.getElem?_append_left (List.getElem?_eq_some_iff.mp hparty).1]
        exact hparty

/-! ## The main result -/

/-- The calls to a slot go to its party. -/
theorem Run.callee {rules : Rules} {x₀ x : Transaction} {turns : List Turn} (h₀ : x₀.Sound)
    (hstart : x₀.Addressed) (h : Run rules x₀ turns x) {c : Call} (hc : c ∈ callsMade turns) :
    x.record.registry.participants[c.position]? = some c.participant := by
  obtain ⟨t, ht, hcall⟩ := List.mem_filterMap.mp hc
  obtain ⟨past, rest, rfl⟩ := List.append_of_mem ht
  obtain ⟨hpast, ⟨counts, hstep⟩, hrest⟩ := h.cut
  have hturn := hpast.next hstep
  simp only [Turn.call?, Option.bind_eq_some_iff] at hcall
  obtain ⟨s, ⟨i, -, hs⟩, hcall⟩ := hcall
  have hparty := (hturn.addressed h₀ hstart).claims i s _ hs (Stage.mem_claims_of_call? hcall)
  obtain ⟨more, hmore⟩ := hrest.participants_prefix (hturn.sound h₀)
  rw [← hmore, List.getElem?_append_left (List.getElem?_eq_some_iff.mp hparty).1]
  exact hparty

/-- A party that is told to abort is called for that. -/
theorem called_of_abort_mem {turns : List Turn} {j : Nat} (h : .abort ∈ verbsAt j turns) :
    .called j .abort ∈ history turns := by
  simp only [verbsAt, List.mem_map, List.mem_filter, beq_iff_eq] at h
  obtain ⟨c, ⟨hc, rfl⟩, hverb⟩ := h
  obtain ⟨t, ht, hcall⟩ := List.mem_filterMap.mp hc
  simp only [Turn.call?, Option.bind_eq_some_iff] at hcall
  obtain ⟨s, ⟨i, hi, hs⟩, hcall⟩ := hcall
  refine List.mem_flatMap.mpr ⟨t, ht, ?_⟩
  rw [Turn.events, hi]
  refine List.mem_append_right _ ?_
  rw [hs, Option.elim_some, Stage.begins_eq, hcall, ← hverb]
  · exact List.mem_singleton_self _
  · -- nothing in the exchange with the only party is an abort
    rintro p e rfl
    obtain rfl := Option.some.inj hcall
    cases e <;> cases hverb

/-- **What is said to a party without a combined call.** However the operations on a new record
interleave, and whatever the participants answer, the calls to the slot of such a party go to that
party. They are:

* if several parties have joined, at most one `prepare`, followed by commit calls alone or by at
  most one abort call, but never by both;
* if it is the only party, at most one `prepare`, then at most one commit call, which is part of the
  combined request, and then at most one abort call;
* if that commit call succeeds and an abort call follows even so, then the record was aborted
  before the party was told, while the vote was open and the operation that commits had the combined
  request out or its answer in hand. It was another operation that aborted it, on request or by
  giving up the lease, or the lease was found lapsed in that turn. -/
theorem plain_party_verbs {rules : Rules} {id : TransactionId} {request : LeaseRequest}
    {now : Timestamp} {turns : List Turn} {x : Transaction}
    (h : Run rules (Transaction.opened rules.lease id request now) turns x) {j : Nat}
    {p : Participant} (hp : x.record.registry.participants[j]? = some p)
    (hplain : p.combines = false) :
    (∀ c ∈ callsMade turns, c.position = j → c.participant = p) ∧
    (x.record.registry.size ≠ 1 →
      verbsAt j turns ∈ [[], [.prepare], [.abort], [.prepare, .abort]] ∨
        ∃ k, verbsAt j turns = .prepare :: List.replicate (k + 1) .commit) ∧
    (x.record.registry.size = 1 →
      verbsAt j turns ∈ [[], [.prepare], [.abort], [.prepare, .abort], [.prepare, .commit],
        [.prepare, .commit, .abort]]) ∧
    (∀ t ∈ turns, ∀ i q, t.action = .acknowledge i (.returned (.answered ())) →
      t.before.stage? i = some (.solePending q .committing) →
      verbsAt j turns = [.prepare, .commit, .abort] →
      ∃ cause, x.record.abortCause = some cause ∧
        ∃ past u rest, turns = past ++ u :: rest ∧ .abort ∉ verbsAt j past ∧
          u.before.record.phase = .voting ∧ u.after.record.phase = .aborted ∧
          u.after.record.abortCause = some cause ∧
          (∃ s, u.before.stage? i = some s ∧ s.asksSole = true) ∧ u.Overtakes i cause) := by
  have h₀ := Transaction.sound_opened rules.lease id request now
  have haccords₀ := Transaction.accords_opened rules.lease id request now
  have haddressed := Transaction.addressed_opened rules.lease id request now
  have haccords := h.accords h₀ haccords₀
  have hspoken := (h.plain h₀ haccords₀ haddressed (Transaction.plain_opened _ _ _ _ j)
    (fun p' hp' => by rw [hp] at hp'; cases hp'; exact hplain)).spoken
  refine ⟨fun c hc hj => ?_, fun hsize => ?_, fun hsize => ?_, fun t ht i q ha hs hverbs => ?_⟩
  · have hcallee := h.callee h₀ haddressed hc
    rw [hj, hp] at hcallee
    exact (Option.some.inj hcallee).symm
  · rcases hspoken.cases with hfew | ⟨hsole, -⟩ | ⟨-, hcommits⟩
    · exact .inl hfew
    · exact absurd (haccords.calls j _ hsole).2 hsize
    · exact .inr hcommits
  · rcases hspoken.cases with hfew | ⟨-, hcommit | hboth⟩ | ⟨hseveral, -⟩
    · exact List.mem_append_left [[.prepare, .commit], [.prepare, .commit, .abort]] hfew
    · simp [hcommit]
    · simp [hboth]
    · have := (haccords.calls j _ hseveral).2
      omega
  · have hcalled : .called j .abort ∈ history turns := called_of_abort_mem (by simp [hverbs])
    have haborted : x.record.phase = .aborted := haccords.calls j _ hcalled
    obtain ⟨cause, hcause⟩ := Option.isSome_iff_exists.mp ((h.sound h₀).shape.cause.mpr haborted)
    obtain ⟨past, u, rest, rfl, hvoting, hturn⟩ := h.overtaken h₀ haccords₀
      (Transaction.listened_opened ..) rfl rfl ht ha hs hcause
    refine ⟨cause, hcause, past, u, rest, rfl, fun hearly => ?_, hvoting, hturn⟩
    -- nobody is told to abort before the record is aborted
    have hdone : u.before.record.phase = .aborted :=
      (h.cut.1.accords h₀ haccords₀).calls j _ (called_of_abort_mem hearly)
    rw [hvoting] at hdone
    cases hdone

/-- The second of two parties fails to prepare, so the first one, which is prepared, is told to
abort. A party on its own is told to commit, and before the answer is counted another operation
aborts the record. -/
theorem plain_party_verbs_of_two :
    (∃ turns x,
      Run { lease := .standard, rollForward := .standard }
        (Transaction.opened .standard ⟨1⟩ .forever .epoch) turns x ∧
      (∀ c ∈ callsMade turns, c.position = 0 → c.participant = { key := 0, combines := false }) ∧
      x.record.registry.size = 2 ∧ verbsAt 0 turns = [.prepare, .abort] ∧
      verbsAt 1 turns = [.prepare, .abort]) ∧
    ∃ turns x u,
      Run { lease := .standard, rollForward := .standard }
        (Transaction.opened .standard ⟨1⟩ .forever .epoch) turns x ∧
      verbsAt 0 turns = [.prepare, .commit, .abort] ∧ u ∈ turns ∧ u.Overtakes 1 .requested := by
  constructor
  · have hrun : Run { lease := .standard, rollForward := .standard }
        (Transaction.opened .standard ⟨1⟩ .forever .epoch) _ _ :=
      Run.of_play [.begin (.join { key := 0, combines := false }), .visit 0 (.steady .epoch),
        .begin (.join { key := 1, combines := true }), .visit 1 (.steady .epoch), .begin .commit,
        .visit 2 (.steady .epoch), .visit 2 (.steady .epoch),
        .vote 2 (.returned (.answered .prepared)), .visit 2 (.steady .epoch),
        .visit 2 (.steady .epoch), .vote 2 (.returned (.failed (.communication "lost"))),
        .visit 2 (.steady .epoch), .visit 2 (.steady .epoch),
        .acknowledge 2 (.returned (.answered ()))] rfl
    obtain ⟨hcallee, -⟩ := plain_party_verbs (j := 0) (p := { key := 0, combines := false })
      hrun rfl rfl
    exact ⟨_, _, hrun, hcallee, rfl, rfl, rfl⟩
  · have hasked : Run { lease := .standard, rollForward := .standard }
        (Transaction.opened .standard ⟨1⟩ .forever .epoch) _ _ :=
      Run.of_play [.begin (.join { key := 0, combines := false }), .visit 0 (.steady .epoch),
        .begin .commit, .visit 1 (.steady .epoch), .visit 1 (.steady .epoch),
        .vote 1 (.returned (.answered .prepared))] rfl
    have hrun := hasked.trans (Run.of_play
      [.acknowledge 1 (.returned (.answered ())), .begin .abort, .visit 2 (.steady .epoch),
        .visit 1 (.steady .epoch), .visit 1 (.steady .epoch),
        .acknowledge 1 (.returned (.answered ()))] rfl)
    obtain ⟨-, -, -, hovertaken⟩ := plain_party_verbs (j := 0)
      (p := { key := 0, combines := false }) hrun rfl rfl
    obtain ⟨cause, hcause, past, u, rest, hcut, -, -, -, -, -, hu⟩ := hovertaken _
      (List.mem_append_right _ (List.mem_cons_self ..)) 1 _ rfl rfl rfl
    obtain rfl : AbortCause.requested = cause := Option.some.inj hcause
    exact ⟨_, _, u, hrun, rfl, hcut ▸ List.mem_append_right _ (List.mem_cons_self ..), hu⟩

/-- The record is aborted while its only party is told to commit. No call fails or panics, and the
party is told to commit and to abort. -/
theorem plain_party_told_both :
    ∃ turns x,
      Run { lease := .standard, rollForward := .standard }
        (Transaction.opened .standard ⟨1⟩ .forever .epoch) turns x ∧
      (turns.all fun t => !t.action.panics) = true ∧
      x.record.registry.participants = [{ key := 0, combines := false }] ∧
      x.record.abortCause = some .requested ∧ verbsAt 0 turns = [.prepare, .commit, .abort] := by
  have hrun : Run { lease := .standard, rollForward := .standard }
      (Transaction.opened .standard ⟨1⟩ .forever .epoch) _ _ :=
    Run.of_play [.begin (.join { key := 0, combines := false }), .visit 0 (.steady .epoch),
      .begin .commit, .visit 1 (.steady .epoch), .visit 1 (.steady .epoch),
      .vote 1 (.returned (.answered .prepared)), .begin .abort, .visit 2 (.steady .epoch),
      .acknowledge 1 (.returned (.answered ())), .visit 1 (.steady .epoch),
      .visit 1 (.steady .epoch), .acknowledge 1 (.returned (.answered ()))] rfl
  exact ⟨_, _, hrun, rfl, rfl, rfl, rfl⟩

end LeasedCommit
