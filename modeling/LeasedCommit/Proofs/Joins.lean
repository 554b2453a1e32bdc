import LeasedCommit.Proofs.Interruption
import LeasedCommit.Proofs.Parties
import Mathlib.Data.List.Pairwise

set_option autoImplicit false

/-! # Joins and the commit

A join takes effect in one visit or not at all (`Advance.joined`), and only while the record is
active. So the slots of a record are its joins, in the order in which they took effect
(`Transaction.Joined`), and a report speaks of these slots and of no others
(`Transaction.Located`). -/

namespace LeasedCommit

/-! ## Joins that take effect -/

/-- The position that an operation has got, once it is over. -/
def Stage.joined? : Stage → Option Nat
  | .finished a => a.joined?
  | _ => none

/-- The position that a join gets in a turn. -/
def Turn.joined? (t : Turn) : Option Nat :=
  (t.action.operation?.bind t.after.stage?).bind Stage.joined?

/-- The positions that the joins of a run get, in the order in which they take effect. -/
def joins (turns : List Turn) : List Nat := turns.filterMap Turn.joined?

theorem joins_append (turns more : List Turn) :
    joins (turns ++ more) = joins turns ++ joins more := by
  simp [joins]

theorem Answer.joined?_eq_some {a : Answer} {k : Nat} (h : a.joined? = some k) : a = .joined k := by
  cases a with
  | joined => cases h; rfl
  | _ => cases h

namespace Stage

theorem joined?_eq_some {s : Stage} {k : Nat} (h : s.joined? = some k) :
    s = .finished (.joined k) := by
  cases s with
  | finished a => rw [Answer.joined?_eq_some h]
  | _ => cases h

end Stage

/-- A wait does not end with a position. -/
theorem Wait.joined?_answer (w : Wait) (r : Record) : (w.answer r).joined? = none := by
  cases w with
  | phase => rfl
  | decision =>
      simp only [answer]
      split <;> rfl

section Moves

variable {rules : Rules} {r r' : Record} {a : Action} {s s' : Stage}

/-- Whoever comes to answer with a position has joined in this move, while the record was active,
and has got the next slot. -/
theorem Advance.joined (h : Advance rules r a s r' s') {k : Nat}
    (hs : ∀ k, s.answer? ≠ some (.joined k)) (hs' : s'.answer? = some (.joined k)) :
    k = r.registry.size ∧ s' = .finished (.joined k) ∧ r.phase = .active ∧
      ∃ p, s = .requested (.join p) ∧ r' = r.withRegistry (r.registry.enlist p) := by
  have hother : ∀ {x : Answer}, x.joined? = none → some x ≠ some (.joined k) := by
    rintro x hx h
    rw [Option.some.inj h] at hx
    cases hx
  cases h with
  | join hp =>
      cases hs'
      exact ⟨rfl, rfl, hp, _, rfl, rfl⟩
  | answer _ _ hx => exact absurd hs' (hother hx)
  | abort _ _ _ _ hx =>
      rw [Stage.answer?_deliverAborts] at hs'
      exact absurd hs' (hother hx)
  | look => exact absurd hs' (hother (Wait.joined?_answer _ _))
  | giveUp hx =>
      cases Option.some.inj hs'
      exact hx.elim
  | abandon =>
      rw [Stage.answer?_deliverAborts] at hs'
      cases hs'
  | abortReturns =>
      rw [Stage.answer?_deliverAborts] at hs'
      exact absurd hs' (hs k)
  | abortPanics => split at hs' <;> cases hs'
  | openVote | prepared | rollForward | commitReturns => simp at hs'
  | _ => cases hs'

/-- An operation that was asked to join leaves the registry alone, or joins, or aborts the record
because it finds the lease lapsed. -/
theorem Advance.registry_of_join {p : Participant} (h : Advance rules r a s r' s')
    (hs : s.Serves (.join p)) :
    r'.registry = r.registry ∨ s' = .finished (.joined r.registry.size) ∨
      ∃ i t, a = .visit i t ∧ r.phase.isTerminal = false ∧ r.lease.hasLapsed t.first = true ∧
        r'.phase = .aborted ∧ r'.registry = (r.registry.freeze.claimAll .abort).1 := by
  cases h with
  | join => exact .inr (.inl rfl)
  | abort hu hforfeits =>
      obtain rfl := hs
      cases hforfeits with
      | lapsed hl => exact .inr (.inr ⟨_, _, rfl, hu, hl, rfl, rfl⟩)
  | openVote => cases hs
  | refuse _ _ hsettles | late _ _ hsettles => cases hsettles <;> cases hs
  | ask | askSole | prepared | lapse | decide | decideSole | rollForward | abandon
  | interruptVote => cases hs
  | _ => exact .inl rfl

end Moves

/-! ## The slots are the joins -/

namespace Transaction

/-- The slots of a record are its joins. -/
structure Joined (x : Transaction) (turns : List Turn) : Prop where
  positions : joins turns = List.range x.record.registry.size
  /-- Nobody has a position to answer with and is not over. -/
  ended : ∀ i s k, x.stage? i = some s → s.answer? = some (.joined k) → s.isOver = true
  /-- Whoever answers with a position has got it in a turn. -/
  answers : ∀ i k, x.stage? i = some (.finished (.joined k)) →
    ∃ t ∈ turns, t.action.operation? = some i ∧ t.joined? = some k
  /-- A join takes the next slot of an active record. -/
  next : ∀ t ∈ turns, ∀ k, t.joined? = some k →
    t.before.record.phase = .active ∧ t.before.record.registry.size = k ∧
      ∃ p, t.after.record.registry.participants = t.before.record.registry.participants ++ [p]

variable {rules : Rules} {x y : Transaction} {turns : List Turn}

theorem joined_opened (policy : LeasePolicy) (id : TransactionId) (request : LeaseRequest)
    (now : Timestamp) : (opened policy id request now).Joined [] where
  positions := rfl
  ended i s k h := by simp at h
  answers i k h := by simp at h
  next t h := by cases h

theorem Joined.begun (h : x.Joined turns) (q : Request) :
    (x.begun q).Joined (turns ++ [{ before := x, action := .begin q, after := x.begun q }]) where
  positions := by
    rw [joins_append]
    exact (List.append_nil _).trans h.positions
  ended i s k hs ha := by
    rcases stage?_begun hs with hs | ⟨-, rfl⟩
    · exact h.ended i s k hs ha
    · cases ha
  answers i k hs := by
    rcases stage?_begun hs with hs | ⟨-, hs⟩
    · obtain ⟨t, ht, htail⟩ := h.answers i k hs
      exact ⟨t, List.mem_append_left _ ht, htail⟩
    · cases hs
  next t ht k hk := by
    rcases List.mem_append.mp ht with ht | ht
    · exact h.next t ht k hk
    · rw [List.mem_singleton.mp ht] at hk
      cases hk

section Moves

variable {a : Action} {i : Nat} {s s' : Stage} {r' : Record}

theorem Moved.joined? (hi : a.operation? = some i) (hy : x.Moved i s r' s' y) :
    Turn.joined? { before := x, action := a, after := y } = s'.joined? := by
  simp [Turn.joined?, hi, hy.stage?_self]

/-- Whoever joins in a move takes the next slot of an active record. -/
theorem Joined.moved_cases (h : x.Joined turns) (hm : Advance rules x.record a s r' s')
    (hy : x.Moved i s r' s' y) {k : Nat} (hs' : s'.answer? = some (.joined k)) :
    k = x.record.registry.size ∧ s' = .finished (.joined k) ∧ x.record.phase = .active ∧
      ∃ p, s = .requested (.join p) ∧ r' = x.record.withRegistry (x.record.registry.enlist p) := by
  refine hm.joined (fun k hk => ?_) hs'
  -- whoever has a position to answer with is over and does not move
  have hover := h.ended i s k hy.stage hk
  rw [hm.isOver_eq_false] at hover
  cases hover

theorem Joined.moved (h : x.Joined turns) (hi : a.operation? = some i)
    (hm : Advance rules x.record a s r' s') (hy : x.Moved i s r' s' y) :
    y.Joined (turns ++ [{ before := x, action := a, after := y }]) where
  positions := by
    rw [joins_append, h.positions, hy.record]
    cases hk : s'.joined? with
    | some k =>
        obtain rfl := Stage.joined?_eq_some hk
        obtain ⟨rfl, -, -, p, -, rfl⟩ := h.moved_cases hm hy rfl
        rw [Record.withRegistry_registry, Registry.size_enlist, List.range_succ]
        simp [joins, hy.joined? hi, hk]
    | none =>
        have hsize : r'.registry.size = x.record.registry.size := by
          rcases hm.participants with heq | ⟨p, -, rfl, -⟩
          · rw [← Registry.length_participants, heq, Registry.length_participants]
          · cases hk
        rw [hsize]
        simp [joins, hy.joined? hi, hk]
  ended i' t k ht hk := by
    rcases hy.stage?_cases ht with ⟨-, rfl⟩ | ⟨-, ht⟩
    · obtain ⟨-, hs', -⟩ := h.moved_cases hm hy hk
      rw [hs']
      rfl
    · exact h.ended i' t k ht hk
  answers i' k ht := by
    rcases hy.stage?_cases ht with ⟨rfl, rfl⟩ | ⟨-, ht⟩
    · exact ⟨_, List.mem_append_right _ (List.mem_singleton_self _), hi, hy.joined? hi⟩
    · obtain ⟨u, hu, htail⟩ := h.answers i' k ht
      exact ⟨u, List.mem_append_left _ hu, htail⟩
  next t ht k hk := by
    rcases List.mem_append.mp ht with ht | ht
    · exact h.next t ht k hk
    · obtain rfl := List.mem_singleton.mp ht
      rw [hy.joined? hi] at hk
      obtain rfl := Stage.joined?_eq_some hk
      obtain ⟨rfl, -, hp, p, -, hr'⟩ := h.moved_cases hm hy rfl
      exact ⟨hp, rfl, p, by rw [hy.record, hr']; simp⟩

end Moves

/-- Two operations do not get the same position. -/
theorem Joined.position_inj (h : x.Joined turns) {i i' k : Nat}
    (hs : x.stage? i = some (.finished (.joined k)))
    (hs' : x.stage? i' = some (.finished (.joined k))) : i = i' := by
  obtain ⟨t, ht, hi, hk⟩ := h.answers i k hs
  obtain ⟨u, hu, hi', hk'⟩ := h.answers i' k hs'
  have hnodup : (joins turns).Nodup := by
    rw [h.positions]
    exact List.nodup_range
  rw [joins, List.Nodup, List.pairwise_filterMap] at hnodup
  have hsymm : Std.Symm fun t u : Turn =>
      ∀ k, t.joined? = some k → ∀ k', u.joined? = some k' → k ≠ k' :=
    ⟨fun _ _ hne k hk k' hk' => (hne k' hk' k hk).symm⟩
  by_cases heq : t = u
  · rw [heq, hi'] at hi
    exact (Option.some.inj hi).symm
  -- two turns would have handed out the position
  · exact absurd rfl (hnodup.forall ht hu heq k hk k hk')

end Transaction

theorem Run.joined {rules : Rules} {x₀ x : Transaction} {turns : List Turn} (h₀ : x₀.Sound)
    (hstart : x₀.Joined []) (h : Run rules x₀ turns x) : x.Joined turns :=
  Run.invariant (P := fun turns x => x.Joined turns) h₀ hstart (fun _ _ q _ ih => ih.begun q)
    (fun _ _ _ _ _ _ _ _ _ ih hi hm hy => ih.moved hi hm hy) h

/-! ## Joins that are refused -/

/-- What a join can answer, and what that says about the record. -/
theorem Request.Admits.join_cases {r : Record} {p : Participant} {a : Answer}
    (h : Request.Admits (.join p) a) (ha : a.TrueOf r) :
    (∃ k, a = .joined k) ∨ ∃ phase, a = .refused (.cannotJoin r.id phase) ∧ phase ≠ .active := by
  cases a with
  | joined k => exact .inl ⟨k, rfl⟩
  | refused error =>
      cases error with
      | cannotJoin id phase =>
          obtain ⟨rfl, hp, -⟩ := ha
          exact .inr ⟨phase, rfl, hp⟩
      | _ => exact h.elim
  | _ => exact h.elim

/-- An operation works on the same request from its beginning on. -/
theorem Run.serves_turn {rules : Rules} {x₀ x : Transaction} {past rest : List Turn} {t : Turn}
    (h₀ : x₀.Sound) (hstart : x₀.Serves []) (h : Run rules x₀ (past ++ t :: rest) x) {i : Nat}
    {s : Stage} {q : Request} (hs : t.before.stage? i = some s)
    (hq : (requests (past ++ t :: rest))[i]? = some q) : s.Serves q := by
  obtain ⟨hpast, -, -⟩ := h.cut
  have hserves := hpast.serves h₀ hstart
  obtain ⟨hlt, -⟩ := List.getElem?_eq_some_iff.mp hs
  rw [requests_append, List.getElem?_append_left (by rw [hserves.length]; exact hlt)] at hq
  exact hserves.stages i s q hs hq

/-! ## The slots of a report -/

namespace Stage

/-- The failures that an operation is going to report. -/
def failures : Stage → List CommitFailure
  | .commitPending d | .pausing d => d.failures
  | .reporting report => report.failures
  | _ => []

@[simp] theorem failures_deliverAborts (owner : Bool) (owed : List Claim) (a : Answer) :
    (deliverAborts owner owed a).failures = [] := by
  cases owed <;> rfl

@[simp] theorem failures_deliverCommits (id : TransactionId) (n : Nat) (owed : List Claim)
    (failures : List CommitFailure) : (deliverCommits id n owed failures).failures = failures := by
  cases owed <;> rfl

@[simp] theorem failures_ask (k n : Nat) : (ask k n).failures = [] := by
  unfold ask
  split <;> rfl

@[simp] theorem failures_firstQuestion (n : Nat) : (Record.firstQuestion n).failures = [] := by
  rcases n with _ | _ | n <;> rfl

end Stage

theorem Registry.lt_size_of_mem_toldToCommit {g : Registry} {i : Nat} (h : i ∈ g.toldToCommit) :
    i < g.size := by
  simp only [toldToCommit, List.mem_filterMap] at h
  obtain ⟨⟨slot, j⟩, hmem, hsome⟩ := h
  rw [List.mk_mem_zipIdx_iff_getElem?] at hmem
  split at hsome
  · cases hsome
    exact (List.getElem?_eq_some_iff.mp hmem).1
  · cases hsome

section Moves

variable {rules : Rules} {r r' : Record} {a : Action} {s s' : Stage}

/-- A failure that is noted is that of a slot which the operation has claimed. -/
theorem Advance.failures (h : Advance rules r a s r' s') :
    ∀ f ∈ s'.failures, f ∈ s.failures ∨ f.position ∈ s.holds := by
  cases h with
  | commitReturns hf =>
      rw [Stage.failures_deliverCommits]
      intro f hmem
      refine (hf f hmem).imp_right fun hposition => ?_
      rw [hposition]
      exact List.mem_cons_self ..
  | commitLost | repeatCommit => exact fun f hf => .inl hf
  | rollForward | abort | abandon | abortReturns | openVote | prepared => simp
  | abortPanics => split <;> exact fun f hf => nomatch hf
  | _ => exact fun f hf => nomatch hf

/-- A report that is filed lists the failures that were noted, or slots that were told to commit. -/
theorem Advance.report (h : Advance rules r a s r' s') {report : CommitReport}
    (hr' : r'.report = some report) : r.report = some report ∨
      ∀ f ∈ report.failures, f ∈ s.failures ∨ f.position < r.registry.size := by
  cases h with
  | file =>
      cases hr'
      exact .inr fun f hf => .inl hf
  | interruptCommit =>
      cases hr'
      refine .inr fun f hf => .inr ?_
      obtain ⟨j, hj, rfl⟩ := List.mem_map.mp hf
      exact Registry.lt_size_of_mem_toldToCommit hj
  | _ => exact .inl hr'

end Moves

namespace Transaction

/-- Every failure that was noted or filed is that of a slot. -/
structure Located (x : Transaction) : Prop where
  noted : ∀ i s, x.stage? i = some s → ∀ f ∈ s.failures, f.position < x.record.registry.size
  filed : ∀ report, x.record.report = some report →
    ∀ f ∈ report.failures, f.position < x.record.registry.size

theorem located_opened (policy : LeasePolicy) (id : TransactionId) (request : LeaseRequest)
    (now : Timestamp) : (opened policy id request now).Located where
  noted i s h := by simp at h
  filed report h := by cases h

end Transaction

theorem Run.located {rules : Rules} {x₀ x : Transaction} {turns : List Turn} (h₀ : x₀.Sound)
    (hstart : x₀.Located) (h : Run rules x₀ turns x) : x.Located := by
  refine Run.invariant (P := fun _ x => x.Located) h₀ hstart ?_ ?_ h
  · intro turns x q _ ih
    refine ⟨fun i s hs f hf => ?_, ih.filed⟩
    rcases Transaction.stage?_begun hs with hs | ⟨-, rfl⟩
    · exact ih.noted i s hs f hf
    · cases hf
  · intro turns x y a i s r' s' hx ih _ hm hy
    have hgrows := (hx.later hm hy).grows
    refine ⟨fun i' t ht f hf => ?_, fun report hreport f hf => ?_⟩ <;> rw [hy.record] at *
    · rcases hy.stage?_cases ht with ⟨-, rfl⟩ | ⟨-, ht⟩
      · rcases hm.failures f hf with hold | hheld
        · exact Nat.lt_of_lt_of_le (ih.noted i s hy.stage f hold) hgrows
        · exact Nat.lt_of_lt_of_le (hx.held i s hy.stage _ hheld).1 hgrows
      · exact Nat.lt_of_lt_of_le (ih.noted i' t ht f hf) hgrows
    · refine Nat.lt_of_lt_of_le ?_ hgrows
      rcases hm.report hreport with hold | hnew
      · exact ih.filed report hold f hf
      · exact (hnew f hf).elim (ih.noted i s hy.stage f) id

/-! ## The main result -/

/-- **All joins or none.** However the operations on a new record interleave, whatever the
participants answer and wherever the clock goes:

* the joins that take effect get the positions 0, 1, 2, … in this order, and each finished join
  that has got a position has it for itself;
* a join takes effect only while the record is active, and adds the party at the end;
* a join that is refused names a phase that is not the active one;
* it leaves the registry as it is, unless its visit finds the lease of the undecided record lapsed.
  Then the record is aborted: the registry is frozen and the slots that can be settled are settled
  for the abort, but no party is added;
* a commit report, however the commit has ended, counts all joins, and every failure in it is that
  of a join. -/
theorem joins_all_or_none {rules : Rules} {id : TransactionId} {request : LeaseRequest}
    {now : Timestamp} {turns : List Turn} {x : Transaction}
    (h : Run rules (Transaction.opened rules.lease id request now) turns x) :
    joins turns = List.range x.record.registry.size ∧
    (∀ i k, x.stage? i = some (.finished (.joined k)) →
      (∃ t ∈ turns, t.action.operation? = some i ∧ t.joined? = some k) ∧
      ∀ i', x.stage? i' = some (.finished (.joined k)) → i' = i) ∧
    (∀ t ∈ turns, ∀ k, t.joined? = some k →
      t.before.record.phase = .active ∧ t.before.record.registry.size = k ∧
        ∃ p, t.after.record.registry.participants =
          t.before.record.registry.participants ++ [p]) ∧
    (∀ i p a, (requests turns)[i]? = some (.join p) → x.stage? i = some (.finished a) →
      (∃ k, a = .joined k) ∨
        ∃ phase, a = .refused (.cannotJoin x.record.id phase) ∧ phase ≠ .active) ∧
    (∀ t ∈ turns, ∀ i p, t.action.operation? = some i → (requests turns)[i]? = some (.join p) →
      t.joined? = none →
      t.after.record.registry = t.before.record.registry ∨
        ∃ clock, t.action = .visit i clock ∧ t.before.record.phase.isTerminal = false ∧
          t.before.record.lease.hasLapsed clock.first = true ∧ t.after.record.phase = .aborted ∧
          t.after.record.registry = (t.before.record.registry.freeze.claimAll .abort).1 ∧
          t.after.record.registry.participants = t.before.record.registry.participants) ∧
    (∀ report, x.record.report = some report →
      report.participants = (joins turns).length ∧
        ∀ f ∈ report.failures, f.position < (joins turns).length) := by
  have h₀ := Transaction.sound_opened rules.lease id request now
  have hstart := Transaction.serves_opened rules.lease id request now
  have hx := h.sound h₀
  have hjoined := h.joined h₀ (Transaction.joined_opened ..)
  have hlength : (joins turns).length = x.record.registry.size := by
    rw [hjoined.positions, List.length_range]
  refine ⟨hjoined.positions, fun i k hs => ⟨hjoined.answers i k hs, fun i' hs' =>
    hjoined.position_inj hs' hs⟩, hjoined.next,
    fun i p a hq hs => ((h.serves h₀ hstart).stages i _ _ hs hq).join_cases (hx.fits i _ hs),
    fun t ht i p hi hq hnone => ?_, fun report hreport => ?_⟩
  · obtain ⟨past, rest, rfl⟩ := List.append_of_mem ht
    obtain ⟨hpast, ⟨counts, hstep⟩, -⟩ := h.cut
    have hbefore := hpast.sound h₀
    rcases Transaction.step_cases hbefore.shape hbefore.fits hstep with
      ⟨q, ha, -⟩ | ⟨i', s, r', s', hi', hm, hy⟩
    · rw [ha] at hi
      cases hi
    · obtain rfl := Option.some.inj (hi.symm.trans hi')
      have hserves := h.serves_turn h₀ hstart hy.stage hq
      have hturn : t.joined? = s'.joined? := hy.joined? hi
      rw [hy.record]
      rcases hm.registry_of_join hserves with heq | hjoin | ⟨_, clock, ha, hu, hl, hp, hg⟩
      · exact .inl heq
      · rw [hturn, hjoin] at hnone
        cases hnone
      · rw [ha] at hi
        obtain rfl := Option.some.inj hi
        exact .inr ⟨clock, ha, hu, hl, hp, hg, by rw [hg]; simp⟩
  · rw [hlength]
    exact ⟨(hx.shape.report report hreport).2.2,
      (h.located h₀ (Transaction.located_opened ..)).filed report hreport⟩

/-- A third party comes too late for the vote of two, and the second of them refuses the commit. -/
theorem joins_all_or_none_of_two :
    ∃ turns x report,
      Run { lease := .standard, rollForward := .standard }
        (Transaction.opened .standard ⟨1⟩ .forever .epoch) turns x ∧
      joins turns = [0, 1] ∧
      x.stage? 3 = some (.finished (.refused (.cannotJoin ⟨1⟩ .committed))) ∧
      x.record.report = some report ∧ report.participants = 2 ∧
      report.failures.map CommitFailure.position = [1] ∧
      ∀ f ∈ report.failures, f.position < 2 := by
  have hvote : Run { lease := .standard, rollForward := .standard }
      (Transaction.opened .standard ⟨1⟩ .forever .epoch) _ _ := Run.of_play twoPartyVote rfl
  have hrun := hvote.trans
    (Run.of_play [.begin (.join { key := 2, combines := false }), .visit 3 (.steady .epoch),
      .acknowledge 2 (.returned (.answered ())),
      .acknowledge 2 (.returned (.failed (.protocol "no"))), .visit 2 (.steady .epoch)] rfl)
  obtain ⟨hjoins, -, -, -, -, hreport⟩ := joins_all_or_none hrun
  obtain ⟨hcount, hpositions⟩ := hreport _ rfl
  exact ⟨_, _, _, hrun, hjoins, rfl, rfl, hcount, rfl, hpositions⟩

/-- The second join finds the lease lapsed. It is refused, but the slot of the first party is
settled for the abort. -/
theorem joins_all_or_none_lapsed :
    ∃ past t rest x,
      Run { lease := .standard, rollForward := .standard }
        (Transaction.opened .standard ⟨1⟩ (.bounded (Duration.ofMillis 1)) .epoch)
        (past ++ t :: rest) x ∧
      (requests (past ++ t :: rest))[1]? = some (.join { key := 1, combines := false }) ∧
      x.stage? 1 = some (.finished (.refused (.cannotJoin ⟨1⟩ .aborted))) ∧
      t.action.operation? = some 1 ∧
      t.before.record.registry.slots.map Slot.progress = [.joined] ∧
      t.after.record.registry.slots.map Slot.progress = [.settled .abort] := by
  have hjoin : Run { lease := .standard, rollForward := .standard }
      (Transaction.opened .standard ⟨1⟩ (.bounded (Duration.ofMillis 1)) .epoch) _ _ :=
    Run.of_play [.begin (.join { key := 0, combines := false }), .visit 0 (.steady .epoch),
      .begin (.join { key := 1, combines := false })] rfl
  have hrun := hjoin.trans (Run.of_play [.visit 1 (.steady (.ofMicros 2000)),
    .acknowledge 1 (.returned (.answered ()))] rfl)
  exact ⟨_, _, _, _, hrun, rfl, rfl, rfl, rfl, rfl⟩

end LeasedCommit
