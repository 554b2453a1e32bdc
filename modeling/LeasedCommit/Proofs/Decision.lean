import LeasedCommit.Proofs.Agreement
import Mathlib.Data.List.Induction

set_option autoImplicit false

/-! # The turn that decides a record

A run from an undecided record to a decided one goes through a turn that decides it
(`Run.crossing`). Such a turn is a visit, and it says why the record is decided:

* `Advance.commits`: all votes are in, and the lease has not lapsed;
* `Advance.aborts`: one of the ways of `Stage.Aborts`.

What comes after the decision leaves the record to the operation that leads
(`Advance.eq_of_terminal`), and no slot that is settled changes again. -/

namespace LeasedCommit

/-! ## Cutting a run -/

section Runs

variable {rules : Rules} {x z : Transaction} {turns : List Turn}

theorem Run.last {u : Turn} (h : Run rules x (turns ++ [u]) z) :
    Run rules x turns u.before ∧
      (∃ counts, u.before.step rules u.action = some (u.after, counts)) ∧ u.after = z := by
  generalize hall : turns ++ [u] = all at h
  cases h with
  | start => simp at hall
  | next hrun hstep =>
      obtain ⟨rfl, hu⟩ := List.append_inj' hall rfl
      obtain rfl := List.singleton_inj.mp hu
      exact ⟨hrun, ⟨_, hstep⟩, rfl⟩

/-- A run up to one of its turns, the step of this turn, and the run from there. -/
theorem Run.cut {past rest : List Turn} {t : Turn} (h : Run rules x (past ++ t :: rest) z) :
    Run rules x past t.before ∧
      (∃ counts, t.before.step rules t.action = some (t.after, counts)) ∧
      Run rules t.after rest z := by
  induction rest using List.reverseRecOn generalizing z with
  | nil =>
      obtain ⟨hpast, hstep, rfl⟩ := h.last
      exact ⟨hpast, hstep, .start⟩
  | append_singleton rest u ih =>
      have hsplit : past ++ t :: (rest ++ [u]) = (past ++ t :: rest) ++ [u] := by simp
      rw [hsplit] at h
      obtain ⟨hbefore, ⟨counts, hlast⟩, rfl⟩ := h.last
      obtain ⟨hpast, hstep, hrest⟩ := ih hbefore
      exact ⟨hpast, hstep, hrest.next hlast⟩

/-- What did not hold at the start and holds at the end has come about in some turn. -/
theorem Run.crossing {P : Transaction → Prop} (h : Run rules x turns z) (hx : ¬ P x) (hz : P z) :
    ∃ past t rest, turns = past ++ t :: rest ∧ ¬ P t.before ∧ P t.after := by
  induction h with
  | start => exact absurd hz hx
  | @next turns y z action counts hrun hstep ih =>
      by_cases hy : P y
      · obtain ⟨past, t, rest, rfl, hbefore, hafter⟩ := ih hy
        exact ⟨past, t, rest ++ [⟨y, action, z⟩], by simp, hbefore, hafter⟩
      · exact ⟨turns, _, [], rfl, hy, hz⟩

end Runs

/-- A step of an operation is one of its moves. -/
theorem Transaction.Sound.advance {rules : Rules} {x y : Transaction} {a : Action}
    {counts : OutcomeCounts} (hx : x.Sound) (h : x.step rules a = some (y, counts)) {i : Nat}
    (hi : a.operation? = some i) {s : Stage} (hs : x.stage? i = some s) :
    ∃ r' s', Advance rules x.record a s r' s' ∧ x.Moved i s r' s' y := by
  rcases step_cases hx.shape hx.fits h with ⟨q, rfl, -⟩ | ⟨i', s₀, r', s', hi', hm, hy⟩
  · cases hi
  · obtain rfl := Option.some.inj (hi.symm.trans hi')
    obtain rfl := Option.some.inj (hs.symm.trans hy.stage)
    exact ⟨r', s', hm, hy⟩

/-- What comes about in the record comes about in a move. -/
theorem Run.crossing_move {rules : Rules} {x z : Transaction} {turns : List Turn}
    {P : Record → Prop} (h₀ : x.Sound) (h : Run rules x turns z) (hx : ¬ P x.record)
    (hz : P z.record) :
    ∃ past t rest, turns = past ++ t :: rest ∧ ¬ P t.before.record ∧ P t.after.record ∧
      Run rules x past t.before ∧ t.before.Sound ∧ t.after.Sound ∧ Run rules t.after rest z ∧
      ∃ i s s', t.action.operation? = some i ∧
        Advance rules t.before.record t.action s t.after.record s' ∧
        t.before.Moved i s t.after.record s' t.after := by
  obtain ⟨past, t, rest, rfl, hbefore, hafter⟩ := h.crossing (P := fun x => P x.record) hx hz
  obtain ⟨hpast, ⟨counts, hstep⟩, hrest⟩ := h.cut
  have ht := hpast.sound h₀
  rcases Transaction.step_cases ht.shape ht.fits hstep with
    ⟨q, -, hbegun⟩ | ⟨i, s, r', s', hi, hm, hy⟩
  · -- a request that comes in leaves the record as it is
    rw [hbegun] at hafter
    exact absurd hafter hbefore
  · obtain rfl := hy.record
    exact ⟨past, t, rest, rfl, hbefore, hafter, hpast, ht, ht.step hstep, hrest, i, s, s', hi, hm,
      hy⟩

/-! ## How a record is decided -/

/-- How a visit aborts a record: what becomes of the lease, the cause, and the time. -/
inductive Stage.Aborts (r : Record) (t : Readings) :
    Stage → Lease → AbortCause → Timestamp → Prop
  | forfeits {q : Request} {lease : Lease} {cause : AbortCause} {now : Timestamp} :
    r.lease.Forfeits t q lease cause now → Aborts r t (.requested q) lease cause now
  | refuses {s : Stage} {lease : Lease} {cause : AbortCause} {now : Timestamp} :
    r.phase = .voting → s.Refuses r.lease t lease cause now → Aborts r t s lease cause now
  | lapses : r.phase = .voting → r.lease.hasLapsed t.first = true →
    Aborts r t .deciding r.lease.markExpired .leaseExpired t.second
  | interrupts {m : String} : r.phase = .voting →
    Aborts r t (.unwinding m) r.lease .interrupted t.first

section Moves

variable {rules : Rules} {r r' : Record} {a : Action} {s s' : Stage}

theorem Advance.aborts (h : Advance rules r a s r' s') (hp : r.phase ≠ .aborted)
    (hp' : r'.phase = .aborted) :
    ∃ i t lease cause now, a = .visit i t ∧ s.Aborts r t lease cause now ∧ r'.lease = lease ∧
      r'.abortCause = some cause ∧ r'.settledAt = some now := by
  cases h with
  | abort hu hforfeits =>
      exact ⟨_, _, _, _, _, rfl, .forfeits hforfeits, rfl, rfl, rfl⟩
  | refuse hv _ _ hrefuses =>
      exact ⟨_, _, _, _, _, rfl, .refuses hv hrefuses, rfl, rfl, rfl⟩
  | lapse hv hl => exact ⟨_, _, _, _, _, rfl, .lapses hv hl, rfl, rfl, rfl⟩
  | interruptVote hv => exact ⟨_, _, _, _, _, rfl, .interrupts hv, rfl, rfl, rfl⟩
  | openVote | decide | decideSole => cases hp'
  | _ => exact absurd hp' hp

theorem Advance.commits (h : Advance rules r a s r' s') (hp : r.phase ≠ .committed)
    (hp' : r'.phase = .committed) :
    ∃ i t, a = .visit i t ∧ r.phase = .voting ∧ s.hasAllVotes = true ∧
      r.lease.hasLapsed t.first = false ∧ r'.lease = r.lease ∧ r'.settledAt = some t.first := by
  cases h with
  | decide hv hl => exact ⟨_, _, rfl, hv, rfl, hl, rfl, rfl⟩
  | decideSole hv hl => exact ⟨_, _, rfl, hv, rfl, hl, rfl, rfl⟩
  | abort | refuse | lapse | interruptVote | openVote => cases hp'
  | _ => exact absurd hp' hp

/-! ## What comes after -/

/-- Once the record is decided, only the operation that leads changes it. -/
theorem Advance.eq_of_terminal (h : Advance rules r a s r' s') (hs : s.leads = false)
    (hd : r.phase.isTerminal = true) : r' = r := by
  have hu : r.phase.isTerminal ≠ false := by simp [hd]
  cases h with
  | join hp | openVote hp => exact absurd hp (Phase.ne_active_of_isTerminal hd)
  | renew hfalse => exact absurd hfalse hu
  | abort hfalse => exact absurd hfalse hu
  | refuse _ _ hsettles | late _ _ hsettles => cases hsettles <;> cases hs
  | ask | askSole | prepared | lapse | decide | decideSole | rollForward | file | abandon
  | interruptVote | interruptCommit => cases hs
  | _ => rfl

/-- A slot changes only if it can be claimed or the answer to its question is counted. -/
theorem Advance.progress?_cases (h : Advance rules r a s r' s') {j : Nat} {p : Progress}
    (hj : r.registry.progress? j = some p) :
    r'.registry.progress? j = some p ∨ p.acceptsDecision = true ∨
      (p = .preparing ∧ s.holds = [j]) := by
  have hset : ∀ {g : Registry} {k : Nat} {q : Progress}, g.progress? j = some p → k ≠ j →
      (g.setProgress k q).progress? j = some p := by
    intro g k q hg hk
    rw [Registry.progress?_setProgress, if_neg hk]
    exact hg
  have hclaim : ∀ {g : Registry} {how : Settlement}, g.progress? j = some p →
      (g.claimAll how).1.progress? j = some p ∨ p.acceptsDecision = true := by
    intro g how hg
    cases hp : p.acceptsDecision with
    | true => exact .inr rfl
    | false =>
        rw [Registry.progress?_claimAll, hg]
        exact .inl (by simp [Progress.claimed, hp])
  -- a question that goes out needs a slot to which nothing was sent
  have hask : ∀ {k : Nat}, r.registry.progress? k = some .joined → k = j →
      p.acceptsDecision = true := by
    rintro k hk rfl
    rw [hk] at hj
    cases hj
    rfl
  have hanswer : ∀ {k : Nat}, r.registry.progress? k = some .preparing → k = j →
      p = .preparing := by
    rintro k hk rfl
    rw [hk] at hj
    exact (Option.some.inj hj).symm
  cases h with
  | join =>
      refine .inl ?_
      have hlt := Registry.lt_size_of_progress? hj
      rw [Record.withRegistry_registry, Registry.progress?_enlist, if_neg (by omega)]
      exact hj
  | abort => exact (hclaim (g := r.registry.freeze) hj).imp_right .inl
  | rollForward | abandon => exact (hclaim hj).imp_right .inl
  | @ask _ k _ _ _ _ hk =>
      by_cases hkj : k = j
      · exact .inr (.inl (hask hk hkj))
      · exact .inl (hset hj hkj)
  | askSole _ hk =>
      by_cases hkj : 0 = j
      · exact .inr (.inl (hask hk hkj))
      · exact .inl (hset hj hkj)
  | @prepared _ k _ _ hk =>
      by_cases hkj : k = j
      · exact .inr (.inr ⟨hanswer hk hkj, by rw [← hkj]; rfl⟩)
      · exact .inl (hset hj hkj)
  | @refuse _ k _ _ _ _ _ _ _ hk hsettles =>
      by_cases hkj : k = j
      · exact .inr (.inr ⟨hanswer hk hkj, by rw [← hkj]; exact hsettles.holds_eq⟩)
      · exact .inl (hset (g := r.registry.freeze) hj hkj)
  | @late _ k _ _ _ _ hk hsettles =>
      by_cases hkj : k = j
      · exact .inr (.inr ⟨hanswer hk hkj, by rw [← hkj]; exact hsettles.holds_eq⟩)
      · exact .inl (hset hj hkj)
  | decideSole _ _ hk =>
      by_cases hkj : 0 = j
      · exact .inr (.inr ⟨hanswer hk hkj, by rw [← hkj]; rfl⟩)
      · exact .inl (hset (g := r.registry.freeze) hj hkj)
  | _ => exact .inl hj

/-- A settled slot stays as it is settled. -/
theorem Advance.settled_stays (h : Advance rules r a s r' s') {j : Nat} {how : Settlement}
    (hj : r.registry.progress? j = some (.settled how)) :
    r'.registry.progress? j = some (.settled how) := by
  rcases h.progress?_cases hj with hsame | haccepts | ⟨hpreparing, -⟩
  · exact hsame
  · cases haccepts
  · cases hpreparing

end Moves

end LeasedCommit
