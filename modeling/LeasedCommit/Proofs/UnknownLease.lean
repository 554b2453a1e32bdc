import LeasedCommit.Proofs.Tenancy

set_option autoImplicit false

/-! # Unknown leases

A renewal or a cancellation is refused for many reasons: nothing has the number, the transaction is
decided, its lease has just been found lapsed or is not valid, or there is no manager any more. All
of them are final. What the manager refuses it refuses of a decided transaction
(`Tenancy.HasRefused.settled`), and a decided transaction refuses everything about its lease from
then on (`Tenancy.refuses_of_settled`), whatever the clock does. -/

namespace LeasedCommit

namespace Tenancy

variable {config : Config} {t t' t₀ t₁ t₂ : Tenancy} {tasks : List Task}
  {turns₀ turns₁ turns₂ : List Manager.Turn} {k i : Nat} {c : LeaseCall} {answer : Answer}
  {id : TransactionId}

/-! ## What is refused -/

/-- Something that was asked about a lease after `t` has been refused by the manager of `t'`, which
has been asked for `tasks`. -/
inductive HasRefused (t : Tenancy) (tasks : List Task) (id : TransactionId) (t' : Tenancy) : Prop
  | errand {i : Nat} {task : Task} : t.manager.errands.length ≤ i → tasks[i]? = some task →
    task.IsLease id →
    t'.manager.errand? i = some (.finished (.refused (.unknownLease id))) →
    HasRefused t tasks id t'
  | call {k i : Nat} {c : LeaseCall} : t.calls.length ≤ k → t'.calls[k]? = some c →
    c.task.IsLease id → c.errand = some i → c.answer = some (.refused (.unknownLease id)) →
    HasRefused t tasks id t'

/-- The call with this number can return with an answer, or has done so. -/
def CanAnswer (t : Tenancy) (k : Nat) (answer : Answer) : Prop :=
  ∃ more t' c, t.Leads more t' ∧ (∀ u ∈ more, u.move.IsSteady) ∧ t'.calls[k]? = some c ∧
    c.answer = some answer

/-- Whatever was asked about a lease after `t` is refused as unknown in `t'`, or will be. -/
structure Refuses (t : Tenancy) (tasks : List Task) (id : TransactionId) (t' : Tenancy) : Prop where
  errands : ∀ (i : Nat) (task : Task), t.manager.errands.length ≤ i → tasks[i]? = some task →
    task.IsLease id → t'.manager.CanRefuse id i ∧
      ∀ e, t'.manager.errand? i = some e → e.isOver = true →
        e = .finished (.refused (.unknownLease id))
  calls : ∀ (k : Nat) (c : LeaseCall), t.calls.length ≤ k → t'.calls[k]? = some c →
    c.task.IsLease id → t'.CanAnswer k (.refused (.unknownLease id)) ∧
      ∀ answer, c.answer = some answer → answer = .refused (.unknownLease id)

theorem returned?_of_errand (hnone : c.answer = none) (hi : c.errand = some i)
    (he : t.manager.errand? i = some (.finished (.answered answer))) :
    t.returned? c = some answer := by
  rw [returned?, hnone, hi, Option.bind_some, he]

/-- A call that is declined can return, since it keeps the manager. -/
theorem Sound.canAnswer {e : Errand} (hs : t.Sound tasks) (hc : t.calls[k]? = some c)
    (hi : c.errand = some i) (hnone : c.answer = none) (he : t.manager.errand? i = some e)
    (hdeclines : t.manager.Declines id c.task e) (hcan : t.manager.CanRefuse id i) :
    t.CanAnswer k (.refused (.unknownLease id)) := by
  cases halive : t.alive with
  | false =>
      have hidle := hs.idle halive
      simp only [isIdle, Bool.and_eq_true, List.all_eq_true] at hidle
      have hover := hdeclines.over_eq (hidle.1 e (List.mem_of_getElem? he))
      have hreturned := returned?_of_errand hnone hi (hover ▸ he)
      have hunreturned := hidle.2 c (List.mem_of_getElem? hc)
      rw [hreturned] at hunreturned
      cases hunreturned
  | true =>
      obtain ⟨moves, more, d, hplay, hsteady, hd⟩ := hcan
      have hleads := Leads.of_play_manager moves halive hplay
      have hreturned : returned? { t with manager := d } c =
          some (.refused (.unknownLease id)) := returned?_of_errand hnone hi hd
      have hstep : Tenancy.step { t with manager := d } (.returns k) =
          some (settle { t with manager := d } k c (.refused (.unknownLease id))) := by
        simp only [Tenancy.step, hc, Option.bind_some, hreturned, Option.map_some]
      have hset : (settle { t with manager := d } k c (.refused (.unknownLease id))).calls[k]? =
          some { c with answer := some (.refused (.unknownLease id)) } :=
        List.getElem?_set_self (List.getElem?_eq_some_iff.mp hc).1
      refine ⟨_, _, _, hleads.next hstep, fun u hu => ?_, hset, rfl⟩
      rcases List.mem_append.mp hu with hu | hu
      · exact hsteady u hu
      · cases hu

/-- What the manager refuses shows that the transaction is decided. -/
theorem HasRefused.settled {creator : Nat} {expiration : Expiration}
    (h₀ : (create config).Leads turns₀ t₀) (h₁ : t₀.Leads turns₁ t₁)
    (hsteady : ∀ u ∈ turns₁, u.move.IsSteady)
    (hcreated : t₀.manager.errand? creator = some (.finished (.created id expiration)))
    (hone : t₁.manager.NumbersOne id)
    (hrefused : HasRefused t₀ (Manager.asked (turns₀ ++ turns₁)) id t₁) :
    t₁.manager.Settled id := by
  have hpast : Manager.Run config turns₀ t₀.manager := h₀.run .start
  have hrun := h₁.run hpast
  have hnamed : t₀.manager.named? creator = some id :=
    Option.bind_eq_some_iff.mpr ⟨_, hcreated, rfl⟩
  have hsettled : ∀ {i : Nat} {task : Task}, t₀.manager.errands.length ≤ i →
      (Manager.asked (turns₀ ++ turns₁))[i]? = some task → task.IsLease id →
      t₁.manager.errand? i = some (.finished (.refused (.unknownLease id))) →
      t₁.manager.Settled id := fun hi htask hlease he =>
    hrun.refused_settled hpast hsteady hone hnamed hi htask hlease (Manager.answer?_answered he)
  cases hrefused with
  | errand hi htask hlease he => exact hsettled hi htask hlease he
  | @call k i c hk hc hlease hi ha =>
      obtain ⟨htask, hanswer⟩ := (h₀.trans h₁).sound.pursued k c i hc hi
      exact hsettled (h₁.asks hk hc hi) htask hlease (hanswer _ ha)

/-- What is asked about the lease of a decided transaction is refused. -/
theorem refuses_of_settled {past more : List Manager.Turn} (hpast : (create config).Leads past t)
    (h : t.Leads more t') (hone : t'.manager.NumbersOne id) (hsettled : t.manager.Settled id) :
    t.Refuses (Manager.asked (past ++ more)) id t' := by
  have hbefore : Manager.Run config past t.manager := hpast.run .start
  have hrun := h.run hbefore
  have hsettled' : t'.manager.Settled id :=
    hrun.since (P := fun _ m => m.Settled id) hbefore hsettled
      fun _ _ _ hrun ih hstep => ih.step hrun.reached hstep
  have hsound := (hpast.trans h).sound
  refine ⟨fun i task hi htask hlease => ?_, fun k c hk hc hlease => ?_⟩
  · obtain ⟨e, he, hd⟩ := hrun.declines hbefore hone hsettled hi htask hlease
    refine ⟨hd.canRefuse hrun hone hsettled' hlease he, fun e' he' hover => ?_⟩
    obtain rfl := Option.some.inj (he.symm.trans he')
    exact hd.over_eq hover
  · cases hi : c.errand with
    | none =>
        obtain ⟨id', hlease', ha⟩ := hsound.orphaned k c hc hi
        obtain rfl : id = id' := Option.some.inj (hlease.id?.symm.trans hlease'.id?)
        refine ⟨⟨[], t', c, .start, fun _ hu => (nomatch hu), hc, ha⟩, fun answer ha' => ?_⟩
        exact Option.some.inj (ha'.symm.trans ha)
    | some i =>
        obtain ⟨htask, hanswer⟩ := hsound.pursued k c i hc hi
        obtain ⟨e, he, hd⟩ := hrun.declines hbefore hone hsettled (h.asks hk hc hi) htask hlease
        have hrefusal : ∀ answer, c.answer = some answer →
            answer = .refused (.unknownLease id) := by
          intro answer ha
          obtain rfl := Option.some.inj (he.symm.trans (hanswer answer ha))
          cases hd.over_eq rfl
          rfl
        refine ⟨?_, hrefusal⟩
        cases ha : c.answer with
        | none =>
            exact hsound.canAnswer hc hi ha he hd (hd.canRefuse hrun hone hsettled' hlease he)
        | some answer =>
            obtain rfl := hrefusal answer ha
            exact ⟨[], t', c, .start, fun _ hu => (nomatch hu), hc, ha⟩

/-! ## What is accepted -/

/-- At most one cancellation of a lease has been accepted, and if one has, the transaction is
decided. -/
structure CancelledOnce (tasks : List Task) (id : TransactionId) (t : Tenancy) : Prop where
  settled : ∀ i, tasks[i]? = some (.cancel id) →
    t.manager.errand? i = some (.finished (.answered .done)) → t.manager.Settled id
  errands : ∀ i j, tasks[i]? = some (.cancel id) → tasks[j]? = some (.cancel id) →
    t.manager.errand? i = some (.finished (.answered .done)) →
    t.manager.errand? j = some (.finished (.answered .done)) → i = j
  calls : ∀ (k k' : Nat) (c c' : LeaseCall), t.calls[k]? = some c → t.calls[k']? = some c' →
    c.task = .cancel id → c'.task = .cancel id → c.answer = some .done →
    c'.answer = some .done → k = k'

theorem Leads.cancelledOnce (h : (create config).Leads turns₀ t)
    (hsteady : ∀ u ∈ turns₀, u.move.IsSteady) (hone : t.manager.NumbersOne id) :
    t.CancelledOnce (Manager.asked turns₀) id := by
  have hsound := h.sound
  obtain ⟨hdecides, honce⟩ := (h.run .start).cancelled_once hsteady hone
  have haccepted : ∀ {k : Nat} {c : LeaseCall}, t.calls[k]? = some c → c.task = .cancel id →
      c.answer = some .done → ∃ i, c.errand = some i ∧
        (Manager.asked turns₀)[i]? = some (.cancel id) ∧ t.manager.answer? i = some .done := by
    intro k c hc htask ha
    cases hi : c.errand with
    | none =>
        obtain ⟨id', -, ha'⟩ := hsound.orphaned k c hc hi
        cases ha.symm.trans ha'
    | some i =>
        obtain ⟨hasked, hanswer⟩ := hsound.pursued k c i hc hi
        exact ⟨i, rfl, htask ▸ hasked, Manager.answer?_answered (hanswer _ ha)⟩
  refine ⟨fun i hi he => hdecides i hi (Manager.answer?_answered he), fun i j hi hj he he' =>
    honce i j hi hj (Manager.answer?_answered he) (Manager.answer?_answered he'),
    fun k k' c c' hc hc' htask htask' ha ha' => ?_⟩
  obtain ⟨i, hi, hasked, hdone⟩ := haccepted hc htask ha
  obtain ⟨j, hj, hasked', hdone'⟩ := haccepted hc' htask' ha'
  obtain rfl := honce i j hasked hasked' hdone hdone'
  exact hsound.apart k k' c c' i hc hc' hi hj

/-! ## The main result -/

/-- **An unknown lease stays unknown.** A transaction has been created in `t₀`, its number is given
to no other one, and `t₁` and `t₂` are any two later moments. Calls of any number of holders
interleave with everything else that the manager does, and the clock goes where it likes between
two visits of a record.

1. If the manager has refused a renewal or a cancellation by `t₁`, the transaction is decided by
   then, and may have been evicted. From then on every renewal and cancellation is refused, through
   the manager or through any handle, also after the eviction and when there is no manager any
   more. None of them is kept from its answer.
2. At most one cancellation is accepted.
3. A renewal or a cancellation of the manager that ends with anything but a renewal has not changed
   the expiration of a lease in any of its moves.
4. A handle keeps its expiration unless a renewal through it returns with a new one.

Until `2 ^ 64` transactions have been created each number is given to one only
(`Manager.numbersOne_of_issued`). -/
theorem unknownLease_final {j : Nat} {expiration : Expiration}
    (h₀ : (create config).Leads turns₀ t₀) (h₁ : t₀.Leads turns₁ t₁) (h₂ : t₁.Leads turns₂ t₂)
    (hsteady : ∀ u ∈ turns₀ ++ turns₁ ++ turns₂, u.move.IsSteady)
    (hcreated : t₀.manager.errand? j = some (.finished (.created id expiration)))
    (hone : t₂.manager.NumbersOne id) :
    (HasRefused t₀ (Manager.asked (turns₀ ++ turns₁)) id t₁ →
      t₁.manager.Settled id ∧
        t₁.Refuses (Manager.asked (turns₀ ++ turns₁ ++ turns₂)) id t₂) ∧
    t₂.CancelledOnce (Manager.asked (turns₀ ++ turns₁ ++ turns₂)) id ∧
    (∀ (i : Nat) (task : Task) (e : Errand),
      (Manager.asked (turns₀ ++ turns₁ ++ turns₂))[i]? = some task → task.IsLease id →
      t₂.manager.errand? i = some e → e.isOver = true →
      (∀ expiration', e ≠ .finished (.answered (.renewed expiration'))) →
      ∀ u ∈ turns₀ ++ turns₁ ++ turns₂, u.IsFor i → u.before.KeepsExpirations u.after) ∧
    ∀ (n : Nat) (x : LeaseHandle), t₁.handles[n]? = some x →
      t₂.handles[n]? = some x ∨
      ∃ (k : Nat) (c : LeaseCall) (expiration' : Expiration), t₂.calls[k]? = some c ∧
        c.handle = n ∧ c.answer = some (.renewed expiration') ∧
        (∀ c₁, t₁.calls[k]? = some c₁ → c₁.answer = none) ∧
        t₂.handles[n]? = some { x with expiration := expiration' } := by
  have h₀₁ := h₀.trans h₁
  have hleads := h₀₁.trans h₂
  have hrun : Manager.Run config (turns₀ ++ turns₁ ++ turns₂) t₂.manager := hleads.run .start
  refine ⟨fun hrefused => ?_, hleads.cancelledOnce hsteady hone,
    fun i task e htask hlease he hover hfailed u hu hfor => ?_, fun n x hn => h₂.handle hn⟩
  · have hsteady₁ : ∀ u ∈ turns₁, u.move.IsSteady := fun u hu =>
      hsteady u (List.mem_append_left _ (List.mem_append_right _ hu))
    have hsettled := hrefused.settled h₀ h₁ hsteady₁ hcreated (hone.of_le h₂.grows.2)
    exact ⟨hsettled, refuses_of_settled h₀₁ h₂ hone hsettled⟩
  · exact hrun.expirations_kept hsteady htask hlease he hover hfailed hu hfor

/-- A transaction with a lease of one second is created. -/
def creatingMoves : List Move :=
  let proceed : Move := .moves (.proceed 0 .epoch)
  [.moves (.ask (.create (.bounded (.ofSecs 1)))), proceed, proceed, proceed]

/-- Its creator renews the lease after ten seconds. -/
def renewingMoves : List Move :=
  [.grant 0, .copy 0, .renew 0 .any, .moves (.proceed 1 .epoch),
    .moves (.act 0 (.visit 0 (.steady (.ofSecs 10)))), .moves (.proceed 1 .epoch), .returns 0]

/-- The clock goes back and the lease is renewed through the other handle. Then the transaction is
evicted, a cancellation is asked for, the manager is dropped, and the lease is cancelled. -/
def droppingMoves : List Move :=
  let proceed (errand : Nat) : Move := .moves (.proceed errand .epoch)
  [.renew 1 .any, proceed 2, .moves (.act 0 (.visit 1 (.steady .epoch))), proceed 2, .returns 1,
    .moves (.ask .sweep), .moves (.survey 3 (.ofSecs 100) [⟨⟨1⟩, 0⟩]), proceed 3,
    .moves (.act 0 (.visit 2 (.steady (.ofSecs 100)))), proceed 3, proceed 3,
    .moves (.ask (.cancel ⟨1⟩)), proceed 4, .drop, .cancel 0]

/-- The first renewal finds that the lease has lapsed. Everything that is asked for later is refused
as well: the renewal within the second of the lease, the cancellation after the eviction, and the
one without a manager. -/
theorem unknownLease_final_dropping :
    ∃ turns₀ turns₁ turns₂ t₀ t₁ t₂, (create .standard).Leads turns₀ t₀ ∧ t₀.Leads turns₁ t₁ ∧
      t₁.Leads turns₂ t₂ ∧ t₁.manager.Settled ⟨1⟩ ∧
      t₁.Refuses (Manager.asked (turns₀ ++ turns₁ ++ turns₂)) ⟨1⟩ t₂ ∧
      t₂.alive = false ∧ t₂.manager.entry? ⟨1⟩ = none ∧
      t₂.manager.errand? 4 = some (.finished (.refused (.unknownLease ⟨1⟩))) ∧
      t₂.calls.map LeaseCall.answer =
        List.replicate 3 (some (.refused (.unknownLease ⟨1⟩))) ∧
      t₂.handles = List.replicate 2 ⟨⟨1⟩, .at (.ofSecs 1)⟩ := by
  have h₀ : (create .standard).Leads _ _ := Leads.of_play creatingMoves rfl
  have h₁ := h₀.of_play_after renewingMoves rfl
  have h₂ := h₁.of_play_after droppingMoves rfl
  obtain ⟨hfinal, -⟩ := unknownLease_final h₀ h₁ h₂ (by decide) (j := 0) rfl
    (Manager.numbersOne_of_issued (by decide) ⟨1⟩)
  let refused : Answer := .refused (.unknownLease ⟨1⟩)
  obtain ⟨hsettled, hrefuses⟩ := hfinal
    (.call (k := 0) (c := ⟨0, .renew ⟨1⟩ .any, some 1, some refused⟩) (Nat.zero_le _) rfl rfl rfl
      rfl)
  exact ⟨_, _, _, _, _, _, h₀, h₁, h₂, hsettled, hrefuses, rfl, rfl, rfl, rfl, rfl⟩

end Tenancy

end LeasedCommit
