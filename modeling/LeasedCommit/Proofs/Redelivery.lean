import LeasedCommit.Proofs.OwnMoves

set_option autoImplicit false

/-! # Repeated commit calls

A commit call that is lost is repeated until it comes back, is refused, or has been repeated as
often as the policy allows. The calls to a participant are counted in 32 bits, and the number of
the present call is what is compared with the policy. So the delivery ends for every policy but
one: if it allows `2^32 - 1` repetitions the comparison never fails, the count comes back to zero,
and a participant whose calls are all lost is called for ever.

`Delivery.Stands` says where a delivery stands after any number of lost calls, and `Run.stands`
that it does so along every run. -/

namespace LeasedCommit

namespace Response

/-- Whether the call or its reply was lost. -/
def isLost : Response Unit → Bool
  | .answered _ => false
  | .failed error => error.isCommunication

/-- What is filed for a commit call that was the last one and came back so. -/
def failure? (position : Nat) (attempts : UInt32) : Response Unit → Option CommitFailure
  | .answered _ => none
  | .failed error => some { position := position, error := error, attempts := attempts }

end Response

/-- Whether commit call number `n` is repeated when it comes back so. -/
def RollForwardPolicy.goesOn (p : RollForwardPolicy) (n : Nat) (response : Response Unit) : Bool :=
  response.isLost && UInt32.ofNat n ≤ p.maxRetries

/-- The replies that have come in are the first ones of a sequence. -/
def Follows (replies : Nat → Response Unit) (heard : List (Reply Unit)) : Prop :=
  heard = (List.range heard.length).map fun k => .returned (replies k)

namespace Delivery

/-- The call that a delivery makes. -/
def call (d : Delivery) : Call :=
  { position := d.claim.position, participant := d.claim.participant, verb := .commit }

/-- The delivery at call number `n`, as far as the count goes. -/
def attempt (d : Delivery) (n : Nat) : Delivery := { d with attempts := .ofNat n }

/-- Where a delivery that began with `d` stands after `n` lost calls: call number `n + 1` is out, or
the pause before it is not over. The calls are those after the first one. -/
def Stands (d : Delivery) (n : Nat) (calls : List Call) (s : Stage) : Prop :=
  (s = .commitPending (d.attempt (n + 1)) ∧ calls = List.replicate n d.call) ∨
  ∃ k, n = k + 1 ∧ s = .pausing (d.attempt n) ∧ calls = List.replicate k d.call

/-- After `n` replies of the sequence the delivery of operation `i` is not over: it stands where
`n` lost calls lead, and one more reply can come in. There is such a run. -/
structure GoesOn (d : Delivery) (rules : Rules) (x : Transaction) (i : Nat)
    (replies : Nat → Response Unit) (n : Nat) : Prop where
  stands : ∀ turns y, Run rules x turns y → Follows replies (heardBy i turns) →
    (heardBy i turns).length = n → ∃ s, y.stage? i = some s ∧ d.Stands n (callsOf i turns) s
  hears : ∀ turns y, Run rules x turns y → Follows replies (heardBy i turns) →
    (heardBy i turns).length = n → ∀ response, ∃ more z, Run rules y more z ∧
      heardBy i more = [.returned response]
  reached : ∃ turns y, Run rules x turns y ∧ Follows replies (heardBy i turns) ∧
    (heardBy i turns).length = n

/-- Reply `n` of the sequence, counted from zero, ends the delivery of operation `i`: the first call
has been repeated `n` times by then, and the operation goes on to the next participant with what
the reply leaves to be filed. -/
def EndsWith (d : Delivery) (rules : Rules) (x : Transaction) (i : Nat)
    (replies : Nat → Response Unit) (n : Nat) : Prop :=
  ∀ turns y z counts, Run rules x turns y → Follows replies (heardBy i turns) →
    (heardBy i turns).length = n →
    y.step rules (.acknowledge i (.returned (replies n))) = some (z, counts) →
    callsOf i turns = List.replicate n d.call ∧
      z.stage? i = some (.deliverCommits x.record.id d.participants d.rest
        (d.failures ++ ((replies n).failure? d.claim.position (.ofNat (n + 1))).toList))

end Delivery

/-! ## The replies of a sequence -/

namespace Follows

variable {replies : Nat → Response Unit} {heard more : List (Reply Unit)} {reply : Reply Unit}

theorem nil (replies : Nat → Response Unit) : Follows replies [] := rfl

theorem of_append (h : Follows replies (heard ++ more)) : Follows replies heard := by
  have htake := congrArg (List.take heard.length) h
  rwa [List.take_left, List.length_append, ← List.map_take, List.take_range,
    Nat.min_eq_left (Nat.le_add_right ..)] at htake

/-- The reply that comes in next is the next one of the sequence. -/
theorem concat_iff : Follows replies (heard ++ [reply]) ↔
    Follows replies heard ∧ reply = .returned (replies heard.length) := by
  have hrange : (List.range (heard.length + 1)).map (fun k => Reply.returned (replies k)) =
      (List.range heard.length).map (fun k => .returned (replies k)) ++
        [.returned (replies heard.length)] := by
    rw [List.range_succ, List.map_append, List.map_singleton]
  rw [Follows, List.length_append, List.length_singleton, hrange]
  constructor
  · intro h
    obtain ⟨hheard, hreply⟩ := List.append_inj h (by simp)
    exact ⟨hheard, List.singleton_inj.mp hreply⟩
  · rintro ⟨hheard, rfl⟩
    rw [← show heard = (List.range heard.length).map _ from hheard]

end Follows

/-! ## One move of a delivery -/

namespace Stage

variable {rules : Rules} {r r' : Record} {a : Action} {i : Nat} {s' : Stage} {d : Delivery}

/-- A lost call is to be repeated. -/
theorem hearDone_goesOn {p : RollForwardPolicy} {n : Nat} {response : Response Unit}
    (h : p.goesOn n response = true) (id : TransactionId) (d : Delivery) :
    (Stage.commitPending (d.attempt n)).hearDone p id (.returned response) =
      some (.pausing (d.attempt n)) := by
  cases response with
  | answered answer => cases h
  | failed error => exact if_pos h

/-- A call that is not repeated is the last one, and what it leaves is filed. -/
theorem hearDone_ends {p : RollForwardPolicy} {n : Nat} {response : Response Unit}
    (h : p.goesOn n response = false) (id : TransactionId) (d : Delivery) :
    (Stage.commitPending (d.attempt n)).hearDone p id (.returned response) =
      some (.deliverCommits id d.participants d.rest
        (d.failures ++ (response.failure? d.claim.position (.ofNat n)).toList)) := by
  cases response with
  | answered answer =>
      simp only [hearDone, Response.failure?, Option.toList_none, List.append_nil]
      rfl
  | failed error => exact if_neg (Bool.not_eq_true _ ▸ h)

/-- A commit call can come back with every response. -/
theorem exists_hearDone (p : RollForwardPolicy) (id : TransactionId) (d : Delivery)
    (response : Response Unit) :
    ∃ s', (Stage.commitPending d).hearDone p id (.returned response) = some s' := by
  cases response with
  | answered answer => exact ⟨_, rfl⟩
  | failed error =>
      by_cases h : p.repeats error d.attempts = true
      · exact ⟨_, if_pos h⟩
      · exact ⟨_, if_neg h⟩

/-- While a commit call is out an operation moves when it comes back. -/
theorem go?_commitPending (hi : a.operation? = some i)
    (h : (Stage.commitPending d).go? rules r a = some (r', s')) :
    ∃ reply, a = .acknowledge i reply ∧
      (Stage.commitPending d).hearDone rules.rollForward r.id reply = some s' := by
  cases a with
  | acknowledge j reply =>
      obtain rfl : j = i := Option.some.inj hi
      obtain ⟨s, hs, heq⟩ := Option.map_eq_some_iff.mp h
      exact ⟨reply, rfl, hs.trans (congrArg some (Prod.mk.inj heq).2)⟩
  | _ => cases h

/-- An operation that pauses moves when the pause is over. -/
theorem go?_pausing (hi : a.operation? = some i)
    (h : (Stage.pausing d).go? rules r a = some (r', s')) :
    a = .resume i ∧ s' = .commitPending { d with attempts := d.attempts + 1 } := by
  cases a with
  | resume j =>
      obtain rfl : j = i := Option.some.inj hi
      exact ⟨rfl, (Prod.mk.inj (Option.some.inj h)).2.symm⟩
  | _ => cases h

end Stage

/-! ## Along a run -/

section Runs

variable {rules : Rules} {x y : Transaction} {i : Nat} {d : Delivery}
  {replies : Nat → Response Unit} {n : Nat} {turns : List Turn}

open Delivery

/-- **A delivery stands where lost calls lead**, as long as each of them is to be repeated. -/
theorem Run.stands (hx : x.Sound) (hi : x.stage? i = some (.commitPending d))
    (hfirst : d.attempts = 1)
    (hlost : ∀ k < n, rules.rollForward.goesOn (k + 1) (replies k) = true)
    (h : Run rules x turns y) (hfollows : Follows replies (heardBy i turns))
    (hle : (heardBy i turns).length ≤ n) :
    ∃ s, y.stage? i = some s ∧ d.Stands (heardBy i turns).length (callsOf i turns) s := by
  refine Run.follow (H := fun heard => Follows replies heard ∧ heard.length ≤ n)
    (P := fun heard calls s => d.Stands heard.length calls s) hx hi ?_ ?_ ?_ ?_ h ⟨hfollows, hle⟩
  · rintro heard more ⟨hfollows, hle⟩
    rw [List.length_append] at hle
    exact ⟨hfollows.of_append, by omega⟩
  · refine .inl ⟨?_, rfl⟩
    show Stage.commitPending d = .commitPending { d with attempts := 1 }
    rw [← hfirst]
  · rintro heard calls s (⟨rfl, -⟩ | ⟨k, -, rfl, -⟩) w hw <;> cases hw
  · rintro heard calls s a r r' s' (⟨rfl, rfl⟩ | ⟨k, hk, rfl, rfl⟩) - hown hgo ⟨hfollows, hle⟩
    · -- a call is out: it comes back lost and is to be repeated
      obtain ⟨reply, rfl, hhear⟩ := Stage.go?_commitPending hown hgo
      have hheard : (Action.acknowledge i reply).heard? i = some reply := if_pos rfl
      rw [hheard, Option.toList_some] at hfollows hle ⊢
      rw [List.length_append, List.length_singleton] at hle ⊢
      obtain ⟨-, rfl⟩ := Follows.concat_iff.mp hfollows
      rw [Stage.hearDone_goesOn (hlost heard.length (by omega))] at hhear
      obtain rfl := Option.some.inj hhear
      exact .inr ⟨heard.length, rfl, rfl, List.append_nil _⟩
    · -- the pause ends and the call is repeated
      obtain ⟨rfl, rfl⟩ := Stage.go?_pausing hown hgo
      have hheard : heard ++ (Action.heard? i (.resume i)).toList = heard := List.append_nil _
      rw [hheard, hk]
      refine .inl ⟨?_, List.replicate_succ'.symm⟩
      rw [attempt, attempt, UInt32.ofNat_add (k + 1) 1]
      rfl

/-- A delivery that stands so can get one more reply. -/
theorem Delivery.Stands.hears {calls : List Call} {s : Stage} (rules : Rules)
    (hs : y.stage? i = some s) (h : d.Stands n calls s) (response : Response Unit) :
    ∃ more z, Run rules y more z ∧ heardBy i more = [.returned response] := by
  -- a call that is out can come back
  have hreply : ∀ {y : Transaction} {d : Delivery}, y.stage? i = some (.commitPending d) →
      ∃ z, y.step rules (.acknowledge i (.returned response)) = some (z, .zero) := by
    intro y d hs
    obtain ⟨s', hs'⟩ := Stage.exists_hearDone rules.rollForward y.record.id d response
    exact ⟨_, Transaction.step_acknowledge rules _ hs hs'⟩
  have hheard : (Action.acknowledge i (.returned response)).heard? i = some (.returned response) :=
    if_pos rfl
  rcases h with ⟨rfl, -⟩ | ⟨k, -, rfl, -⟩
  · obtain ⟨z, hstep⟩ := hreply hs
    exact ⟨_, z, Run.start.next hstep, by simp [heardBy, hheard]⟩
  · -- the pause ends first
    have hresume := Transaction.step_resume rules hs rfl
    obtain ⟨z, hstep⟩ := hreply ((Transaction.stage?_put hs).trans (if_pos rfl))
    exact ⟨_, z, (Run.start.next hresume).next hstep, by simp [heardBy, Action.heard?]⟩

/-- **As long as its calls are lost a delivery goes on.** -/
theorem Delivery.goesOn (replies : Nat → Response Unit) (hx : x.Sound)
    (hi : x.stage? i = some (.commitPending d)) (hfirst : d.attempts = 1)
    (hlost : ∀ k < n, rules.rollForward.goesOn (k + 1) (replies k) = true) :
    d.GoesOn rules x i replies n := by
  have hstands : ∀ turns y, Run rules x turns y → Follows replies (heardBy i turns) →
      (heardBy i turns).length ≤ n →
      ∃ s, y.stage? i = some s ∧ d.Stands (heardBy i turns).length (callsOf i turns) s :=
    fun turns y h hfollows hle => h.stands hx hi hfirst hlost hfollows hle
  refine ⟨fun turns y h hfollows hlength => ?_, fun turns y h hfollows hlength response => ?_, ?_⟩
  · obtain ⟨s, hs, hstands⟩ := hstands turns y h hfollows (Nat.le_of_eq hlength)
    exact ⟨s, hs, hlength ▸ hstands⟩
  · obtain ⟨s, hs, hstands⟩ := hstands turns y h hfollows (Nat.le_of_eq hlength)
    exact hstands.hears rules hs response
  · -- the replies come in one after the other
    have hreached : ∀ k ≤ n, ∃ turns y, Run rules x turns y ∧ Follows replies (heardBy i turns) ∧
        (heardBy i turns).length = k := by
      intro k hk
      induction k with
      | zero => exact ⟨[], x, .start, .nil replies, rfl⟩
      | succ k ih =>
          obtain ⟨turns, y, hrun, hfollows, hlength⟩ := ih (by omega)
          obtain ⟨s, hs, hstands⟩ := hstands turns y hrun hfollows (by omega)
          obtain ⟨more, z, hmore, hheard⟩ := hstands.hears rules hs (replies k)
          refine ⟨turns ++ more, z, hrun.trans hmore, ?_, ?_⟩
          · rw [heardBy_append, hheard]
            exact Follows.concat_iff.mpr ⟨hfollows, by rw [hlength]⟩
          · rw [heardBy_append, hheard, List.length_append, hlength, List.length_singleton]
    exact hreached n (Nat.le_refl n)

/-- **The first reply that does not lead to a repetition ends the delivery.** -/
theorem Delivery.endsWith (hx : x.Sound) (hi : x.stage? i = some (.commitPending d))
    (hfirst : d.attempts = 1)
    (hlost : ∀ k < n, rules.rollForward.goesOn (k + 1) (replies k) = true)
    (hlast : rules.rollForward.goesOn (n + 1) (replies n) = false) :
    d.EndsWith rules x i replies n := by
  intro turns y z counts h hfollows hlength hstep
  obtain ⟨s, hs, hstands⟩ := h.stands hx hi hfirst hlost hfollows (Nat.le_of_eq hlength)
  rw [hlength] at hstands
  rcases hstands with ⟨rfl, hcalls⟩ | ⟨k, -, rfl, -⟩
  · refine ⟨hcalls, ?_⟩
    rw [Transaction.step_acknowledge rules _ hs (Stage.hearDone_ends hlast y.record.id d)] at hstep
    obtain ⟨rfl, -⟩ := Prod.mk.inj (Option.some.inj hstep)
    rw [Transaction.stage?_put hs, if_pos rfl, h.id_eq hx]
  · -- no call is out during a pause
    rw [Transaction.step, hs] at hstep
    cases hstep

end Runs

/-! ## The main result -/

section Policies

variable {p : RollForwardPolicy} {replies : Nat → Response Unit}

/-- If the policy allows fewer than `2^32 - 1` repetitions, a lost call is repeated just if that
many have not been made. -/
theorem RollForwardPolicy.goesOn_iff {n : Nat} (hn : n < UInt32.size) (response : Response Unit) :
    p.goesOn n response = true ↔ response.isLost = true ∧ n ≤ p.maxRetries.toNat := by
  have hle : UInt32.ofNat n ≤ p.maxRetries ↔ n ≤ p.maxRetries.toNat := by
    rw [UInt32.le_iff_toNat_le, UInt32.toNat_ofNat_of_lt' hn]
  rw [goesOn, Bool.and_eq_true, decide_eq_true_iff, hle]

/-- A policy that allows `2^32 - 1` repetitions always allows one more. -/
theorem RollForwardPolicy.goesOn_of_max (h : p.maxRetries.toNat + 1 = UInt32.size) (n : Nat)
    (response : Response Unit) : p.goesOn n response = response.isLost := by
  have hle : UInt32.ofNat n ≤ p.maxRetries := by
    have hlt := (UInt32.ofNat n).toNat_lt_size
    rw [UInt32.le_iff_toNat_le]
    omega
  rw [goesOn, decide_eq_true hle, Bool.and_true]

/-- How often the first call is repeated: up to the first reply that is not a loss, and at most as
often as the policy allows. -/
theorem exists_repetitions (replies : Nat → Response Unit) (bound : Nat) :
    ∃ n ≤ bound, (∀ k < n, (replies k).isLost = true) ∧
      (n = bound ∨ (replies n).isLost = false) := by
  induction bound with
  | zero => exact ⟨0, Nat.le_refl 0, fun k hk => absurd hk (Nat.not_lt_zero k), .inl rfl⟩
  | succ bound ih =>
      obtain ⟨n, hn, hlost, hend⟩ := ih
      cases hn' : (replies n).isLost with
      | false => exact ⟨n, by omega, hlost, .inr hn'⟩
      | true =>
          obtain rfl : n = bound := hend.resolve_right (by simp [hn'])
          refine ⟨n + 1, Nat.le_refl _, fun k hk => ?_, .inl rfl⟩
          rcases Nat.lt_succ_iff_lt_or_eq.mp hk with hk | rfl
          · exact hlost k hk
          · exact hn'

end Policies

/-- **Repeated commit calls end, and are counted right, for every policy but one.** The first commit
call to a participant is out; operations that interleave in any way may move besides the one that
delivers. Its calls come back with the replies of any infinite sequence.

* If the policy allows `m < 2^32 - 1` repetitions, `n ≤ m` of them are made: the first `n` replies
  are losses, and reply `n` is not one or all repetitions are used up. Until then the delivery goes
  on, and with this reply it ends after `n + 1` calls in all. Nothing is filed if the reply is an
  acknowledgement, and otherwise a failure with the error of this reply and with the number of
  calls, which fits into the count.
* If the policy allows `2^32 - 1` repetitions, the same is true of the first reply that is not a
  loss, but the calls are counted modulo `2^32`. If there is no such reply the delivery never
  ends. -/
theorem redelivery_counted {rules : Rules} {id : TransactionId} {request : LeaseRequest}
    {now : Timestamp} {past : List Turn} {x : Transaction} {i : Nat} {d : Delivery}
    (hrun : Run rules (Transaction.opened rules.lease id request now) past x)
    (hi : x.stage? i = some (.commitPending d)) (hfirst : d.attempts = 1)
    (replies : Nat → Response Unit) :
    (rules.rollForward.maxRetries.toNat + 1 < UInt32.size →
      ∃ n ≤ rules.rollForward.maxRetries.toNat, (∀ k < n, (replies k).isLost = true) ∧
        (n = rules.rollForward.maxRetries.toNat ∨ (replies n).isLost = false) ∧
        (∀ k ≤ n, d.GoesOn rules x i replies k) ∧ d.EndsWith rules x i replies n ∧
        (UInt32.ofNat (n + 1)).toNat = n + 1) ∧
    (rules.rollForward.maxRetries.toNat + 1 = UInt32.size →
      (∀ n, (∀ k < n, (replies k).isLost = true) → (replies n).isLost = false →
        (∀ k ≤ n, d.GoesOn rules x i replies k) ∧ d.EndsWith rules x i replies n) ∧
      ((∀ k, (replies k).isLost = true) → ∀ n, d.GoesOn rules x i replies n)) := by
  have hx := hrun.sound (Transaction.sound_opened rules.lease id request now)
  refine ⟨fun hbound => ?_, fun hmax =>
    ⟨fun n hlost hlast => ⟨fun k hk => ?_, ?_⟩, fun hlost n => ?_⟩⟩
  · obtain ⟨n, hn, hlost, hend⟩ := exists_repetitions replies rules.rollForward.maxRetries.toNat
    have hgoesOn : ∀ k < n, rules.rollForward.goesOn (k + 1) (replies k) = true :=
      fun k hk => (RollForwardPolicy.goesOn_iff (by omega) _).mpr ⟨hlost k hk, by omega⟩
    have hlast : rules.rollForward.goesOn (n + 1) (replies n) = false := by
      rw [← Bool.not_eq_true, RollForwardPolicy.goesOn_iff (by omega)]
      rintro ⟨hlost', hle⟩
      rcases hend with rfl | hnot
      · omega
      · rw [hnot] at hlost'
        cases hlost'
    exact ⟨n, hn, hlost, hend,
      fun k hk => Delivery.goesOn replies hx hi hfirst fun j hj => hgoesOn j (by omega),
      Delivery.endsWith hx hi hfirst hgoesOn hlast, UInt32.toNat_ofNat_of_lt' (by omega)⟩
  · refine Delivery.goesOn replies hx hi hfirst fun j hj => ?_
    rw [RollForwardPolicy.goesOn_of_max hmax]
    exact hlost j (by omega)
  · refine Delivery.endsWith hx hi hfirst (fun j hj => ?_) ?_ <;>
      rw [RollForwardPolicy.goesOn_of_max hmax]
    · exact hlost j hj
    · exact hlast
  · refine Delivery.goesOn replies hx hi hfirst fun j _ => ?_
    rw [RollForwardPolicy.goesOn_of_max hmax]
    exact hlost j

/-- The rules under which a lost commit call is repeated that often. -/
def repeating (maxRetries : UInt32) : Rules :=
  { lease := .standard, rollForward := { maxRetries := maxRetries, backoff := Duration.zero } }

/-- The replies of a participant whose first call is lost, whose second one is refused, and which
then acknowledges. -/
def lostThenRefused : Nat → Response Unit
  | 0 => .failed (.communication "lost")
  | 1 => .failed (.protocol "refused")
  | _ => .answered ()

/-- With five repetitions allowed a call that is refused the second time is repeated once. -/
theorem redelivery_counted_refused :
    ∃ past x d, Run (repeating 5) (.opened .standard ⟨1⟩ .forever .epoch) past x ∧
      x.stage? 2 = some (.commitPending d) ∧ d.attempts = 1 ∧
      d.GoesOn (repeating 5) x 2 lostThenRefused 1 ∧
      d.EndsWith (repeating 5) x 2 lostThenRefused 1 ∧
      (lostThenRefused 1).failure? 0 (.ofNat 2) =
        some { position := 0, error := .protocol "refused", attempts := 2 } := by
  have hplay : (Transaction.opened .standard ⟨1⟩ .forever .epoch).play (repeating 5)
      (twoPartyCommit.take 14) = some (_, _) := rfl
  have hrun := Run.of_play _ hplay
  obtain ⟨n, -, hlost, hend, hgoesOn, hends, -⟩ :=
    (redelivery_counted hrun (i := 2) rfl rfl lostThenRefused).1 (by decide)
  obtain rfl : n = 1 := by
    rcases hend with rfl | hnot
    · exact absurd (hlost 1 (by decide)) (by decide)
    · rcases n with _ | _ | n
      · cases hnot
      · rfl
      · exact absurd (hlost 1 (by omega)) (by decide)
  exact ⟨_, _, _, hrun, rfl, rfl, hgoesOn 1 (Nat.le_refl 1), hends, rfl⟩

/-- With `2^32 - 1` repetitions allowed a participant whose calls are all lost is not given up after
`2^32` calls: call number `2^32 + 1` is out or about to be made, and it counts as the first one. -/
theorem redelivery_never_ends :
    ∃ past x d turns y s,
      Run (repeating 4294967295) (.opened .standard ⟨1⟩ .forever .epoch) past x ∧
      x.stage? 2 = some (.commitPending d) ∧ d.attempts = 1 ∧
      Run (repeating 4294967295) x turns y ∧ (heardBy 2 turns).length = 4294967296 ∧
      (∀ reply ∈ heardBy 2 turns, reply = .returned (.failed (.communication "lost"))) ∧
      y.stage? 2 = some s ∧
      (s = .commitPending { d with attempts := 1 } ∨ s = .pausing { d with attempts := 0 }) := by
  have hplay : (Transaction.opened .standard ⟨1⟩ .forever .epoch).play (repeating 4294967295)
      (twoPartyCommit.take 14) = some (_, _) := rfl
  have hrun := Run.of_play _ hplay
  have hx := hrun.sound (Transaction.sound_opened .standard ⟨1⟩ .forever .epoch)
  have hmax : (repeating 4294967295).rollForward.maxRetries.toNat + 1 = UInt32.size := rfl
  have hgoesOn := Delivery.goesOn (fun _ => .failed (.communication "lost")) hx (i := 2) rfl rfl
    (n := 4294967296) fun k _ => RollForwardPolicy.goesOn_of_max hmax (k + 1) _
  obtain ⟨turns, y, hturns, hfollows, hlength⟩ := hgoesOn.reached
  obtain ⟨s, hs, hstands⟩ := hgoesOn.stands turns y hturns hfollows hlength
  refine ⟨_, _, _, turns, y, s, hrun, rfl, rfl, hturns, hlength, fun reply hreply => ?_, hs, ?_⟩
  · rw [hfollows] at hreply
    obtain ⟨k, -, rfl⟩ := List.mem_map.mp hreply
    rfl
  · rcases hstands with ⟨rfl, -⟩ | ⟨k, -, rfl, -⟩
    · exact .inl (by rw [Delivery.attempt, show UInt32.ofNat (4294967296 + 1) = 1 from by decide])
    · exact .inr (by rw [Delivery.attempt, show UInt32.ofNat 4294967296 = 0 from by decide])

end LeasedCommit
