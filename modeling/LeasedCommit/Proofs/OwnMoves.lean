import LeasedCommit.Proofs.Agreement
import LeasedCommit.Proofs.Decided
import LeasedCommit.Proofs.SoloRun

set_option autoImplicit false

/-! # Following one operation

While an operation delivers a decision, others move on the same record. None of them changes where
the operation stands, which calls it makes (`callsOf`) and which replies it gets (`heardBy`). So
what its own moves preserve holds along every run (`Run.follow`), however the moves of the others
come in between. -/

namespace LeasedCommit

/-! ## What an operation hears and says -/

/-- The reply to a commit or abort call with which operation `i` moves. -/
def Action.heard? (i : Nat) : Action → Option (Reply Unit)
  | .acknowledge j reply => if j = i then some reply else none
  | .begin _ | .visit .. | .vote .. | .combinedVote .. | .resume _ | .giveUp _ => none

/-- The replies to its commit and abort calls that operation `i` gets in a run. -/
def heardBy (i : Nat) (turns : List Turn) : List (Reply Unit) :=
  turns.filterMap fun t => t.action.heard? i

/-- The calls that operation `i` makes in a run. -/
def callsOf (i : Nat) (turns : List Turn) : List Call :=
  callsMade (turns.filter fun t => t.action.operation? = some i)

variable {rules : Rules} {x y z : Transaction} {a : Action} {i : Nat} {s s' : Stage} {r' : Record}

@[simp] theorem heardBy_nil (i : Nat) : heardBy i [] = [] := rfl

@[simp] theorem callsOf_nil (i : Nat) : callsOf i [] = [] := rfl

theorem heardBy_append (i : Nat) (turns more : List Turn) :
    heardBy i (turns ++ more) = heardBy i turns ++ heardBy i more :=
  List.filterMap_append

theorem callsOf_append (i : Nat) (turns more : List Turn) :
    callsOf i (turns ++ more) = callsOf i turns ++ callsOf i more := by
  rw [callsOf, List.filter_append, callsMade, List.filterMap_append]
  rfl

theorem heardBy_singleton (i : Nat) (t : Turn) : heardBy i [t] = (t.action.heard? i).toList := by
  cases h : t.action.heard? i <;> simp [heardBy, h]

theorem Action.heard?_of_other (h : a.operation? ≠ some i) : a.heard? i = none := by
  cases a with
  | acknowledge j reply =>
      refine if_neg fun hj => h ?_
      rw [hj]
      rfl
  | _ => rfl

/-- The call of a move of its own. -/
theorem callsOf_own (hi : a.operation? = some i) (hs : y.stage? i = some s) :
    callsOf i [{ before := x, action := a, after := y }] = s.call?.toList := by
  have hcall : Turn.call? { before := x, action := a, after := y } = s.call? := by
    simp [Turn.call?, hi, hs]
  cases h : s.call? <;> simp [callsOf, callsMade, hi, hcall, h]

/-- The others make calls of their own. -/
theorem callsOf_other (h : a.operation? ≠ some i) :
    callsOf i [{ before := x, action := a, after := y }] = [] := by
  simp [callsOf, callsMade, h]

namespace Transaction

/-- A visit is what the stage of its operation makes it. -/
theorem visit_of_step {t : Readings} {counts : OutcomeCounts} (hs : x.stage? i = some s)
    (h : x.step rules (.visit i t) = some (y, counts)) :
    ∃ v, s.visit? rules.lease x.record t = some v ∧ y = x.visit i v ∧ counts = v.counts := by
  simp only [step, hs, Option.bind_some] at h
  split at h
  · cases h
  · obtain ⟨v, hv, heq⟩ := Option.map_eq_some_iff.mp h
    obtain ⟨rfl, rfl⟩ := Prod.mk.inj heq
    exact ⟨v, hv, rfl, rfl⟩

/-- A commit or abort call can come back. -/
theorem step_acknowledge (rules : Rules) (reply : Reply Unit) (hs : x.stage? i = some s)
    (h : s.hearDone rules.rollForward x.record.id reply = some s') :
    x.step rules (.acknowledge i reply) = some (x.put i s', .zero) := by
  rw [step, hs, Option.bind_some, h, Option.map_some]

/-- A pause can end. -/
theorem step_resume (rules : Rules) (hs : x.stage? i = some s) (h : s.resume = some s') :
    x.step rules (.resume i) = some (x.put i s', .zero) := by
  rw [step, hs, Option.bind_some, h, Option.map_some]

end Transaction

namespace Coordinator

/-- The coordinator after an operation on the transaction at a place has moved. -/
def moved (c : Coordinator) (place : Nat) (y : Transaction) (counts : OutcomeCounts) :
    Coordinator :=
  { c with transactions := c.transactions.set place y, totals := c.totals.add counts }

theorem step_eq_some_iff {c d : Coordinator} {place : Nat} :
    c.step place a = some d ↔ ∃ x y counts, c.transactions[place]? = some x ∧
      x.step c.rules a = some (y, counts) ∧ d = c.moved place y counts := by
  simp only [step, Option.bind_eq_some_iff, Option.map_eq_some_iff, Prod.exists]
  constructor
  · rintro ⟨x, hx, y, counts, hstep, rfl⟩
    exact ⟨x, y, counts, hx, hstep, rfl⟩
  · rintro ⟨x, y, counts, hx, hstep, rfl⟩
    exact ⟨x, hx, y, counts, hstep, rfl⟩

theorem getElem?_moved_self {c : Coordinator} {place : Nat} (hx : c.transactions[place]? = some x)
    (y : Transaction) (counts : OutcomeCounts) :
    (c.moved place y counts).transactions[place]? = some y :=
  List.getElem?_set_self (List.getElem?_eq_some_iff.mp hx).1

end Coordinator

/-! ## Along a run -/

/-- The number of a record stays as it is. -/
theorem Run.id_eq {turns : List Turn} (hx : x.Sound) (h : Run rules x turns y) :
    y.record.id = x.record.id := by
  induction h with
  | start => rfl
  | next hrun hstep ih => exact ((hrun.sound hx).step_later hstep).id.trans ih

/-- **To follow an operation**: what holds of the replies that it has got, the calls that it has
made and the stage where it stands holds along every run, if its own moves preserve it. Only runs
in which the replies are as in `H` are followed. -/
theorem Run.follow {H : List (Reply Unit) → Prop}
    {P : List (Reply Unit) → List Call → Stage → Prop} (hx : x.Sound) (hs : x.stage? i = some s)
    (hcut : ∀ heard more, H (heard ++ more) → H heard) (hstart : P [] [] s)
    (hawake : ∀ {heard calls s}, P heard calls s → ∀ w, s ≠ .awaiting w)
    (hown : ∀ {heard calls s a r r' s'}, P heard calls s → r.id = x.record.id →
      a.operation? = some i → s.go? rules r a = some (r', s') →
      H (heard ++ (a.heard? i).toList) →
        P (heard ++ (a.heard? i).toList) (calls ++ s'.call?.toList) s')
    {turns : List Turn} (h : Run rules x turns y) (hheard : H (heardBy i turns)) :
    ∃ s', y.stage? i = some s' ∧ P (heardBy i turns) (callsOf i turns) s' := by
  induction h with
  | start => exact ⟨s, hs, hstart⟩
  | @next turns y z a counts hrun hstep ih =>
      have hsound := hrun.sound hx
      rw [heardBy_append, heardBy_singleton] at hheard ⊢
      obtain ⟨s₁, hs₁, hP⟩ := ih (hcut _ _ hheard)
      rw [callsOf_append]
      by_cases hi : a.operation? = some i
      · obtain ⟨r', s', hgo, hmoved⟩ := Transaction.go?_of_step hs₁ (hawake hP) hi hstep
        have hs' := hmoved.stage?_self
        rw [callsOf_own hi hs']
        exact ⟨s', hs', hown hP (hrun.id_eq hx) hi hgo hheard⟩
      · -- another operation has moved
        rw [callsOf_other hi, Action.heard?_of_other hi, Option.toList_none, List.append_nil,
          List.append_nil]
        exact ⟨s₁, hsound.stage?_of_other hs₁ hi hstep, hP⟩

end LeasedCommit
