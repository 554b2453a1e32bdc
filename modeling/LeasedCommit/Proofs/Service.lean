import LeasedCommit.Proofs.Sound

set_option autoImplicit false

/-! # What was asked and what is answered

A run remembers what each of its operations was asked for (`requests`). `Stage.Serves` says that
an operation at a stage is on its way to an answer to its request, so that a finished operation
has answered in one of the ways that its request admits, and truly. -/

namespace LeasedCommit

/-- What the operations of a run were asked for, in the order in which they began. -/
def requests (turns : List Turn) : List Request :=
  turns.filterMap fun t =>
    match t.action with
    | .begin q => some q
    | _ => none

/-- The operation at this stage works on request `q`. -/
def Stage.Serves (q : Request) : Stage → Prop
  | .requested q' => q' = q
  | .awaiting w => w.request = q
  | .abortPending owner _ _ a => (owner = true → q = .commit) ∧ q.Admits a
  | .finished a => q.Admits a
  | .panicked _ => True
  | _ => q = .commit

/-- The answer that an operation has given, or gives when it is through with its aborts. -/
def Stage.answer? : Stage → Option Answer
  | .abortPending _ _ _ a | .finished a => some a
  | _ => none

theorem requests_append (turns more : List Turn) :
    requests (turns ++ more) = requests turns ++ requests more := by
  simp [requests]

theorem requests_of_operation {x y : Transaction} {a : Action} {i : Nat}
    (h : a.operation? = some i) :
    requests [{ before := x, action := a, after := y }] = [] := by
  cases a <;> first | rfl | cases h

/-- A wait ends with an answer to the request that led to it. -/
theorem Wait.request_admits (w : Wait) (r : Record) : w.request.Admits (w.answer r) := by
  cases w with
  | phase target => trivial
  | decision =>
      simp only [answer]
      split <;> trivial

namespace Stage

theorem serves_deliverAborts {q : Request} {a : Answer} {owner : Bool}
    (ho : owner = true → q = .commit) (ha : q.Admits a) (owed : List Claim) :
    (deliverAborts owner owed a).Serves q := by
  cases owed with
  | nil => exact ha
  | cons c rest => exact ⟨ho, ha⟩

theorem serves_deliverCommits (id : TransactionId) (n : Nat) (owed : List Claim)
    (failures : List CommitFailure) : (deliverCommits id n owed failures).Serves .commit := by
  cases owed <;> rfl

theorem serves_ask (k n : Nat) : (ask k n).Serves .commit := by
  unfold ask
  split <;> rfl

theorem serves_firstQuestion (n : Nat) : (Record.firstQuestion n).Serves .commit := by
  rcases n with _ | _ | n <;> rfl

@[simp] theorem answer?_deliverAborts (owner : Bool) (owed : List Claim) (a : Answer) :
    (deliverAborts owner owed a).answer? = some a := by
  cases owed <;> rfl

@[simp] theorem answer?_deliverCommits (id : TransactionId) (n : Nat) (owed : List Claim)
    (failures : List CommitFailure) : (deliverCommits id n owed failures).answer? = none := by
  cases owed <;> rfl

@[simp] theorem answer?_ask (k n : Nat) : (ask k n).answer? = none := by
  unfold ask
  split <;> rfl

@[simp] theorem answer?_firstQuestion (n : Nat) : (Record.firstQuestion n).answer? = none := by
  rcases n with _ | _ | n <;> rfl

end Stage

theorem Advance.serves {rules : Rules} {r r' : Record} {a : Action} {s s' : Stage} {q : Request}
    (h : Advance rules r a s r' s') (hs : s.Serves q) : s'.Serves q := by
  cases h with
  | answer ha =>
      obtain rfl := hs
      exact ha
  | wait => exact hs
  | look =>
      obtain rfl := hs
      exact Wait.request_admits _ _
  | lookAgain => exact hs
  | giveUp ha =>
      obtain rfl := hs
      exact ha
  | join =>
      obtain rfl := hs
      trivial
  | renew =>
      obtain rfl := hs
      trivial
  | abort _ _ ha =>
      obtain rfl := hs
      exact Stage.serves_deliverAborts (fun h => by cases h) ha _
  | openVote =>
      obtain rfl := hs
      exact Stage.serves_firstQuestion _
  | giveIn hask => rcases hask with ⟨k, n, rfl⟩ | rfl | rfl <;> exact hs
  | refuse _ _ hsettles | late _ _ hsettles => cases hsettles <;> exact hs
  | prepared =>
      obtain rfl : q = .commit := hs
      exact Stage.serves_ask _ _
  | rollForward | commitReturns =>
      obtain rfl : q = .commit := hs
      exact Stage.serves_deliverCommits ..
  | file =>
      obtain rfl : q = .commit := hs
      trivial
  | abandon =>
      obtain rfl : q = .commit := hs
      have hadmits : Request.Admits .commit (.refused r.cannotCommit) := trivial
      exact Stage.serves_deliverAborts (fun _ => rfl) hadmits _
  | abortReturns => exact Stage.serves_deliverAborts hs.1 hs.2 _
  | abortPanics =>
      split
      · rename_i howner
        exact hs.1 howner
      · trivial
  | interruptVote | interruptCommit | interruptLate => trivial
  | _ => exact hs

namespace Transaction

/-- Every operation is on its way to an answer to its request. -/
structure Serves (x : Transaction) (turns : List Turn) : Prop where
  length : (requests turns).length = x.operations.length
  stages : ∀ i s q, x.stage? i = some s → (requests turns)[i]? = some q → s.Serves q

variable {rules : Rules} {x y : Transaction} {turns : List Turn}

theorem serves_opened (policy : LeasePolicy) (id : TransactionId) (request : LeaseRequest)
    (now : Timestamp) : (opened policy id request now).Serves [] where
  length := rfl
  stages i s q h := by simp at h

theorem Serves.begun (h : x.Serves turns) (q : Request) :
    (x.begun q).Serves (turns ++ [{ before := x, action := .begin q, after := x.begun q }]) where
  length := by
    rw [requests_append, List.length_append, h.length]
    simp [requests, Transaction.begun]
  stages i s q' hs hq := by
    have hlast : requests [{ before := x, action := .begin q, after := x.begun q }] = [q] := rfl
    rw [requests_append, hlast] at hq
    rcases stage?_begun hs with hs | ⟨rfl, rfl⟩
    · obtain ⟨hlt, -⟩ := List.getElem?_eq_some_iff.mp hs
      rw [List.getElem?_append_left (by rw [h.length]; exact hlt)] at hq
      exact h.stages i s q' hs hq
    · -- the request that has just come in
      rw [List.getElem?_append_right (Nat.le_of_eq h.length), h.length, Nat.sub_self] at hq
      exact Option.some.inj hq

theorem Serves.moved {a : Action} {i : Nat} {s s' : Stage} {r' : Record} (h : x.Serves turns)
    (hi : a.operation? = some i) (hm : Advance rules x.record a s r' s')
    (hy : x.Moved i s r' s' y) :
    y.Serves (turns ++ [{ before := x, action := a, after := y }]) where
  length := by
    rw [requests_append, requests_of_operation hi, List.append_nil, h.length, hy.operations,
      List.length_set]
  stages i' t q ht hq := by
    rw [requests_append, requests_of_operation hi, List.append_nil] at hq
    rcases hy.stage?_cases ht with ⟨rfl, rfl⟩ | ⟨-, ht⟩
    · exact hm.serves (h.stages _ s q hy.stage hq)
    · exact h.stages i' t q ht hq

end Transaction

theorem Run.serves {rules : Rules} {x₀ x : Transaction} {turns : List Turn} (h₀ : x₀.Sound)
    (hstart : x₀.Serves []) (h : Run rules x₀ turns x) : x.Serves turns :=
  Run.invariant (P := fun turns x => x.Serves turns) h₀ hstart (fun _ _ q _ ih => ih.begun q)
    (fun _ _ _ _ _ _ _ _ _ ih hi hm hy => ih.moved hi hm hy) h

end LeasedCommit
