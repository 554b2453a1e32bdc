import LeasedCommit.Proofs.Effect
import LeasedCommit.Proofs.Sound
import Mathlib.Algebra.GroupWithZero.Nat

set_option autoImplicit false

/-! # What a record adds to the totals

The totals of a coordinator are counted up by several kinds of visits. `Record.tally` reads off a
record alone what it has added to them: nothing before the decision, one for the decision, one
more for a lapsed lease, and the failures once there is a report. A visit counts what it changes
of the tally (`Record.Effect.tally`), so the totals are the sum over all transactions, in words of
64 bits (`Coordinator.Reached.totals_eq`). -/

namespace LeasedCommit

namespace OutcomeCounts

theorem zero_add (a : OutcomeCounts) : zero.add a = a := by simp [zero, add]

/-- A number that is read off a count and adds up. -/
structure Additive (f : OutcomeCounts → Nat) : Prop where
  zero : f zero = 0
  add (a b : OutcomeCounts) : f (a.add b) = f a + f b

theorem additive_committed : Additive committed := ⟨rfl, fun _ _ => rfl⟩

theorem additive_aborted : Additive aborted := ⟨rfl, fun _ _ => rfl⟩

theorem additive_expired : Additive expired := ⟨rfl, fun _ _ => rfl⟩

theorem additive_rollForwardFailures : Additive rollForwardFailures := ⟨rfl, fun _ _ => rfl⟩

/-- All counts of a list together. -/
def sum (l : List OutcomeCounts) : OutcomeCounts := l.foldr add zero

/-- What adds up, adds up over a list. -/
theorem Additive.sum {f : OutcomeCounts → Nat} (hf : Additive f) (l : List OutcomeCounts) :
    f (OutcomeCounts.sum l) = (l.map f).sum := by
  induction l with
  | nil => exact hf.zero
  | cons a rest ih =>
      show f (a.add (OutcomeCounts.sum rest)) = _
      rw [hf.add, ih, List.map_cons, List.sum_cons]

/-- Counts are told apart by the numbers that add up. -/
theorem eq_of_additive {a b : OutcomeCounts}
    (h : ∀ f : OutcomeCounts → Nat, Additive f → f a = f b) : a = b := by
  have hcommitted := h _ additive_committed
  have haborted := h _ additive_aborted
  have hexpired := h _ additive_expired
  have hfailures := h _ additive_rollForwardFailures
  cases a
  cases b
  simp_all

end OutcomeCounts

namespace Totals

@[simp] theorem add_zero (t : Totals) : t.add .zero = t := by simp [add, OutcomeCounts.zero]

/-- Counting in words respects sums, whether or not they wrap around. -/
theorem add_add (t : Totals) (a b : OutcomeCounts) : (t.add a).add b = t.add (a.add b) := by
  simp [add, OutcomeCounts.add, UInt64.ofNat_add, UInt64.add_assoc]

end Totals

/-! ## The tally of a record -/

namespace Record

/-- Whether the record was aborted because of a lapsed lease. -/
def hasExpired (r : Record) : Bool := r.phase == .aborted && r.abortCause == some .leaseExpired

/-- The number of commits that the report says could not be delivered. -/
def undelivered (r : Record) : Nat := r.report.elim 0 fun report => report.failures.length

/-- What a record has added to the totals. -/
def tally (r : Record) : OutcomeCounts :=
  { committed := (r.phase == .committed).toNat, aborted := (r.phase == .aborted).toNat
    expired := r.hasExpired.toNat, rollForwardFailures := r.undelivered }

variable {r r' : Record} {counts : OutcomeCounts} {wakes : Bool}

theorem Shape.report_of_undecided (h : r.Shape) (hu : r.phase.isTerminal = false) :
    r.report = none :=
  h.report_eq_none fun hp => by
    rw [hp] at hu
    exact absurd hu (by decide)

theorem Shape.tally_undecided (h : r.Shape) (hu : r.phase.isTerminal = false) :
    r.tally = .zero := by
  have hreport := h.report_of_undecided hu
  cases hp : r.phase <;>
    simp_all [tally, hasExpired, undelivered, OutcomeCounts.zero, Phase.isTerminal]

/-- **What is counted is what changes**: the totals grow by as much as the tally of the record. -/
theorem Effect.tally (h : r.Effect r' counts wakes) (hr : r.Shape) :
    r'.tally = r.tally.add counts := by
  cases h with
  | quiet hp hcause hreport =>
      simp [Record.tally, hasExpired, undelivered, hp, hcause, hreport, OutcomeCounts.add,
        OutcomeCounts.zero]
  | opens ha hp hreport =>
      have hu : r.phase.isTerminal = false := by rw [ha]; rfl
      rw [hr.tally_undecided hu]
      simp [Record.tally, hasExpired, undelivered, hp, hreport, hr.report_of_undecided hu,
        OutcomeCounts.add, OutcomeCounts.zero]
  | @aborts cause hu hp hcause hreport =>
      rw [hr.tally_undecided hu, OutcomeCounts.zero_add]
      by_cases hlapsed : cause = .leaseExpired <;>
        simp [Record.tally, hasExpired, undelivered, hp, hcause, hreport,
          hr.report_of_undecided hu, OutcomeCounts.abort, OutcomeCounts.zero, hlapsed]
  | commits hv hp hreport =>
      have hu : r.phase.isTerminal = false := by rw [hv]; rfl
      rw [hr.tally_undecided hu, OutcomeCounts.zero_add]
      simp [Record.tally, hasExpired, undelivered, hp, hreport, hr.report_of_undecided hu,
        OutcomeCounts.commit, OutcomeCounts.zero]
  | reports hnone hp hcause hreport =>
      simp [Record.tally, hasExpired, undelivered, hp, hcause, hreport, hnone, OutcomeCounts.add,
        OutcomeCounts.undelivered, OutcomeCounts.zero]

end Record

/-- A sum over a list changes by what one of its elements changes. -/
theorem sum_map_set {α : Type} {f : α → Nat} {l : List α} {i : Nat} {a : α} (h : l[i]? = some a)
    (b : α) : ((l.set i b).map f).sum + f a = (l.map f).sum + f b := by
  induction l generalizing i with
  | nil => cases h
  | cons c rest ih =>
      cases i with
      | zero =>
          obtain rfl := Option.some.inj h
          simp only [List.set_cons_zero, List.map_cons, List.sum_cons]
          omega
      | succ i =>
          have := ih h
          simp only [List.set_cons_succ, List.map_cons, List.sum_cons]
          omega

end LeasedCommit
