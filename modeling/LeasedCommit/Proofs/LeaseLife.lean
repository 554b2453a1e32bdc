import LeasedCommit.Lease.State
import Mathlib.Data.List.Basic

set_option autoImplicit false

/-! # The life of a lease

A lease meets any number of events in its life: it is renewed under whatever policy is in force by
then, cancelled, or marked as expired, and the clock may go back between two of them
(`Lease.after`). An event that the lease does not accept leaves it as it is
(`Lease.after_of_refused`).

Two things are proved about all lives. The term of a lease is that of the last grant, whatever
became of its status (`Lease.HasTerm.afterAll`). And nothing brings a lease back: a status other
than `valid` is final (`Lease.status_afterAll`), and a lease that is not valid at some instant
refuses all that comes at that instant or later (`Lease.isValid_afterAll`). -/

namespace LeasedCommit

/-! ## Instants and expirations -/

/-- The instants that are not past an expiration. -/
def Expiration.Covers : Expiration → Timestamp → Prop
  | .never, _ => True
  | .at last, t => t ≤ last

theorem Expiration.hasPassed_eq_false_iff {e : Expiration} {t : Timestamp} :
    e.hasPassed t = false ↔ e.Covers t := by
  cases e with
  | never => exact iff_of_true rfl trivial
  | «at» last =>
      show decide (last.micros < t.micros) = false ↔ t.micros ≤ last.micros
      rw [decide_eq_false_iff_not, Nat.not_lt]

theorem Expiration.Covers.of_le {e : Expiration} {t u : Timestamp} (h : e.Covers u) (hle : t ≤ u) :
    e.Covers t := by
  cases e with
  | never => trivial
  | «at» last => exact Nat.le_trans hle h

/-- A length granted at an instant. -/
structure Grant where
  now : Timestamp
  length : Option Duration
deriving DecidableEq

/-! ## Events -/

/-- What can happen to a lease. -/
inductive LeaseEvent
  | renew (policy : LeasePolicy) (request : LeaseRequest) (now : Timestamp)
  | cancel (now : Timestamp)
  | markExpired
deriving DecidableEq

namespace LeaseEvent

/-- The time of an event. Marking a lease takes none. -/
def time? : LeaseEvent → Option Timestamp
  | .renew _ _ now | .cancel now => some now
  | .markExpired => none

/-- What a renewal grants if it succeeds. -/
def grant? : LeaseEvent → Option Grant
  | .renew policy request now => some { now := now, length := policy.grant request }
  | .cancel _ | .markExpired => none

end LeaseEvent

namespace Lease

/-- Whether an event succeeds. A lease can always be marked. -/
def accepts (l : Lease) : LeaseEvent → Bool
  | .renew policy request now => (l.renew policy request now).1.isSome
  | .cancel now => (l.cancel now).1
  | .markExpired => true

/-- The lease after an event, whether it succeeds or not. -/
def after (l : Lease) : LeaseEvent → Lease
  | .renew policy request now => (l.renew policy request now).2
  | .cancel now => (l.cancel now).2
  | .markExpired => l.markExpired

/-- The lease after several events. -/
def afterAll (l : Lease) (events : List LeaseEvent) : Lease := events.foldl after l

/-- What an event grants, if it is a renewal and succeeds. -/
def granted? (l : Lease) (e : LeaseEvent) : Option Grant :=
  if l.accepts e then e.grant? else none

/-- What the successful renewals among several events grant. -/
def grants (l : Lease) : List LeaseEvent → List Grant
  | [] => []
  | e :: events => (l.granted? e).toList ++ (l.after e).grants events

/-- The length of the lease and its expiration are those of a grant. -/
structure HasTerm (l : Lease) (g : Grant) : Prop where
  expiration : l.expiration = .after g.now g.length
  granted : l.granted = g.length

variable {l l' : Lease} {e : LeaseEvent} {t u : Timestamp}

@[simp] theorem afterAll_nil (l : Lease) : l.afterAll [] = l := rfl

@[simp] theorem afterAll_cons (l : Lease) (e : LeaseEvent) (events : List LeaseEvent) :
    l.afterAll (e :: events) = (l.after e).afterAll events := rfl

theorem afterAll_append (l : Lease) (past rest : List LeaseEvent) :
    l.afterAll (past ++ rest) = (l.afterAll past).afterAll rest :=
  List.foldl_append

theorem hasTerm_grant (policy : LeasePolicy) (request : LeaseRequest) (now : Timestamp) :
    (grant policy request now).HasTerm { now := now, length := policy.grant request } where
  expiration := rfl
  granted := rfl

/-! ## When a lease is valid -/

theorem isValid_iff : l.isValid t = true ↔ l.status = .valid ∧ l.expiration.Covers t := by
  rw [isValid, Bool.and_eq_true, beq_iff_eq, Bool.not_eq_true', Expiration.hasPassed_eq_false_iff]

/-- A lease that is not valid will not be valid later. -/
theorem isValid_of_le (h : l.isValid u = false) (hle : u ≤ t) : l.isValid t = false := by
  rw [← Bool.not_eq_true, isValid_iff] at h ⊢
  rintro ⟨hs, hcovers⟩
  exact h ⟨hs, hcovers.of_le hle⟩

/-- A lease cannot be valid and lapsed. -/
theorem isValid_of_hasLapsed (h : l.hasLapsed t = true) : l.isValid t = false := by
  obtain ⟨-, hpassed⟩ := Bool.and_eq_true_iff.mp h
  rw [isValid, hpassed, Bool.not_true, Bool.and_false]

/-- Just those leases are neither valid nor lapsed that have left the status `valid`. -/
theorem neither_valid_nor_lapsed_iff :
    l.isValid t = false ∧ l.hasLapsed t = false ↔ l.status ≠ .valid := by
  unfold isValid hasLapsed
  by_cases hs : l.status = .valid <;> cases l.expiration.hasPassed t <;> simp [hs]

/-! ## Renewing and cancelling -/

section Operations

variable {policy : LeasePolicy} {request : LeaseRequest} {now : Timestamp}

theorem renew_of_valid (h : l.isValid now = true) : l.renew policy request now =
    (some (.after now (policy.grant request)),
      { l with
        expiration := .after now (policy.grant request), granted := policy.grant request }) :=
  if_pos h

theorem renew_of_invalid (h : l.isValid now = false) :
    l.renew policy request now = (none, l) := by
  rw [renew, h]
  rfl

theorem cancel_of_valid (h : l.isValid now = true) :
    l.cancel now = (true, { l with status := .cancelled }) :=
  if_pos h

theorem cancel_of_invalid (h : l.isValid now = false) : l.cancel now = (false, l) := by
  rw [cancel, h]
  rfl

theorem renew_eq_some {x : Expiration} (h : l.renew policy request now = (some x, l')) :
    l.isValid now = true ∧ x = .after now (policy.grant request) ∧
      l' = { l with
        expiration := .after now (policy.grant request), granted := policy.grant request } := by
  cases hvalid : l.isValid now with
  | true =>
      rw [renew_of_valid hvalid] at h
      cases h
      exact ⟨rfl, rfl, rfl⟩
  | false =>
      rw [renew_of_invalid hvalid] at h
      cases h

theorem renew_eq_none (h : l.renew policy request now = (none, l')) : l' = l := by
  cases hvalid : l.isValid now with
  | true =>
      rw [renew_of_valid hvalid] at h
      cases h
  | false =>
      rw [renew_of_invalid hvalid] at h
      cases h
      rfl

theorem cancel_eq_true (h : l.cancel now = (true, l')) : l' = { l with status := .cancelled } := by
  cases hvalid : l.isValid now with
  | true =>
      rw [cancel_of_valid hvalid] at h
      cases h
      rfl
  | false =>
      rw [cancel_of_invalid hvalid] at h
      cases h

theorem cancel_eq_false (h : l.cancel now = (false, l')) : l' = l := by
  cases hvalid : l.isValid now with
  | true =>
      rw [cancel_of_valid hvalid] at h
      cases h
  | false =>
      rw [cancel_of_invalid hvalid] at h
      cases h
      rfl

end Operations

/-! ## One event -/

/-- An event that takes place at some time succeeds if the lease is valid then. -/
theorem accepts_eq_isValid (ht : e.time? = some t) : l.accepts e = l.isValid t := by
  cases e with
  | renew policy request now =>
      obtain rfl := Option.some.inj ht
      rw [accepts]
      cases hvalid : l.isValid now with
      | true => rw [renew_of_valid hvalid, Option.isSome_some]
      | false => rw [renew_of_invalid hvalid, Option.isSome_none]
  | cancel now =>
      obtain rfl := Option.some.inj ht
      rw [accepts]
      cases hvalid : l.isValid now with
      | true => rw [cancel_of_valid hvalid]
      | false => rw [cancel_of_invalid hvalid]
  | markExpired => cases ht

/-- `l.Becomes e l'`: the event can turn the lease into `l'`. -/
inductive Becomes (l : Lease) : LeaseEvent → Lease → Prop
  | refused {e : LeaseEvent} : l.accepts e = false → Becomes l e l
  | renewed {policy : LeasePolicy} {request : LeaseRequest} {now : Timestamp} :
    l.isValid now = true →
    Becomes l (.renew policy request now)
      { l with
        expiration := .after now (policy.grant request), granted := policy.grant request }
  | cancelled {now : Timestamp} : l.isValid now = true →
    Becomes l (.cancel now) { l with status := .cancelled }
  | expired : l.status = .valid → Becomes l .markExpired { l with status := .expired }
  | decided : l.status ≠ .valid → Becomes l .markExpired l

/-- **What an event can do to a lease.** -/
theorem becomes_after (l : Lease) (e : LeaseEvent) : l.Becomes e (l.after e) := by
  cases e with
  | renew policy request now =>
      have hone : l.accepts (.renew policy request now) = l.isValid now := accepts_eq_isValid rfl
      rw [after]
      cases hvalid : l.isValid now with
      | true =>
          rw [renew_of_valid hvalid]
          exact .renewed hvalid
      | false =>
          rw [renew_of_invalid hvalid]
          exact .refused (hone.trans hvalid)
  | cancel now =>
      have hone : l.accepts (.cancel now) = l.isValid now := accepts_eq_isValid rfl
      rw [after]
      cases hvalid : l.isValid now with
      | true =>
          rw [cancel_of_valid hvalid]
          exact .cancelled hvalid
      | false =>
          rw [cancel_of_invalid hvalid]
          exact .refused (hone.trans hvalid)
  | markExpired =>
      by_cases hs : l.status = .valid
      · rw [show l.after .markExpired = _ from if_pos hs]
        exact .expired hs
      · rw [show l.after .markExpired = l from if_neg hs]
        exact .decided hs

/-- **An event that is refused changes nothing.** -/
theorem after_of_refused (h : l.accepts e = false) : l.after e = l := by
  generalize hl : l.after e = l'
  have hbecomes := l.becomes_after e
  rw [hl] at hbecomes
  cases hbecomes with
  | refused | decided => rfl
  | renewed hvalid | cancelled hvalid =>
      rw [accepts_eq_isValid rfl, hvalid] at h
      cases h
  | expired => cases h

theorem granted?_of_refused (h : l.accepts e = false) : l.granted? e = none := by
  rw [granted?, h]
  rfl

/-- A renewal that succeeds gives the lease another term, and no other event does. -/
theorem Becomes.hasTerm {g : Grant} (h : l.Becomes e l') (hterm : l.HasTerm g) :
    l'.HasTerm ((l.granted? e).getD g) := by
  cases h with
  | refused hrefused => rwa [granted?_of_refused hrefused]
  | @renewed policy request now hvalid =>
      have haccepted : l.accepts (.renew policy request now) = true := by
        rw [accepts_eq_isValid rfl, hvalid]
      rw [granted?, if_pos haccepted]
      exact ⟨rfl, rfl⟩
  | cancelled | expired | decided =>
      rw [granted?, LeaseEvent.grant?, ite_self]
      exact ⟨hterm.expiration, hterm.granted⟩

/-- A lease that has left the status `valid` keeps the one that it has. -/
theorem Becomes.status (h : l.Becomes e l') (hs : l.status ≠ .valid) : l'.status = l.status := by
  cases h with
  | refused | renewed | decided => rfl
  | cancelled hvalid => exact absurd (isValid_iff.mp hvalid).1 hs
  | expired hs' => exact absurd hs' hs

/-- A lease that is not valid at `u` is not made valid by an event that takes place then or
later. -/
theorem Becomes.isValid (h : l.Becomes e l') (hu : l.isValid u = false)
    (hlater : ∀ t, e.time? = some t → u ≤ t) : l'.isValid u = false := by
  cases h with
  | refused | decided => exact hu
  | @renewed _ _ now hvalid =>
      rw [isValid_of_le hu (hlater now rfl)] at hvalid
      cases hvalid
  | @cancelled now hvalid =>
      rw [isValid_of_le hu (hlater now rfl)] at hvalid
      cases hvalid
  | expired => rfl

/-! ## Whole lives -/

/-- **The term of a lease is that of the last grant.** -/
theorem HasTerm.afterAll {g : Grant} (h : l.HasTerm g) (events : List LeaseEvent) :
    (l.afterAll events).HasTerm ((l.grants events).getLast?.getD g) := by
  induction events generalizing l g with
  | nil => exact h
  | cons e events ih =>
      have hrest := ih ((l.becomes_after e).hasTerm h)
      rw [afterAll_cons, grants]
      cases hg : l.granted? e with
      | none =>
          rw [hg] at hrest
          exact hrest
      | some g' =>
          rw [hg] at hrest
          rw [Option.toList_some, List.singleton_append, List.getLast?_cons, Option.getD_some]
          exact hrest

/-- **A status other than `valid` is final.** -/
theorem status_afterAll (hs : l.status ≠ .valid) (events : List LeaseEvent) :
    (l.afterAll events).status = l.status := by
  induction events generalizing l with
  | nil => rfl
  | cons e events ih =>
      have hone := (l.becomes_after e).status hs
      rw [afterAll_cons, ih (hone ▸ hs), hone]

/-- **A lease that is not valid at `u` is not made valid** by any events that take place then or
later. -/
theorem isValid_afterAll (hu : l.isValid u = false) {events : List LeaseEvent}
    (hlater : ∀ e ∈ events, ∀ t, e.time? = some t → u ≤ t) :
    (l.afterAll events).isValid u = false := by
  induction events generalizing l with
  | nil => exact hu
  | cons e events ih =>
      have hone := (l.becomes_after e).isValid hu (hlater e List.mem_cons_self)
      exact ih hone fun e' he' => hlater e' (List.mem_cons_of_mem e he')

end Lease

/-- **The life of a lease.** After any events, at whatever times and under whatever policies:

* the length of the lease and its expiration are those of the last grant, which is the first one if
  no renewal has succeeded;
* a status other than `valid` is final, so the status changes at most once;
* a renewal or a cancellation succeeds if and only if the status is `valid` and the expiration has
  not passed, and if it fails nothing changes;
* a renewal that succeeds gives the lease another term and answers with its expiration, a
  cancellation that succeeds changes just the status, and so does marking a lease as expired whose
  status is `valid`;
* at no instant is the lease both valid and lapsed, and at no instant is it neither unless its
  status is not `valid`;
* if the lease was found not valid at `u` and nothing has happened at an earlier time since, it is
  not valid at any time from `u` on, and every renewal or cancellation then fails. -/
theorem lease_life (policy : LeasePolicy) (request : LeaseRequest) (now : Timestamp)
    (events : List LeaseEvent) (l₀ l : Lease) (h₀ : l₀ = Lease.grant policy request now)
    (hl : l = l₀.afterAll events) :
    l.HasTerm ((l₀.grants events).getLast?.getD { now := now, length := policy.grant request }) ∧
    (∀ past rest, events = past ++ rest → (l₀.afterAll past).status ≠ .valid →
      l.status = (l₀.afterAll past).status) ∧
    (∀ e t, e.time? = some t →
      (l.accepts e = true ↔ l.status = .valid ∧ l.expiration.Covers t) ∧
      (l.accepts e = false → l.after e = l)) ∧
    (∀ e, l.Becomes e (l.after e)) ∧
    (∀ policy request t x, (l.renew policy request t).1 = some x →
      x = (l.after (.renew policy request t)).expiration) ∧
    (∀ t, ¬ (l.isValid t = true ∧ l.hasLapsed t = true)) ∧
    (∀ t, l.isValid t = false ∧ l.hasLapsed t = false ↔ l.status ≠ .valid) ∧
    (∀ past rest u, events = past ++ rest → (l₀.afterAll past).isValid u = false →
      (∀ e ∈ rest, ∀ t, e.time? = some t → u ≤ t) →
      ∀ t, u ≤ t → l.isValid t = false ∧
        ∀ e, e.time? = some t → l.accepts e = false ∧ l.after e = l) := by
  subst h₀ hl
  refine ⟨(Lease.hasTerm_grant policy request now).afterAll events, ?_, ?_,
    Lease.becomes_after _, ?_, ?_, ?_, ?_⟩
  · rintro past rest rfl hs
    rw [Lease.afterAll_append]
    exact Lease.status_afterAll hs rest
  · intro e t ht
    rw [Lease.accepts_eq_isValid ht, Lease.isValid_iff]
    refine ⟨Iff.rfl, fun hinvalid => Lease.after_of_refused ?_⟩
    rw [Lease.accepts_eq_isValid ht, hinvalid]
  · intro policy request t x hx
    obtain ⟨-, rfl, hafter⟩ := Lease.renew_eq_some (Prod.ext hx rfl)
    exact (congrArg Lease.expiration hafter).symm
  · rintro t ⟨hvalid, hlapsed⟩
    rw [Lease.isValid_of_hasLapsed hlapsed] at hvalid
    cases hvalid
  · intro t
    exact Lease.neither_valid_nor_lapsed_iff
  · rintro past rest u rfl hu hlater t hle
    rw [Lease.afterAll_append]
    have hvalid := Lease.isValid_of_le (Lease.isValid_afterAll hu hlater) hle
    refine ⟨hvalid, fun e ht => ?_⟩
    have hrefused := (Lease.accepts_eq_isValid ht).trans hvalid
    exact ⟨hrefused, Lease.after_of_refused hrefused⟩

/-- A lease of 10 ms is renewed after 5 ms under a policy that allows no more than 1 ms, and so it
is over after 6 ms. A cancellation after 6 ms gives it up. One after 7 ms changes nothing, a renewal
after 8 ms is refused, and the lease can then be marked as expired. -/
theorem lease_life_shortened :
    ∃ short, short =
        (Lease.grant .standard (.bounded (Duration.ofMillis 10)) .epoch).afterAll
          [.renew { LeasePolicy.standard with maxLength := some (Duration.ofMillis 1) } .forever
            (.ofMillis 5)] ∧
      short.expiration = .at (.ofMillis 6) ∧ short.status = .valid ∧
      short.accepts (.cancel (.ofMillis 6)) = true ∧
      short.after (.cancel (.ofMillis 6)) = { short with status := .cancelled } ∧
      short.isValid (.ofMillis 7) = false ∧ short.after (.cancel (.ofMillis 7)) = short ∧
      (short.renew .standard .any (.ofMillis 8)).1 = none ∧
      short.after .markExpired = { short with status := .expired } := by
  obtain ⟨hterm, -, hsucceeds, -, -, -, -, hover⟩ := lease_life .standard
    (.bounded (Duration.ofMillis 10)) .epoch
    [.renew { LeasePolicy.standard with maxLength := some (Duration.ofMillis 1) } .forever
      (.ofMillis 5)] _ _ rfl rfl
  have hrest := hover [.renew _ _ _] [] (.ofMillis 7) rfl (by decide) (by
    intro e he
    cases he)
  have hearly := (hsucceeds (.cancel (.ofMillis 6)) _ rfl).1.mpr
    ⟨by decide, Expiration.hasPassed_eq_false_iff.mp (by decide)⟩
  obtain ⟨hinvalid, hlate⟩ := hrest (.ofMillis 7) (Nat.le_refl _)
  obtain ⟨-, hafter⟩ := hlate (.cancel (.ofMillis 7)) rfl
  exact ⟨_, rfl, hterm.expiration.trans (by decide), by decide, hearly, by decide, hinvalid, hafter,
    by decide, by decide⟩

end LeasedCommit
