import LeasedCommit.Proofs.LeaseLife
import LeasedCommit.Time.Clock
import Mathlib.Order.Bounds.Basic

set_option autoImplicit false

/-! # Instants at the edges

Durations count nanoseconds and instants microseconds, and there is a latest instant. So a sum of
an instant and a duration loses what the duration has below a microsecond and stops at the end of
time, the clock does the same in its own way (`ManualClock.reading_advance`), and the time that a
lease has left is read off a difference of instants, which loses nothing. That all of these meet at
the exact microsecond is what is shown here: `Timestamp.since?_plus` undoes a sum, two sums miss
the sum of their durations by a microsecond at most (`Timestamp.plus_plus_le`,
`Timestamp.plus_le_plus_plus`), and the time left is the longest that a clock may still go
(`Expiration.isGreatest_remaining`). -/

namespace LeasedCommit

/-- A whole number of microseconds. -/
def Duration.IsWhole (d : Duration) : Prop := 1000 ∣ d.nanos

variable {t t' u e : Timestamp} {a a' b c d : Duration}

theorem Duration.ext (h : a.nanos = b.nanos) : a = b := by
  cases a; cases b; cases h; rfl

theorem Duration.IsWhole.nanos_eq (h : d.IsWhole) : d.nanos = d.micros * 1000 := by
  unfold IsWhole at h
  unfold micros
  omega

theorem Duration.micros_mono (h : a ≤ a') : a.micros ≤ a'.micros := by
  rw [Duration.le_def] at h
  unfold micros
  omega

namespace Timestamp

theorem le_latest (t : Timestamp) : t ≤ latest := t.micros_le

theorem micros_latest : latest.micros = 18446744073709551615 := rfl

/-! ## Sums -/

theorem le_plus (t : Timestamp) (a : Duration) : t ≤ t.plus a := by
  have hle := t.micros_le
  rw [le_def, micros_plus]
  omega

theorem plus_mono (ht : t ≤ t') (ha : a ≤ a') : t.plus a ≤ t'.plus a' := by
  have hmicros := Duration.micros_mono ha
  rw [le_def] at ht ⊢
  rw [micros_plus, micros_plus]
  omega

/-- **What a sum adds is found again**, as far as it was whole microseconds and there were instants
left to go. -/
theorem since?_plus (t : Timestamp) (a : Duration) :
    ∃ d, (t.plus a).since? t = some d ∧
      d.nanos = min a.micros (latest.micros - t.micros) * 1000 := by
  have hle := t.micros_le
  refine ⟨_, if_pos (le_plus t a), ?_⟩
  show ((t.plus a).micros - t.micros) * 1000 = _
  rw [micros_plus, micros_latest]
  omega

/-- The microseconds of two durations together are those of their sum, up to the one that only both
remainders make. -/
theorem micros_sum (hc : c.nanos = a.nanos + b.nanos) :
    a.micros + b.micros ≤ c.micros ∧ c.micros ≤ a.micros + b.micros + 1 := by
  unfold Duration.micros
  omega

theorem plus_plus_le (t : Timestamp) (hc : c.nanos = a.nanos + b.nanos) :
    (t.plus a).plus b ≤ t.plus c := by
  obtain ⟨hlow, -⟩ := micros_sum hc
  rw [le_def, micros_plus, micros_plus, micros_plus]
  omega

theorem plus_le_plus_plus (t : Timestamp) (hc : c.nanos = a.nanos + b.nanos) :
    (t.plus c).micros ≤ ((t.plus a).plus b).micros + 1 := by
  obtain ⟨-, hhigh⟩ := micros_sum hc
  rw [micros_plus, micros_plus, micros_plus]
  omega

/-- Two sums in a row are one sum if one of the durations has nothing below a microsecond. -/
theorem plus_plus_of_isWhole (t : Timestamp) (hc : c.nanos = a.nanos + b.nanos)
    (hwhole : a.IsWhole ∨ b.IsWhole) : (t.plus a).plus b = t.plus c := by
  have hsum : c.micros = a.micros + b.micros := by
    unfold Duration.IsWhole at hwhole
    unfold Duration.micros
    omega
  apply Timestamp.ext
  rw [micros_plus, micros_plus, micros_plus]
  omega

end Timestamp

/-- **A clock that is advanced shows the sum**, the end of time included. -/
theorem ManualClock.reading_advance (clock : ManualClock) (a : Duration) :
    (clock.advance a).reading = clock.reading.plus a := by
  apply Timestamp.ext
  rw [Timestamp.micros_plus]
  show min (clock.reading.micros + min a.micros 18446744073709551615) 18446744073709551615 = _
  omega

/-! ## The time left -/

namespace Expiration

/-- The whole durations by which a clock at `u` can be advanced without passing the expiration. -/
def roomAt (e : Expiration) (u : Timestamp) : Set Duration :=
  { d | d.IsWhole ∧ e.hasPassed ((ManualClock.mk u).advance d).reading = false }

theorem mem_roomAt_iff :
    d ∈ (Expiration.at e).roomAt u ↔ d.IsWhole ∧ u.plus d ≤ e := by
  show d.IsWhole ∧ _ = false ↔ _
  rw [hasPassed_eq_false_iff, ManualClock.reading_advance]
  exact Iff.rfl

/-- The time left is the difference of the instants, which is zero once the last one is reached. -/
theorem nanos_remaining (e u : Timestamp) :
    ∃ d, (Expiration.at e).remaining u = some d ∧ d.nanos = (e.micros - u.micros) * 1000 := by
  by_cases hle : u ≤ e
  · have hbound := e.micros_le
    have hsince : e.since? u = some ⟨(e.micros - u.micros) * 1000, by omega⟩ := if_pos hle
    exact ⟨_, congrArg (fun found : Option Duration => some (found.getD .zero)) hsince, rfl⟩
  · have hsince : e.since? u = none := if_neg hle
    refine ⟨Duration.zero, ?_, ?_⟩
    · rw [remaining, hsince, Option.getD_none]
    · rw [Timestamp.le_def] at hle
      show 0 = _
      omega

/-- **The time left is the longest whole duration that a clock may still go**, unless the lease is
valid up to the end of time. -/
theorem isGreatest_remaining (h : u ≤ e) (hlast : e < Timestamp.latest)
    (hd : (Expiration.at e).remaining u = some d) : IsGreatest ((Expiration.at e).roomAt u) d := by
  obtain ⟨left, hleft, hnanos⟩ := nanos_remaining e u
  obtain rfl : left = d := Option.some.inj (hleft.symm.trans hd)
  rw [Timestamp.le_def] at h
  rw [Timestamp.lt_def, Timestamp.micros_latest] at hlast
  constructor
  · rw [mem_roomAt_iff, Timestamp.le_def, Timestamp.micros_plus]
    unfold Duration.IsWhole Duration.micros
    omega
  · intro d hd
    obtain ⟨hwhole, hle⟩ := mem_roomAt_iff.mp hd
    -- the sum has not stopped at the end of time, since it is not past `e`
    rw [Timestamp.le_def, Timestamp.micros_plus] at hle
    rw [Duration.le_def, hwhole.nanos_eq, hnanos]
    omega

/-- An expiration at the end of time is never passed. -/
theorem hasPassed_latest (u : Timestamp) : (Expiration.at Timestamp.latest).hasPassed u = false :=
  hasPassed_eq_false_iff.mpr u.le_latest

/-- From the last instant on there is no time left. -/
theorem remaining_of_ge (h : e ≤ u) : (Expiration.at e).remaining u = some Duration.zero := by
  obtain ⟨d, hd, hnanos⟩ := nanos_remaining e u
  have hzero : d = Duration.zero := by
    apply Duration.ext
    rw [Timestamp.le_def] at h
    show d.nanos = 0
    omega
  rw [hd, hzero]

end Expiration

/-! ## All together -/

/-- **Clocks, sums and differences agree to the microsecond**, over all instants and durations:

* a clock that is advanced shows the sum;
* a sum grows with the instant and with the duration, is not earlier than the instant, and the time
  since that instant is the duration in whole microseconds, or all that there is up to the latest
  instant;
* two durations added one after the other miss their sum by a microsecond at most, and by nothing
  if one of them is whole;
* the time left up to an instant that is not past is the longest whole duration by which the clock
  can be advanced without passing it, if that instant is not the latest one; the latest one is
  passed by no clock, and at a past instant and at the last one no time is left. -/
theorem instants_agree (t u : Timestamp) (a b : Duration) :
    ((ManualClock.mk u).advance a).reading = u.plus a ∧
    (∀ t' a', t ≤ t' → a ≤ a' → t.plus a ≤ t'.plus a') ∧
    t ≤ t.plus a ∧
    (∃ d, (t.plus a).since? t = some d ∧
      d.nanos = min a.micros (Timestamp.latest.micros - t.micros) * 1000) ∧
    (∀ c : Duration, c.nanos = a.nanos + b.nanos →
      (t.plus a).plus b ≤ t.plus c ∧ (t.plus c).micros ≤ ((t.plus a).plus b).micros + 1 ∧
      (a.IsWhole ∨ b.IsWhole → (t.plus a).plus b = t.plus c)) ∧
    (∀ e, (Expiration.at e).hasPassed u = false → e < Timestamp.latest →
      ∃ d, (Expiration.at e).remaining u = some d ∧
        IsGreatest ((Expiration.at e).roomAt u) d) ∧
    (Expiration.at Timestamp.latest).hasPassed ((ManualClock.mk u).advance a).reading = false ∧
    ∀ e, e ≤ u → (Expiration.at e).remaining u = some Duration.zero := by
  refine ⟨ManualClock.reading_advance _ a, fun t' a' => Timestamp.plus_mono, t.le_plus a,
    t.since?_plus a, fun c hc => ?_, fun e hpassed hlast => ?_, Expiration.hasPassed_latest _,
    fun e => Expiration.remaining_of_ge⟩
  · exact ⟨t.plus_plus_le hc, t.plus_le_plus_plus hc, t.plus_plus_of_isWhole hc⟩
  · obtain ⟨d, hd, -⟩ := Expiration.nanos_remaining e u
    have hle : u ≤ e := Expiration.hasPassed_eq_false_iff.mp hpassed
    exact ⟨d, hd, Expiration.isGreatest_remaining hle hlast hd⟩

/-- Twice half a microsecond is lost, and once a whole one is not, up to an instant at which nothing
more can be added. Two microseconds before the end of time the clock can still go one without
passing the instant before the latest one. -/
theorem instants_agree_near_latest :
    let half : Duration := ⟨500, by decide⟩
    let whole : Duration := ⟨1000, by decide⟩
    let last : Timestamp := ⟨18446744073709551614, by decide⟩
    let u : Timestamp := ⟨18446744073709551613, by decide⟩
    (last.plus half).plus half = last ∧ last.plus whole = Timestamp.latest ∧
      ((last.plus half).plus half).micros + 1 = (last.plus whole).micros ∧
      (last.plus half).plus half ≤ last.plus whole ∧
      ((Expiration.at last).hasPassed u = false ∧ ∃ d, (Expiration.at last).remaining u = some d ∧
        IsGreatest ((Expiration.at last).roomAt u) d) ∧
      (Expiration.at u).remaining last = some Duration.zero := by
  intro half whole last u
  obtain ⟨-, -, -, -, hsums, -⟩ := instants_agree last u half half
  obtain ⟨-, -, -, -, -, hleft, -⟩ := instants_agree last u half half
  obtain ⟨-, -, -, -, -, -, -, hnone⟩ := instants_agree u last half half
  have hpassed : (Expiration.at last).hasPassed u = false := by decide
  exact ⟨by decide, by decide, by decide, (hsums whole (by decide)).1,
    ⟨hpassed, hleft last hpassed (by decide)⟩, hnone u (by decide)⟩

end LeasedCommit
