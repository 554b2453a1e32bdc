import LeasedCommit.Manager.Step
import LeasedCommit.Proofs.LeaseLife

set_option autoImplicit false

/-! # From settings to expirations

Settings count milliseconds, requests and grants nanoseconds, and instants microseconds up to a
latest one. `Config.grantedNanos?` says in nanoseconds what a request is granted under some
settings, and `Config.Terms` what that makes of the lease: the last instant at which it is valid,
and the bounds that this instant keeps. Settings without a fault keep to these terms
(`Config.terms_of_hasTerm`). -/

namespace LeasedCommit

/-- The latest instant in microseconds. -/
def Timestamp.limit : Nat := 18446744073709551615

namespace Config

/-- The length in nanoseconds that a request is granted under the settings, unless it is granted for
ever. The default is never clipped, since settings without a fault have none above their bound. -/
def grantedNanos? (c : Config) : LeaseRequest → Option Nat
  | .forever => c.maxLeaseMs.map fun bound => bound.toNat * 1000000
  | .any => some (c.defaultLeaseMs.toNat * 1000000)
  | .bounded d =>
    some (c.maxLeaseMs.elim d.nanos fun bound => min d.nanos (bound.toNat * 1000000))

/-- The terms of a lease that was granted at `t` under the settings. -/
structure Terms (c : Config) (request : LeaseRequest) (t : Timestamp) (l : Lease) : Prop where
  /-- Only a request without an end has none, and only if the settings have no bound. -/
  never : l.expiration = .never ↔ request = .forever ∧ c.maxLeaseMs = none
  /-- The last instant is what is granted after `t`, in whole microseconds. -/
  last : ∀ g, c.grantedNanos? request = some g → ∃ last, l.expiration = .at last ∧
    last.micros = min Timestamp.limit (t.micros + g / 1000)
  /-- The lease is valid up to the last instant, and at that instant. -/
  valid : ∀ u, l.isValid u = true ↔ l.expiration.Covers u
  /-- It is not valid for longer than was requested, to the nanosecond. -/
  within_request : ∀ d last, request = .bounded d → l.expiration = .at last →
    last.micros * 1000 ≤ t.micros * 1000 + d.nanos
  /-- It is not valid for longer than the bound. -/
  within_bound : ∀ bound, c.maxLeaseMs = some bound → ∃ last, l.expiration = .at last ∧
    last.micros ≤ t.micros + bound.toNat * 1000
  /-- What the settings alone decide is at least a millisecond, as far as there are instants. -/
  lasts : (∀ d, request ≠ .bounded d) → t.micros + 1000 ≤ Timestamp.limit →
    ∀ last, l.expiration = .at last → t.micros + 1000 ≤ last.micros

variable {c : Config} {request : LeaseRequest} {t : Timestamp} {l : Lease}

/-! ## Settings without a fault -/

/-- The bounds that the check of the settings leaves to rely on. -/
theorem bounds_of_fault? (h : c.fault? = none) :
    0 < c.defaultLeaseMs.toNat ∧ ∀ bound, c.maxLeaseMs = some bound →
      0 < bound.toNat ∧ c.defaultLeaseMs.toNat ≤ bound.toNat := by
  have hpos : ∀ w : UInt64, w ≠ 0 → 0 < w.toNat := by
    intro w hw
    rw [Nat.pos_iff_ne_zero]
    exact fun h0 => hw (UInt64.toNat_inj.mp h0)
  unfold fault? at h
  split at h
  · cases h
  · rename_i hdefault
    refine ⟨hpos _ hdefault, fun bound hbound => ?_⟩
    rw [hbound] at h
    simp only at h
    split at h
    · cases h
    · rename_i hne
      split at h
      · cases h
      · rename_i hle
        rw [UInt64.lt_iff_toNat_lt, Nat.not_lt] at hle
        exact ⟨hpos bound hne, hle⟩

/-- A manager is made only from settings without a fault. -/
theorem fault?_of_ofConfig {m : Manager} (h : Manager.ofConfig c = .ok m) : c.fault? = none := by
  unfold Manager.ofConfig validate at h
  split at h
  · assumption
  · cases h

/-! ## Grants in nanoseconds -/

/-- **The policy of the settings grants what `Config.grantedNanos?` says.** -/
theorem nanos_grant (h : c.fault? = none) (request : LeaseRequest) :
    (c.leasePolicy.grant request).map Duration.nanos = c.grantedNanos? request := by
  obtain ⟨-, hbounds⟩ := bounds_of_fault? h
  unfold LeasePolicy.grant LeasePolicy.wanted leasePolicy grantedNanos?
  cases hmax : c.maxLeaseMs with
  | none => cases request <;> rfl
  | some bound =>
      obtain ⟨-, hle⟩ := hbounds bound hmax
      cases request with
      | forever => rfl
      | any =>
          have hmin : (min (Duration.ofMillis c.defaultLeaseMs) (Duration.ofMillis bound)).nanos =
              c.defaultLeaseMs.toNat * 1000000 := by
            rw [Duration.nanos_min]
            exact Nat.min_eq_left (Nat.mul_le_mul_right _ hle)
          exact congrArg some hmin
      | bounded d => exact congrArg some (Duration.nanos_min d (Duration.ofMillis bound))

theorem grantedNanos?_eq_none_iff :
    c.grantedNanos? request = none ↔ request = .forever ∧ c.maxLeaseMs = none := by
  cases request with
  | forever => simp [grantedNanos?]
  | any | bounded => simp [grantedNanos?]

/-- A grant is not longer than the bound. -/
theorem grantedNanos?_le_bound (h : c.fault? = none) {bound : UInt64}
    (hmax : c.maxLeaseMs = some bound) :
    ∃ g, c.grantedNanos? request = some g ∧ g ≤ bound.toNat * 1000000 := by
  obtain ⟨-, hbounds⟩ := bounds_of_fault? h
  obtain ⟨-, hle⟩ := hbounds bound hmax
  unfold grantedNanos?
  rw [hmax]
  cases request with
  | forever => exact ⟨_, rfl, Nat.le_refl _⟩
  | any => exact ⟨_, rfl, Nat.mul_le_mul_right _ hle⟩
  | bounded d => exact ⟨_, rfl, Nat.min_le_right _ _⟩

/-- A grant is not longer than what was requested. -/
theorem grantedNanos?_le_request {d : Duration} :
    ∃ g, c.grantedNanos? (.bounded d) = some g ∧ g ≤ d.nanos := by
  unfold grantedNanos?
  cases c.maxLeaseMs with
  | none => exact ⟨_, rfl, Nat.le_refl _⟩
  | some bound => exact ⟨_, rfl, Nat.min_le_left _ _⟩

/-- A grant that the settings alone decide is a millisecond or more. -/
theorem le_grantedNanos? (h : c.fault? = none) (hopen : ∀ d, request ≠ .bounded d) {g : Nat}
    (hg : c.grantedNanos? request = some g) : 1000000 ≤ g := by
  obtain ⟨hdefault, hbounds⟩ := bounds_of_fault? h
  cases request with
  | forever =>
      obtain ⟨bound, hmax, rfl⟩ := Option.map_eq_some_iff.mp hg
      obtain ⟨hpos, -⟩ := hbounds bound hmax
      omega
  | any =>
      obtain rfl := Option.some.inj hg
      omega
  | bounded d => exact absurd rfl (hopen d)

/-! ## The terms -/

/-- The expiration of a grant, in the numbers of the settings. -/
theorem expiration_of_hasTerm (h : c.fault? = none)
    (hterm : l.HasTerm { now := t, length := c.leasePolicy.grant request }) :
    (c.grantedNanos? request = none → l.expiration = .never) ∧
    ∀ g, c.grantedNanos? request = some g → ∃ last, l.expiration = .at last ∧
      last.micros = min Timestamp.limit (t.micros + g / 1000) := by
  have hnanos := nanos_grant h request
  rw [hterm.expiration]
  cases hgrant : c.leasePolicy.grant request with
  | none =>
      rw [hgrant] at hnanos
      refine ⟨fun _ => rfl, fun g hg => ?_⟩
      rw [hg] at hnanos
      cases hnanos
  | some d =>
      rw [hgrant] at hnanos
      refine ⟨fun hnone => ?_, fun g hg => ⟨t.plus d, rfl, ?_⟩⟩
      · rw [hnone] at hnanos
        cases hnanos
      · obtain rfl : d.nanos = g := Option.some.inj (hnanos.trans hg)
        rw [Timestamp.micros_plus, Nat.min_comm]
        rfl

/-- **A valid lease that was granted under settings without a fault keeps to their terms.** -/
theorem terms_of_hasTerm (h : c.fault? = none) (hs : l.status = .valid)
    (hterm : l.HasTerm { now := t, length := c.leasePolicy.grant request }) :
    c.Terms request t l := by
  obtain ⟨hnever, hlast⟩ := expiration_of_hasTerm h hterm
  have hmicros : ∀ g last, c.grantedNanos? request = some g → l.expiration = .at last →
      last.micros = min Timestamp.limit (t.micros + g / 1000) := by
    intro g last hg hat
    obtain ⟨last', hat', hmicros⟩ := hlast g hg
    obtain rfl := Expiration.at.inj (hat'.symm.trans hat)
    exact hmicros
  refine ⟨?_, hlast, fun u => ?_, fun d last hrequest hat => ?_, fun bound hmax => ?_,
    fun hopen hroom last hat => ?_⟩
  · rw [← grantedNanos?_eq_none_iff]
    refine ⟨fun hexpiration => ?_, hnever⟩
    cases hg : c.grantedNanos? request with
    | none => rfl
    | some g =>
        obtain ⟨last, hat, -⟩ := hlast g hg
        rw [hexpiration] at hat
        cases hat
  · rw [Lease.isValid_iff]
    exact and_iff_right hs
  · subst hrequest
    obtain ⟨g, hg, hle⟩ := grantedNanos?_le_request (c := c) (d := d)
    rw [hmicros g last hg hat]
    omega
  · obtain ⟨g, hg, hle⟩ : ∃ g, c.grantedNanos? request = some g ∧ g ≤ bound.toNat * 1000000 :=
      grantedNanos?_le_bound h hmax
    obtain ⟨last, hat, heq⟩ := hlast g hg
    refine ⟨last, hat, ?_⟩
    rw [heq]
    omega
  · cases hg : c.grantedNanos? request with
    | none =>
        rw [hnever hg] at hat
        cases hat
    | some g =>
        have hle := le_grantedNanos? h hopen hg
        rw [hmicros g last hg hat]
        omega

end Config

end LeasedCommit
