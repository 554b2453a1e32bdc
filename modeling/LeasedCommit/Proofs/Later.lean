import LeasedCommit.Proofs.Advance

set_option autoImplicit false

/-! # How a record changes in one move

`Record.Later` says what every move leaves alone: the phase goes forward along the protocol, a
decided record keeps what it was decided with, and a report is filed once. So an answer that the
record bears out stays true (`Answer.TrueOf.later`). -/

namespace LeasedCommit

theorem Phase.ne_active_of_isTerminal {p : Phase} (h : p.isTerminal = true) : p ≠ .active := by
  rintro rfl
  cases h

theorem Phase.eq_voting {p : Phase} (h : p ≠ .active) (hu : p.isTerminal = false) :
    p = .voting := by
  cases p with
  | voting => rfl
  | active => exact absurd rfl h
  | committed | aborted => cases hu

theorem Phase.isTerminal_of_ne {p : Phase} (h : p ≠ .active) (hv : p ≠ .voting) :
    p.isTerminal = true := by
  cases p with
  | committed | aborted => rfl
  | active => exact absurd rfl h
  | voting => exact absurd rfl hv

theorem Phase.ne_aborted_of_undecided {p : Phase} (h : p.isTerminal = false) : p ≠ .aborted := by
  rintro rfl
  cases h

/-- `r'` is `r` one move later. -/
structure Record.Later (r r' : Record) : Prop where
  id : r'.id = r.id
  phase : r'.phase = r.phase ∨ r.phase.canBecome r'.phase = true
  grows : r.registry.size ≤ r'.registry.size
  size : r.phase ≠ .active → r'.registry.size = r.registry.size
  decided : r.phase.isTerminal = true →
    r'.abortCause = r.abortCause ∧ r'.settledAt = r.settledAt ∧ r'.lease = r.lease
  report : r'.report = r.report ∨ (r.report = none ∧ r'.report.isSome = true)

namespace Record.Later

variable {r r' : Record}

theorem refl (r : Record) : r.Later r :=
  ⟨rfl, .inl rfl, Nat.le_refl _, fun _ => rfl, fun _ => ⟨rfl, rfl, rfl⟩, .inl rfl⟩

/-- A change of the slots alone. -/
theorem withRegistry {g : Registry} (h : g.size = r.registry.size) : r.Later (r.withRegistry g) :=
  ⟨rfl, .inl rfl, Nat.le_of_eq h.symm, fun _ => h, fun _ => ⟨rfl, rfl, rfl⟩, .inl rfl⟩

/-- The abort of an undecided record. -/
theorem abort (hu : r.phase.isTerminal = false) {lease : Lease} {cause : AbortCause}
    {now : Timestamp} {g : Registry} (h : g.size = r.registry.size) :
    r.Later ((r.aborted lease cause now).withRegistry g) := by
  refine ⟨rfl, .inr ?_, Nat.le_of_eq h.symm, fun _ => h, fun hd => ?_, .inl rfl⟩
  · cases hp : r.phase <;> simp_all [Phase.isTerminal, Phase.canBecome]
  · rw [hu] at hd
    exact absurd hd (by decide)

/-- The commit of a record whose vote is open. -/
theorem commit (hp : r.phase = .voting) {now : Timestamp} {g : Registry}
    (h : g.size = r.registry.size) : r.Later ((r.committed now).withRegistry g) := by
  refine ⟨rfl, .inr ?_, Nat.le_of_eq h.symm, fun _ => h, fun hd => ?_, .inl rfl⟩
  · rw [hp]
    rfl
  · rw [hp] at hd
    exact absurd hd (by decide)

/-- The first report of a record. -/
theorem fileReport (h : r.report = none) (report : CommitReport) :
    r.Later { r with report := some report } :=
  ⟨rfl, .inl rfl, Nat.le_refl _, fun _ => rfl, fun _ => ⟨rfl, rfl, rfl⟩, .inr ⟨h, rfl⟩⟩

/-- A decided record stays in its phase. -/
theorem phase_eq (h : r.Later r') (hd : r.phase.isTerminal = true) : r'.phase = r.phase := by
  rcases h.phase with h | h
  · exact h
  · cases hp : r.phase <;> simp_all [Phase.isTerminal, Phase.canBecome]

/-- Nobody comes back to the active phase. -/
theorem ne_active (h : r.Later r') (hp : r.phase ≠ .active) : r'.phase ≠ .active := by
  intro hp'
  rcases h.phase with h | h
  · exact hp (h.symm.trans hp')
  · rw [hp'] at h
    cases hq : r.phase <;> rw [hq] at h <;> cases h

theorem aborted (h : r.Later r') (hp : r.phase = .aborted) : r'.phase = .aborted := by
  rw [h.phase_eq (by rw [hp]; rfl), hp]

theorem committed (h : r.Later r') (hp : r.phase = .committed) : r'.phase = .committed := by
  rw [h.phase_eq (by rw [hp]; rfl), hp]

end Record.Later

/-- What a decided record bears out, it bears out for ever. -/
theorem Answer.TrueOf.later {r r' : Record} {a : Answer} (h : a.TrueOf r) (hl : r.Later r') :
    a.TrueOf r' := by
  cases a with
  | joined | renewed | timedOut => trivial
  | committed report =>
      refine ⟨hl.committed h.1, ?_⟩
      rcases hl.report with hr | ⟨hr, -⟩
      · rw [hr, h.2]
      · rw [h.2] at hr
        exact absurd hr (by simp)
  | done => exact hl.aborted h
  | expired b => exact fun hb => hl.aborted (h hb)
  | reached phase =>
      intro hp
      have := h hp
      rw [hl.phase_eq (by rw [this]; exact hp), this]
  | refused e =>
      cases e with
      | cannotJoin id phase =>
          refine ⟨h.1.trans hl.id.symm, h.2.1, fun hp => ?_⟩
          have := h.2.2 hp
          rw [hl.phase_eq (by rw [this]; exact hp), this]
      | cannotCommit id cause =>
          refine ⟨h.1.trans hl.id.symm, hl.aborted h.2.1, ?_⟩
          rw [(hl.decided (by rw [h.2.1]; rfl)).1, h.2.2]
      | cannotAbort id outcome => exact ⟨h.1.trans hl.id.symm, h.2.1, hl.committed h.2.2⟩
      | notModifiable id phase => exact ⟨h.1.trans hl.id.symm, h.2.1, hl.committed h.2.2⟩
      | unknownLease id => exact h.trans hl.id.symm
      | unknownTransaction | timeout | invalidConfig | io => exact h.elim

theorem Advance.later {rules : Rules} {r r' : Record} {a : Action} {s s' : Stage}
    (h : Advance rules r a s r' s') (hs : s.Fits r) : r.Later r' := by
  cases h with
  | join hp =>
      exact ⟨rfl, .inl rfl, by simp, fun h => absurd hp h, fun _ => ⟨rfl, rfl, rfl⟩, .inl rfl⟩
  | renew hu =>
      refine ⟨rfl, .inl rfl, Nat.le_refl _, fun _ => rfl, fun hd => ?_, .inl rfl⟩
      rw [hu] at hd
      cases hd
  | abort hu => exact .abort hu (by simp)
  | openVote hp =>
      refine ⟨rfl, .inr (by rw [hp]; rfl), Nat.le_refl _, fun h => absurd hp h, fun hd => ?_,
        .inl rfl⟩
      rw [hp] at hd
      cases hd
  | ask | askSole | prepared | late | rollForward | abandon => exact .withRegistry (by simp)
  | refuse hp => exact .abort (by rw [hp]; rfl) (by simp)
  | lapse hp | interruptVote hp =>
      exact Record.Later.abort (g := r.registry.freeze) (by rw [hp]; rfl) rfl
  | decide hp => exact Record.Later.commit (g := r.registry.freeze) hp rfl
  | decideSole hp => exact .commit hp (by simp)
  | file => exact .fileReport hs.2.1 _
  | interruptCommit _ hreport => exact .fileReport hreport _
  | _ => exact .refl r

end LeasedCommit
