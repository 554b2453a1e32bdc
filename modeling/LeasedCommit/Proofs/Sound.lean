import LeasedCommit.Proofs.Fits

set_option autoImplicit false

/-! # Invariants of a transaction

`Transaction.Sound` holds in every state of a run: the record has its `Record.Shape`, every
operation fits its stage, at most one operation leads, and an open vote or an unreported commit
is led by somebody. It also keeps the claims apart: `Stage.holds` lists the slots that an
operation has asked or claimed and not yet dealt with, and no slot is held twice or while it can
still be claimed. -/

namespace LeasedCommit

namespace Stage

/-- The slots that an operation has asked or claimed and not yet dealt with. -/
def holds : Stage → List Nat
  | .votePending k _ _ | .voteHeard k _ _ => [k]
  | .solePending _ _ | .soleHeard _ => [0]
  | .commitPending d | .pausing d => d.claim.position :: d.rest.map Claim.position
  | .abortPending _ c rest _ => c.position :: rest.map Claim.position
  | _ => []

/-- Whether all slots have voted for the commit when an operation makes its visit at this stage. -/
def hasAllVotes : Stage → Bool
  | .deciding | .soleHeard (.answered .committed) => true
  | _ => false

@[simp] theorem leads_deliverAborts (owner : Bool) (owed : List Claim) (a : Answer) :
    (deliverAborts owner owed a).leads = (owner && !owed.isEmpty) := by
  cases owed <;> cases owner <;> rfl

@[simp] theorem leads_deliverCommits (id : TransactionId) (n : Nat) (owed : List Claim)
    (failures : List CommitFailure) : (deliverCommits id n owed failures).leads = true := by
  cases owed <;> rfl

@[simp] theorem leads_ask (k n : Nat) : (ask k n).leads = true := by
  unfold ask
  split <;> rfl

@[simp] theorem leads_firstQuestion (n : Nat) : (Record.firstQuestion n).leads = true := by
  rcases n with _ | _ | n <;> rfl

@[simp] theorem holds_deliverAborts (owner : Bool) (owed : List Claim) (a : Answer) :
    (deliverAborts owner owed a).holds = owed.map Claim.position := by
  cases owed <;> rfl

@[simp] theorem holds_deliverCommits (id : TransactionId) (n : Nat) (owed : List Claim)
    (failures : List CommitFailure) :
    (deliverCommits id n owed failures).holds = owed.map Claim.position := by
  cases owed <;> rfl

@[simp] theorem holds_ask (k n : Nat) : (ask k n).holds = [] := by
  unfold ask
  split <;> rfl

@[simp] theorem holds_firstQuestion (n : Nat) : (Record.firstQuestion n).holds = [] := by
  rcases n with _ | _ | n <;> rfl

/-- Whoever leads is not over. -/
theorem isOver_of_leads {s : Stage} (h : s.leads = true) : s.isOver = false := by
  cases s <;> first | rfl | cases h

/-- Whoever can settle a slot in some way has heard from it. -/
theorem Settles.holds_eq {s : Stage} {k : Nat} {p : Progress} (h : s.Settles k p) :
    s.holds = [k] := by
  cases h <;> rfl

end Stage

/-! ## Who leads -/

/-- Somebody has to bring the record on: its vote is open, or its commit is not reported. -/
def Record.Unfinished (r : Record) : Prop :=
  r.phase = .voting ∨ (r.phase = .committed ∧ r.report = none)

/-- Whoever leads after a move has led before, or opens the vote. -/
theorem Advance.leads {rules : Rules} {r r' : Record} {a : Action} {s s' : Stage}
    (h : Advance rules r a s r' s') (hs' : s'.leads = true) :
    s.leads = true ∨ (r.phase = .active ∧ r' = r.voting) := by
  cases h with
  | openVote hp => exact .inr ⟨hp, rfl⟩
  | giveIn hask => rcases hask with ⟨k, n, rfl⟩ | rfl | rfl <;> exact .inl rfl
  | refuse _ _ hsettles | late _ _ hsettles => cases hsettles <;> exact .inl rfl
  | @abortReturns _ owner =>
      cases owner with
      | true => exact .inl rfl
      | false => simp at hs'
  | @abortPanics _ owner =>
      cases owner with
      | true => exact .inl rfl
      | false => cases hs'
  | abort => simp at hs'
  | answer | wait | look | lookAgain | giveUp | join | renew => cases hs'
  | _ => exact .inl rfl

/-- A vote is opened by a commit that then leads. -/
theorem Advance.opens {rules : Rules} {r r' : Record} {a : Action} {s s' : Stage}
    (h : Advance rules r a s r' s') (hp : r.phase = .active) (hp' : r'.phase = .voting) :
    s = .requested .commit ∧ r' = r.voting ∧ s'.leads = true := by
  cases h with
  | openVote => exact ⟨rfl, rfl, by simp⟩
  | join | renew | file | interruptCommit | rollForward | abandon | ask | askSole | prepared
  | late => exact absurd (hp.symm.trans hp') (by decide)
  | abort | refuse | lapse | decide | decideSole | interruptVote => cases hp'
  | _ => exact absurd (hp.symm.trans hp') (by decide)

/-- Whoever leads goes on leading or ends. -/
theorem Advance.leads_or_isOver {rules : Rules} {r r' : Record} {a : Action} {s s' : Stage}
    (h : Advance rules r a s r' s') (hs : s.leads = true) :
    s'.leads = true ∨ s'.isOver = true := by
  cases h with
  | prepared | rollForward | commitReturns => exact .inl (by simp)
  | abandon =>
      cases r.registry.claimable with
      | nil => exact .inr rfl
      | cons c rest => exact .inl rfl
  | @abortReturns _ owner c rest =>
      cases rest with
      | nil => exact .inr rfl
      | cons c' rest =>
          cases owner with
          | true => exact .inl rfl
          | false => cases hs
  | @abortPanics _ owner =>
      cases owner with
      | true => exact .inl rfl
      | false => cases hs
  | file | interruptVote | interruptCommit | interruptLate => exact .inr rfl
  | answer | wait | look | lookAgain | giveUp | join | renew | abort | openVote => cases hs
  | _ => exact .inl rfl

/-- An operation that is over does not move. -/
theorem Advance.isOver_eq_false {rules : Rules} {r r' : Record} {a : Action} {s s' : Stage}
    (h : Advance rules r a s r' s') : s.isOver = false := by
  cases h with
  | giveIn hask => rcases hask with ⟨k, n, rfl⟩ | rfl | rfl <;> rfl
  | refuse _ _ hsettles | late _ _ hsettles => cases hsettles <;> rfl
  | _ => rfl

/-- Whoever stops leading leaves nothing unfinished. -/
theorem Advance.settled {rules : Rules} {r r' : Record} {a : Action} {s s' : Stage}
    (h : Advance rules r a s r' s') (hfits : s.Fits r) (hs : s.leads = true)
    (hs' : s'.leads = false) :
    ¬ r'.Unfinished := by
  have haborted : r'.phase = .aborted → ¬ r'.Unfinished := by
    rintro hp (h | ⟨h, -⟩) <;> rw [hp] at h <;> cases h
  have hreported : r'.phase = .committed → r'.report.isSome = true → ¬ r'.Unfinished := by
    rintro hp hreport (h | ⟨-, h⟩)
    · rw [hp] at h
      cases h
    · rw [h] at hreport
      cases hreport
  cases h with
  | file => exact hreported hfits.1 rfl
  | interruptCommit hp _ => exact hreported hp rfl
  | interruptVote => exact haborted rfl
  | interruptLate hp => exact haborted hp
  | abandon => exact haborted hfits
  | abortReturns | abortPanics => exact haborted hfits.1
  -- these lead on
  | commitReturns | rollForward | prepared => simp at hs'
  | answer | wait | look | lookAgain | giveUp | join | renew | abort | openVote => cases hs
  | _ => cases hs'

/-! ## Who holds a slot -/

/-- How claims pass in a move: nothing is held twice, what is held anew could be claimed before
and cannot be claimed any more, and what can be claimed anew was held or did not exist. -/
structure HandOver (r : Record) (s : Stage) (r' : Record) (s' : Stage) : Prop where
  nodup : s'.holds.Nodup
  fresh : ∀ j ∈ s'.holds, j ∈ s.holds ∨ r.registry.canClaim j = true
  firm : ∀ j ∈ s'.holds, r'.registry.canClaim j = false
  released : ∀ j, r'.registry.canClaim j = true →
    r.registry.canClaim j = true ∨ j ∈ s.holds ∨ r.registry.size ≤ j

namespace HandOver

variable {r r' : Record} {s s' : Stage}

/-- The operation keeps some of its claims, and no slot becomes open to claims. -/
theorem keep (hsub : s'.holds.Sublist s.holds) (hnodup : s.holds.Nodup)
    (hheld : ∀ j ∈ s.holds, r.registry.canClaim j = false)
    (hopen : ∀ j, r'.registry.canClaim j = true → r.registry.canClaim j = true) :
    HandOver r s r' s' where
  nodup := hnodup.sublist hsub
  fresh j hj := .inl (hsub.subset hj)
  firm j hj := by
    rw [← Bool.not_eq_true]
    intro hj'
    exact absurd (hopen j hj') (by simp [hheld j (hsub.subset hj)])
  released j hj := .inl (hopen j hj)

/-- The operation ends up without claims. -/
theorem drop (hs' : s'.holds = []) (hopen : ∀ j, r'.registry.canClaim j = true →
      r.registry.canClaim j = true ∨ j ∈ s.holds ∨ r.registry.size ≤ j) :
    HandOver r s r' s' where
  nodup := by simp [hs']
  fresh := by simp [hs']
  firm := by simp [hs']
  released := hopen

/-- The operation claims everybody who can be claimed. -/
theorem claimAll {how : Settlement} (hs' : s'.holds = r.registry.claimable.map Claim.position)
    (hg : r'.registry = (r.registry.freeze.claimAll how).1 ∨
      r'.registry = (r.registry.claimAll how).1) : HandOver r s r' s' where
  nodup := by
    rw [hs']
    exact Registry.nodup_claimable _
  fresh j hj := by
    rw [hs'] at hj
    obtain ⟨c, hc, rfl⟩ := List.mem_map.mp hj
    exact .inr (Registry.canClaim_of_mem_claimable hc)
  firm j _ := by rcases hg with hg | hg <;> rw [hg, Registry.canClaim_claimAll]
  released j hj := by
    rcases hg with hg | hg <;> rw [hg, Registry.canClaim_claimAll] at hj <;> cases hj

/-- The operation asks a slot to which nothing was sent. -/
theorem ask {k : Nat} (hk : r.registry.progress? k = some .joined) (hs' : s'.holds = [k])
    (hg : r'.registry = r.registry.setProgress k .preparing) : HandOver r s r' s' where
  nodup := by simp [hs']
  fresh j hj := by
    rw [hs', List.mem_singleton] at hj
    subst hj
    exact .inr (Registry.canClaim_iff.mpr ⟨_, hk, rfl⟩)
  firm j hj := by
    rw [hs', List.mem_singleton] at hj
    subst hj
    rw [hg, Registry.canClaim_setProgress, if_pos rfl, hk]
    rfl
  released j hj := by
    rw [hg, Registry.canClaim_setProgress] at hj
    split at hj
    · simp [Progress.acceptsDecision] at hj
    · exact .inl hj

/-- The operation settles the slot that it has heard from. -/
theorem settle {k : Nat} {p : Progress} (hs : s.holds = [k]) (hs' : s'.holds = [])
    (hg : r'.registry = r.registry.freeze.setProgress k p ∨
      r'.registry = r.registry.setProgress k p) : HandOver r s r' s' := by
  refine drop hs' fun j hj => ?_
  by_cases hk : k = j
  · exact .inr (.inl (by simp [hs, hk]))
  · rcases hg with hg | hg <;> rw [hg, Registry.canClaim_setProgress, if_neg hk] at hj <;>
      exact .inl hj

end HandOver

theorem Advance.handOver {rules : Rules} {r r' : Record} {a : Action} {s s' : Stage}
    (h : Advance rules r a s r' s') (hnodup : s.holds.Nodup)
    (hheld : ∀ j ∈ s.holds, r.registry.canClaim j = false) : HandOver r s r' s' := by
  cases h with
  | join =>
      -- the new slot can be claimed
      refine .drop rfl fun j hj => ?_
      rw [Record.withRegistry_registry, Registry.canClaim_enlist] at hj
      split at hj
      · exact .inr (.inr (by omega))
      · exact .inl hj
  | abort => exact .claimAll (by simp) (.inl rfl)
  | rollForward => exact .claimAll (by simp) (.inr rfl)
  | abandon => exact .claimAll (by simp) (.inr rfl)
  | openVote => exact .drop (by simp) fun j hj => .inl hj
  | ask _ hk | askSole _ hk => exact .ask hk rfl rfl
  | prepared => exact .settle rfl (by simp) (.inr rfl)
  | refuse _ _ hsettles => exact .settle hsettles.holds_eq rfl (.inl rfl)
  | late _ _ hsettles => exact .settle hsettles.holds_eq rfl (.inr rfl)
  | decideSole => exact .settle rfl rfl (.inl rfl)
  | commitReturns =>
      refine .keep ?_ hnodup hheld fun j hj => hj
      rw [Stage.holds_deliverCommits]
      exact List.sublist_cons_self _ _
  | abortReturns =>
      refine .keep ?_ hnodup hheld fun j hj => hj
      rw [Stage.holds_deliverAborts]
      exact List.sublist_cons_self _ _
  | abortPanics => exact .drop (by split <;> rfl) fun j hj => .inl hj
  | voteReturns | soleGoesOn | soleReturns | commitLost | repeatCommit =>
      exact .keep (List.Sublist.refl _) hnodup hheld fun j hj => hj
  | _ => exact .drop rfl fun j hj => .inl hj

/-! ## The invariant -/

namespace Transaction

/-- The state between two moves. -/
structure Sound (x : Transaction) : Prop where
  shape : x.record.Shape
  fits : x.AllFit
  leader : ∀ i i' s s', x.stage? i = some s → x.stage? i' = some s' → s.leads = true →
    s'.leads = true → i = i'
  led : x.record.Unfinished → ∃ i s, x.stage? i = some s ∧ s.leads = true
  nodup : ∀ i s, x.stage? i = some s → s.holds.Nodup
  held : ∀ i s, x.stage? i = some s → ∀ j ∈ s.holds,
    j < x.record.registry.size ∧ x.record.registry.canClaim j = false
  apart : ∀ i i' s s', x.stage? i = some s → x.stage? i' = some s' → i ≠ i' →
    ∀ j ∈ s.holds, j ∉ s'.holds

@[simp] theorem stage?_opened (policy : LeasePolicy) (id : TransactionId) (request : LeaseRequest)
    (now : Timestamp) (i : Nat) : (opened policy id request now).stage? i = none := by
  simp [opened, create, stage?]

/-- Nothing has been asked of a new transaction. -/
theorem sound_opened (policy : LeasePolicy) (id : TransactionId) (request : LeaseRequest)
    (now : Timestamp) : (opened policy id request now).Sound where
  shape := Record.Shape.create _ _ _
  fits i s h := by simp at h
  leader i i' s s' h := by simp at h
  led h := by simp [opened, create, Record.create, Record.Unfinished] at h
  nodup i s h := by simp at h
  held i s h := by simp at h
  apart i i' s s' h := by simp at h

variable {rules : Rules} {x y : Transaction}

/-! ## A request comes in -/

theorem stage?_begun {q : Request} {i : Nat} {t : Stage} (h : (x.begun q).stage? i = some t) :
    x.stage? i = some t ∨ (i = x.operations.length ∧ t = .requested q) := by
  simp only [begun, stage?, List.getElem?_append] at h
  split at h
  · exact .inl h
  · -- beyond the old operations there is only the new one
    rename_i hle
    refine .inr ?_
    obtain ⟨hlt, heq⟩ := List.getElem?_eq_some_iff.mp h
    simp only [List.length_singleton] at hlt
    refine ⟨by omega, ?_⟩
    rw [← heq]
    simp

theorem stage?_begun_of_some {q : Request} {i : Nat} {t : Stage} (h : x.stage? i = some t) :
    (x.begun q).stage? i = some t := by
  obtain ⟨hlt, -⟩ := List.getElem?_eq_some_iff.mp h
  rw [stage?, begun, List.getElem?_append_left hlt]
  exact h

/-- A request disturbs nobody. -/
theorem Sound.begun (hx : x.Sound) (q : Request) : (x.begun q).Sound where
  shape := hx.shape
  fits i t h := by
    rcases stage?_begun h with h | ⟨-, rfl⟩
    · exact hx.fits i t h
    · trivial
  leader i i' t t' h h' ht ht' := by
    rcases stage?_begun h with h | ⟨-, rfl⟩
    · rcases stage?_begun h' with h' | ⟨-, rfl⟩
      · exact hx.leader i i' t t' h h' ht ht'
      · cases ht'
    · cases ht
  led h := by
    obtain ⟨i, s, hs, hl⟩ := hx.led h
    exact ⟨i, s, stage?_begun_of_some hs, hl⟩
  nodup i t h := by
    rcases stage?_begun h with h | ⟨-, rfl⟩
    · exact hx.nodup i t h
    · exact List.nodup_nil
  held i t h j hj := by
    rcases stage?_begun h with h | ⟨-, rfl⟩
    · exact hx.held i t h j hj
    · cases hj
  apart i i' t t' h h' hne j hj := by
    rcases stage?_begun h with h | ⟨-, rfl⟩
    · rcases stage?_begun h' with h' | ⟨-, rfl⟩
      · exact hx.apart i i' t t' h h' hne j hj
      · intro hj'
        cases hj'
    · cases hj

/-! ## An operation moves -/

namespace Moved

variable {i : Nat} {s s' : Stage} {r' : Record}

theorem stage?_self (h : x.Moved i s r' s' y) : y.stage? i = some s' := by
  obtain ⟨hlt, -⟩ := List.getElem?_eq_some_iff.mp h.stage
  rw [stage?, h.operations, List.getElem?_set_self hlt]

theorem stage?_of_ne (h : x.Moved i s r' s' y) {i' : Nat} (hne : i' ≠ i) :
    y.stage? i' = x.stage? i' := by
  rw [stage?, h.operations, List.getElem?_set_ne hne.symm]
  rfl

/-- Every stage is the new one or an old one. -/
theorem stage?_cases (h : x.Moved i s r' s' y) {i' : Nat} {t : Stage}
    (ht : y.stage? i' = some t) : (i' = i ∧ t = s') ∨ (i' ≠ i ∧ x.stage? i' = some t) := by
  by_cases hne : i' = i
  · subst hne
    rw [h.stage?_self] at ht
    exact .inl ⟨rfl, (Option.some.inj ht).symm⟩
  · rw [h.stage?_of_ne hne] at ht
    exact .inr ⟨hne, ht⟩

end Moved

namespace Sound

variable {a : Action} {i : Nat} {s s' : Stage} {r' : Record}

theorem handOver (hx : x.Sound) (hm : Advance rules x.record a s r' s') (hy : x.Moved i s r' s' y) :
    HandOver x.record s r' s' :=
  hm.handOver (hx.nodup i s hy.stage) fun j hj => (hx.held i s hy.stage j hj).2

theorem later (hx : x.Sound) (hm : Advance rules x.record a s r' s') (hy : x.Moved i s r' s' y) :
    x.record.Later r' :=
  hm.later (hx.fits i s hy.stage)

/-- The others keep what they rely on. -/
theorem moved_fits (hx : x.Sound) (hm : Advance rules x.record a s r' s')
    (hy : x.Moved i s r' s' y) : y.AllFit := by
  intro i' t h
  rw [hy.record]
  rcases hy.stage?_cases h with ⟨rfl, rfl⟩ | ⟨hne, h⟩
  · exact hm.fits hx.shape (hx.fits _ s hy.stage)
  · have ht := hx.fits i' t h
    cases hlead : t.leads with
    | false => exact ht.later hlead (hx.later hm hy)
    | true =>
        -- two operations cannot lead at once, so the one that moves does not
        refine ht.beside hlead hm ?_
        rw [← Bool.not_eq_true]
        intro hs
        exact hne (hx.leader i' i t s h hy.stage hlead hs)

/-- If the operation that moves leads then nobody else did. -/
theorem moved_alone (hx : x.Sound) (hm : Advance rules x.record a s r' s')
    (hy : x.Moved i s r' s' y) (hs' : s'.leads = true) {i' : Nat} {t : Stage} (hne : i' ≠ i)
    (h : x.stage? i' = some t) : t.leads = false := by
  rw [← Bool.not_eq_true]
  intro ht
  rcases hm.leads hs' with hs | ⟨hp, -⟩
  · exact hne (hx.leader i' i t s h hy.stage ht hs)
  -- a vote is opened while the record is active, when nobody leads
  · exact (hx.fits i' t h).ne_active ht hp

theorem moved_leader (hx : x.Sound) (hm : Advance rules x.record a s r' s')
    (hy : x.Moved i s r' s' y) (i₁ i₂ : Nat) (t₁ t₂ : Stage) (h₁ : y.stage? i₁ = some t₁)
    (h₂ : y.stage? i₂ = some t₂) (ht₁ : t₁.leads = true) (ht₂ : t₂.leads = true) : i₁ = i₂ := by
  rcases hy.stage?_cases h₁ with ⟨rfl, rfl⟩ | ⟨hne₁, h₁⟩ <;>
    rcases hy.stage?_cases h₂ with ⟨rfl, rfl⟩ | ⟨hne₂, h₂⟩
  · rfl
  · rw [hx.moved_alone hm hy ht₁ hne₂ h₂] at ht₂
    cases ht₂
  · rw [hx.moved_alone hm hy ht₂ hne₁ h₁] at ht₁
    cases ht₁
  · exact hx.leader i₁ i₂ t₁ t₂ h₁ h₂ ht₁ ht₂

/-- What is unfinished after a move was so before, or the move opens the vote. -/
theorem moved_unfinished (hx : x.Sound) (hm : Advance rules x.record a s r' s')
    (hy : x.Moved i s r' s' y) (h : r'.Unfinished) : x.record.Unfinished ∨ s'.leads = true := by
  have hl := hx.later hm hy
  have hnone : r'.report = none → x.record.report = none := by
    intro hr
    rcases hl.report with h | ⟨h, -⟩
    · rw [← h, hr]
    · exact h
  rcases hl.phase with hp | hp
  -- the phase stays
  · rw [Record.Unfinished, hp] at h
    exact .inl (h.imp_right fun h => ⟨h.1, hnone h.2⟩)
  -- the phase goes forward, and a record that is still unfinished comes from a vote or opens one
  · cases hq : x.record.phase with
    | voting => exact .inl (.inl hq)
    | active =>
        refine .inr ?_
        rcases h with h | ⟨h, -⟩
        · exact (hm.opens hq h).2.2
        · rw [hq, h] at hp
          cases hp
    | committed | aborted =>
        rw [hq] at hp
        cases hp

theorem moved_led (hx : x.Sound) (hm : Advance rules x.record a s r' s') (hy : x.Moved i s r' s' y)
    (h : r'.Unfinished) : ∃ i s, y.stage? i = some s ∧ s.leads = true := by
  cases hs' : s'.leads with
  | true => exact ⟨i, s', hy.stage?_self, hs'⟩
  | false =>
      have hbefore := (hx.moved_unfinished hm hy h).resolve_right (by simp [hs'])
      obtain ⟨i', t, ht, hlead⟩ := hx.led hbefore
      by_cases hne : i' = i
      · subst hne
        obtain rfl : s = t := Option.some.inj (hy.stage.symm.trans ht)
        -- the leader has moved and does not lead any more
        exact absurd h (hm.settled (hx.fits _ s hy.stage) hlead hs')
      · exact ⟨i', t, (hy.stage?_of_ne hne).trans ht, hlead⟩

theorem moved_held (hx : x.Sound) (hm : Advance rules x.record a s r' s') (hy : x.Moved i s r' s' y)
    (i' : Nat) (t : Stage) (h : y.stage? i' = some t) (j : Nat) (hj : j ∈ t.holds) :
    j < r'.registry.size ∧ r'.registry.canClaim j = false := by
  have hgrows := (hx.later hm hy).grows
  have hand := hx.handOver hm hy
  rcases hy.stage?_cases h with ⟨rfl, rfl⟩ | ⟨hne, h⟩
  · refine ⟨?_, hand.firm j hj⟩
    -- a slot that is held was held or could be claimed, so it exists
    rcases hand.fresh j hj with hold | hclaim
    · have := (hx.held _ s hy.stage j hold).1
      omega
    · have := Registry.lt_size_of_canClaim hclaim
      omega
  · obtain ⟨hlt, hfirm⟩ := hx.held i' t h j hj
    refine ⟨by omega, ?_⟩
    rw [← Bool.not_eq_true]
    intro hclaim
    -- what the move releases was held by its operation, and so not by this one
    rcases hand.released j hclaim with hc | hold | hle
    · rw [hfirm] at hc
      cases hc
    · exact hx.apart i' i t s h hy.stage hne j hj hold
    · omega

/-- What one operation holds, the operation that moves does not come to hold. -/
theorem moved_apart (hx : x.Sound) (hm : Advance rules x.record a s r' s')
    (hy : x.Moved i s r' s' y) {i' : Nat} {t : Stage} (hne : i' ≠ i) (h : x.stage? i' = some t)
    {j : Nat} (hj : j ∈ t.holds) : j ∉ s'.holds := by
  intro hj'
  -- it would have been held twice before, or claimed although it was held
  rcases (hx.handOver hm hy).fresh j hj' with hold | hclaim
  · exact hx.apart i' i t s h hy.stage hne j hj hold
  · rw [(hx.held i' t h j hj).2] at hclaim
    cases hclaim

/-- A move keeps everything in order. -/
theorem moved (hx : x.Sound) (hm : Advance rules x.record a s r' s') (hy : x.Moved i s r' s' y) :
    y.Sound where
  shape := by
    rw [hy.record]
    exact hm.shape hx.shape (hx.fits i s hy.stage)
  fits := hx.moved_fits hm hy
  leader := hx.moved_leader hm hy
  led := by
    rw [hy.record]
    exact hx.moved_led hm hy
  nodup i' t h := by
    rcases hy.stage?_cases h with ⟨rfl, rfl⟩ | ⟨-, h⟩
    · exact (hx.handOver hm hy).nodup
    · exact hx.nodup i' t h
  held := by
    rw [hy.record]
    exact hx.moved_held hm hy
  apart i₁ i₂ t₁ t₂ h₁ h₂ hne j hj := by
    rcases hy.stage?_cases h₁ with ⟨rfl, rfl⟩ | ⟨hne₁, h₁⟩ <;>
      rcases hy.stage?_cases h₂ with ⟨rfl, rfl⟩ | ⟨hne₂, h₂⟩
    · exact absurd rfl hne
    · intro hj'
      exact hx.moved_apart hm hy hne₂ h₂ hj' hj
    · exact hx.moved_apart hm hy hne₁ h₁ hj
    · exact hx.apart i₁ i₂ t₁ t₂ h₁ h₂ hne j hj

/-- A step keeps everything in order. -/
theorem step {counts : OutcomeCounts} (hx : x.Sound) (h : x.step rules a = some (y, counts)) :
    y.Sound := by
  rcases step_cases hx.shape hx.fits h with ⟨q, -, rfl⟩ | ⟨i, s, r', s', -, hm, hy⟩
  · exact hx.begun q
  · exact hx.moved hm hy

end Sound

end Transaction

/-! ## Along a run -/

section Runs

variable {rules : Rules} {x₀ x : Transaction} {turns : List Turn}

theorem Run.sound (h₀ : x₀.Sound) (h : Run rules x₀ turns x) : x.Sound := by
  induction h with
  | start => exact h₀
  | next _ hstep ih => exact ih.step hstep

/-- Every transaction of a coordinator is sound. -/
theorem Coordinator.Reached.sound {c : Coordinator} (h : Coordinator.Reached rules c) {place : Nat}
    (hx : c.transactions[place]? = some x) : x.Sound := by
  obtain ⟨id, request, now, turns, hrun⟩ := h.run hx
  exact hrun.sound (Transaction.sound_opened rules.lease id request now)

/-- Every turn of a run is a step from a sound state. -/
theorem Run.turn (h₀ : x₀.Sound) (h : Run rules x₀ turns x) :
    ∀ t ∈ turns, t.before.Sound ∧
      ∃ counts, t.before.step rules t.action = some (t.after, counts) := by
  induction h with
  | start =>
      intro t ht
      cases ht
  | next hrun hstep ih =>
      intro t ht
      rcases List.mem_append.mp ht with ht | ht
      · exact ih t ht
      · obtain rfl := List.mem_singleton.mp ht
        exact ⟨hrun.sound h₀, _, hstep⟩

/-- To hold along every run is to hold at its start and to be preserved by a request and by a
move from a sound state. -/
theorem Run.invariant {P : List Turn → Transaction → Prop} (h₀ : x₀.Sound) (hstart : P [] x₀)
    (hbegun : ∀ (turns : List Turn) (x : Transaction) (q : Request), x.Sound → P turns x →
      P (turns ++ [{ before := x, action := .begin q, after := x.begun q }]) (x.begun q))
    (hmoved : ∀ (turns : List Turn) (x y : Transaction) (a : Action) (i : Nat) (s : Stage)
      (r' : Record) (s' : Stage), x.Sound → P turns x → a.operation? = some i →
      Advance rules x.record a s r' s' → x.Moved i s r' s' y →
      P (turns ++ [{ before := x, action := a, after := y }]) y)
    (h : Run rules x₀ turns x) : P turns x := by
  induction h with
  | start => exact hstart
  | next hrun hstep ih =>
      have hx := hrun.sound h₀
      rcases Transaction.step_cases hx.shape hx.fits hstep with
        ⟨q, rfl, rfl⟩ | ⟨i, s, r', s', hi, hm, hy⟩
      · exact hbegun _ _ q hx ih
      · exact hmoved _ _ _ _ i s r' s' hx ih hi hm hy

end Runs

/-- Nothing passes when a request comes in. -/
theorem Turn.events_begin (x y : Transaction) (q : Request) :
    Turn.events { before := x, action := .begin q, after := y } = [] := rfl

/-- A move ends the call of its old stage and begins that of its new one. -/
theorem Transaction.Moved.events {x y : Transaction} {a : Action} {i : Nat} {s s' : Stage}
    {r' : Record} (hi : a.operation? = some i) (hy : x.Moved i s r' s' y) :
    Turn.events { before := x, action := a, after := y } = a.ends s ++ s'.begins := by
  simp [Turn.events, hi, hy.stage, hy.stage?_self]

end LeasedCommit
