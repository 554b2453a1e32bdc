import LeasedCommit.Proofs.Sound

set_option autoImplicit false

/-! # Whose slot it is

A slot belongs for good to the party that joined at its position (`Registry.participants`). Every
call to a slot goes to that party, and the combined request to the only party is made in the way
that the party needs (`Transaction.Addressed`). -/

namespace LeasedCommit

/-! ## The parties of a registry -/

namespace Registry

/-- The parties that have joined, in join order. -/
def participants (g : Registry) : List Participant := g.slots.map Slot.participant

@[simp] theorem length_participants (g : Registry) : g.participants.length = g.size := by
  simp [participants, size]

@[simp] theorem participants_empty : empty.participants = [] := rfl

@[simp] theorem participants_freeze (g : Registry) : g.freeze.participants = g.participants := rfl

@[simp] theorem participants_enlist (g : Registry) (p : Participant) :
    (g.enlist p).participants = g.participants ++ [p] := by
  simp [participants, enlist]

@[simp] theorem participants_setProgress (g : Registry) (i : Nat) (p : Progress) :
    (g.setProgress i p).participants = g.participants := by
  refine List.ext_getElem? fun j => ?_
  simp only [participants, setProgress, List.getElem?_map, List.getElem?_modify]
  cases g.slots[j]? with
  | none => rfl
  | some slot => by_cases h : i = j <;> simp [h]

@[simp] theorem participants_claimAll (g : Registry) (how : Settlement) :
    (g.claimAll how).1.participants = g.participants := by
  simp only [participants, claimAll, List.map_map]
  refine List.map_congr_left fun slot _ => ?_
  by_cases h : slot.progress.acceptsDecision <;> simp [h]

theorem participants_of_slot {g : Registry} {i : Nat} {slot : Slot} (h : g.slots[i]? = some slot) :
    g.participants[i]? = some slot.participant := by
  simp [participants, h]

/-- Whoever is asked is the party of the slot. -/
theorem participants_of_ask? {g g' : Registry} {i : Nat} {p : Participant}
    (h : g.ask? i = some (g', p)) : g.participants[i]? = some p := by
  unfold ask? at h
  split at h
  · rename_i hslot
    cases h
    exact participants_of_slot hslot
  · cases h

/-- Whoever is claimed is the party of the slot. -/
theorem participants_of_mem_claimable {g : Registry} {c : Claim} (h : c ∈ g.claimable) :
    g.participants[c.position]? = some c.participant := by
  simp only [claimable, List.mem_filterMap] at h
  obtain ⟨⟨slot, i⟩, hmem, hsome⟩ := h
  rw [List.mk_mem_zipIdx_iff_getElem?] at hmem
  split at hsome
  · cases hsome
    exact participants_of_slot hmem
  · cases hsome

end Registry

/-! ## The parties that an operation speaks to -/

namespace Stage

/-- The slots that an operation is calling or about to call, with the parties it takes them for. -/
def claims : Stage → List Claim
  | .votePending k _ p => [{ position := k, participant := p }]
  | .solePending p _ => [{ position := 0, participant := p }]
  | .commitPending d | .pausing d => d.claim :: d.rest
  | .abortPending _ c rest _ => c :: rest
  | _ => []

/-- The combined request is put as one call just to a party that answers it itself. -/
def Suits : Stage → Prop
  | .solePending p exchange => exchange = .combined ↔ p.combines = true
  | _ => True

@[simp] theorem claims_deliverAborts (owner : Bool) (owed : List Claim) (a : Answer) :
    (deliverAborts owner owed a).claims = owed := by
  cases owed <;> rfl

@[simp] theorem claims_deliverCommits (id : TransactionId) (n : Nat) (owed : List Claim)
    (failures : List CommitFailure) : (deliverCommits id n owed failures).claims = owed := by
  cases owed <;> rfl

@[simp] theorem claims_ask (k n : Nat) : (ask k n).claims = [] := by
  unfold ask
  split <;> rfl

@[simp] theorem claims_firstQuestion (n : Nat) : (Record.firstQuestion n).claims = [] := by
  rcases n with _ | _ | n <;> rfl

theorem mem_claims_of_call? {s : Stage} {c : Call} (h : s.call? = some c) :
    { position := c.position, participant := c.participant } ∈ s.claims := by
  cases s with
  | votePending | solePending | commitPending | abortPending =>
      cases h
      exact List.mem_cons_self ..
  | _ => cases h

theorem suits_deliverAborts (owner : Bool) (owed : List Claim) (a : Answer) :
    (deliverAborts owner owed a).Suits := by
  cases owed <;> trivial

theorem suits_deliverCommits (id : TransactionId) (n : Nat) (owed : List Claim)
    (failures : List CommitFailure) : (deliverCommits id n owed failures).Suits := by
  cases owed <;> trivial

/-- An operation that speaks to nobody leaves nothing to suit. -/
theorem suits_of_claims {s : Stage} (h : s.claims = []) : s.Suits := by
  cases s with
  | solePending => cases h
  | _ => trivial

end Stage

theorem Exchange.first_suits (p : Participant) : (Stage.solePending p (first p)).Suits := by
  unfold first
  cases h : p.combines <;> simp [Stage.Suits, h]

section Moves

variable {rules : Rules} {r r' : Record} {a : Action} {s s' : Stage}

/-- A party that joins gets the next slot, and no slot changes hands. -/
theorem Advance.participants (h : Advance rules r a s r' s') :
    r'.registry.participants = r.registry.participants ∨
      ∃ p, s = .requested (.join p) ∧ s' = .finished (.joined r.registry.size) ∧
        r.phase = .active ∧ r' = r.withRegistry (r.registry.enlist p) := by
  cases h with
  | join hp => exact .inr ⟨_, rfl, rfl, hp, rfl⟩
  | _ => exact .inl (by simp)

/-- The parties of before keep their slots. -/
theorem Advance.participants_prefix (h : Advance rules r a s r' s') :
    r.registry.participants <+: r'.registry.participants := by
  rcases h.participants with heq | ⟨p, -, -, -, rfl⟩
  · exact heq ▸ List.prefix_rfl
  · rw [Record.withRegistry_registry, Registry.participants_enlist]
    exact List.prefix_append _ _

/-- An operation speaks on to those it spoke to, or to the parties of slots it asks or claims. -/
theorem Advance.claims (h : Advance rules r a s r' s') :
    ∀ c ∈ s'.claims, c ∈ s.claims ∨ r.registry.participants[c.position]? = some c.participant := by
  cases h with
  | ask _ _ hask | askSole _ _ hask =>
      intro c hc
      obtain rfl := List.mem_singleton.mp hc
      exact .inr (Registry.participants_of_ask? hask)
  | abort | rollForward | abandon =>
      intro c hc
      exact .inr (Registry.participants_of_mem_claimable (by simpa using hc))
  | commitReturns | abortReturns =>
      intro c hc
      exact .inl (List.mem_cons_of_mem _ (by simpa using hc))
  | soleGoesOn | commitLost | repeatCommit => exact fun c hc => .inl hc
  | openVote | prepared => simp
  | abortPanics => split <;> exact fun c hc => nomatch hc
  | _ => exact fun c hc => nomatch hc

theorem Advance.suits (h : Advance rules r a s r' s') (hs : s.Suits) : s'.Suits := by
  cases h with
  | askSole => exact Exchange.first_suits _
  | soleGoesOn =>
      -- the exchange goes on, so it is not the party's own call
      have hp := mt hs.mpr (by decide)
      exact ⟨fun h => (nomatch h), fun h => absurd h hp⟩
  | abort | abandon | abortReturns => exact Stage.suits_deliverAborts ..
  | rollForward | commitReturns => exact Stage.suits_deliverCommits ..
  | openVote | prepared => exact Stage.suits_of_claims (by simp)
  | abortPanics => split <;> trivial
  | _ => trivial

end Moves

/-! ## Along a run -/

namespace Transaction

/-- Every operation speaks to the parties of the slots, and in the way that they need. -/
structure Addressed (x : Transaction) : Prop where
  claims : ∀ i s c, x.stage? i = some s → c ∈ s.claims →
    x.record.registry.participants[c.position]? = some c.participant
  suits : ∀ i s, x.stage? i = some s → s.Suits

theorem addressed_opened (policy : LeasePolicy) (id : TransactionId) (request : LeaseRequest)
    (now : Timestamp) : (opened policy id request now).Addressed where
  claims i s c h := by simp at h
  suits i s h := by simp at h

end Transaction

theorem Run.addressed {rules : Rules} {x₀ x : Transaction} {turns : List Turn} (h₀ : x₀.Sound)
    (hstart : x₀.Addressed) (h : Run rules x₀ turns x) : x.Addressed := by
  refine Run.invariant (P := fun _ x => x.Addressed) h₀ hstart ?_ ?_ h
  · intro turns x q _ ih
    refine ⟨fun i s c hs hc => ?_, fun i s hs => ?_⟩ <;>
      rcases Transaction.stage?_begun hs with hs | ⟨-, rfl⟩
    · exact ih.claims i s c hs hc
    · cases hc
    · exact ih.suits i s hs
    · trivial
  · intro turns x y a i s r' s' _ ih _ hm hy
    refine ⟨fun i' t c ht hc => ?_, fun i' t ht => ?_⟩
    · rw [hy.record]
      have hkeeps : x.record.registry.participants[c.position]? = some c.participant →
          r'.registry.participants[c.position]? = some c.participant := by
        obtain ⟨more, hmore⟩ := hm.participants_prefix
        intro hparty
        rw [← hmore, List.getElem?_append_left (List.getElem?_eq_some_iff.mp hparty).1]
        exact hparty
      rcases hy.stage?_cases ht with ⟨-, rfl⟩ | ⟨-, ht⟩
      · rcases hm.claims c hc with hold | hparty
        · exact hkeeps (ih.claims i s c hy.stage hold)
        · exact hkeeps hparty
      · exact hkeeps (ih.claims i' t c ht hc)
    · rcases hy.stage?_cases ht with ⟨-, rfl⟩ | ⟨-, ht⟩
      · exact hm.suits (ih.suits i s hy.stage)
      · exact ih.suits i' t ht

/-- The parties of before keep their slots. -/
theorem Run.participants_prefix {rules : Rules} {x₀ x : Transaction} {turns : List Turn}
    (h₀ : x₀.Sound) (h : Run rules x₀ turns x) :
    x₀.record.registry.participants <+: x.record.registry.participants := by
  induction h with
  | start => exact List.prefix_rfl
  | next hrun hstep ih =>
      have hx := hrun.sound h₀
      rcases Transaction.step_cases hx.shape hx.fits hstep with
        ⟨q, -, rfl⟩ | ⟨i, s, r', s', -, hm, hy⟩
      · exact ih
      · rw [hy.record]
        exact ih.trans hm.participants_prefix

end LeasedCommit
