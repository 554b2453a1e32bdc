import LeasedCommit.Proofs.Sound

set_option autoImplicit false

/-! # The operation that has opened the vote

`Transaction.Voted` follows through a run the operation that opens the vote: there is one at most,
it is the one that leads (`Stage.leads`), it leads until it is over, and all calls but aborts are
made by it. -/

namespace LeasedCommit

/-- Only an operation that leads asks for a vote or tells anybody to commit. -/
theorem Stage.leads_of_called {s : Stage} {j : Nat} {v : Verb} (h : .called j v ∈ s.begins)
    (hv : v ≠ .abort) : s.leads = true := by
  cases s with
  | abortPending owner c rest a =>
      obtain ⟨-, rfl⟩ := Event.called.inj (List.mem_singleton.mp h)
      exact absurd rfl hv
  | votePending | solePending | commitPending => rfl
  | _ => cases h

namespace Transaction

/-- Who has opened the vote, and what has become of it. -/
structure Voted (x : Transaction) (turns : List Turn) : Prop where
  once : (turns.filter Turn.opensVote).length ≤ 1
  /-- Only one that has opened the vote leads. -/
  leader : ∀ i s, x.stage? i = some s → s.leads = true →
    ∃ t ∈ turns, t.opensVote = true ∧ t.action.operation? = some i
  /-- Whoever opens the vote is a commit, and leads until it is over. -/
  opener : ∀ t ∈ turns, t.opensVote = true → x.record.phase ≠ .active ∧
    t.before.record.registry.size = x.record.registry.size ∧
    ∃ i s, t.action.operation? = some i ∧ t.before.stage? i = some (.requested .commit) ∧
      x.stage? i = some s ∧ (s.leads = true ∨ s.isOver = true)
  calls : ∀ t ∈ turns, ∀ j v, .called j v ∈ t.events → v ≠ .abort →
    ∃ o ∈ turns, o.opensVote = true ∧ o.action.operation? = t.action.operation?

variable {rules : Rules} {x y : Transaction} {turns : List Turn}

theorem voted_opened (policy : LeasePolicy) (id : TransactionId) (request : LeaseRequest)
    (now : Timestamp) : (opened policy id request now).Voted [] where
  once := by simp
  leader i s h := by simp at h
  opener t h := by cases h
  calls t h := by cases h

/-- Nobody has opened the vote of an active record. -/
theorem Voted.filter_eq_nil (h : x.Voted turns) (hp : x.record.phase = .active) :
    turns.filter Turn.opensVote = [] := by
  rw [List.filter_eq_nil_iff]
  intro t ht hopens
  exact (h.opener t ht hopens).1 hp

/-- Two turns that open the vote are the same. -/
theorem Voted.unique (h : x.Voted turns) {t u : Turn} (ht : t ∈ turns) (hu : u ∈ turns)
    (hto : t.opensVote = true) (huo : u.opensVote = true) : t = u := by
  have ht' := List.mem_filter.mpr ⟨ht, hto⟩
  have hu' := List.mem_filter.mpr ⟨hu, huo⟩
  have honce := h.once
  match hl : turns.filter Turn.opensVote with
  | [] => rw [hl] at ht'; cases ht'
  | [o] =>
      rw [hl, List.mem_singleton] at ht' hu'
      rw [ht', hu']
  | o :: o' :: rest => rw [hl] at honce; simp at honce

theorem Voted.begun (h : x.Voted turns) (q : Request) :
    (x.begun q).Voted (turns ++ [{ before := x, action := .begin q, after := x.begun q }]) := by
  have hopens : Turn.opensVote { before := x, action := .begin q, after := x.begun q } = false := by
    unfold Turn.opensVote
    cases hp : x.record.phase <;> simp [hp, Transaction.begun]
  -- a request neither opens the vote nor leads nor calls
  refine ⟨?_, fun i s hs hlead => ?_, fun t ht ho => ?_, fun t ht j v hv hne => ?_⟩
  · rw [List.filter_append, List.filter_cons_of_neg (by simp [hopens])]
    simpa using h.once
  · rcases stage?_begun hs with hs | ⟨-, rfl⟩
    · obtain ⟨t, ht, htail⟩ := h.leader i s hs hlead
      exact ⟨t, List.mem_append_left _ ht, htail⟩
    · cases hlead
  · rcases List.mem_append.mp ht with ht | ht
    · obtain ⟨hp, hsize, i, s, hi, hrequest, hs, htail⟩ := h.opener t ht ho
      exact ⟨hp, hsize, i, s, hi, hrequest, stage?_begun_of_some hs, htail⟩
    · rw [List.mem_singleton.mp ht, hopens] at ho
      cases ho
  · rcases List.mem_append.mp ht with ht | ht
    · obtain ⟨o, ho, htail⟩ := h.calls t ht j v hv hne
      exact ⟨o, List.mem_append_left _ ho, htail⟩
    · rw [List.mem_singleton.mp ht, Turn.events_begin] at hv
      cases hv

section Moves

variable {a : Action} {i : Nat} {s s' : Stage} {r' : Record}

/-- Whoever leads after a move has opened the vote, if only in this move. -/
theorem Voted.moved_leader (h : x.Voted turns) (hm : Advance rules x.record a s r' s')
    (hy : x.Moved i s r' s' y) (hi : a.operation? = some i) (hs' : s'.leads = true) :
    ∃ t ∈ turns ++ [{ before := x, action := a, after := y }],
      t.opensVote = true ∧ t.action.operation? = some i := by
  rcases hm.leads hs' with hs | ⟨hp, hr'⟩
  · obtain ⟨t, ht, htail⟩ := h.leader i s hy.stage hs
    exact ⟨t, List.mem_append_left _ ht, htail⟩
  -- it has come to lead in this move, which has opened the vote
  · refine ⟨_, List.mem_append_right _ (List.mem_singleton_self _), ?_, hi⟩
    simp [Turn.opensVote, hp, hy.record, hr']

/-- The operation that has opened the vote leads or is over after every move. -/
theorem Voted.moved_opener (h : x.Voted turns) (hx : x.Sound)
    (hm : Advance rules x.record a s r' s') (hy : x.Moved i s r' s' y) {t : Turn}
    (ht : t ∈ turns) (ho : t.opensVote = true) :
    y.record.phase ≠ .active ∧ t.before.record.registry.size = y.record.registry.size ∧
      ∃ i s, t.action.operation? = some i ∧ t.before.stage? i = some (.requested .commit) ∧
        y.stage? i = some s ∧ (s.leads = true ∨ s.isOver = true) := by
  obtain ⟨hp, hsize, i₀, s₀, hi₀, hrequest, hs₀, hlead⟩ := h.opener t ht ho
  have hl := hx.later hm hy
  rw [hy.record, hl.size hp]
  refine ⟨hl.ne_active hp, hsize, i₀, ?_⟩
  by_cases hne : i₀ = i
  · subst hne
    obtain rfl : s = s₀ := Option.some.inj (hy.stage.symm.trans hs₀)
    refine ⟨s', hi₀, hrequest, hy.stage?_self, ?_⟩
    rcases hlead with hlead | hover
    · exact hm.leads_or_isOver hlead
    -- whoever is over does not move
    · rw [hm.isOver_eq_false] at hover
      cases hover
  · exact ⟨s₀, hi₀, hrequest, (hy.stage?_of_ne hne).trans hs₀, hlead⟩

theorem Voted.moved (h : x.Voted turns) (hx : x.Sound) (hi : a.operation? = some i)
    (hm : Advance rules x.record a s r' s') (hy : x.Moved i s r' s' y) :
    y.Voted (turns ++ [{ before := x, action := a, after := y }]) where
  once := by
    rw [List.filter_append, List.length_append]
    by_cases hopens : Turn.opensVote { before := x, action := a, after := y } = true
    · -- the record was active, so nobody has opened the vote before
      have hp : x.record.phase = .active := by
        simp only [Turn.opensVote, Bool.and_eq_true, beq_iff_eq] at hopens
        exact hopens.1
      rw [h.filter_eq_nil hp]
      simpa using List.length_filter_le Turn.opensVote [{ before := x, action := a, after := y }]
    · rw [List.filter_cons_of_neg hopens]
      exact h.once
  leader i' t ht hlead := by
    rcases hy.stage?_cases ht with ⟨rfl, rfl⟩ | ⟨-, ht⟩
    · exact h.moved_leader hm hy hi hlead
    · obtain ⟨o, ho, htail⟩ := h.leader i' t ht hlead
      exact ⟨o, List.mem_append_left _ ho, htail⟩
  opener t ht ho := by
    rcases List.mem_append.mp ht with ht | ht
    · exact h.moved_opener hx hm hy ht ho
    · obtain rfl := List.mem_singleton.mp ht
      simp only [Turn.opensVote, Bool.and_eq_true, beq_iff_eq] at ho
      rw [hy.record] at ho
      obtain ⟨rfl, hr', hs'⟩ := hm.opens ho.1 ho.2
      refine ⟨by rw [hy.record, ho.2]; decide, by rw [hy.record, hr']; rfl, i, s', hi, hy.stage,
        hy.stage?_self, .inl hs'⟩
  calls t ht j v hv hne := by
    rcases List.mem_append.mp ht with ht | ht
    · obtain ⟨o, ho, htail⟩ := h.calls t ht j v hv hne
      exact ⟨o, List.mem_append_left _ ho, htail⟩
    · obtain rfl := List.mem_singleton.mp ht
      rw [hy.events hi, List.mem_append] at hv
      rcases hv with hv | hv
      · exact absurd hv (a.called_not_mem_ends s j v)
      -- whoever makes a call that is not an abort leads
      · rw [hi]
        exact h.moved_leader hm hy hi (Stage.leads_of_called hv hne)

end Moves

end Transaction

theorem Run.voted {rules : Rules} {x₀ x : Transaction} {turns : List Turn} (h₀ : x₀.Sound)
    (hstart : x₀.Voted []) (h : Run rules x₀ turns x) : x.Voted turns :=
  Run.invariant (P := fun turns x => x.Voted turns) h₀ hstart (fun _ _ q _ ih => ih.begun q)
    (fun _ _ _ _ _ _ _ _ hx ih hi hm hy => ih.moved hx hi hm hy) h

end LeasedCommit
