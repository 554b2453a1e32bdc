import LeasedCommit.Proofs.Accord

set_option autoImplicit false

/-! # Calls one by one

The history of a run counts a combined request as one call. This file counts the calls themselves
(`verbsAt`): a party without a combined call of its own hears `prepare` and, while the request is
still open, `commit`. `Standing.Spoken` says what has been said to such a party when the
conversation with its slot stands at some point, and follows the conversation event by event. -/

namespace LeasedCommit

/-! ## The calls of a run -/

/-- The call that goes out in a turn. -/
def Turn.call? (t : Turn) : Option Call :=
  (t.action.operation?.bind t.after.stage?).bind Stage.call?

/-- The calls of a run, those of an exchange with the only party included. -/
def callsMade (turns : List Turn) : List Call := turns.filterMap Turn.call?

/-- What is said to the party of slot `j`. -/
def verbsAt (j : Nat) (turns : List Turn) : List Verb :=
  ((callsMade turns).filter (·.position == j)).map Call.verb

/-- What an operation says to the party of slot `j` when it comes to a stage. -/
def Stage.saysTo (j : Nat) (s : Stage) : List Verb :=
  (s.call?.toList.filter (·.position == j)).map Call.verb

/-- What the only party has heard once an exchange has come to this call. -/
def Exchange.said : Exchange → List Verb
  | .combined => [.prepareAndCommit]
  | .voting => [.prepare]
  | .committing => [.prepare, .commit]

theorem verbsAt_begin (j : Nat) (turns : List Turn) (x y : Transaction) (q : Request) :
    verbsAt j (turns ++ [{ before := x, action := .begin q, after := y }]) = verbsAt j turns := by
  simp [verbsAt, callsMade, Turn.call?, Action.operation?]

theorem Transaction.Moved.verbsAt {x y : Transaction} {a : Action} {i : Nat} {s s' : Stage}
    {r' : Record} (hi : a.operation? = some i) (hy : x.Moved i s r' s' y) (j : Nat)
    (turns : List Turn) :
    verbsAt j (turns ++ [{ before := x, action := a, after := y }]) =
      verbsAt j turns ++ s'.saysTo j := by
  have hcall : Turn.call? { before := x, action := a, after := y } = s'.call? := by
    simp [Turn.call?, hi, hy.stage?_self]
  cases hs : s'.call? <;> simp [LeasedCommit.verbsAt, callsMade, Stage.saysTo, hcall, hs]

namespace Stage

theorem position_mem_holds_of_call? {s : Stage} {c : Call} (h : s.call? = some c) :
    c.position ∈ s.holds := by
  cases s with
  | votePending | solePending | commitPending | abortPending =>
      cases h
      exact List.mem_cons_self ..
  | _ => cases h

/-- An operation speaks only to slots that it holds. -/
theorem saysTo_of_not_held {s : Stage} {j : Nat} (h : j ∉ s.holds) : s.saysTo j = [] := by
  unfold saysTo
  cases hs : s.call? with
  | none => rfl
  | some c =>
      have hne : c.position ≠ j := by
        rintro rfl
        exact h (position_mem_holds_of_call? hs)
      simp [hne]

/-- Apart from the exchange with the only party, a stage begins the call that it has out. -/
theorem begins_eq {s : Stage} (h : ∀ p e, s ≠ .solePending p e) :
    s.begins = s.call?.toList.map fun c => .called c.position c.verb := by
  cases s with
  | solePending p e => exact absurd rfl (h p e)
  | _ => rfl

end Stage

/-- What is said to a slot goes out as a call. -/
theorem Stage.called_of_mem_saysTo {s : Stage} (h : ∀ p e, s ≠ .solePending p e) {j : Nat}
    {v : Verb} (hv : v ∈ s.saysTo j) : .called j v ∈ s.begins := by
  rw [begins_eq h]
  simp only [saysTo, List.mem_map, List.mem_filter, beq_iff_eq] at hv
  obtain ⟨c, ⟨hc, rfl⟩, rfl⟩ := hv
  exact List.mem_map_of_mem hc

/-! ## The calls that belong to a conversation -/

/-- What has been said to a party without a combined call when its conversation stands so. The
propositions say that it was asked as the only party, and that it was asked as one of several. -/
def Standing.Spoken (sole several : Prop) (said : List Verb) : Standing → Prop
  | .silent => said = []
  | .asked .prepare | .answered (.voted ..) => several ∧ said = [.prepare]
  | .asked .prepareAndCommit | .answered (.soleVoted _) =>
    sole ∧ (said = [.prepare] ∨ said = [.prepare, .commit])
  | .aborting | .aborted => ∃ before, said = before ++ [.abort] ∧
    (before = [] ∨ before = [.prepare] ∨ (sole ∧ before = [.prepare, .commit]))
  | .committing | .lost | .committed =>
    several ∧ ∃ k, said = .prepare :: List.replicate (k + 1) .commit
  | _ => False

namespace Standing

variable {sole several : Prop} {said : List Verb} {st : Standing}

theorem Spoken.mono {sole' several' : Prop} (h : st.Spoken sole several said)
    (hsole : sole → sole') (hseveral : several → several') : st.Spoken sole' several' said := by
  unfold Spoken at h ⊢
  split at h
  case h_1 => exact h
  case h_4 | h_5 => exact ⟨hsole h.1, h.2⟩
  case h_6 | h_7 =>
    exact h.imp fun _ h => ⟨h.1, h.2.imp_right (Or.imp_right fun h => ⟨hsole h.1, h.2⟩)⟩
  case h_11 => exact h.elim
  -- asked as one of several, or told to commit
  all_goals exact ⟨hseveral h.1, h.2⟩

/-- What can have been said. -/
theorem Spoken.cases (h : st.Spoken sole several said) :
    said ∈ [[], [.prepare], [.abort], [.prepare, .abort]] ∨
      (sole ∧ (said = [.prepare, .commit] ∨ said = [.prepare, .commit, .abort])) ∨
      (several ∧ ∃ k, said = .prepare :: List.replicate (k + 1) .commit) := by
  unfold Spoken at h
  split at h
  case h_1 => exact .inl (by simp [h])
  case h_2 | h_3 => exact .inl (by simp [h.2])
  case h_4 | h_5 =>
    obtain ⟨hsole, rfl | rfl⟩ := h
    · exact .inl (by simp)
    · exact .inr (.inl ⟨hsole, .inl rfl⟩)
  case h_6 | h_7 =>
    obtain ⟨before, rfl, rfl | rfl | ⟨hsole, rfl⟩⟩ := h
    · exact .inl (by simp)
    · exact .inl (by simp)
    · exact .inr (.inl ⟨hsole, .inr rfl⟩)
  case h_11 => exact h.elim
  -- told to commit
  all_goals exact .inr (.inr h)

/-- A call that may go out adds its verb. -/
theorem Spoken.called (h : st.Spoken sole several said) {j : Nat} {v : Verb}
    (hv : v ≠ .prepareAndCommit) (hseveral : v = .prepare → several)
    (hne : st.after (.called j v) ≠ .broken) :
    (st.after (.called j v)).Spoken sole several (said ++ [v]) := by
  cases st with
  | silent =>
      obtain rfl : said = [] := h
      cases v with
      | prepare => exact ⟨hseveral rfl, rfl⟩
      | prepareAndCommit => exact absurd rfl hv
      | commit => exact absurd rfl hne
      | abort => exact ⟨[], rfl, .inl rfl⟩
  | answered e =>
      rcases after_answered hne with he | ⟨he, i, rfl⟩
      · obtain ⟨-, rfl⟩ := Event.called.inj he
        have hadmits : e.admitsAbort = true := by
          by_contra hno
          exact hne (if_neg hno)
        have haborting : (answered e).after (.called j .abort) = .aborting := if_pos hadmits
        rw [haborting]
        cases e with
        | voted =>
            obtain ⟨-, rfl⟩ := h
            exact ⟨_, rfl, .inr (.inl rfl)⟩
        | soleVoted =>
            obtain ⟨hsole, hsaid⟩ := h
            exact ⟨_, rfl, .inr (hsaid.imp_right fun hsaid => ⟨hsole, hsaid⟩)⟩
        | called | told => exact h.elim
      · obtain ⟨-, rfl⟩ := Event.called.inj he
        obtain ⟨hseveral, rfl⟩ := h
        exact ⟨hseveral, 0, rfl⟩
  | lost =>
      cases v with
      | commit =>
          -- the call is repeated
          obtain ⟨hseveral, k, rfl⟩ := h
          exact ⟨hseveral, k + 1, by rw [List.cons_append, ← List.replicate_succ']⟩
      | prepare | abort => exact absurd rfl hne
      | prepareAndCommit => exact absurd rfl hv
  | asked verb => cases verb <;> exact absurd rfl hne
  | aborting | aborted | committing | committed | broken => exact absurd rfl hne

/-- A call that comes back adds nothing. -/
theorem Spoken.heard (h : st.Spoken sole several said) {e : Event} (he : ∀ j v, e ≠ .called j v)
    (hne : st.after e ≠ .broken) : (st.after e).Spoken sole several said := by
  cases e with
  | called j v => exact absurd rfl (he j v)
  | voted j reply =>
      cases st with
      | asked verb =>
          cases verb with
          | prepare => exact h
          | _ => exact absurd rfl hne
      | _ => exact absurd rfl hne
  | soleVoted reply =>
      cases st with
      | asked verb =>
          cases verb with
          | prepareAndCommit => exact h
          | _ => exact absurd rfl hne
      | _ => exact absurd rfl hne
  | told j v reply =>
      cases st with
      | aborting =>
          cases v with
          | abort => exact h
          | _ => exact absurd rfl hne
      | asked verb => cases verb <;> exact absurd rfl hne
      | committing =>
          cases v with
          | commit => rcases after_told_commit j reply with heq | heq <;> rw [heq] <;> exact h
          | _ => exact absurd rfl hne
      | _ => exact absurd rfl hne

theorem foldl_hear_broken (j : Nat) (events : List Event) :
    events.foldl (hear j) .broken = .broken := by
  induction events with
  | nil => rfl
  | cons e events ih =>
      have hstays : hear j .broken e = .broken := by
        unfold hear
        split
        · exact after_broken e
        · rfl
      rw [List.foldl_cons, hstays, ih]

/-- Calls that come back add nothing. -/
theorem Spoken.foldl_heard {j : Nat} {events : List Event} (h : st.Spoken sole several said)
    (hevents : ∀ e ∈ events, ∀ i v, e ≠ .called i v)
    (hne : events.foldl (hear j) st ≠ .broken) :
    (events.foldl (hear j) st).Spoken sole several said := by
  induction events generalizing st with
  | nil => exact h
  | cons e events ih =>
      rw [List.foldl_cons] at hne ⊢
      refine ih ?_ (fun e he => hevents e (List.mem_cons_of_mem _ he)) hne
      by_cases hj : e.position = j
      · rw [hear_self hj] at hne ⊢
        refine h.heard (hevents e (List.mem_cons_self ..)) ?_
        intro hbroken
        rw [hbroken, foldl_hear_broken] at hne
        exact hne rfl
      · rw [hear_of_ne hj]
        exact h

/-- A move adds what its operation says, if it is not a call of the exchange with the only
party. -/
theorem Spoken.moved {j : Nat} {a : Action} {s s' : Stage} (h : st.Spoken sole several said)
    (hsole : ∀ p e, s' ≠ .solePending p e) (hseveral : .prepare ∈ s'.saysTo j → several)
    (hne : st.moved j a s s' ≠ .broken) :
    (st.moved j a s s').Spoken sole several (said ++ s'.saysTo j) := by
  unfold Standing.moved at hne ⊢
  rw [List.foldl_append] at hne ⊢
  have hends : (a.ends s).foldl (hear j) st ≠ .broken := by
    intro hbroken
    rw [hbroken, foldl_hear_broken] at hne
    exact hne rfl
  have hheard := h.foldl_heard (j := j)
    (fun e he i v heq => a.called_not_mem_ends s i v (heq ▸ he)) hends
  rw [Stage.begins_eq hsole] at hne ⊢
  unfold Stage.saysTo at hseveral ⊢
  cases hcall : s'.call? with
  | none => simpa using hheard
  | some c =>
      rw [hcall] at hne hseveral
      simp only [Option.toList_some, List.map_cons, List.map_nil, List.foldl_cons,
        List.foldl_nil] at hne ⊢
      by_cases hj : c.position = j
      · subst hj
        rw [hear_called] at hne ⊢
        have hverb : c.verb ≠ .prepareAndCommit := by
          cases s' with
          | solePending p e => exact absurd rfl (hsole p e)
          | votePending | commitPending | abortPending =>
              cases hcall
              exact fun h => nomatch h
          | _ => cases hcall
        simpa using hheard.called hverb (fun hv => hseveral (by simp [hv])) hne
      · rw [hear_of_ne (e := .called c.position c.verb) hj]
        simpa [hj] using hheard

end Standing

end LeasedCommit
