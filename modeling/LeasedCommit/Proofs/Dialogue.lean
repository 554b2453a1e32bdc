import LeasedCommit.Proofs.Run
import Mathlib.Data.List.Induction

set_option autoImplicit false

/-! # What may pass between the operations and one slot

`Protocol ask j` is the language of one slot: at most one question, then at most one abort or
the commit calls. `Standing` reads such a conversation event by event, so that an invariant can
say of a slot where its conversation stands; `protocol_of_standing` leads from the reader back to
the language. -/

namespace LeasedCommit

/-! ## The language of one slot -/

/-- The vote that lets a transaction commit, if it comes from slot `j` of `n`. -/
def Event.yes (n j : Nat) : Event :=
  if n = 1 then .soleVoted (.returned (.answered .committed))
  else .voted j (.returned (.answered .prepared))

/-- The question to each of `n` slots. -/
def Verb.asking (n : Nat) : Verb := if n = 1 then .prepareAndCommit else .prepare

/-- The event is the end of the question `ask` to slot `j`. -/
def Event.Answers (ask : Verb) (j : Nat) : Event → Prop
  | .voted i _ => ask = .prepare ∧ i = j
  | .soleVoted _ => ask = .prepareAndCommit ∧ j = 0
  | _ => False

/-- A commit or abort call, and its end if it has come back. -/
def callTo (j : Nat) (verb : Verb) (reply : Option (Reply Unit)) : List Event :=
  .called j verb :: (reply.map (.told j verb)).toList

/-- Commit calls that were lost on the way. -/
def lostCommits (j : Nat) (messages : List String) : List Event :=
  messages.flatMap fun m => callTo j .commit (some (.returned (.failed (.communication m))))

/-- What may pass at slot `j` if the question is `ask`. -/
inductive Protocol (ask : Verb) (j : Nat) : List Event → Prop
  | nothing : Protocol ask j []
  | abort (reply : Option (Reply Unit)) : Protocol ask j (callTo j .abort reply)
  | question : Protocol ask j [.called j ask]
  | answer (e : Event) : e.Answers ask j → Protocol ask j [.called j ask, e]
  | abortAfter (e : Event) (reply : Option (Reply Unit)) : e.Answers ask j →
    Protocol ask j (.called j ask :: e :: callTo j .abort reply)
  | commits (lost : List String) (reply : Option (Reply Unit)) : ask = .prepare →
    Protocol ask j (.called j ask :: .voted j (.returned (.answered .prepared)) ::
      (lostCommits j lost ++ callTo j .commit reply))

/-! ## Reading a conversation -/

/-- Where the conversation with a slot stands. -/
inductive Standing
  | silent
  | asked (verb : Verb)
  /-- The question has come back, with this event. -/
  | answered (answer : Event)
  | aborting
  | aborted
  | committing
  /-- A commit call was lost on the way. -/
  | lost
  | committed
  /-- Something has passed that may not. -/
  | broken
deriving DecidableEq

/-- Whether an abort may follow an answer. A party that voted to abort has rolled itself back,
and one that panicked is left alone. -/
def Event.admitsAbort : Event → Bool
  | .voted _ (.returned (.answered .prepared)) | .voted _ (.returned (.failed _))
  | .soleVoted (.returned (.answered .committed)) | .soleVoted (.returned (.failed _)) => true
  | _ => false

namespace Standing

/-- Whether an abort may follow. -/
def admitsAbort : Standing → Bool
  | .silent => true
  | .answered e => e.admitsAbort
  | _ => false

/-- The conversation after one more event at its slot. -/
def after : Standing → Event → Standing
  | .silent, .called _ .prepare => .asked .prepare
  | .silent, .called _ .prepareAndCommit => .asked .prepareAndCommit
  | .silent, .called _ .abort => .aborting
  | .asked .prepare, .voted j reply => .answered (.voted j reply)
  | .asked .prepareAndCommit, .soleVoted reply => .answered (.soleVoted reply)
  | .answered answer, .called _ .abort => if answer.admitsAbort then .aborting else .broken
  | .answered (.voted _ (.returned (.answered .prepared))), .called _ .commit => .committing
  | .aborting, .told _ .abort _ => .aborted
  | .committing, .told _ .commit (.returned (.failed (.communication _))) => .lost
  | .committing, .told _ .commit _ => .committed
  | .lost, .called _ .commit => .committing
  | _, _ => .broken

/-- The conversation with slot `j` after one more event anywhere. -/
def hear (j : Nat) (st : Standing) (e : Event) : Standing :=
  if e.position = j then st.after e else st

theorem hear_self {j : Nat} {e : Event} (h : e.position = j) (st : Standing) :
    st.hear j e = st.after e := by
  rw [hear, if_pos h]

@[simp] theorem hear_called (j : Nat) (st : Standing) (v : Verb) :
    st.hear j (.called j v) = st.after (.called j v) :=
  hear_self rfl st

@[simp] theorem hear_voted (j : Nat) (st : Standing) (reply : Reply Vote) :
    st.hear j (.voted j reply) = st.after (.voted j reply) :=
  hear_self rfl st

@[simp] theorem hear_told (j : Nat) (st : Standing) (v : Verb) (reply : Reply Unit) :
    st.hear j (.told j v reply) = st.after (.told j v reply) :=
  hear_self rfl st

theorem hear_of_ne {j : Nat} {e : Event} (h : e.position ≠ j) (st : Standing) :
    st.hear j e = st := by
  rw [hear, if_neg h]

/-- The slot that an event is about goes on, and the others stay. -/
theorem hear_ite (j : Nat) (e : Event) (st st' : Standing) :
    (if j = e.position then st else st').hear j e = if j = e.position then st.after e else st' := by
  by_cases h : j = e.position
  · rw [if_pos h, if_pos h, hear_self h.symm]
  · rw [if_neg h, if_neg h, hear_of_ne (Ne.symm h)]

theorem after_abort {st : Standing} (h : st.admitsAbort = true) (j : Nat) :
    st.after (.called j .abort) = .aborting := by
  cases st with
  | silent => rfl
  | answered e => rw [after, if_pos (by simpa [admitsAbort] using h)]
  | _ => cases h

/-- A commit call that has come back was taken, or lost. -/
theorem after_told_commit (j : Nat) (reply : Reply Unit) :
    after .committing (.told j .commit reply) = .committed ∨
      after .committing (.told j .commit reply) = .lost := by
  unfold after
  split <;> simp_all

/-- After an answer there can only be an abort, or a commit if it was a prepared vote. -/
theorem after_answered {a e : Event} (h : (answered a).after e ≠ .broken) :
    e = .called e.position .abort ∨
      (e = .called e.position .commit ∧ ∃ i, a = .voted i (.returned (.answered .prepared))) := by
  unfold after at h
  split at h
  case h_6 => exact .inl rfl
  case h_7 => exact .inr ⟨rfl, _, Standing.answered.inj (by assumption)⟩
  case h_12 => exact absurd rfl h
  all_goals contradiction

/-- A conversation stands at an answer just when the answer was heard. -/
theorem after_eq_answered {st : Standing} {e a : Event} (h : st.after e = .answered a) : e = a := by
  unfold after at h
  split at h <;> first | cases h; rfl | (split at h <;> cases h) | cases h

end Standing

/-- Where the conversation with slot `j` stands after these events. -/
def standing (j : Nat) (events : List Event) : Standing :=
  events.foldl (Standing.hear j) .silent

@[simp] theorem standing_nil (j : Nat) : standing j [] = .silent := rfl

theorem standing_append (j : Nat) (events more : List Event) :
    standing j (events ++ more) = more.foldl (Standing.hear j) (standing j events) := by
  rw [standing, List.foldl_append, standing]

theorem standing_eq_foldl (j : Nat) (events : List Event) :
    standing j events = (eventsAt j events).foldl Standing.after .silent := by
  rw [standing, eventsAt, List.foldl_filter]
  congr 1
  funext st e
  simp [Standing.hear]

theorem mem_of_standing {j : Nat} {events : List Event} {a : Event}
    (h : standing j events = .answered a) : a ∈ events := by
  induction events using List.reverseRecOn with
  | nil => cases h
  | append_singleton events e ih =>
      rw [standing_append, List.foldl_cons, List.foldl_nil] at h
      rw [List.mem_append, List.mem_singleton]
      by_cases hj : e.position = j
      · rw [Standing.hear_self hj] at h
        exact .inr (Standing.after_eq_answered h).symm
      · rw [Standing.hear_of_ne hj] at h
        exact .inl (ih h)

/-! ## What the reader remembers -/

/-- Whether slot `j` votes for the abort. -/
def Event.refuses (j : Nat) : Event → Bool
  | .voted i (.returned (.answered .abort)) => i == j
  | .soleVoted (.returned (.answered .abort)) => j == 0
  | _ => false

namespace Event

variable {j : Nat} {e : Event}

theorem refuses_cases (h : e.refuses j = true) :
    e = .voted j (.returned (.answered .abort)) ∨
      (j = 0 ∧ e = .soleVoted (.returned (.answered .abort))) := by
  unfold refuses at h
  split at h
  · obtain rfl := beq_iff_eq.mp h
    exact .inl rfl
  · exact .inr ⟨beq_iff_eq.mp h, rfl⟩
  · cases h

theorem position_of_refuses (h : e.refuses j = true) : e.position = j := by
  rcases refuses_cases h with rfl | ⟨rfl, rfl⟩ <;> rfl

theorem admitsAbort_of_refuses (h : e.refuses j = true) : e.admitsAbort = false := by
  rcases refuses_cases h with rfl | ⟨rfl, rfl⟩ <;> rfl

theorem after_of_refuses (h : e.refuses j = true) {st : Standing} (hst : st.after e ≠ .broken) :
    st.after e = .answered e := by
  rcases refuses_cases h with rfl | ⟨-, rfl⟩
  all_goals
    cases st with
    | asked verb => cases verb <;> first | rfl | exact absurd rfl hst
    | _ => exact absurd rfl hst

end Event

namespace Standing

/-- How many abort calls have gone out. -/
def aborts : Standing → Nat
  | .aborting | .aborted => 1
  | _ => 0

@[simp] theorem after_broken (e : Event) : after .broken e = .broken := by
  cases e <;> rfl

/-- Whether a commit call has gone out. -/
def commits : Standing → Bool
  | .committing | .lost | .committed => true
  | _ => false

theorem commits_after {st : Standing} {e : Event} (h : (st.after e).commits = true) :
    st.commits = true ∨ e = .called e.position .commit := by
  unfold after at h
  split at h
  -- after an answer there may be an abort call, or the commit call itself
  case h_6 => split at h <;> cases h
  case h_7 => exact .inr rfl
  all_goals first | exact .inl rfl | cases h

theorem aborts_after {st : Standing} {e : Event} (h : st.after e ≠ .broken) :
    (st.after e).aborts = st.aborts + if e = .called e.position .abort then 1 else 0 := by
  unfold after at h ⊢
  split <;> simp_all [aborts, Event.position]

end Standing

theorem standing_concat (j : Nat) (events : List Event) (e : Event) :
    standing j (events ++ [e]) = (standing j events).hear j e :=
  standing_append j events [e]

/-- A conversation that is in order was so before its last event. -/
theorem ne_broken_of_concat {j : Nat} {events : List Event} {e : Event}
    (h : standing j (events ++ [e]) ≠ .broken) : standing j events ≠ .broken := by
  intro hb
  rw [standing_concat, hb, Standing.hear] at h
  split at h
  · exact h (Standing.after_broken e)
  · exact h rfl

/-- The abort calls at a slot, counted by the reader. -/
theorem count_abort {j : Nat} {events : List Event} (h : standing j events ≠ .broken) :
    events.count (.called j .abort) = (standing j events).aborts := by
  induction events using List.reverseRecOn with
  | nil => rfl
  | append_singleton events e ih =>
      have hbefore := ih (ne_broken_of_concat h)
      rw [standing_concat] at h ⊢
      rw [List.count_append, hbefore, List.count_singleton]
      by_cases hj : e.position = j
      · rw [Standing.hear_self hj] at h ⊢
        rw [Standing.aborts_after h, hj]
        simp
      · rw [Standing.hear_of_ne hj, if_neg]
        · rfl
        · rw [beq_iff_eq]
          rintro rfl
          exact hj rfl

/-- A slot that has voted for the abort is left at that. -/
theorem standing_of_refuses {j : Nat} {events : List Event} {e : Event}
    (he : e.refuses j = true) (hmem : e ∈ events) (h : standing j events ≠ .broken) :
    standing j events = .answered e := by
  induction events using List.reverseRecOn with
  | nil => cases hmem
  | append_singleton events e' ih =>
      have hbefore := ne_broken_of_concat h
      rw [standing_concat] at h ⊢
      rw [List.mem_append, List.mem_singleton] at hmem
      rcases hmem with hmem | rfl
      · rw [ih hmem hbefore] at h ⊢
        by_cases hj : e'.position = j
        · -- neither an abort nor a commit may follow
          rw [Standing.hear_self hj] at h
          rcases Standing.after_answered h with habort | ⟨-, i, rfl⟩
          · rw [habort, Standing.after, if_neg (by simp [Event.admitsAbort_of_refuses he])] at h
            exact absurd rfl h
          · cases he
        · exact Standing.hear_of_ne hj _
      · rw [Standing.hear_self (Event.position_of_refuses he)] at h ⊢
        exact Event.after_of_refuses he h

/-- A slot is told to commit by a commit call. -/
theorem mem_of_commits {j : Nat} {events : List Event} (h : (standing j events).commits = true) :
    .called j .commit ∈ events := by
  induction events using List.reverseRecOn with
  | nil => cases h
  | append_singleton events e ih =>
      rw [standing_concat] at h
      rw [List.mem_append, List.mem_singleton]
      by_cases hj : e.position = j
      · rw [Standing.hear_self hj] at h
        rcases Standing.commits_after h with hbefore | he
        · exact .inl (ih hbefore)
        · rw [he, hj]
          exact .inr rfl
      · rw [Standing.hear_of_ne hj] at h
        exact .inl (ih h)

/-! ## From the reader to the language -/

/-- After any number of lost calls the next commit call is out. -/
theorem foldl_lostCommits (j : Nat) (lost : List String) {st : Standing}
    (hst : st.after (.called j .commit) = .committing) :
    (lostCommits j lost ++ [Event.called j .commit]).foldl Standing.after st = .committing := by
  induction lost generalizing st with
  | nil => simpa [lostCommits] using hst
  | cons m lost ih =>
      have hnext : (Standing.after .committing
          (.told j .commit (.returned (.failed (.communication m))))).after (.called j .commit) =
          .committing := rfl
      have hrest := ih hnext
      simp only [lostCommits, List.flatMap_cons, callTo, Option.map_some, Option.toList_some,
        List.cons_append, List.nil_append, List.foldl_cons] at hrest ⊢
      rw [hst]
      exact hrest

theorem foldl_commits (j : Nat) (lost : List String) (reply : Option (Reply Unit)) {st : Standing}
    (hst : st.after (.called j .commit) = .committing) :
    (lostCommits j lost ++ callTo j .commit reply).foldl Standing.after st =
      (reply.map (Event.told j .commit)).toList.foldl Standing.after .committing := by
  have hsplit : lostCommits j lost ++ callTo j .commit reply =
      (lostCommits j lost ++ [.called j .commit]) ++ (reply.map (Event.told j .commit)).toList := by
    simp [callTo]
  rw [hsplit, List.foldl_append, foldl_lostCommits j lost hst]

theorem lostCommits_append (j : Nat) (lost : List String) (m : String) :
    lostCommits j (lost ++ [m]) =
      lostCommits j lost ++ callTo j .commit (some (.returned (.failed (.communication m)))) := by
  simp [lostCommits]

theorem Event.Answers.foldl {ask : Verb} {j : Nat} {a : Event} (h : a.Answers ask j) :
    [.called j ask, a].foldl Standing.after .silent = .answered a := by
  cases a with
  | voted i reply =>
      obtain ⟨rfl, -⟩ := h
      rfl
  | soleVoted reply =>
      obtain ⟨rfl, -⟩ := h
      rfl
  | called | told => exact h.elim

/-- A conversation that is in order and goes on in order is in order. -/
theorem Protocol.extend {ask : Verb} {j : Nat} {l : List Event} {e : Event}
    (h : Protocol ask j l) (hask : ask = .prepare ∨ ask = .prepareAndCommit)
    (hj : e.position = j) (he : (l.foldl Standing.after .silent).after e ≠ .broken) :
    ∃ ask', (ask' = .prepare ∨ ask' = .prepareAndCommit) ∧ Protocol ask' j (l ++ [e]) := by
  subst hj
  -- one case for each sentence of the language; what does not continue it breaks the conversation
  cases h with
  | nothing =>
      rcases e with ⟨j, _ | _ | _ | _⟩ | ⟨j, reply⟩ | reply | ⟨j, verb, reply⟩
      · exact ⟨.prepare, .inl rfl, .question⟩
      · exact ⟨.prepareAndCommit, .inr rfl, .question⟩
      · exact absurd rfl he
      · exact ⟨ask, hask, .abort none⟩
      all_goals exact absurd rfl he
  | abort reply =>
      cases reply with
      | some reply => exact absurd rfl he
      | none =>
          rcases e with ⟨j, verb⟩ | ⟨j, reply⟩ | reply | ⟨j, _ | _ | _ | _, reply⟩
          case told.abort => exact ⟨ask, hask, .abort (some reply)⟩
          all_goals exact absurd rfl he
  | question =>
      rcases hask with rfl | rfl
      · rcases e with ⟨j, verb⟩ | ⟨j, reply⟩ | reply | ⟨j, verb, reply⟩
        case voted => exact ⟨.prepare, .inl rfl, .answer _ ⟨rfl, rfl⟩⟩
        all_goals exact absurd rfl he
      · rcases e with ⟨j, verb⟩ | ⟨j, reply⟩ | reply | ⟨j, verb, reply⟩
        case soleVoted => exact ⟨.prepareAndCommit, .inr rfl, .answer _ ⟨rfl, rfl⟩⟩
        all_goals exact absurd rfl he
  | answer a ha =>
      rw [ha.foldl] at he
      rcases Standing.after_answered he with habort | ⟨hcommit, i, rfl⟩
      · rw [habort]
        exact ⟨ask, hask, .abortAfter a none ha⟩
      -- a commit follows a prepared vote only, so the question was not the combined one
      · obtain ⟨rfl, hi⟩ := ha
        rw [hcommit, hi]
        exact ⟨.prepare, .inl rfl, .commits [] none rfl⟩
  | abortAfter a reply ha =>
      change (((callTo e.position .abort reply).foldl Standing.after
        ([.called e.position ask, a].foldl Standing.after .silent)).after e) ≠ .broken at he
      rw [ha.foldl] at he
      cases reply with
      | some reply => by_cases h : a.admitsAbort <;> simp [callTo, Standing.after, h] at he
      | none =>
          rcases e with ⟨j, verb⟩ | ⟨j, reply⟩ | reply | ⟨j, _ | _ | _ | _, reply⟩
          case told.abort => exact ⟨ask, hask, .abortAfter a (some reply) ha⟩
          all_goals by_cases h : a.admitsAbort <;> simp [callTo, Standing.after, h] at he
  | commits lost reply hask' =>
      subst hask'
      change (((lostCommits e.position lost ++ callTo e.position .commit reply).foldl Standing.after
        (.answered (.voted e.position (.returned (.answered .prepared))))).after e) ≠ .broken at he
      rw [foldl_commits _ _ _ rfl] at he
      refine ⟨.prepare, .inl rfl, ?_⟩
      cases reply with
      | none =>
          rcases e with ⟨j, verb⟩ | ⟨j, reply⟩ | reply | ⟨j, _ | _ | _ | _, reply⟩
          case told.commit =>
            simpa [callTo, Event.position] using Protocol.commits (j := j) lost (some reply) rfl
          all_goals exact absurd rfl he
      | some reply =>
          -- only a lost call is repeated
          rcases reply with (_ | m | m) | m
          case returned.failed.communication =>
            rcases e with ⟨j, _ | _ | _ | _⟩ | ⟨j, reply⟩ | reply | ⟨j, verb, reply⟩
            case called.commit =>
              have := Protocol.commits (j := j) (lost ++ [m]) none rfl
              rw [lostCommits_append] at this
              simpa [callTo, Event.position] using this
            all_goals exact absurd rfl he
          all_goals exact absurd rfl he

/-- What the reader takes is in the language, for one of the two questions. -/
theorem protocol_of_standing {j : Nat} {events : List Event}
    (h : standing j events ≠ .broken) :
    ∃ ask, (ask = .prepare ∨ ask = .prepareAndCommit) ∧ Protocol ask j (eventsAt j events) := by
  -- on the last event, which is about this slot or passes it by
  induction events using List.reverseRecOn with
  | nil => exact ⟨.prepare, .inl rfl, .nothing⟩
  | append_singleton events e ih =>
      rw [standing_append, List.foldl_cons, List.foldl_nil] at h
      by_cases hj : e.position = j
      · rw [Standing.hear_self hj] at h
        have hne : standing j events ≠ .broken := by
          intro hb
          rw [hb] at h
          exact absurd rfl h
        obtain ⟨ask, hask, hl⟩ := ih hne
        rw [standing_eq_foldl] at h
        have hsplit : eventsAt j (events ++ [e]) = eventsAt j events ++ [e] := by
          simp [eventsAt, hj]
        rw [hsplit]
        exact hl.extend hask hj h
      · rw [Standing.hear_of_ne hj] at h
        have hsplit : eventsAt j (events ++ [e]) = eventsAt j events := by
          simp [eventsAt, hj]
        rw [hsplit]
        exact ih h

/-- Where no question was put, its verb does not matter. -/
theorem Protocol.with_ask {ask ask' : Verb} {j : Nat} {l : List Event} (h : Protocol ask j l)
    (hask : .called j ask ∈ l → ask = ask') : Protocol ask' j l := by
  cases h with
  | nothing => exact .nothing
  | abort reply => exact .abort reply
  | question =>
      obtain rfl := hask (List.mem_cons_self ..)
      exact .question
  | answer e he =>
      obtain rfl := hask (List.mem_cons_self ..)
      exact .answer e he
  | abortAfter e reply he =>
      obtain rfl := hask (List.mem_cons_self ..)
      exact .abortAfter e reply he
  | commits lost reply hp =>
      obtain rfl := hask (List.mem_cons_self ..)
      exact .commits lost reply hp

end LeasedCommit
