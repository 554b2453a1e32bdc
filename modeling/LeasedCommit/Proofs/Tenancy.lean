import LeasedCommit.Manager.LeaseHandle
import LeasedCommit.Proofs.LeaseEnd

set_option autoImplicit false

/-! # Leases in the hands of their holders

A `Tenancy` is a manager together with the handles on its leases. Handles can be copied, and a
call made through one runs as an errand of the manager as long as there is a manager; without one
it is refused. A run of a tenancy (`Tenancy.Leads`) is a run of its manager in between
(`Tenancy.Leads.run`), and its calls are errands of the manager (`Tenancy.Sound`), so what is known
about errands carries over to calls. -/

namespace LeasedCommit

/-- A call made through a handle. -/
structure LeaseCall where
  handle : Nat
  task : Task
  /-- The errand that the manager runs for the call, if there was a manager. -/
  errand : Option Nat
  /-- What has been answered, once it is. -/
  answer : Option Answer
deriving DecidableEq

/-- A manager and the handles on its leases. -/
structure Tenancy where
  /-- The manager as it is, or as it was when it was dropped. -/
  manager : Manager
  alive : Bool
  handles : List LeaseHandle
  /-- The calls made through handles, in the order in which they were made. -/
  calls : List LeaseCall
deriving DecidableEq

namespace Tenancy

/-- What can happen to a manager and the handles on its leases. -/
inductive Move
  /-- The manager makes a move. Being asked for a task by somebody without a handle is one. -/
  | moves (move : LeasedCommit.Move)
  /-- Whoever has created a transaction gets the handle on its lease. -/
  | grant (errand : Nat)
  | copy (handle : Nat)
  | renew (handle : Nat) (request : LeaseRequest)
  | cancel (handle : Nat)
  /-- A call returns. -/
  | returns (call : Nat)
  | drop

/-- A manager without transactions, and no handles. -/
def create (config : Config) : Tenancy :=
  { manager := .create config, alive := true, handles := [], calls := [] }

/-- The manager of a tenancy makes a move. -/
def moveManager (t : Tenancy) (move : LeasedCommit.Move) : Option Tenancy :=
  if t.alive then (t.manager.step move).map fun m => { t with manager := m } else none

/-- A call is made through a handle. -/
def call (t : Tenancy) (handle : Nat) (h : LeaseHandle) (task : Task) : Option Tenancy :=
  let made (errand : Option Nat) (answer : Option Answer) : List LeaseCall :=
    t.calls ++ [{ handle := handle, task := task, errand := errand, answer := answer }]
  if t.alive then
    (t.moveManager (.ask task)).map fun u =>
      { u with calls := made (some t.manager.errands.length) none }
  else some { t with calls := made none (some h.orphaned) }

/-- The answer with which a call can return. -/
def returned? (t : Tenancy) (c : LeaseCall) : Option Answer :=
  match c.answer, c.errand.bind t.manager.errand? with
  | none, some (.finished (.answered answer)) => some answer
  | _, _ => none

/-- A call through a handle has been answered. Only a renewal tells its handle. -/
def settle (t : Tenancy) (number : Nat) (c : LeaseCall) (answer : Answer) : Tenancy :=
  { t with
    handles :=
      match c.task with
      | .renew .. => t.handles.modify c.handle fun h => h.told answer
      | _ => t.handles
    calls := t.calls.set number { c with answer := some answer } }

/-- Whether nobody holds the manager: no errand and no call is under way. -/
def isIdle (t : Tenancy) : Bool :=
  t.manager.errands.all Errand.isOver && t.calls.all fun c => (t.returned? c).isNone

/-- One move. Nothing for a move that cannot happen. -/
def step (t : Tenancy) : Move → Option Tenancy
  | .moves move => t.moveManager move
  | .grant errand =>
    match t.manager.errand? errand with
    | some (.finished (.created id expiration)) =>
      some { t with handles := t.handles ++ [{ id := id, expiration := expiration }] }
    | _ => none
  | .copy handle => t.handles[handle]?.map fun h => { t with handles := t.handles ++ [h] }
  | .renew handle request => t.handles[handle]?.bind fun h => t.call handle h (h.renew request)
  | .cancel handle => t.handles[handle]?.bind fun h => t.call handle h h.cancel
  | .returns number =>
    t.calls[number]?.bind fun c => (t.returned? c).map fun answer => t.settle number c answer
  | .drop => if t.isIdle then some { t with alive := false } else none

/-- What a move is to the manager, if it is anything. -/
def Move.onManager? (t : Tenancy) : Move → Option LeasedCommit.Move
  | .moves move => some move
  | .renew handle request =>
    if t.alive then t.handles[handle]?.map fun h => .ask (h.renew request) else none
  | .cancel handle => if t.alive then t.handles[handle]?.map fun h => .ask h.cancel else none
  | _ => none

/-- What the manager does in a move that leads to `t'`. -/
def turns (t : Tenancy) (move : Option LeasedCommit.Move) (t' : Tenancy) : List Manager.Turn :=
  move.toList.map fun move => { before := t.manager, move := move, after := t'.manager }

/-- `t.Leads turns t'`: there are moves from `t` to `t'` in which the manager takes these turns. -/
inductive Leads (t : Tenancy) : List Manager.Turn → Tenancy → Prop
  | start : Leads t [] t
  | next {turns : List Manager.Turn} {t' t'' : Tenancy} {move : Move} : Leads t turns t' →
    t'.step move = some t'' → Leads t (turns ++ t'.turns (move.onManager? t') t'') t''

/-- The turns of the manager in a list of moves, if all of them can be made. -/
def play (t : Tenancy) : List Move → Option (List Manager.Turn × Tenancy)
  | [] => some ([], t)
  | move :: rest =>
    (t.step move).bind fun t' =>
      (t'.play rest).map fun (more, last) => (t.turns (move.onManager? t) t' ++ more, last)

/-! ## One move -/

/-- `t.Goes move t'`: what a tenancy can do while its manager makes this move, or none. -/
inductive Goes (t : Tenancy) : Option LeasedCommit.Move → Tenancy → Prop
  | manages {move : LeasedCommit.Move} {m : Manager} : t.alive = true →
    t.manager.step move = some m → Goes t (some move) { t with manager := m }
  -- handles
  | grants {errand : Nat} {h : LeaseHandle} :
    t.manager.errand? errand = some (.finished (.created h.id h.expiration)) →
    Goes t none { t with handles := t.handles ++ [h] }
  | copies {handle : Nat} {h : LeaseHandle} : t.handles[handle]? = some h →
    Goes t none { t with handles := t.handles ++ [h] }
  -- calls
  | asks {handle : Nat} {h : LeaseHandle} {task : Task} : t.alive = true →
    t.handles[handle]? = some h → task.IsLease h.id →
    Goes t (some (.ask task))
      { t with
        manager := { t.manager with errands := t.manager.errands ++ [.begun task] }
        calls := t.calls ++ [{ handle := handle, task := task,
                               errand := some t.manager.errands.length, answer := none }] }
  | declines {handle : Nat} {h : LeaseHandle} {task : Task} : t.alive = false →
    t.handles[handle]? = some h → task.IsLease h.id →
    Goes t none
      { t with
        calls := t.calls ++ [{ handle := handle, task := task, errand := none
                               answer := some (.refused (.unknownLease h.id)) }] }
  | returns {number : Nat} {c : LeaseCall} {answer : Answer} : t.calls[number]? = some c →
    t.returned? c = some answer → Goes t none (t.settle number c answer)
  -- the end of the manager
  | drops : t.isIdle = true → Goes t none { t with alive := false }

variable {config : Config} {t t' t'' t₀ t₁ t₂ : Tenancy} {tasks : List Task}
  {past more turns₀ turns₁ turns₂ : List Manager.Turn} {move : Option LeasedCommit.Move}
  {k n i : Nat} {c c' : LeaseCall} {h h' : LeaseHandle} {answer : Answer} {id : TransactionId}

theorem returned?_eq_some (hr : t.returned? c = some answer) : c.answer = none ∧
    ∃ i, c.errand = some i ∧ t.manager.errand? i = some (.finished (.answered answer)) := by
  unfold returned? at hr
  split at hr
  · rename_i a hnone hfinished
    obtain rfl := Option.some.inj hr
    exact ⟨hnone, Option.bind_eq_some_iff.mp hfinished⟩
  · cases hr

/-- A call made through a handle. -/
theorem goes_of_call {task : Task} (hn : t.handles[n]? = some h) (hlease : task.IsLease h.id)
    (hcall : t.call n h task = some t') :
    t.Goes (if t.alive then some (.ask task) else none) t' := by
  unfold call at hcall
  split at hcall
  · rename_i halive
    rw [if_pos halive]
    simp only [moveManager, if_pos halive, Manager.step, Option.map_some,
      Option.some.injEq] at hcall
    exact hcall ▸ .asks halive hn hlease
  · rename_i halive
    rw [if_neg halive]
    exact Option.some.inj hcall ▸ .declines (Bool.not_eq_true _ ▸ halive) hn hlease

/-- **Inversion of a move.** -/
theorem step_goes {move : Move} (hstep : t.step move = some t') :
    t.Goes (move.onManager? t) t' := by
  cases move with
  | moves move =>
      simp only [step, moveManager] at hstep
      split at hstep
      · rename_i halive
        obtain ⟨m, hm, rfl⟩ := Option.map_eq_some_iff.mp hstep
        exact .manages halive hm
      · cases hstep
  | grant errand =>
      simp only [step] at hstep
      split at hstep
      · rename_i id expiration he
        exact Option.some.inj hstep ▸ .grants (h := ⟨id, expiration⟩) he
      · cases hstep
  | copy handle =>
      obtain ⟨h, hn, rfl⟩ := Option.map_eq_some_iff.mp hstep
      exact .copies hn
  | renew handle request =>
      obtain ⟨h, hn, hcall⟩ := Option.bind_eq_some_iff.mp hstep
      have hlease : (h.renew request).IsLease h.id := rfl
      simpa only [Move.onManager?, hn, Option.map_some] using goes_of_call hn hlease hcall
  | cancel handle =>
      obtain ⟨h, hn, hcall⟩ := Option.bind_eq_some_iff.mp hstep
      have hlease : h.cancel.IsLease h.id := rfl
      simpa only [Move.onManager?, hn, Option.map_some] using goes_of_call hn hlease hcall
  | returns number =>
      obtain ⟨c, hc, hreturn⟩ := Option.bind_eq_some_iff.mp hstep
      obtain ⟨answer, hanswer, rfl⟩ := Option.map_eq_some_iff.mp hreturn
      exact .returns hc hanswer
  | drop =>
      simp only [step] at hstep
      split at hstep
      · rename_i hidle
        exact Option.some.inj hstep ▸ .drops hidle
      · cases hstep

namespace Goes

/-- What the manager does. -/
theorem manager (hg : t.Goes move t') : (move = none ∧ t'.manager = t.manager) ∨
    ∃ asked, move = some asked ∧ t.manager.step asked = some t'.manager := by
  cases hg with
  | manages _ hm => exact .inr ⟨_, rfl, hm⟩
  | asks => exact .inr ⟨_, rfl, rfl⟩
  | _ => exact .inl ⟨rfl, rfl⟩

/-- Where a call comes from: it was there, it has just been made, or it has just been answered. -/
theorem call_cases (hg : t.Goes move t') (hc' : t'.calls[k]? = some c') :
    t.calls[k]? = some c' ∨
    (k = t.calls.length ∧
      ((c'.errand = some t.manager.errands.length ∧ c'.answer = none ∧
          move = some (.ask c'.task)) ∨
        (c'.errand = none ∧ move = none ∧
          ∃ id, c'.task.IsLease id ∧ c'.answer = some (.refused (.unknownLease id))))) ∨
    ∃ c answer, t.calls[k]? = some c ∧ t.returned? c = some answer ∧ move = none ∧
      t'.manager = t.manager ∧ c' = { c with answer := some answer } := by
  have hmade : ∀ {new : LeaseCall}, (t.calls ++ [new])[k]? = some c' →
      t.calls[k]? = some c' ∨ (k = t.calls.length ∧ new = c') := by
    intro new hk
    rw [List.getElem?_append] at hk
    split at hk
    · exact .inl hk
    · obtain ⟨hlt, hget⟩ := List.getElem?_eq_some_iff.mp hk
      have hzero : k - t.calls.length = 0 := by simpa using hlt
      exact .inr ⟨by omega, by simpa [hzero] using hget⟩
  cases hg with
  | asks _ _ hlease =>
      rcases hmade hc' with hold | ⟨rfl, rfl⟩
      · exact .inl hold
      · exact .inr (.inl ⟨rfl, .inl ⟨rfl, rfl, rfl⟩⟩)
  | declines _ _ hlease =>
      rcases hmade hc' with hold | ⟨rfl, rfl⟩
      · exact .inl hold
      · exact .inr (.inl ⟨rfl, .inr ⟨rfl, rfl, _, hlease, rfl⟩⟩)
  | @returns number c answer hc hr =>
      have hset : (t.calls.set number { c with answer := some answer })[k]? = some c' := hc'
      rw [List.getElem?_set] at hset
      split at hset
      · rename_i hnumber
        subst hnumber
        split at hset
        · exact .inr (.inr ⟨c, answer, hc, hr, rfl, rfl, (Option.some.inj hset).symm⟩)
        · cases hset
      · exact .inl hset
  | _ => exact .inl hc'

/-- The errand of a call was its errand before, or it has just been asked for. -/
theorem errand_cases (hg : t.Goes move t') (hc' : t'.calls[k]? = some c')
    (hi : c'.errand = some i) :
    (∃ c, t.calls[k]? = some c ∧ c.errand = some i) ∨
      (k = t.calls.length ∧ i = t.manager.errands.length) := by
  rcases hg.call_cases hc' with hold | ⟨hk, ⟨hnew, -⟩ | ⟨hnone, -⟩⟩ | ⟨c, answer, hc, -, -, -, rfl⟩
  · exact .inl ⟨c', hold, hi⟩
  · exact .inr ⟨hk, Option.some.inj (hi.symm.trans hnew)⟩
  · rw [hi] at hnone
    cases hnone
  · exact .inl ⟨c, hc, hi⟩

/-- A call that is answered stays as it is. -/
theorem answered_stays (hg : t.Goes move t') (hc : t.calls[k]? = some c)
    (ha : c.answer = some answer) : t'.calls[k]? = some c := by
  have hlt : k < t.calls.length := (List.getElem?_eq_some_iff.mp hc).1
  cases hg with
  | asks | declines => exact (List.getElem?_append_left hlt).trans hc
  | @returns number c₀ answer₀ hc₀ hr =>
      have hne : number ≠ k := by
        rintro rfl
        obtain rfl := Option.some.inj (hc₀.symm.trans hc)
        rw [(returned?_eq_some hr).1] at ha
        cases ha
      exact (List.getElem?_set_ne hne).trans hc
  | _ => exact hc

/-- **Only a renewal through a handle that succeeds changes the handle.** -/
theorem handle (hg : t.Goes move t') (hn : t.handles[n]? = some h) :
    t'.handles[n]? = some h ∨
    ∃ (k : Nat) (c : LeaseCall) (expiration : Expiration), t.calls[k]? = some c ∧
      c.answer = none ∧ c.handle = n ∧
      t'.calls[k]? = some { c with answer := some (.renewed expiration) } ∧
      t'.handles[n]? = some { h with expiration := expiration } := by
  have hlt : n < t.handles.length := (List.getElem?_eq_some_iff.mp hn).1
  cases hg with
  | grants | copies => exact .inl ((List.getElem?_append_left hlt).trans hn)
  | @returns k c answer hc hr =>
      have hcalls : (t.settle k c answer).calls[k]? = some { c with answer := some answer } :=
        List.getElem?_set_self (List.getElem?_eq_some_iff.mp hc).1
      cases htask : c.task with
      | renew id request =>
          have hhandle : (t.settle k c answer).handles[n]? =
              some (if c.handle = n then h.told answer else h) := by
            simp only [settle, htask, List.getElem?_modify, hn]
            rfl
          rw [hhandle]
          by_cases hown : c.handle = n
          · rw [if_pos hown]
            cases answer with
            | renewed expiration =>
                exact .inr ⟨k, c, expiration, hc, (returned?_eq_some hr).1, hown, hcalls, rfl⟩
            | _ => exact .inl rfl
          · rw [if_neg hown]
            exact .inl rfl
      | _ =>
          refine .inl ?_
          simp only [settle, htask]
          exact hn
  | _ => exact .inl hn

end Goes

/-! ## Runs -/

theorem Goes.run (hg : t.Goes move t') (hpast : Manager.Run config past t.manager) :
    Manager.Run config (past ++ t.turns move t') t'.manager := by
  rcases hg.manager with ⟨rfl, hm⟩ | ⟨asked, rfl, hm⟩
  · rw [hm]
    simpa [turns] using hpast
  · exact hpast.next hm

/-- **A run of a tenancy is a run of its manager.** -/
theorem Leads.run (h : t.Leads more t') (hpast : Manager.Run config past t.manager) :
    Manager.Run config (past ++ more) t'.manager := by
  induction h with
  | start => simpa using hpast
  | next _ hstep ih =>
      rw [← List.append_assoc]
      exact (step_goes hstep).run ih

theorem Leads.trans (h : t.Leads past t') (h' : t'.Leads more t'') :
    t.Leads (past ++ more) t'' := by
  induction h' with
  | start => simpa using h
  | next _ hstep ih =>
      rw [← List.append_assoc]
      exact ih.next hstep

theorem Leads.of_play {last : Tenancy} (moves : List Move)
    (h : t.play moves = some (more, last)) : t.Leads more last := by
  induction moves generalizing t more with
  | nil =>
      obtain ⟨rfl, rfl⟩ := Prod.mk.inj (Option.some.inj h)
      exact .start
  | cons move rest ih =>
      simp only [play, Option.bind_eq_some_iff, Option.map_eq_some_iff, Prod.mk.injEq,
        Prod.exists] at h
      obtain ⟨t', hstep, tail, last', hrest, rfl, rfl⟩ := h
      exact (Leads.start.next hstep).trans (ih hrest)

theorem Leads.of_play_after {last : Tenancy} (_ : t.Leads past t') (moves : List Move)
    (h : t'.play moves = some (more, last)) : t'.Leads more last :=
  of_play moves h

/-- As long as there is a manager, it can make its moves. -/
theorem Leads.of_play_manager {m : Manager} (moves : List LeasedCommit.Move)
    (halive : t.alive = true) (h : t.manager.play moves = some (more, m)) :
    t.Leads more { t with manager := m } := by
  induction moves generalizing t more with
  | nil =>
      obtain ⟨rfl, rfl⟩ := Prod.mk.inj (Option.some.inj h)
      exact .start
  | cons move rest ih =>
      simp only [Manager.play, Option.bind_eq_some_iff, Option.map_eq_some_iff, Prod.mk.injEq,
        Prod.exists] at h
      obtain ⟨m', hm', tail, last, hrest, rfl, rfl⟩ := h
      have hstep : t.step (.moves move) = some { t with manager := m' } := by
        simp only [step, moveManager, if_pos halive, hm', Option.map_some]
      exact (Leads.start.next hstep).trans (ih halive hrest)

/-- The calls of a tenancy are errands on `tasks`, as long as there is a manager, and none of them
is under way when it is dropped. -/
structure Sound (tasks : List Task) (t : Tenancy) : Prop where
  orphaned : ∀ (k : Nat) (c : LeaseCall), t.calls[k]? = some c → c.errand = none →
    ∃ id, c.task.IsLease id ∧ c.answer = some (.refused (.unknownLease id))
  pursued : ∀ (k : Nat) (c : LeaseCall) (i : Nat), t.calls[k]? = some c → c.errand = some i →
    tasks[i]? = some c.task ∧ ∀ answer, c.answer = some answer →
      t.manager.errand? i = some (.finished (.answered answer))
  apart : ∀ (k k' : Nat) (c c' : LeaseCall) (i : Nat), t.calls[k]? = some c →
    t.calls[k']? = some c' → c.errand = some i → c'.errand = some i → k = k'
  idle : t.alive = false → t.isIdle = true

/-- A call has no errand only if there was no manager to ask. -/
theorem Sound.orphaned_next (hs : t.Sound tasks) (hg : t.Goes move t')
    (hc' : t'.calls[k]? = some c') (hi : c'.errand = none) :
    ∃ id, c'.task.IsLease id ∧ c'.answer = some (.refused (.unknownLease id)) := by
  rcases hg.call_cases hc' with hold | ⟨-, ⟨hnew, -⟩ | ⟨-, -, horphaned⟩⟩ |
    ⟨c, answer, hc, hr, -, -, rfl⟩
  · exact hs.orphaned k c' hold hi
  · rw [hi] at hnew
    cases hnew
  · exact horphaned
  · obtain ⟨-, i, hsome, -⟩ := returned?_eq_some hr
    have hi' : c.errand = none := hi
    rw [hsome] at hi'
    cases hi'

/-- A call returns with the answer that its errand has been given. -/
theorem Sound.pursued_next (hs : t.Sound tasks) (hg : t.Goes move t')
    (hlength : tasks.length = t.manager.errands.length) (hc' : t'.calls[k]? = some c')
    (hi : c'.errand = some i) :
    (tasks ++ Manager.asked (t.turns move t'))[i]? = some c'.task ∧
      ∀ answer, c'.answer = some answer →
        t'.manager.errand? i = some (.finished (.answered answer)) := by
  have hearlier : ∀ {task}, tasks[i]? = some task →
      (tasks ++ Manager.asked (t.turns move t'))[i]? = some task := fun htask =>
    (List.getElem?_append_left (List.getElem?_eq_some_iff.mp htask).1).trans htask
  rcases hg.call_cases hc' with hold | ⟨-, ⟨hnew, hnone, hasked⟩ | ⟨hno, -⟩⟩ |
    ⟨c, answer, hc, hr, -, hm, rfl⟩
  · obtain ⟨htask, hanswer⟩ := hs.pursued k c' i hold hi
    refine ⟨hearlier htask, fun answer ha => ?_⟩
    rcases hg.manager with ⟨-, hm⟩ | ⟨asked, -, hm⟩
    · exact hm ▸ hanswer answer ha
    · exact Manager.over_next hm (hanswer answer ha) rfl
  · -- the call has just been made
    obtain rfl : i = tasks.length := by
      rw [hlength]
      exact Option.some.inj (hi.symm.trans hnew)
    subst hasked
    refine ⟨List.getElem?_concat_length, fun answer ha => ?_⟩
    rw [hnone] at ha
    cases ha
  · rw [hi] at hno
    cases hno
  · obtain ⟨-, j, hj, hfinished⟩ := returned?_eq_some hr
    obtain rfl : i = j := Option.some.inj (hi.symm.trans hj)
    refine ⟨hearlier (hs.pursued k c i hc hj).1, fun a ha => ?_⟩
    obtain rfl := Option.some.inj ha
    exact hm ▸ hfinished

/-- A new call has an errand of its own. -/
theorem Sound.apart_next {k' : Nat} (hs : t.Sound tasks) (hg : t.Goes move t')
    (hlength : tasks.length = t.manager.errands.length) (hc : t'.calls[k]? = some c)
    (hc' : t'.calls[k']? = some c') (hi : c.errand = some i) (hi' : c'.errand = some i) :
    k = k' := by
  have hold : ∀ {k : Nat} {c : LeaseCall}, t.calls[k]? = some c → c.errand = some i →
      i < t.manager.errands.length := fun hc hi =>
    hlength ▸ (List.getElem?_eq_some_iff.mp (hs.pursued _ _ i hc hi).1).1
  rcases hg.errand_cases hc hi with ⟨c₀, hc₀, hi₀⟩ | ⟨rfl, rfl⟩ <;>
  rcases hg.errand_cases hc' hi' with ⟨c₁, hc₁, hi₁⟩ | ⟨rfl, hlast⟩
  · exact hs.apart k k' c₀ c₁ i hc₀ hc₁ hi₀ hi₁
  · exact absurd hlast (Nat.ne_of_lt (hold hc₀ hi₀))
  · exact absurd (hold hc₁ hi₁) (Nat.lt_irrefl _)
  · rfl

/-- Nothing is under way once there is no manager. -/
theorem Sound.idle_next (hs : t.Sound tasks) (hg : t.Goes move t') (hdead : t'.alive = false) :
    t'.isIdle = true := by
  cases hg with
  | manages halive | asks halive =>
      have hdead' : t.alive = false := hdead
      rw [halive] at hdead'
      cases hdead'
  | grants | copies => exact hs.idle hdead
  | declines hdead =>
      have hidle := hs.idle hdead
      simp only [isIdle, returned?, Bool.and_eq_true, List.all_append] at hidle ⊢
      exact ⟨hidle.1, hidle.2, rfl⟩
  | @returns k c answer hc hr =>
      have hidle := hs.idle hdead
      simp only [isIdle, Bool.and_eq_true, List.all_eq_true] at hidle
      have hnone := hidle.2 c (List.mem_of_getElem? hc)
      rw [hr] at hnone
      cases hnone
  | drops hidle => exact hidle

theorem Sound.step (hs : t.Sound tasks) (hg : t.Goes move t')
    (hlength : tasks.length = t.manager.errands.length) :
    t'.Sound (tasks ++ Manager.asked (t.turns move t')) where
  orphaned _ _ hc hi := hs.orphaned_next hg hc hi
  pursued _ _ _ hc hi := hs.pursued_next hg hlength hc hi
  apart _ _ _ _ _ hc hc' hi hi' := hs.apart_next hg hlength hc hc' hi hi'
  idle hdead := hs.idle_next hg hdead

theorem Leads.sound (h : (create config).Leads more t) : t.Sound (Manager.asked more) := by
  induction h with
  | start =>
      exact ⟨fun _ _ hc => (nomatch hc), fun _ _ _ hc => (nomatch hc),
        fun _ _ _ _ _ hc => (nomatch hc), fun hdead => (nomatch hdead)⟩
  | next hleads hstep ih =>
      rw [Manager.asked_append]
      exact ih.step (step_goes hstep) (hleads.run .start).asked_length

/-- Errands and transactions only become more. -/
theorem Leads.grows (h : t.Leads more t') :
    t.manager.errands.length ≤ t'.manager.errands.length ∧
      t.manager.issued ≤ t'.manager.issued := by
  induction h with
  | start => exact ⟨Nat.le_refl _, Nat.le_refl _⟩
  | next _ hstep ih =>
      rcases (step_goes hstep).manager with ⟨-, hm⟩ | ⟨asked, -, hm⟩
      · rw [hm]
        exact ih
      · refine ⟨Nat.le_trans ih.1 ?_, Nat.le_trans ih.2 (Manager.issued_le hm)⟩
        rcases Manager.asked_of_step hm with ⟨task, -, herrands⟩ | ⟨-, hsame⟩
        · rw [herrands, List.length_append]
          exact Nat.le_add_right ..
        · exact Nat.le_of_eq hsame.symm

/-- The errand of a call is asked for when the call is made. -/
theorem Leads.asks (h : t.Leads more t') (hk : t.calls.length ≤ k) (hc : t'.calls[k]? = some c)
    (hi : c.errand = some i) : t.manager.errands.length ≤ i := by
  induction h generalizing c with
  | start =>
      rw [List.getElem?_eq_none hk] at hc
      cases hc
  | next hleads hstep ih =>
      rcases (step_goes hstep).errand_cases hc hi with ⟨c₀, hc₀, hi₀⟩ | ⟨-, rfl⟩
      · exact ih hc₀ hi₀
      · exact hleads.grows.1

theorem Leads.answered_stays (h : t.Leads more t') (hc : t.calls[k]? = some c)
    (ha : c.answer = some answer) : t'.calls[k]? = some c := by
  induction h with
  | start => exact hc
  | next _ hstep ih => exact (step_goes hstep).answered_stays ih ha

/-- A handle is as it was, or a renewal through it has succeeded since. -/
theorem Leads.handle (h : t.Leads more t') {x : LeaseHandle} (hn : t.handles[n]? = some x) :
    t'.handles[n]? = some x ∨
    ∃ (k : Nat) (c : LeaseCall) (expiration : Expiration), t'.calls[k]? = some c ∧ c.handle = n ∧
      c.answer = some (.renewed expiration) ∧
      (∀ c₀, t.calls[k]? = some c₀ → c₀.answer = none) ∧
      t'.handles[n]? = some { x with expiration := expiration } := by
  induction h with
  | start => exact .inl hn
  | @next more t' t'' move hleads hstep ih =>
      have hg := step_goes hstep
      -- a call that is answered now was not answered before
      have hopen : ∀ {k : Nat} {c : LeaseCall}, t'.calls[k]? = some c → c.answer = none →
          ∀ c₀, t.calls[k]? = some c₀ → c₀.answer = none := by
        intro k c hc hnone c₀ hc₀
        cases ha : c₀.answer with
        | none => rfl
        | some answer =>
            obtain rfl := Option.some.inj ((hleads.answered_stays hc₀ ha).symm.trans hc)
            rw [ha] at hnone
            cases hnone
      rcases ih with hsame | ⟨k, c, expiration, hc, hown, ha, hunanswered, hx⟩
      · rcases hg.handle hsame with hsame | ⟨k, c, expiration, hc, hnone, hown, hc', hx⟩
        · exact .inl hsame
        · exact .inr ⟨k, _, expiration, hc', hown, rfl, hopen hc hnone, hx⟩
      · rcases hg.handle hx with hsame | ⟨k', c', expiration', hc₀, hnone, hown', hc', hx'⟩
        · exact .inr ⟨k, c, expiration, hg.answered_stays hc ha, hown, ha, hunanswered, hsame⟩
        · exact .inr ⟨k', _, expiration', hc', hown', rfl, hopen hc₀ hnone, hx'⟩

end Tenancy

end LeasedCommit
