import LeasedCommit.Proofs.Parties

set_option autoImplicit false

/-! # Calls of a registry

Any calls of a registry, in any order, at any positions and with any progress that a question is
said to have led to. `Registry.Responds` lists what one call can do and which participants it hands
out; all that is proved about sequences of calls goes through it. The last section shows that to
settle everybody at once is to settle one participant after another. -/

namespace LeasedCommit

/-- A call of a registry. -/
inductive RegistryCall
  | join (participant : Participant)
  | freeze
  | ask (position : Nat)
  /-- A question is said to have led to some progress. -/
  | resolve (position : Nat) (progress : Progress)
  | claim (position : Nat) (how : Settlement)
  | claimAll (how : Settlement)
deriving DecidableEq

/-- Whether a call settles whom it hands out. -/
def RegistryCall.settles : RegistryCall → Bool
  | .claim .. | .claimAll _ => true
  | .join _ | .freeze | .ask _ | .resolve .. => false

/-- A call that was made. -/
structure RegistryTurn where
  before : Registry
  call : RegistryCall
  after : Registry
  /-- The participant that joined and the position that it was given. -/
  joined : Option Claim
  /-- The participants that were handed out. -/
  handed : List Claim
deriving DecidableEq

/-- The participants that a call has settled and handed out. -/
def RegistryTurn.claimed (t : RegistryTurn) : List Claim := if t.call.settles then t.handed else []

namespace Registry

/-- What a call does to the registry, the position that it gives to a new participant and the
participants that it hands out. -/
def respond (r : Registry) : RegistryCall → Registry × Option Claim × List Claim
  | .join p =>
    match r.join? p with
    | some (r', i) => (r', some { position := i, participant := p }, [])
    | none => (r, none, [])
  | .freeze => (r.freeze, none, [])
  | .ask i =>
    match r.ask? i with
    | some (r', p) => (r', none, [{ position := i, participant := p }])
    | none => (r, none, [])
  | .resolve i progress => (r.resolve i progress, none, [])
  | .claim i how =>
    match r.claim? i how with
    | some (r', p) => (r', none, [{ position := i, participant := p }])
    | none => (r, none, [])
  | .claimAll how => ((r.claimAll how).1, none, (r.claimAll how).2)

/-- One call. -/
def turn (r : Registry) (call : RegistryCall) : RegistryTurn :=
  let (after, joined, handed) := r.respond call
  { before := r, call := call, after := after, joined := joined, handed := handed }

/-- One call after another. -/
def turns (r : Registry) : List RegistryCall → List RegistryTurn
  | [] => []
  | call :: calls => r.turn call :: (r.turn call).after.turns calls

/-- The registry after some calls. -/
def afterAll (r : Registry) (calls : List RegistryCall) : Registry :=
  calls.foldl (fun r call => (r.turn call).after) r

/-- Settle the participants at some positions one after another, and give those that could be
settled. -/
def claimEach (r : Registry) (how : Settlement) : List Nat → Registry × List Claim
  | [] => (r, [])
  | i :: rest =>
    match r.claim? i how with
    | some (r', p) =>
      let (last, claims) := r'.claimEach how rest
      (last, { position := i, participant := p } :: claims)
    | none => r.claimEach how rest

variable {r : Registry} {call : RegistryCall} {i : Nat} {how : Settlement}

/-! ## One call -/

/-- `r.Responds call after joined handed`: the call can change the registry to `after`, with the
new participant `joined`, and hand out `handed`. -/
inductive Responds (r : Registry) : RegistryCall → Registry → Option Claim → List Claim → Prop
  | refuses {call : RegistryCall} : Responds r call r none []
  | joins {p : Participant} : r.frozen = false →
    Responds r (.join p) (r.enlist p) (some { position := r.size, participant := p }) []
  | freezes : Responds r .freeze r.freeze none []
  | asks {i : Nat} {p : Participant} : r.progress? i = some .joined →
    r.participants[i]? = some p →
    Responds r (.ask i) (r.setProgress i .preparing) none [{ position := i, participant := p }]
  | resolves {i : Nat} {progress : Progress} : r.progress? i = some .preparing →
    Responds r (.resolve i progress) (r.setProgress i progress) none []
  | claims {i : Nat} {how : Settlement} {p : Participant} : r.canClaim i = true →
    r.participants[i]? = some p →
    Responds r (.claim i how) (r.setProgress i (.settled how)) none
      [{ position := i, participant := p }]
  | claimsAll {how : Settlement} :
    Responds r (.claimAll how) (r.claimAll how).1 none r.claimable

theorem ask?_eq_some {r' : Registry} {p : Participant} (h : r.ask? i = some (r', p)) :
    r.progress? i = some .joined ∧ r' = r.setProgress i .preparing := by
  unfold ask? at h
  split at h
  · rename_i hslot
    refine ⟨progress?_eq_some_iff.mpr ⟨_, hslot, rfl⟩, ?_⟩
    exact (Prod.mk.inj (Option.some.inj h)).1.symm
  · cases h

theorem claim?_eq_some {r' : Registry} {p : Participant} (h : r.claim? i how = some (r', p)) :
    r.canClaim i = true ∧ r.participants[i]? = some p ∧ r' = r.setProgress i (.settled how) := by
  unfold claim? at h
  split at h
  · rename_i slot hslot
    split at h
    · rename_i haccepts
      obtain ⟨rfl, rfl⟩ := Prod.mk.inj (Option.some.inj h)
      have hprogress : r.progress? i = some slot.progress :=
        progress?_eq_some_iff.mpr ⟨slot, hslot, rfl⟩
      exact ⟨canClaim_iff.mpr ⟨_, hprogress, haccepts⟩, participants_of_slot hslot, rfl⟩
    · cases h
  · cases h

/-- **Inversion of a call.** -/
theorem responds_turn (r : Registry) (call : RegistryCall) :
    r.Responds call (r.turn call).after (r.turn call).joined (r.turn call).handed := by
  cases call with
  | join p =>
      simp only [turn, respond, join?_eq]
      cases hfrozen : r.frozen with
      | true => exact .refuses
      | false => exact .joins hfrozen
  | freeze => exact .freezes
  | ask i =>
      simp only [turn, respond]
      cases h : r.ask? i with
      | none => exact .refuses
      | some found =>
          obtain ⟨hjoined, hafter⟩ := ask?_eq_some h
          have hparty := participants_of_ask? h
          simp only [hafter]
          exact .asks hjoined hparty
  | resolve i progress =>
      simp only [turn, respond]
      by_cases h : r.progress? i = some .preparing
      · rw [resolve_of_preparing h]
        exact .resolves h
      · rw [resolve, if_neg h]
        exact .refuses
  | claim i how =>
      simp only [turn, respond]
      cases h : r.claim? i how with
      | none => exact .refuses
      | some found =>
          obtain ⟨hclaim, hparty, hafter⟩ := claim?_eq_some h
          simp only [hafter]
          exact .claims hclaim hparty
  | claimAll how => exact .claimsAll

namespace Responds

variable {after : Registry} {joined : Option Claim} {handed : List Claim}

/-- A new participant is given the next slot, and no other slot is added. -/
theorem participants (h : r.Responds call after joined handed) :
    after.participants = r.participants ++ (joined.map Claim.participant).toList ∧
      ∀ c, joined = some c → c.position = r.size := by
  cases h with
  | joins => exact ⟨participants_enlist r _, fun c hc => by cases hc; rfl⟩
  | refuses | freezes | asks | resolves | claims | claimsAll =>
      exact ⟨by simp, fun c hc => nomatch hc⟩

/-- A frozen registry stays frozen, and nobody joins it. -/
theorem frozen (h : r.Responds call after joined handed) (hfrozen : r.frozen = true) :
    after.frozen = true ∧ joined = none := by
  cases h with
  | joins hopen =>
      rw [hfrozen] at hopen
      cases hopen
  | refuses | asks | resolves | claims | claimsAll => exact ⟨hfrozen, rfl⟩
  | freezes => exact ⟨rfl, rfl⟩

/-- Whoever is handed out for a position has joined there. -/
theorem participants_of_mem {c : Claim} (h : r.Responds call after joined handed)
    (hc : c ∈ handed) : r.participants[c.position]? = some c.participant := by
  cases h with
  | refuses | joins | freezes | resolves => cases hc
  | asks _ hparty | claims _ hparty =>
      obtain rfl := List.mem_singleton.mp hc
      exact hparty
  | claimsAll => exact participants_of_mem_claimable hc

/-- What is settled stays so. -/
theorem settled (h : r.Responds call after joined handed)
    (hs : r.progress? i = some (.settled how)) : after.progress? i = some (.settled how) := by
  -- a slot whose progress is set is not settled
  have hset : ∀ {j : Nat} {p q : Progress}, r.progress? j = some p → p ≠ .settled how →
      (r.setProgress j q).progress? i = some (.settled how) := by
    intro j p q hj hne
    rw [progress?_setProgress, if_neg, hs]
    rintro rfl
    exact hne (Option.some.inj (hj.symm.trans hs))
  cases h with
  | refuses | freezes => exact hs
  | joins =>
      rw [progress?_enlist, if_neg (Nat.ne_of_lt (lt_size_of_progress? hs)), hs]
  | asks hjoined => exact hset hjoined (fun h => nomatch h)
  | resolves hopen => exact hset hopen (fun h => nomatch h)
  | claims hclaim =>
      obtain ⟨p, hp, haccepts⟩ := canClaim_iff.mp hclaim
      refine hset hp ?_
      rintro rfl
      cases haccepts
  | claimsAll =>
      rw [progress?_claimAll, hs]
      rfl

/-- Whoever is claimed could be settled before the call, and is settled after it; nobody is claimed
twice in one call. -/
theorem claimed (h : r.Responds call after joined handed) (hcall : call.settles = true) :
    (∀ c ∈ handed, r.canClaim c.position = true ∧
      ∃ how, after.progress? c.position = some (.settled how)) ∧
    (handed.map Claim.position).Nodup := by
  cases h with
  | refuses => exact ⟨fun c hc => (nomatch hc), List.nodup_nil⟩
  | joins | freezes | asks | resolves => cases hcall
  | @claims i how p hclaim =>
      refine ⟨fun c hc => ?_, List.nodup_cons.mpr ⟨List.not_mem_nil, List.nodup_nil⟩⟩
      obtain rfl := List.mem_singleton.mp hc
      obtain ⟨q, hq, -⟩ := canClaim_iff.mp hclaim
      exact ⟨hclaim, how, progress?_setProgress_self hq _⟩
  | @claimsAll how =>
      refine ⟨fun c hc => ?_, nodup_claimable r⟩
      have hclaim := canClaim_of_mem_claimable hc
      exact ⟨hclaim, how, progress?_claimAll_of_canClaim hclaim how⟩

end Responds

/-- Nobody can be settled who is, and nobody whose question is open. -/
theorem progress?_of_canClaim (h : r.canClaim i = true) :
    r.progress? i ≠ some .preparing ∧ ∀ how, r.progress? i ≠ some (.settled how) := by
  obtain ⟨p, hp, haccepts⟩ := canClaim_iff.mp h
  rw [hp]
  refine ⟨?_, fun how => ?_⟩
  · rintro ⟨⟩
    cases haccepts
  · rintro ⟨⟩
    cases haccepts

/-! ## Sequences of calls -/

@[simp] theorem turns_nil (r : Registry) : r.turns [] = [] := rfl

theorem turns_cons (r : Registry) (call : RegistryCall) (calls : List RegistryCall) :
    r.turns (call :: calls) = r.turn call :: (r.turn call).after.turns calls := rfl

theorem afterAll_cons (r : Registry) (call : RegistryCall) (calls : List RegistryCall) :
    r.afterAll (call :: calls) = (r.turn call).after.afterAll calls := rfl

theorem afterAll_append (r : Registry) (past rest : List RegistryCall) :
    r.afterAll (past ++ rest) = (r.afterAll past).afterAll rest :=
  List.foldl_append

/-- A turn is that of one call, after those before it. -/
theorem turns_eq_append {calls : List RegistryCall} {past rest : List RegistryTurn}
    {t : RegistryTurn} (h : r.turns calls = past ++ t :: rest) :
    ∃ before call after, calls = before ++ call :: after ∧ past = r.turns before ∧
      t = (r.afterAll before).turn call := by
  induction calls generalizing r past with
  | nil => cases past <;> cases h
  | cons call calls ih =>
      rw [turns_cons] at h
      cases past with
      | nil =>
          obtain ⟨rfl, -⟩ := List.cons.inj h
          exact ⟨[], call, calls, rfl, rfl, rfl⟩
      | cons u past =>
          obtain ⟨rfl, hrest⟩ := List.cons.inj h
          obtain ⟨before, call', after, rfl, rfl, rfl⟩ := ih hrest
          exact ⟨call :: before, call', after, rfl, rfl, rfl⟩

/-- The participants that have joined, with their positions, in join order. -/
def joins (turns : List RegistryTurn) : List Claim := turns.filterMap RegistryTurn.joined

/-- **Positions are given consecutively**, and a slot belongs to whom its position was given. -/
theorem joins_turns (r : Registry) (calls : List RegistryCall) :
    (joins (r.turns calls)).map Claim.position =
      List.range' r.size (joins (r.turns calls)).length ∧
    (r.afterAll calls).participants =
      r.participants ++ (joins (r.turns calls)).map Claim.participant := by
  induction calls generalizing r with
  | nil => exact ⟨rfl, (List.append_nil _).symm⟩
  | cons call calls ih =>
      obtain ⟨hpositions, hparties⟩ := ih (r.turn call).after
      obtain ⟨hone, hposition⟩ := (r.responds_turn call).participants
      have hsize : (r.turn call).after.size =
          r.size + ((r.turn call).joined.map Claim.participant).toList.length := by
        rw [← length_participants, hone, List.length_append, length_participants]
      rw [afterAll_cons, turns_cons, hparties, hone]
      rw [hsize] at hpositions
      simp only [joins, List.filterMap_cons] at hpositions ⊢
      cases hjoined : (r.turn call).joined with
      | none =>
          rw [hjoined] at hpositions
          exact ⟨hpositions, by simp⟩
      | some c =>
          rw [hjoined] at hpositions
          refine ⟨?_, by simp⟩
          rw [List.map_cons, List.length_cons, List.range'_succ, hposition c hjoined, hpositions]
          rfl

/-- The participants of a registry with their positions are those that have joined. -/
theorem mem_joins {calls : List RegistryCall} {c : Claim}
    (h : (empty.afterAll calls).participants[c.position]? = some c.participant) :
    c ∈ joins (empty.turns calls) := by
  obtain ⟨hpositions, hparties⟩ := joins_turns empty calls
  rw [hparties, participants_empty, List.nil_append, List.getElem?_map,
    Option.map_eq_some_iff] at h
  obtain ⟨c', hc', hparty⟩ := h
  obtain ⟨hlt, -⟩ := List.getElem?_eq_some_iff.mp hc'
  have hposition : c'.position = c.position := by
    have hat := congrArg (fun l => l[c.position]?) hpositions
    simp only [List.getElem?_map, hc', Option.map_some, List.getElem?_range' hlt, size_empty,
      Nat.zero_add, Nat.one_mul] at hat
    exact Option.some.inj hat
  obtain rfl : c' = c := by
    cases c
    cases c'
    simp_all
  exact List.mem_of_getElem? hc'

theorem frozen_afterAll (hfrozen : r.frozen = true) (calls : List RegistryCall) :
    (r.afterAll calls).frozen = true := by
  induction calls generalizing r with
  | nil => exact hfrozen
  | cons call calls ih => exact ih ((r.responds_turn call).frozen hfrozen).1

/-- A registry is frozen once it has been told so. -/
theorem frozen_of_mem {calls : List RegistryCall} {u : RegistryTurn} (hu : u ∈ r.turns calls)
    (hfreeze : u.call = .freeze) : (r.afterAll calls).frozen = true := by
  induction calls generalizing r with
  | nil => cases hu
  | cons call calls ih =>
      rcases List.mem_cons.mp hu with rfl | hu
      · obtain rfl : call = .freeze := hfreeze
        exact frozen_afterAll rfl calls
      · exact ih hu

/-- **What is settled stays so.** -/
theorem settled_afterAll (hs : r.progress? i = some (.settled how)) (calls : List RegistryCall) :
    (r.afterAll calls).progress? i = some (.settled how) := by
  induction calls generalizing r with
  | nil => exact hs
  | cons call calls ih => exact ih ((r.responds_turn call).settled hs)

theorem claimed_turn (r : Registry) (call : RegistryCall) :
    (∀ c ∈ (r.turn call).claimed, r.canClaim c.position = true ∧
      ∃ how, (r.turn call).after.progress? c.position = some (.settled how)) ∧
    ((r.turn call).claimed.map Claim.position).Nodup := by
  unfold RegistryTurn.claimed
  split
  · rename_i hcall
    exact (r.responds_turn call).claimed hcall
  · exact ⟨fun c hc => (nomatch hc), List.nodup_nil⟩

/-- Nobody who is settled is claimed any more. -/
theorem not_settled_of_claimed {calls : List RegistryCall} {t : RegistryTurn} {c : Claim}
    (ht : t ∈ r.turns calls) (hc : c ∈ t.claimed) :
    r.progress? c.position ≠ some (.settled how) := by
  intro hs
  obtain ⟨past, rest, hsplit⟩ := List.append_of_mem ht
  obtain ⟨before, call, after, -, -, rfl⟩ := turns_eq_append hsplit
  have hclaim := ((claimed_turn _ call).1 c hc).1
  exact (progress?_of_canClaim hclaim).2 how (settled_afterAll hs before)

/-- **Nobody is claimed twice** in any sequence of calls. -/
theorem nodup_claimed (r : Registry) (calls : List RegistryCall) :
    (((r.turns calls).flatMap RegistryTurn.claimed).map Claim.position).Nodup := by
  induction calls generalizing r with
  | nil => exact List.nodup_nil
  | cons call calls ih =>
      obtain ⟨hclaimed, hnodup⟩ := r.claimed_turn call
      rw [turns_cons, List.flatMap_cons, List.map_append]
      refine List.nodup_append.mpr ⟨hnodup, ih _, ?_⟩
      -- a position that is claimed now is settled from now on
      intro i hi j hj hij
      obtain ⟨c, hc, rfl⟩ := List.mem_map.mp hi
      obtain ⟨d, hd, rfl⟩ := List.mem_map.mp hj
      obtain ⟨t, ht, hd⟩ := List.mem_flatMap.mp hd
      obtain ⟨how, hs⟩ := (hclaimed c hc).2
      exact not_settled_of_claimed ht hd (hij ▸ hs)

/-! ## One after another -/

/-- The participants of consecutive slots that can be settled, when the first slot has a
position. -/
def claimableFrom (start : Nat) (slots : List Slot) : List Claim :=
  (slots.zipIdx start).filterMap fun (slot, i) =>
    if slot.progress.acceptsDecision then some { position := i, participant := slot.participant }
    else none

/-- A slot once everybody who can be settled has been. -/
def settleSlot (how : Settlement) (s : Slot) : Slot :=
  if s.progress.acceptsDecision then { s with progress := .settled how } else s

theorem claim?_append (done rest : List Slot) (s : Slot) (frozen : Bool) (how : Settlement) :
    claim? { slots := done ++ s :: rest, frozen := frozen } done.length how =
      if s.progress.acceptsDecision then
        some ({ slots := done ++ settleSlot how s :: rest, frozen := frozen }, s.participant)
      else none := by
  have hslot : (done ++ s :: rest)[done.length]? = some s := by simp
  simp only [claim?, hslot, setProgress, settleSlot]
  split
  · rw [List.modify_eq_set_getElem?, hslot]
    simp
  · rfl

theorem claimEach_append (done rest : List Slot) (frozen : Bool) (how : Settlement) :
    claimEach { slots := done ++ rest, frozen := frozen } how
        (List.range' done.length rest.length) =
      ({ slots := done ++ rest.map (settleSlot how), frozen := frozen },
        claimableFrom done.length rest) := by
  induction rest generalizing done with
  | nil => rfl
  | cons s rest ih =>
      have hnext := ih (done ++ [settleSlot how s])
      simp only [List.length_append, List.length_singleton, List.append_assoc,
        List.singleton_append] at hnext
      rw [List.length_cons, List.range'_succ, claimEach, claim?_append]
      simp only [claimableFrom, List.zipIdx_cons, List.filterMap_cons, List.map_cons] at hnext ⊢
      by_cases haccepts : s.progress.acceptsDecision = true
      · simp only [haccepts, if_true, hnext]
      · have hsame : settleSlot how s = s := if_neg haccepts
        rw [hsame] at hnext ⊢
        simp only [haccepts, if_false, hnext, Bool.false_eq_true]

/-- **To settle everybody at once is to settle one after another.** -/
theorem claimAll_eq_claimEach (r : Registry) (how : Settlement) :
    r.claimAll how = r.claimEach how (List.range r.size) := by
  have h := claimEach_append [] r.slots r.frozen how
  rw [List.range_eq_range']
  exact h.symm

/-- Once everybody has been settled who can be, a question is open or the slot is settled. -/
theorem settled_of_claimAll {p : Progress} (h : (r.claimAll how).1.progress? i = some p) :
    p = .preparing ∨ ∃ how', p = .settled how' := by
  rw [progress?_claimAll] at h
  obtain ⟨q, -, rfl⟩ := Option.map_eq_some_iff.mp h
  cases q with
  | preparing => exact .inl rfl
  | joined | prepared | unresolved => exact .inr ⟨how, rfl⟩
  | settled how' => exact .inr ⟨how', rfl⟩

theorem hasOpenQuestion_iff :
    r.hasOpenQuestion = true ↔ ∃ i, r.progress? i = some .preparing := by
  simp only [hasOpenQuestion, List.any_eq_true, beq_iff_eq]
  constructor
  · rintro ⟨slot, hslot, hopen⟩
    obtain ⟨i, hi⟩ := List.getElem?_of_mem hslot
    exact ⟨i, progress?_eq_some_iff.mpr ⟨slot, hi, hopen⟩⟩
  · rintro ⟨i, hopen⟩
    obtain ⟨slot, hslot, hopen⟩ := progress?_eq_some_iff.mp hopen
    exact ⟨slot, List.mem_of_getElem? hslot, hopen⟩

/-- Once everybody has been settled who can be, all are settled just if no question is open. -/
theorem isSettled_claimAll (r : Registry) (how : Settlement) :
    (r.claimAll how).1.isSettled = !(r.claimAll how).1.hasOpenQuestion := by
  rw [Bool.eq_iff_iff, Bool.not_eq_true', Bool.eq_false_iff, Ne, isSettled_iff,
    hasOpenQuestion_iff]
  constructor
  · rintro hall ⟨i, hopen⟩
    cases hall i _ hopen
  · intro hnone i p hp
    rcases settled_of_claimAll hp with rfl | ⟨how', rfl⟩
    · exact absurd ⟨i, hp⟩ hnone
    · rfl

/-! ## Who was told to commit -/

/-- The positions that were told to commit, in join order. -/
theorem toldToCommit_eq (r : Registry) :
    r.toldToCommit =
      (List.range r.size).filter fun i => r.progress? i = some (.settled .commit) := by
  have hrange : List.range r.size = r.slots.zipIdx.map Prod.snd := by
    rw [List.zipIdx_map_snd, ← List.range_eq_range', size]
  have htold : r.toldToCommit =
      (r.slots.zipIdx.filter fun e => e.1.progress = .settled .commit).map Prod.snd := by
    unfold toldToCommit
    induction r.slots.zipIdx with
    | nil => rfl
    | cons e l ih =>
        by_cases h : e.1.progress = .settled .commit <;> simp_all
  rw [htold, hrange, List.filter_map]
  refine congrArg (List.map Prod.snd) (List.filter_congr ?_)
  rintro ⟨slot, i⟩ hmem
  rw [List.mk_mem_zipIdx_iff_getElem?] at hmem
  simp [progress?, hmem]

theorem mem_toldToCommit_iff :
    i ∈ r.toldToCommit ↔ r.progress? i = some (.settled .commit) := by
  rw [toldToCommit_eq, List.mem_filter, List.mem_range, decide_eq_true_iff]
  exact and_iff_right_of_imp lt_size_of_progress?

end Registry

/-- **The laws of a registry.** Any calls of a new registry have been made, as `turns` lists them,
and have led to `r`.

* Positions are given consecutively from zero.
* Nobody has joined after the registry was frozen.
* Whoever is handed out for a position has joined there before.
* Over all calls together no position is claimed twice, and none while its question is open.
* What is settled stays so.
* To settle everybody at once is to settle one after another. Then every slot is settled unless its
  question is open, so all are settled just if no question is open.
* The positions that were told to commit are listed in join order, and no others. -/
theorem registry_laws (calls : List RegistryCall) (turns : List RegistryTurn) (r : Registry)
    (hturns : turns = Registry.empty.turns calls) (hr : r = Registry.empty.afterAll calls) :
    (Registry.joins turns).map Claim.position = List.range r.size ∧
    (∀ past t rest, turns = past ++ t :: rest → (∃ u ∈ past, u.call = .freeze) →
      t.joined = none) ∧
    (∀ past t rest, turns = past ++ t :: rest → ∀ c ∈ t.handed, c ∈ Registry.joins past) ∧
    ((turns.flatMap RegistryTurn.claimed).map Claim.position).Nodup ∧
    (∀ t ∈ turns, ∀ c ∈ t.claimed, t.before.progress? c.position ≠ some .preparing) ∧
    (∀ past rest i how, calls = past ++ rest →
      (Registry.empty.afterAll past).progress? i = some (.settled how) →
      r.progress? i = some (.settled how)) ∧
    (∀ how, r.claimAll how = r.claimEach how (List.range r.size) ∧
      (∀ i p, (r.claimAll how).1.progress? i = some p →
        p = .preparing ∨ ∃ how', p = .settled how') ∧
      (r.claimAll how).1.isSettled = !(r.claimAll how).1.hasOpenQuestion) ∧
    r.toldToCommit.Pairwise (· < ·) ∧
    ∀ i, i ∈ r.toldToCommit ↔ r.progress? i = some (.settled .commit) := by
  subst hturns hr
  refine ⟨?_, ?_, ?_, Registry.nodup_claimed _ calls, ?_, ?_, fun how => ?_, ?_, fun i => ?_⟩
  · obtain ⟨hpositions, hparties⟩ := Registry.joins_turns .empty calls
    have hsize : (Registry.empty.afterAll calls).size =
        (Registry.joins (Registry.empty.turns calls)).length := by
      rw [← Registry.length_participants, hparties]
      simp
    rw [hpositions, hsize, List.range_eq_range', Registry.size_empty]
  · rintro past t rest hsplit ⟨u, hu, hfreeze⟩
    obtain ⟨before, call, after, -, rfl, rfl⟩ := Registry.turns_eq_append hsplit
    have hfrozen := Registry.frozen_of_mem hu hfreeze
    exact ((Registry.responds_turn _ call).frozen hfrozen).2
  · intro past t rest hsplit c hc
    obtain ⟨before, call, after, -, rfl, rfl⟩ := Registry.turns_eq_append hsplit
    exact Registry.mem_joins ((Registry.responds_turn _ call).participants_of_mem hc)
  · intro t ht c hc
    obtain ⟨past, rest, hsplit⟩ := List.append_of_mem ht
    obtain ⟨before, call, after, -, -, rfl⟩ := Registry.turns_eq_append hsplit
    exact (Registry.progress?_of_canClaim ((Registry.claimed_turn _ call).1 c hc).1).1
  · rintro past rest i how rfl hs
    rw [Registry.afterAll_append]
    exact Registry.settled_afterAll hs rest
  · exact ⟨Registry.claimAll_eq_claimEach _ how, fun i p => Registry.settled_of_claimAll,
      Registry.isSettled_claimAll _ how⟩
  · rw [Registry.toldToCommit_eq]
    exact List.pairwise_lt_range.filter _
  · exact Registry.mem_toldToCommit_iff

/-- One of two participants is asked twice, because its first question is said to have led nowhere.
As long as the second question is open only the other participant is claimed, and nobody can join
any more. -/
theorem registry_laws_asked_twice :
    ∃ (p q : Participant) (calls : List RegistryCall) (r : Registry),
      calls = [.join p, .join q, .ask 1, .resolve 1 .joined, .freeze, .ask 1, .join p,
        .claimAll .abort, .resolve 1 .prepared, .claim 1 .commit, .claimAll .abort] ∧
      r = Registry.empty.afterAll calls ∧
      (Registry.empty.turns calls).flatMap RegistryTurn.claimed =
        [{ position := 0, participant := p }, { position := 1, participant := q }] ∧
      r.size = 2 ∧ r.toldToCommit = [1] ∧ r.progress? 1 = some (.settled .commit) := by
  let p : Participant := { key := 0, combines := false }
  let q : Participant := { key := 1, combines := true }
  let calls : List RegistryCall := [.join p, .join q, .ask 1, .resolve 1 .joined, .freeze, .ask 1,
    .join p, .claimAll .abort, .resolve 1 .prepared, .claim 1 .commit, .claimAll .abort]
  obtain ⟨-, -, -, -, -, hstays, -⟩ := registry_laws calls _ _ rfl rfl
  have hsettled := hstays (calls.take 10) (calls.drop 10) 1 .commit (by decide) (by decide)
  exact ⟨p, q, calls, _, rfl, rfl, by decide, by decide, by decide, hsettled⟩

end LeasedCommit
