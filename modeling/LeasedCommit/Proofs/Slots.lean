import LeasedCommit.Registry
import Mathlib.Data.List.Basic

set_option autoImplicit false

/-! # The slots of a registry

Everything that is proved about a registry is said with `Registry.progress?` and
`Registry.size`. This file gives one equation for each operation of the registry, and
describes the claims that `Registry.claimAll` hands out. -/

namespace LeasedCommit

/-- The progress of a slot once everybody who can be settled has been. -/
def Progress.claimed (how : Settlement) (p : Progress) : Progress :=
  if p.acceptsDecision then .settled how else p

theorem Progress.not_acceptsDecision_claimed (how : Settlement) (p : Progress) :
    (p.claimed how).acceptsDecision = false := by
  cases p <;> rfl

namespace Registry

/-- Whether the slot at a position exists and can be settled now. -/
def canClaim (r : Registry) (i : Nat) : Bool := (r.progress? i).any Progress.acceptsDecision

/-- The registry with one more slot at its end. -/
def enlist (r : Registry) (p : Participant) : Registry :=
  { r with slots := r.slots ++ [{ participant := p, progress := .joined }] }

/-! ## Positions and progress -/

theorem progress?_eq_some_iff {r : Registry} {i : Nat} {p : Progress} :
    r.progress? i = some p ↔ ∃ slot, r.slots[i]? = some slot ∧ slot.progress = p := by
  simp [progress?]

theorem lt_size_iff {r : Registry} {i : Nat} : i < r.size ↔ ∃ p, r.progress? i = some p := by
  constructor
  · intro h
    exact ⟨_, by rw [progress?, List.getElem?_eq_getElem h, Option.map_some]⟩
  · rintro ⟨p, h⟩
    obtain ⟨slot, hslot, -⟩ := progress?_eq_some_iff.mp h
    exact (List.getElem?_eq_some_iff.mp hslot).1

theorem lt_size_of_progress? {r : Registry} {i : Nat} {p : Progress}
    (h : r.progress? i = some p) : i < r.size :=
  lt_size_iff.mpr ⟨p, h⟩

theorem canClaim_iff {r : Registry} {i : Nat} :
    r.canClaim i = true ↔ ∃ p, r.progress? i = some p ∧ p.acceptsDecision = true := by
  simp only [canClaim, Option.any_eq_true]

theorem canClaim_eq_false_iff {r : Registry} {i : Nat} :
    r.canClaim i = false ↔ ∀ p, r.progress? i = some p → p.acceptsDecision = false := by
  simp only [canClaim, Option.any_eq_false]

theorem lt_size_of_canClaim {r : Registry} {i : Nat} (h : r.canClaim i = true) : i < r.size := by
  obtain ⟨p, hp, -⟩ := canClaim_iff.mp h
  exact lt_size_of_progress? hp

/-! ## One equation for each operation -/

@[simp] theorem size_freeze (r : Registry) : r.freeze.size = r.size := rfl

@[simp] theorem progress?_freeze (r : Registry) (i : Nat) :
    r.freeze.progress? i = r.progress? i := rfl

@[simp] theorem frozen_freeze (r : Registry) : r.freeze.frozen = true := rfl

@[simp] theorem size_empty : empty.size = 0 := rfl

@[simp] theorem progress?_empty (i : Nat) : empty.progress? i = none := by
  simp [progress?, empty]

@[simp] theorem size_enlist (r : Registry) (p : Participant) :
    (r.enlist p).size = r.size + 1 := by
  simp [size, enlist]

@[simp] theorem frozen_enlist (r : Registry) (p : Participant) :
    (r.enlist p).frozen = r.frozen := rfl

theorem progress?_enlist (r : Registry) (p : Participant) (i : Nat) :
    (r.enlist p).progress? i = if i = r.size then some .joined else r.progress? i := by
  by_cases h : i = r.size
  · rw [if_pos h, h]
    simp [progress?, enlist, size]
  · rw [if_neg h]
    have hne : i ≠ r.slots.length := h
    simp only [progress?, enlist, List.getElem?_append]
    split
    · rfl
    · rw [List.getElem?_eq_none (by simp; omega), List.getElem?_eq_none (by omega)]

theorem join?_eq (r : Registry) (p : Participant) :
    r.join? p = if r.frozen then none else some (r.enlist p, r.size) := rfl

@[simp] theorem size_setProgress (r : Registry) (i : Nat) (p : Progress) :
    (r.setProgress i p).size = r.size := by
  simp [size, setProgress]

@[simp] theorem frozen_setProgress (r : Registry) (i : Nat) (p : Progress) :
    (r.setProgress i p).frozen = r.frozen := rfl

theorem progress?_setProgress (r : Registry) (i j : Nat) (p : Progress) :
    (r.setProgress i p).progress? j =
      if i = j then (r.progress? j).map fun _ => p else r.progress? j := by
  simp only [progress?, setProgress, List.getElem?_modify]
  cases r.slots[j]? with
  | none => simp
  | some slot => by_cases h : i = j <;> simp [h]

theorem progress?_setProgress_self {r : Registry} {i : Nat} {p : Progress}
    (h : r.progress? i = some p) (q : Progress) : (r.setProgress i q).progress? i = some q := by
  rw [progress?_setProgress, if_pos rfl, h]
  rfl

/-- The only slot is as it was set. -/
theorem eq_of_sole {r : Registry} (hsize : r.size = 1) {i : Nat} {p q : Progress}
    (h : (r.setProgress 0 p).progress? i = some q) : q = p := by
  have hlt := lt_size_of_progress? h
  rw [size_setProgress, hsize, Nat.lt_one_iff] at hlt
  rw [progress?_setProgress, if_pos hlt.symm] at h
  obtain ⟨-, -, rfl⟩ := Option.map_eq_some_iff.mp h
  rfl

/-- Asking succeeds just at the slots to which nothing was sent. -/
theorem ask?_of_joined {r : Registry} {i : Nat} (h : r.progress? i = some .joined) :
    ∃ p, r.ask? i = some (r.setProgress i .preparing, p) := by
  obtain ⟨⟨p, progress⟩, hslot, rfl⟩ := progress?_eq_some_iff.mp h
  exact ⟨p, by simp [ask?, hslot]⟩

@[simp] theorem size_resolve (r : Registry) (i : Nat) (p : Progress) :
    (r.resolve i p).size = r.size := by
  unfold resolve
  split <;> simp

@[simp] theorem frozen_resolve (r : Registry) (i : Nat) (p : Progress) :
    (r.resolve i p).frozen = r.frozen := by
  unfold resolve
  split <;> simp

theorem resolve_of_preparing {r : Registry} {i : Nat} (h : r.progress? i = some .preparing)
    (p : Progress) : r.resolve i p = r.setProgress i p := by
  rw [resolve, if_pos h]

@[simp] theorem size_claimAll (r : Registry) (how : Settlement) :
    (r.claimAll how).1.size = r.size := by
  simp [size, claimAll]

@[simp] theorem frozen_claimAll (r : Registry) (how : Settlement) :
    (r.claimAll how).1.frozen = r.frozen := rfl

theorem progress?_claimAll (r : Registry) (how : Settlement) (i : Nat) :
    (r.claimAll how).1.progress? i = (r.progress? i).map (Progress.claimed how) := by
  simp only [progress?, claimAll, List.getElem?_map, Option.map_map]
  congr 1
  funext s
  by_cases h : s.progress.acceptsDecision <;> simp [Progress.claimed, h]

@[simp] theorem canClaim_claimAll (r : Registry) (how : Settlement) (i : Nat) :
    (r.claimAll how).1.canClaim i = false := by
  rw [canClaim_eq_false_iff]
  intro p hp
  rw [progress?_claimAll] at hp
  obtain ⟨q, -, rfl⟩ := Option.map_eq_some_iff.mp hp
  exact Progress.not_acceptsDecision_claimed how q

/-! ## Who can be settled -/

@[simp] theorem canClaim_freeze (r : Registry) (i : Nat) : r.freeze.canClaim i = r.canClaim i := rfl

theorem canClaim_enlist (r : Registry) (p : Participant) (i : Nat) :
    (r.enlist p).canClaim i = if i = r.size then true else r.canClaim i := by
  unfold canClaim
  rw [progress?_enlist]
  split <;> rfl

theorem canClaim_setProgress (r : Registry) (i j : Nat) (p : Progress) :
    (r.setProgress i p).canClaim j =
      if i = j then (r.progress? j).isSome && p.acceptsDecision else r.canClaim j := by
  unfold canClaim
  rw [progress?_setProgress]
  split
  · cases r.progress? j <;> simp
  · rfl

/-! ## The claims that are handed out -/

@[simp] theorem claimAll_snd (r : Registry) (how : Settlement) :
    (r.claimAll how).2 = r.claimable := rfl

theorem canClaim_of_mem_claimable {r : Registry} {c : Claim} (h : c ∈ r.claimable) :
    r.canClaim c.position = true := by
  simp only [claimable, List.mem_filterMap] at h
  obtain ⟨⟨slot, i⟩, hmem, hsome⟩ := h
  rw [List.mk_mem_zipIdx_iff_getElem?] at hmem
  by_cases hp : slot.progress.acceptsDecision
  · simp only [hp, if_true, Option.some.injEq] at hsome
    subst hsome
    exact canClaim_iff.mpr ⟨slot.progress, progress?_eq_some_iff.mpr ⟨slot, hmem, rfl⟩, hp⟩
  · simp [hp] at hsome

theorem mem_claimable_iff {r : Registry} {i : Nat} :
    i ∈ r.claimable.map Claim.position ↔ r.canClaim i = true := by
  constructor
  · intro h
    obtain ⟨c, hc, rfl⟩ := List.mem_map.mp h
    exact canClaim_of_mem_claimable hc
  · intro h
    obtain ⟨p, hp, haccepts⟩ := canClaim_iff.mp h
    obtain ⟨slot, hslot, rfl⟩ := progress?_eq_some_iff.mp hp
    refine List.mem_map.mpr ⟨{ position := i, participant := slot.participant }, ?_, rfl⟩
    rw [claimable, List.mem_filterMap]
    exact ⟨(slot, i), List.mk_mem_zipIdx_iff_getElem?.mpr hslot, by simp [haccepts]⟩

/-- Whoever is claimed has been settled in this way. -/
theorem progress?_claimAll_of_canClaim {r : Registry} {i : Nat} (h : r.canClaim i = true)
    (how : Settlement) : (r.claimAll how).1.progress? i = some (.settled how) := by
  obtain ⟨p, hp, haccepts⟩ := canClaim_iff.mp h
  rw [progress?_claimAll, hp]
  simp [Progress.claimed, haccepts]

/-- Whoever is not claimed stays as it is. -/
theorem progress?_claimAll_of_not_canClaim {r : Registry} {i : Nat} (h : r.canClaim i = false)
    (how : Settlement) : (r.claimAll how).1.progress? i = r.progress? i := by
  rw [progress?_claimAll]
  cases hp : r.progress? i with
  | none => rfl
  | some p => simp [Progress.claimed, canClaim_eq_false_iff.mp h p hp]

/-- The claims are in join order. -/
theorem positions_claimable (r : Registry) :
    r.claimable.map Claim.position = (List.range r.size).filter r.canClaim := by
  have hpos : r.claimable.map Claim.position =
      (r.slots.zipIdx.filter fun e => e.1.progress.acceptsDecision).map Prod.snd := by
    unfold claimable
    induction r.slots.zipIdx with
    | nil => rfl
    | cons e l ih =>
        by_cases h : e.1.progress.acceptsDecision <;> simp_all
  have hrange : List.range r.size = r.slots.zipIdx.map Prod.snd := by
    rw [List.zipIdx_map_snd, ← List.range_eq_range', size]
  rw [hpos, hrange, List.filter_map]
  refine congrArg (List.map Prod.snd) (List.filter_congr ?_)
  rintro ⟨slot, i⟩ hmem
  rw [List.mk_mem_zipIdx_iff_getElem?] at hmem
  show slot.progress.acceptsDecision = r.canClaim i
  rw [canClaim, progress?, hmem, Option.map_some, Option.any_some]

/-- Nobody is claimed twice. -/
theorem nodup_claimable (r : Registry) : (r.claimable.map Claim.position).Nodup := by
  rw [positions_claimable]
  exact List.nodup_range.filter _

/-- Every slot has been settled in this way. -/
def AllSettled (r : Registry) (how : Settlement) : Prop :=
  ∀ i < r.size, r.progress? i = some (.settled how)

theorem AllSettled.claimAll {r : Registry} (h : ∀ i < r.size, r.canClaim i = true)
    (how : Settlement) : (r.claimAll how).1.AllSettled how := by
  intro i hi
  rw [size_claimAll] at hi
  exact progress?_claimAll_of_canClaim (h i hi) how

theorem AllSettled.toldToCommit_eq {r : Registry} (h : r.AllSettled .commit) :
    r.toldToCommit = List.range r.size := by
  have htold : r.toldToCommit = r.slots.zipIdx.map Prod.snd := by
    refine List.filterMap_eq_map_iff_forall_eq_some.mpr ?_
    rintro ⟨slot, i⟩ hmem
    rw [List.mk_mem_zipIdx_iff_getElem?] at hmem
    have hprogress := h i (List.getElem?_eq_some_iff.mp hmem).1
    rw [progress?, hmem, Option.map_some, Option.some.injEq] at hprogress
    exact if_pos hprogress
  rw [htold, List.zipIdx_map_snd, ← List.range_eq_range', size]

theorem isSettled_iff {r : Registry} :
    r.isSettled = true ↔ ∀ i p, r.progress? i = some p → p.isSettled = true := by
  rw [isSettled, List.all_eq_true]
  constructor
  · rintro h i p hp
    obtain ⟨slot, hslot, rfl⟩ := progress?_eq_some_iff.mp hp
    exact h slot (List.mem_of_getElem? hslot)
  · intro h slot hslot
    obtain ⟨i, hi⟩ := List.getElem?_of_mem hslot
    exact h i _ (progress?_eq_some_iff.mpr ⟨slot, hi, rfl⟩)

end Registry

end LeasedCommit
