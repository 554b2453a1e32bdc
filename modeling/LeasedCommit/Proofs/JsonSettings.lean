import LeasedCommit.Json.Forms
import LeasedCommit.Proofs.ConfigFiles
import Mathlib.Data.List.Nodup

set_option autoImplicit false

/-! # Settings in a JSON object

The reader of a configuration asks an object for six names. What it is told does not depend on the
order of the members as long as no setting is given twice, nor on members that are no settings, and
a setting with its standard value is read as if it was not there. So objects that are spelled from
each other in such steps hold the same configuration (`Json.Respelled.configOfMembers?_eq`). -/

namespace LeasedCommit

namespace Config

/-! ## One setting at a time -/

/-- A setting that is read from its number, or has its standard value. -/
def slot {β : Type} (read : Nat → Option β) (missing : β) (found : Option (Option Nat)) :
    Option β :=
  found.bind fun number =>
    match number with
    | some n => read n
    | none => some missing

/-- A configuration is read setting by setting. -/
theorem ofNumbers?_eq (find : String → Option (Option Nat)) :
    ofNumbers? find =
      (slot (fun n => (word64? n).map some) standard.maxLeaseMs (find "max_lease_ms")).bind
        fun maxLeaseMs =>
      (slot word32? standard.rollForwardRetries (find "roll_forward_retries")).bind
        fun rollForwardRetries =>
      (slot word64? standard.defaultLeaseMs (find "default_lease_ms")).bind fun defaultLeaseMs =>
      (slot word64? standard.sweepIntervalMs (find "sweep_interval_ms")).bind
        fun sweepIntervalMs =>
      (slot word64? standard.retentionMs (find "retention_ms")).bind fun retentionMs =>
      (slot word64? standard.rollForwardBackoffMs (find "roll_forward_backoff_ms")).bind
        fun rollForwardBackoffMs =>
      some { defaultLeaseMs, maxLeaseMs, sweepIntervalMs, retentionMs, rollForwardRetries,
             rollForwardBackoffMs } := by
  unfold ofNumbers?
  rcases find "max_lease_ms" with _ | _ | bound <;>
    rcases find "roll_forward_retries" with _ | _ | retries <;> rfl

/-- A source that says the same about a setting as another, or nothing where the other gives the
standard number. -/
def AgreesOn (name : String) (found found' : Option (Option Nat)) : Prop :=
  found' = found ∨ (found = some (standard.numbers.lookup name) ∧ found' = some none)

theorem AgreesOn.slot_eq {β : Type} {name : String} {found found' : Option (Option Nat)}
    (h : AgreesOn name found found') (read : Nat → Option β) (missing : β)
    (hmissing : slot read missing (some (standard.numbers.lookup name)) = some missing) :
    slot read missing found' = slot read missing found := by
  rcases h with rfl | ⟨rfl, rfl⟩
  · rfl
  · exact hmissing.symm

/-- **A setting with its standard number is as good as one that is not given.** -/
theorem ofNumbers?_congr {find find' : String → Option (Option Nat)}
    (h : ∀ name ∈ names, AgreesOn name (find name) (find' name)) :
    ofNumbers? find' = ofNumbers? find := by
  have hmax := (h "max_lease_ms" (by decide)).slot_eq (fun n => (word64? n).map some)
    standard.maxLeaseMs (by decide)
  have hretries := (h "roll_forward_retries" (by decide)).slot_eq word32?
    standard.rollForwardRetries (by decide)
  have hdefault := (h "default_lease_ms" (by decide)).slot_eq word64?
    standard.defaultLeaseMs (by decide)
  have hsweep := (h "sweep_interval_ms" (by decide)).slot_eq word64?
    standard.sweepIntervalMs (by decide)
  have hretention := (h "retention_ms" (by decide)).slot_eq word64?
    standard.retentionMs (by decide)
  have hbackoff := (h "roll_forward_backoff_ms" (by decide)).slot_eq word64?
    standard.rollForwardBackoffMs (by decide)
  rw [ofNumbers?_eq, ofNumbers?_eq, hmax, hretries, hdefault, hsweep, hretention, hbackoff]

end Config

namespace Json

/-! ## Settings in an object -/

/-- The members of an object of settings. -/
abbrev Members := List (Option String × Value)

variable {ms ms' : Members} {v : Value}

/-- No setting is given twice. -/
def GivenOnce (ms : Members) : Prop :=
  ∀ name ∈ Config.names, (ms.map Prod.fst).count (some name) ≤ 1

/-- How the reader of an object sees a setting. -/
def settingIn? (ms : Members) (name : String) : Option (Option Nat) :=
  match ms.lookup (some name) with
  | none => some none
  | some v => numberOf? name v

theorem all_filter_length_iff (ms : Members) :
    (Config.names.all fun name => (ms.filter (·.1 == some name)).length ≤ 1) = true ↔
      GivenOnce ms := by
  have hcount (name : String) :
      (ms.map Prod.fst).count (some name) = (ms.filter (·.1 == some name)).length := by
    rw [List.count, List.countP_map, List.countP_eq_length_filter]
    rfl
  simp only [List.all_eq_true, decide_eq_true_eq, GivenOnce, hcount]

theorem configOfMembers?_eq (hnamed : ms.all (·.1.isSome) = true) (honce : GivenOnce ms) :
    configOfMembers? ms = Config.ofNumbers? (settingIn? ms) := by
  unfold configOfMembers?
  rw [hnamed, (all_filter_length_iff ms).mpr honce]
  rfl

theorem givenOnce_of_isSome (h : (configOfMembers? ms).isSome = true) : GivenOnce ms := by
  rw [← all_filter_length_iff]
  cases hall : (Config.names.all fun name => (ms.filter (·.1 == some name)).length ≤ 1) with
  | true => rfl
  | false =>
      unfold configOfMembers? at h
      rw [hall] at h
      cases hnamed : ms.all (·.1.isSome) <;> rw [hnamed] at h <;> cases h

theorem settingIn?_numbers (settings : List (String × Nat)) (name : String) :
    settingIn? (settings.map fun s => (some s.1, .natural s.2)) name =
      some (settings.lookup name) := by
  induction settings with
  | nil => rfl
  | cons s settings ih =>
      obtain ⟨other, n⟩ := s
      unfold settingIn? at ih ⊢
      rw [List.map_cons, List.lookup_cons, List.lookup_cons, Option.some_beq_some]
      cases name == other with
      | true => rfl
      | false => exact ih

/-- What an object has under a name that it has only once. -/
theorem lookup_eq_some_iff_mem {k : Option String} (h : (ms.map Prod.fst).count k ≤ 1) :
    ms.lookup k = some v ↔ (k, v) ∈ ms := by
  rw [List.lookup_eq_some_iff]
  constructor
  · rintro ⟨before, after, rfl, -⟩
    exact List.mem_append_right _ List.mem_cons_self
  · intro hmem
    obtain ⟨before, after, rfl⟩ := List.append_of_mem hmem
    refine ⟨before, after, rfl, fun m hm => ?_⟩
    rw [List.map_append, List.count_append, List.map_cons, List.count_cons_self] at h
    have hnone : (before.map Prod.fst).count k = 0 := by omega
    rw [bne_iff_ne]
    rintro rfl
    exact List.count_eq_zero.mp hnone (List.mem_map_of_mem hm)

theorem GivenOnce.of_perm (h : GivenOnce ms) (hperm : ms.Perm ms') : GivenOnce ms' := by
  intro name hname
  rw [← (hperm.map Prod.fst).count_eq]
  exact h name hname

theorem GivenOnce.cons {other : String} (h : GivenOnce ms) (hother : other ∉ Config.names)
    (v : Value) : GivenOnce ((some other, v) :: ms) := by
  intro name hname
  rw [List.map_cons, List.count_cons_of_ne]
  · exact h name hname
  · intro heq
    obtain rfl : other = name := Option.some.inj heq
    exact hother hname

theorem GivenOnce.of_cons {name : Option String} (h : GivenOnce ((name, v) :: ms)) :
    GivenOnce ms := by
  intro name hname
  exact Nat.le_trans (List.count_le_count_cons ..) (h name hname)

theorem lookup_of_perm (h : GivenOnce ms) (hperm : ms.Perm ms') {name : String}
    (hname : name ∈ Config.names) : ms'.lookup (some name) = ms.lookup (some name) := by
  ext v
  rw [lookup_eq_some_iff_mem (h name hname), lookup_eq_some_iff_mem (h.of_perm hperm name hname),
    hperm.mem_iff]

/-- A setting in front is given nowhere else. -/
theorem lookup_tail {name : String} (hname : name ∈ Config.names)
    (h : GivenOnce ((some name, v) :: ms)) : ms.lookup (some name) = none := by
  have hcount := h name hname
  rw [List.map_cons, List.count_cons_self] at hcount
  have hnone : (ms.map Prod.fst).count (some name) = 0 := by omega
  rw [List.lookup_eq_none_iff]
  intro m hm
  rw [bne_iff_ne]
  intro heq
  refine List.count_eq_zero.mp hnone ?_
  rw [heq]
  exact List.mem_map_of_mem hm

/-! ## The same settings in another object -/

/-- The value of a setting that means the same as no value. -/
def standardValue (name : String) : Value :=
  match Config.standard.numbers.lookup name with
  | some n => .natural n
  | none => .null

/-- An object that gives the same settings as another: in another order, with a member that is no
setting, without a setting that has its standard value, or in several such steps. -/
inductive Respelled : Members → Members → Prop
  | reordered {ms ms' : Members} (h : ms.Perm ms') : Respelled ms ms'
  | extended {name : String} (h : name ∉ Config.names) (v : Value) (ms : Members) :
      Respelled ms ((some name, v) :: ms)
  | shortened {name : String} (h : name ∈ Config.names) (ms : Members) :
      Respelled ((some name, standardValue name) :: ms) ms
  | trans {ms ms' ms'' : Members} (h : Respelled ms ms') (h' : Respelled ms' ms'') :
      Respelled ms ms''

theorem numberOf?_standardValue : ∀ name ∈ Config.names,
    numberOf? name (standardValue name) = some (Config.standard.numbers.lookup name) := by
  decide

theorem configOfMembers?_congr (hnamed : ms'.all (·.1.isSome) = ms.all (·.1.isSome))
    (honce : GivenOnce ms) (honce' : GivenOnce ms')
    (h : ∀ name ∈ Config.names,
      Config.AgreesOn name (settingIn? ms name) (settingIn? ms' name)) :
    configOfMembers? ms' = configOfMembers? ms := by
  cases hall : ms.all (·.1.isSome) with
  | true =>
      rw [configOfMembers?_eq hall honce, configOfMembers?_eq (hnamed.trans hall) honce',
        Config.ofNumbers?_congr h]
  | false =>
      unfold configOfMembers?
      rw [hnamed, hall]
      rfl

theorem settingIn?_cons_of_ne {name other : String} (h : name ≠ other) (v : Value)
    (ms : Members) : settingIn? ((some other, v) :: ms) name = settingIn? ms name := by
  have hother : ((some name : Option String) == some other) = false := by
    rwa [Option.some_beq_some, beq_eq_false_iff_ne]
  rw [settingIn?, List.lookup_cons, hother]
  rfl

theorem configOfMembers?_reordered (honce : GivenOnce ms) (hperm : ms.Perm ms') :
    configOfMembers? ms' = configOfMembers? ms := by
  refine configOfMembers?_congr hperm.all_eq.symm honce (honce.of_perm hperm) fun name hname => ?_
  left
  rw [settingIn?, lookup_of_perm honce hperm hname]
  rfl

theorem configOfMembers?_extended (honce : GivenOnce ms) {other : String}
    (hother : other ∉ Config.names) (v : Value) :
    configOfMembers? ((some other, v) :: ms) = configOfMembers? ms := by
  refine configOfMembers?_congr rfl honce (honce.cons hother v) fun name hname => .inl ?_
  have hne : name ≠ other := by
    rintro rfl
    exact hother hname
  exact settingIn?_cons_of_ne hne v ms

theorem configOfMembers?_shortened {given : String}
    (honce : GivenOnce ((some given, standardValue given) :: ms)) :
    configOfMembers? ms = configOfMembers? ((some given, standardValue given) :: ms) := by
  refine configOfMembers?_congr rfl honce honce.of_cons fun name hname => ?_
  by_cases hsame : name = given
  · subst hsame
    right
    constructor
    · rw [settingIn?, List.lookup_cons_self]
      exact numberOf?_standardValue name hname
    · rw [settingIn?, lookup_tail hname honce]
  · left
    exact (settingIn?_cons_of_ne hsame _ ms).symm

/-- **Respelling an object changes no setting.** -/
theorem Respelled.configOfMembers?_eq (h : Respelled ms ms') (honce : GivenOnce ms) :
    GivenOnce ms' ∧ configOfMembers? ms' = configOfMembers? ms := by
  induction h with
  | reordered hperm => exact ⟨honce.of_perm hperm, configOfMembers?_reordered honce hperm⟩
  | extended hother v ms => exact ⟨honce.cons hother v, configOfMembers?_extended honce hother v⟩
  | shortened hgiven ms => exact ⟨honce.of_cons, configOfMembers?_shortened honce⟩
  | trans h h' ih ih' =>
      obtain ⟨honce', hfirst⟩ := ih honce
      obtain ⟨honce'', hsecond⟩ := ih' honce'
      exact ⟨honce'', hsecond.trans hfirst⟩

end Json

end LeasedCommit
