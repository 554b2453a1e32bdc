import LeasedCommit.Proofs.Expiry
import LeasedCommit.Proofs.SoleErrand

set_option autoImplicit false

/-! # What a sweep is to leave

A sweep at `t` aborts every undecided transaction of the table whose lease has lapsed, and takes
every decided one that is past its retention out of the table. `Holdings.sweptOver` says what is
left when some of the entries have been visited. It asks of the visited entries only which ones they
are, so their order does not matter (`Holdings.sweptOver_perm`), and what a whole sweep has left is
left alone by the next one (`Holdings.settled_swept`). -/

namespace LeasedCommit

/-! ## One record -/

/-- Whether the record is undecided and its lease has lapsed. -/
def Record.lapsesAt (r : Record) (t : Timestamp) : Bool :=
  !r.phase.isTerminal && r.lease.hasLapsed t

/-- What a sweep at `t` makes of a record. -/
def Record.sweptAt (r : Record) (t : Timestamp) : Record :=
  if r.lapsesAt t then r.expired t else r

namespace Record

variable {r : Record} {t : Timestamp} {retention : Duration}

theorem lapsesAt_iff :
    r.lapsesAt t = true ↔ r.phase.isTerminal = false ∧ r.lease.hasLapsed t = true := by
  simp [lapsesAt]

theorem sweptAt_of_lapsing (h : r.lapsesAt t = true) : r.sweptAt t = r.expired t := if_pos h

theorem sweptAt_of_not_lapsing (h : r.lapsesAt t = false) : r.sweptAt t = r := by
  simp [sweptAt, h]

/-- After a sweep no lease has lapsed. -/
theorem lapsesAt_sweptAt (r : Record) (t : Timestamp) : (r.sweptAt t).lapsesAt t = false := by
  cases h : r.lapsesAt t with
  | true =>
      rw [sweptAt_of_lapsing h]
      rfl
  | false => rw [sweptAt_of_not_lapsing h, h]

/-- A decided transaction is past its retention when the clock shows more than the end of the
retention, which is at most the latest instant. -/
theorem isEvictable_iff : r.isEvictable t retention = true ↔ r.phase.isTerminal = true ∧
    ∃ settled, r.settledAt = some settled ∧
      min (settled.micros + retention.micros) 18446744073709551615 < t.micros := by
  unfold isEvictable
  cases r.settledAt with
  | none => simp
  | some settled =>
      simp only [Bool.and_eq_true, decide_eq_true_eq, Option.some.injEq, exists_eq_left']
      exact Iff.rfl

theorem isEvictable_of_lapsing (h : r.lapsesAt t = true) (now : Timestamp) :
    r.isEvictable now retention = false := by
  refine Bool.eq_false_iff.mpr fun hevictable => ?_
  have hterminal := (isEvictable_iff.mp hevictable).1
  rw [(lapsesAt_iff.mp h).1] at hterminal
  cases hterminal

/-- What a sweep has aborted is not past its retention yet, however short that is. -/
theorem isEvictable_sweptAt (h : r.isEvictable t retention = false) :
    (r.sweptAt t).isEvictable t retention = false := by
  cases hl : r.lapsesAt t with
  | false => rw [sweptAt_of_not_lapsing hl, h]
  | true =>
      refine Bool.eq_false_iff.mpr fun hevictable => ?_
      rw [sweptAt_of_lapsing hl] at hevictable
      obtain ⟨-, settled, hsettled, hlate⟩ := isEvictable_iff.mp hevictable
      obtain rfl : t = settled := Option.some.inj hsettled
      have := t.micros_le
      omega

/-- A lease that has not lapsed does not expire. -/
theorem expire?_of_not_lapsing {readings : Readings} (h : r.lapsesAt readings.first = false) :
    r.expire? readings = none := by
  rw [lapsesAt] at h
  rw [expire?, if_pos]
  cases hd : r.phase.isTerminal <;> simp_all

end Record

/-- Aborts because of lapsed leases. -/
def OutcomeCounts.expiries (n : Nat) : OutcomeCounts := { zero with aborted := n, expired := n }

/-! ## All records and the table -/

namespace Holdings

section

variable (h : Holdings) (t : Timestamp) (retention : Duration)

/-- Whether the transaction of an entry is undecided and its lease has lapsed. -/
def lapses (entry : Entry) : Bool := h.records[entry.place]?.any fun r => r.lapsesAt t

/-- Whether the transaction of an entry is decided and past its retention. -/
def isDue (entry : Entry) : Bool :=
  h.records[entry.place]?.any fun r => r.isEvictable t retention

/-- What a sweep counts among the entries that it has visited. -/
def statsOver (done : List Entry) : SweepStats :=
  { expired := done.countP (h.lapses t), evicted := done.countP (h.isDue t retention) }

/-- The calls on behalf of the transaction at a place when a sweep has visited some entries. -/
def callsOver (done : List Entry) (place : Nat) : List Call :=
  if place ∈ done.map Entry.place then
    h.records[place]?.elim [] fun r => if r.lapsesAt t then r.registry.abortCalls else []
  else []

/-- What there is when a sweep has visited some entries. -/
def sweptOver (done : List Entry) : Holdings :=
  { h with
    records := h.records.mapIdx fun place r =>
      if place ∈ done.map Entry.place then r.sweptAt t else r
    totals := h.totals.add (.expiries (done.countP (h.lapses t)))
    table := h.table.filter fun entry => ¬(entry ∈ done ∧ h.isDue t retention entry = true) }

/-- When a sweep ends, its evictions are added to the total. -/
def countEvicted (n : Nat) : Holdings := { h with evicted := h.evicted + UInt64.ofNat n }

/-- What a sweep leaves. -/
def swept : Holdings :=
  (h.sweptOver t retention h.table).countEvicted (h.table.countP (h.isDue t retention))

end

variable {h : Holdings} {t : Timestamp} {retention : Duration} {done done' : List Entry}
  {entry : Entry} {place : Nat} {r : Record}

theorem lapses_eq (hr : h.records[entry.place]? = some r) : h.lapses t entry = r.lapsesAt t := by
  rw [lapses, hr, Option.any_some]

theorem isDue_eq (hr : h.records[entry.place]? = some r) :
    h.isDue t retention entry = r.isEvictable t retention := by
  rw [isDue, hr, Option.any_some]

theorem getElem?_sweptOver (h : Holdings) (t : Timestamp) (retention : Duration)
    (done : List Entry) (place : Nat) :
    (h.sweptOver t retention done).records[place]? =
      h.records[place]?.map fun r => if place ∈ done.map Entry.place then r.sweptAt t else r := by
  rw [sweptOver, List.getElem?_mapIdx]

theorem mem_table_sweptOver : entry ∈ (h.sweptOver t retention done).table ↔
    entry ∈ h.table ∧ ¬(entry ∈ done ∧ h.isDue t retention entry = true) := by
  rw [sweptOver, List.mem_filter, decide_eq_true_eq]

/-! ### The order does not matter -/

theorem sweptOver_perm (hp : done.Perm done') :
    h.sweptOver t retention done = h.sweptOver t retention done' := by
  simp only [sweptOver, (hp.map Entry.place).mem_iff, hp.mem_iff, hp.countP_eq]

theorem statsOver_perm (hp : done.Perm done') :
    h.statsOver t retention done = h.statsOver t retention done' := by
  rw [statsOver, statsOver, hp.countP_eq, hp.countP_eq]

theorem callsOver_perm (hp : done.Perm done') (place : Nat) :
    h.callsOver t done place = h.callsOver t done' place := by
  simp only [callsOver, (hp.map Entry.place).mem_iff]

/-! ### One entry more -/

theorem statsOver_concat (done : List Entry) (entry : Entry) :
    h.statsOver t retention (done ++ [entry]) =
      { expired := (h.statsOver t retention done).expired + (h.lapses t entry).toNat
        evicted :=
          (h.statsOver t retention done).evicted + (h.isDue t retention entry).toNat } := by
  simp only [statsOver, List.countP_append, List.countP_singleton]
  cases h.lapses t entry <;> cases h.isDue t retention entry <;> rfl

theorem callsOver_concat_of_ne (hne : place ≠ entry.place) :
    h.callsOver t (done ++ [entry]) place = h.callsOver t done place := by
  simp [callsOver, hne]

theorem callsOver_concat_self (hr : h.records[entry.place]? = some r) :
    h.callsOver t (done ++ [entry]) entry.place =
      if r.lapsesAt t then r.registry.abortCalls else [] := by
  simp [callsOver, hr]

theorem callsOver_of_not_mem (hnew : place ∉ done.map Entry.place) :
    h.callsOver t done place = [] := if_neg hnew

/-- An entry whose transaction has not lapsed makes no calls. -/
theorem callsOver_concat_of_not_lapsing (hr : h.records[entry.place]? = some r)
    (hl : r.lapsesAt t = false) (hnew : entry.place ∉ done.map Entry.place) (place : Nat) :
    h.callsOver t (done ++ [entry]) place = h.callsOver t done place := by
  by_cases hplace : place = entry.place
  · rw [hplace, callsOver_concat_self hr, hl, callsOver_of_not_mem hnew]
    rfl
  · exact callsOver_concat_of_ne hplace

theorem records_concat_of_not_lapsing (hr : h.records[entry.place]? = some r)
    (hl : r.lapsesAt t = false) :
    (h.sweptOver t retention (done ++ [entry])).records =
      (h.sweptOver t retention done).records := by
  refine List.ext_getElem? fun place => ?_
  rw [getElem?_sweptOver, getElem?_sweptOver]
  by_cases hplace : place = entry.place
  · rw [hplace, hr, Option.map_some, Option.map_some, Record.sweptAt_of_not_lapsing hl, ite_self,
      ite_self]
  · simp [hplace]

theorem totals_concat (hr : h.records[entry.place]? = some r) :
    (h.sweptOver t retention (done ++ [entry])).totals =
      (h.sweptOver t retention done).totals.add
        (if r.lapsesAt t then .abort .leaseExpired else .zero) := by
  simp only [sweptOver, List.countP_append, List.countP_singleton, lapses_eq hr,
    Totals.add_add]
  cases r.lapsesAt t <;> rfl

theorem table_concat_of_not_due (hr : h.records[entry.place]? = some r)
    (hdue : r.isEvictable t retention = false) :
    (h.sweptOver t retention (done ++ [entry])).table =
      (h.sweptOver t retention done).table := by
  refine List.filter_congr fun e _ => decide_eq_decide.mpr (not_congr ?_)
  refine and_congr_left fun he => ?_
  rw [List.mem_append, List.mem_singleton, or_iff_left]
  rintro rfl
  rw [isDue_eq hr, hdue] at he
  cases he

/-- A visit to an undecided transaction whose lease has lapsed. -/
theorem sweptOver_concat_of_lapsing (hr : h.records[entry.place]? = some r)
    (hl : r.lapsesAt t = true) :
    h.sweptOver t retention (done ++ [entry]) =
      (h.sweptOver t retention done).put entry.place (r.expired t) (.abort .leaseExpired) := by
  refine Holdings.ext (List.ext_getElem? fun place => ?_) ?_
    (table_concat_of_not_due hr (Record.isEvictable_of_lapsing hl t)) rfl rfl rfl
  · by_cases hplace : place = entry.place
    · subst hplace
      have hlt : entry.place < (h.sweptOver t retention done).records.length := by
        simpa [sweptOver] using (List.getElem?_eq_some_iff.mp hr).1
      rw [put, List.getElem?_set_self hlt, getElem?_sweptOver, hr, Option.map_some,
        if_pos (by simp), Record.sweptAt_of_lapsing hl]
    · rw [put, List.getElem?_set_ne (Ne.symm hplace), getElem?_sweptOver, getElem?_sweptOver]
      simp [hplace]
  · rw [totals_concat hr, if_pos hl]
    rfl

/-- A visit to a decided transaction that is past its retention. -/
theorem sweptOver_concat_of_due (hr : h.records[entry.place]? = some r)
    (hl : r.lapsesAt t = false) (hdue : r.isEvictable t retention = true)
    (hnodup : (h.table.map Entry.id).Nodup) (hentry : entry ∈ h.table) :
    h.sweptOver t retention (done ++ [entry]) =
      { h.sweptOver t retention done with
        table := (h.sweptOver t retention done).table.filter fun e => e.id ≠ entry.id } := by
  refine Holdings.ext (records_concat_of_not_lapsing hr hl) ?_ ?_ rfl rfl rfl
  · rw [totals_concat hr, hl]
    exact Totals.add_zero _
  · simp only [sweptOver, List.filter_filter]
    refine List.filter_congr fun e he => ?_
    have hid : e.id = entry.id ↔ e = entry :=
      ⟨List.inj_on_of_nodup_map hnodup he hentry, congrArg Entry.id⟩
    have hdue' : e = entry → h.isDue t retention e = true := by
      rintro rfl
      rw [isDue_eq hr, hdue]
    rw [← Bool.decide_and, decide_eq_decide, List.mem_append, List.mem_singleton, ne_eq, hid]
    tauto

/-- A visit to any other transaction. -/
theorem sweptOver_concat_of_kept (hr : h.records[entry.place]? = some r)
    (hl : r.lapsesAt t = false) (hdue : r.isEvictable t retention = false) :
    h.sweptOver t retention (done ++ [entry]) = h.sweptOver t retention done := by
  refine Holdings.ext (records_concat_of_not_lapsing hr hl) ?_ (table_concat_of_not_due hr hdue)
    rfl rfl rfl
  rw [totals_concat hr, hl]
  exact Totals.add_zero _

/-- Before the first visit everything is as it was. -/
theorem sweptOver_nil (h : Holdings) (t : Timestamp) (retention : Duration) :
    h.sweptOver t retention [] = h := by
  refine Holdings.ext (List.ext_getElem? fun place => ?_) (Totals.add_zero _) ?_ rfl rfl rfl
  · rw [getElem?_sweptOver]
    simp
  · simp [sweptOver]

/-! ### The next sweep -/

/-- Where nothing has lapsed and nothing is due, a sweep has nothing to do. -/
theorem swept_of_settled
    (hsettled : ∀ entry ∈ h.table, h.lapses t entry = false ∧ h.isDue t retention entry = false) :
    h.swept t retention = h ∧ h.statsOver t retention h.table = { expired := 0, evicted := 0 } ∧
      ∀ place, h.callsOver t h.table place = [] := by
  have hlapses : h.table.countP (h.lapses t) = 0 :=
    List.countP_eq_zero.mpr fun entry hentry => by simp [(hsettled entry hentry).1]
  have hdue : h.table.countP (h.isDue t retention) = 0 :=
    List.countP_eq_zero.mpr fun entry hentry => by simp [(hsettled entry hentry).2]
  have hkept : ∀ place ∈ h.table.map Entry.place, ∀ r, h.records[place]? = some r →
      r.lapsesAt t = false := by
    intro place hplace r hr
    obtain ⟨entry, hentry, rfl⟩ := List.mem_map.mp hplace
    rw [← lapses_eq hr, (hsettled entry hentry).1]
  refine ⟨Holdings.ext (List.ext_getElem? fun place => ?_) ?_ ?_ rfl rfl ?_, ?_, fun place => ?_⟩
  · show (h.sweptOver t retention h.table).records[place]? = h.records[place]?
    rw [getElem?_sweptOver]
    cases hr : h.records[place]? with
    | none => rfl
    | some r =>
        rw [Option.map_some]
        split
        · rw [Record.sweptAt_of_not_lapsing (hkept place ‹_› r hr)]
        · rfl
  · show h.totals.add (.expiries (h.table.countP (h.lapses t))) = h.totals
    rw [hlapses]
    exact Totals.add_zero _
  · refine List.filter_eq_self.mpr fun entry hentry => ?_
    rw [decide_eq_true_eq, (hsettled entry hentry).2]
    simp
  · show h.evicted + UInt64.ofNat (h.table.countP (h.isDue t retention)) = h.evicted
    rw [hdue]
    exact UInt64.add_zero _
  · rw [statsOver, hlapses, hdue]
  · rw [callsOver]
    split
    · cases hr : h.records[place]? with
      | none => rfl
      | some r => simp [hkept place ‹_› r hr]
    · rfl

/-- **What a sweep leaves is settled** for the next one at the same time. -/
theorem settled_swept (h : Holdings) (t : Timestamp) (retention : Duration) :
    ∀ entry ∈ (h.swept t retention).table, (h.swept t retention).lapses t entry = false ∧
      (h.swept t retention).isDue t retention entry = false := by
  intro entry hentry
  obtain ⟨hin, hnot⟩ := mem_table_sweptOver.mp hentry
  have hdue : h.isDue t retention entry = false := by simpa [hin] using hnot
  have hrecord : (h.swept t retention).records[entry.place]? =
      h.records[entry.place]?.map fun r => r.sweptAt t := by
    refine (getElem?_sweptOver h t retention h.table entry.place).trans ?_
    simp only [List.mem_map_of_mem hin, if_true]
  cases hr : h.records[entry.place]? with
  | none =>
      rw [hr, Option.map_none] at hrecord
      simp [lapses, isDue, hrecord]
  | some r =>
      rw [hr, Option.map_some] at hrecord
      rw [isDue_eq hr] at hdue
      rw [lapses_eq hrecord, isDue_eq hrecord]
      exact ⟨r.lapsesAt_sweptAt t, Record.isEvictable_sweptAt hdue⟩

end Holdings

end LeasedCommit
