import LeasedCommit.Proofs.Identities
import LeasedCommit.Proofs.JsonSettings
import LeasedCommit.Proofs.JsonTexts

set_option autoImplicit false

/-! # What the JSON forms promise

Everything that has a JSON form is read back from its text, and what is read does not depend on how
a text is spelled where the form leaves room: a duration may be given by parts in any order and with
nanoseconds beyond a second, and the members of a configuration may be reordered, extended and left
out. The theorems here are about forms; the text between them is `Value.read?_write`. -/

namespace LeasedCommit.Json

open HasForm

variable {α : Type} [HasForm α]

/-! ## Forms that are read back -/

/-- Everything of a type is read back from its JSON text, so no two things have the same text. -/
structure RoundTrips (α : Type) [HasForm α] : Prop where
  readBack : ∀ a : α, decode? α (encode a) = some a
  injective : ∀ a b : α, encode a = encode b → a = b

/-- The forms of a type can be written, and each says what it is the form of. -/
structure Faithful (α : Type) [HasForm α] : Prop where
  legible : ∀ a : α, (form a).Legible
  ofForm?_form : ∀ a : α, ofForm? (form a) = some a

/-- **What its form tells apart, its text tells apart.** -/
theorem Faithful.roundTrips (h : Faithful α) : RoundTrips α := by
  have hread : ∀ a : α, decode? α (encode a) = some a := by
    intro a
    rw [decode?, encode, Value.read?_write (h.legible a), Option.bind_some, h.ofForm?_form]
  refine ⟨hread, fun a b hsame => ?_⟩
  have hb := hread b
  rw [← hsame, hread a] at hb
  exact Option.some.inj hb

theorem legible_named (name : String) : (named name).Legible := .text _

theorem legible_carrying {name : String} {v : Value} (h : v.Legible) :
    (carrying name v).Legible := by
  refine .object fun m hm => ?_
  obtain rfl := List.mem_singleton.mp hm
  exact h

/-! ## Identifiers and times -/

theorem faithful_transactionId : Faithful TransactionId := by
  refine ⟨fun id => .natural _, fun id => ?_⟩
  show (word64? id.value.toNat).map TransactionId.mk = some id
  rw [word64?_toNat]
  rfl

theorem faithful_timestamp : Faithful Timestamp := by
  refine ⟨fun t => .natural _, fun t => ?_⟩
  have hword : (UInt64.ofNat t.micros).toNat = t.micros :=
    UInt64.toNat_ofNat_of_lt' (Nat.lt_succ_of_le t.micros_le)
  have hread := word64?_toNat (UInt64.ofNat t.micros)
  rw [hword] at hread
  show (word64? t.micros).map Timestamp.ofMicros = some t
  rw [hread, Option.map_some]
  exact congrArg some (Timestamp.ext ((Timestamp.micros_ofMicros _).trans hword))

theorem faithful_managerId : Faithful ManagerId := by
  refine ⟨fun id => legible_named id.shown, fun id => ?_⟩
  show ManagerId.ofText? id.shown = some id
  exact ManagerId.ofText?_shown id

/-! ## Durations -/

/-- A value that gives seconds and nanoseconds: by name, in either order, or one after the
other. -/
inductive Parts (secs : UInt64) (nanos : UInt32) : Value → Prop
  | secsFirst : Parts secs nanos
      (.object [(some "secs", .natural secs.toNat), (some "nanos", .natural nanos.toNat)])
  | nanosFirst : Parts secs nanos
      (.object [(some "nanos", .natural nanos.toNat), (some "secs", .natural secs.toNat)])
  | listed : Parts secs nanos (.array [.natural secs.toNat, .natural nanos.toNat])

theorem Parts.ofForm? {secs : UInt64} {nanos : UInt32} {v : Value} (h : Parts secs nanos v) :
    (HasForm.ofForm? v : Option Duration) = Duration.ofParts? secs.toNat nanos.toNat := by
  have hparts : ((word64? secs.toNat).bind fun s => (word32? nanos.toNat).bind fun n =>
      Duration.ofParts? s.toNat n.toNat) = Duration.ofParts? secs.toNat nanos.toNat := by
    rw [word64?_toNat, Option.bind_some, word32?_toNat, Option.bind_some]
  cases h with
  | secsFirst => exact hparts
  | nanosFirst => exact hparts
  | listed => exact hparts

/-- Seconds that carry a whole number of seconds more, if they are not too many. -/
theorem ofParts?_carry (secs : UInt64) (nanos : UInt32) :
    (secs.toNat + nanos.toNat / 1000000000 < 18446744073709551616 →
      ∃ d, Duration.ofParts? secs.toNat nanos.toNat = some d ∧
        d.secs = secs.toNat + nanos.toNat / 1000000000 ∧
        d.subsecNanos = nanos.toNat % 1000000000) ∧
    (18446744073709551616 ≤ secs.toNat + nanos.toNat / 1000000000 →
      Duration.ofParts? secs.toNat nanos.toNat = none) := by
  unfold Duration.ofParts? Duration.ofNanos?
  constructor
  · intro hfits
    have hlt : secs.toNat * 1000000000 + nanos.toNat < 18446744073709551616000000000 := by omega
    refine ⟨⟨_, hlt⟩, dif_pos hlt, ?_, ?_⟩
    · show (secs.toNat * 1000000000 + nanos.toNat) / 1000000000 = _
      omega
    · show (secs.toNat * 1000000000 + nanos.toNat) % 1000000000 = _
      omega
  · intro hexceeds
    exact dif_neg (by omega)

theorem exists_parts (d : Duration) :
    ∃ (secs : UInt64) (nanos : UInt32), secs.toNat = d.secs ∧ nanos.toNat = d.subsecNanos := by
  have hlt := d.nanos_lt
  have hsecs : d.secs < UInt64.size := by
    show d.nanos / 1000000000 < 18446744073709551616
    omega
  have hnanos : d.subsecNanos < UInt32.size := by
    show d.nanos % 1000000000 < 4294967296
    omega
  exact ⟨UInt64.ofNat d.secs, UInt32.ofNat d.subsecNanos, UInt64.toNat_ofNat_of_lt' hsecs,
    UInt32.toNat_ofNat_of_lt' hnanos⟩

theorem faithful_duration : Faithful Duration := by
  constructor
  · intro d
    refine .object fun m hm => ?_
    rcases List.mem_pair.mp hm with rfl | rfl <;> exact .natural _
  · intro d
    obtain ⟨secs, nanos, hsecs, hnanos⟩ := exists_parts d
    have hparts := (Parts.secsFirst : Parts secs nanos _).ofForm?
    rw [hsecs, hnanos, Duration.ofParts?_parts] at hparts
    exact hparts

/-! ## Alternatives -/

theorem faithful_phase : Faithful Phase :=
  ⟨fun p => by cases p <;> exact legible_named _, fun p => by cases p <;> rfl⟩

theorem faithful_outcome : Faithful Outcome :=
  ⟨fun o => by cases o <;> exact legible_named _, fun o => by cases o <;> rfl⟩

theorem faithful_vote : Faithful Vote :=
  ⟨fun v => by cases v <;> exact legible_named _, fun v => by cases v <;> rfl⟩

theorem faithful_combinedVote : Faithful CombinedVote :=
  ⟨fun v => by cases v <;> exact legible_named _, fun v => by cases v <;> rfl⟩

/-- What stands under the name of a bounded request is its length. -/
theorem ofForm?_bounded (v : Value) :
    (ofForm? (carrying "Bounded" v) : Option LeaseRequest) =
      (ofForm? v).map LeaseRequest.bounded := by
  cases v <;> rfl

theorem faithful_leaseRequest : Faithful LeaseRequest := by
  constructor
  · intro r
    cases r with
    | forever => exact legible_named _
    | any => exact legible_named _
    | bounded length => exact legible_carrying (faithful_duration.legible length)
  · intro r
    cases r with
    | forever => rfl
    | any => rfl
    | bounded length =>
        refine (ofForm?_bounded (form length)).trans ?_
        rw [faithful_duration.ofForm?_form, Option.map_some]

theorem faithful_expiration : Faithful Expiration := by
  constructor
  · intro e
    cases e with
    | never => exact legible_named _
    | «at» last => exact legible_carrying (faithful_timestamp.legible last)
  · intro e
    cases e with
    | never => rfl
    | «at» last =>
        show (ofForm? (form last)).map Expiration.at = _
        rw [faithful_timestamp.ofForm?_form, Option.map_some]

/-! ## Configurations -/

theorem faithful_config : Faithful Config := by
  constructor
  · intro c
    refine .object fun m hm => ?_
    obtain ⟨s, -, rfl⟩ := List.mem_map.mp hm
    exact .natural _
  · intro c
    let members : Members := c.numbers.map fun s => (some s.1, .natural s.2)
    have hnamed : members.all (·.1.isSome) = true := by
      rw [List.all_map]
      exact List.all_eq_true.mpr fun s hs => rfl
    have honce : GivenOnce members := by
      intro name hname
      have hnodup : ((c.numbers.map Prod.fst).map some).Nodup :=
        (Config.nodup_names.sublist (Config.names_numbers c)).map fun a b => Option.some.inj
      have hcount := List.nodup_iff_count_le_one.mp hnodup (some name)
      rwa [List.map_map] at hcount ⊢
    refine (configOfMembers?_eq hnamed honce).trans ?_
    rw [funext (settingIn?_numbers c.numbers), Config.ofNumbers?_numbers]

/-- The reader of a type on a text whose value is known. -/
theorem decode?_of_read? {s : String} {v : Value} (h : Value.read? s = some v) :
    decode? α s = ofForm? v := by
  rw [decode?, h, Option.bind_some]

/-! ## The promises -/

/-- **JSON texts.** Everything with a JSON form is read back from its text. A bounded request with
seconds and nanoseconds stands for their sum, as far as there are durations. A configuration is the
same however its object is spelled. -/
theorem json_forms :
    (RoundTrips TransactionId ∧ RoundTrips Timestamp ∧ RoundTrips Phase ∧ RoundTrips Outcome ∧
      RoundTrips Vote ∧ RoundTrips CombinedVote ∧ RoundTrips LeaseRequest ∧
      RoundTrips Expiration ∧ RoundTrips ManagerId ∧ RoundTrips Config) ∧
    (∀ (secs : UInt64) (nanos : UInt32) (v : Value) (s : String), Parts secs nanos v →
      Value.read? s = some (carrying "Bounded" v) →
      (secs.toNat + nanos.toNat / 1000000000 < 18446744073709551616 →
        ∃ d, decode? LeaseRequest s = some (.bounded d) ∧
          d.secs = secs.toNat + nanos.toNat / 1000000000 ∧
          d.subsecNanos = nanos.toNat % 1000000000) ∧
      (18446744073709551616 ≤ secs.toNat + nanos.toNat / 1000000000 →
        decode? LeaseRequest s = none)) ∧
    ∀ (ms ms' : Members) (s s' : String), Respelled ms ms' →
      Value.read? s = some (.object ms) → Value.read? s' = some (.object ms') →
      (GivenOnce ms → decode? Config s' = decode? Config s) ∧
      ∀ c, decode? Config s = some c → decode? Config s' = some c := by
  refine ⟨⟨faithful_transactionId.roundTrips, faithful_timestamp.roundTrips,
    faithful_phase.roundTrips, faithful_outcome.roundTrips, faithful_vote.roundTrips,
    faithful_combinedVote.roundTrips, faithful_leaseRequest.roundTrips,
    faithful_expiration.roundTrips, faithful_managerId.roundTrips, faithful_config.roundTrips⟩,
    ?_, ?_⟩
  · intro secs nanos v s hparts hs
    have hread : decode? LeaseRequest s =
        (Duration.ofParts? secs.toNat nanos.toNat).map LeaseRequest.bounded := by
      rw [decode?_of_read? hs, ofForm?_bounded, hparts.ofForm?]
    obtain ⟨hfits, hexceeds⟩ := ofParts?_carry secs nanos
    rw [hread]
    constructor
    · intro hlt
      obtain ⟨d, hd, hsecs, hnanos⟩ := hfits hlt
      exact ⟨d, by rw [hd, Option.map_some], hsecs, hnanos⟩
    · intro hge
      rw [hexceeds hge, Option.map_none]
  · intro ms ms' s s' hrespelled hs hs'
    have hread : decode? Config s = configOfMembers? ms := decode?_of_read? hs
    have hread' : decode? Config s' = configOfMembers? ms' := decode?_of_read? hs'
    rw [hread, hread']
    have hsame (honce : GivenOnce ms) : configOfMembers? ms' = configOfMembers? ms :=
      (hrespelled.configOfMembers?_eq honce).2
    refine ⟨hsame, fun c hc => ?_⟩
    rw [hsame (givenOnce_of_isSome (Option.isSome_of_mem hc)), hc]

/-- The largest number of a transaction, lengths with their nanoseconds first that carry to the last
second and beyond it, and two spellings of a configuration. -/
theorem json_forms_at_bounds :
    let last : TransactionId := ⟨18446744073709551615⟩
    let parts (secs : UInt64) (nanos : UInt32) : Value :=
      .object [(some "nanos", .natural nanos.toNat), (some "secs", .natural secs.toNat)]
    let full : Members := [(some "retention_ms", .natural 60000),
      (some "default_lease_ms", .natural 5000), (some "max_lease_ms", .null)]
    let brief : Members := [(some "comment", .array []), (some "default_lease_ms", .natural 5000)]
    decode? TransactionId (encode last) = some last ∧
    (∃ d, decode? LeaseRequest (carrying "Bounded" (parts 18446744073709551611 4000000007)).write =
        some (.bounded d) ∧ d.secs = 18446744073709551615 ∧ d.subsecNanos = 7) ∧
    decode? LeaseRequest (carrying "Bounded" (parts 18446744073709551612 4000000007)).write =
      none ∧
    decode? Config (Value.object full).write =
      some { Config.standard with defaultLeaseMs := 5000 } ∧
    decode? Config (Value.object brief).write =
      some { Config.standard with defaultLeaseMs := 5000 } := by
  intro last parts full brief
  have hparts (secs : UInt64) (nanos : UInt32) :
      Value.read? (carrying "Bounded" (parts secs nanos)).write =
        some (carrying "Bounded" (parts secs nanos)) := by
    refine Value.read?_write (legible_carrying (.object fun m hm => ?_))
    rcases List.mem_pair.mp hm with rfl | rfl <;> exact .natural _
  have hfull : Value.read? (Value.object full).write = some (.object full) := by
    refine Value.read?_write (.object fun m hm => ?_)
    rcases List.mem_cons.mp hm with rfl | hm
    · exact .natural _
    · rcases List.mem_pair.mp hm with rfl | rfl
      · exact .natural _
      · exact .null
  have hbrief : Value.read? (Value.object brief).write = some (.object brief) := by
    refine Value.read?_write (.object fun m hm => ?_)
    rcases List.mem_pair.mp hm with rfl | rfl
    · exact .array fun item hitem => nomatch hitem
    · exact .natural _
  have hrespelled : Respelled full brief := by
    -- the retention is standard, and so is the bound once it stands in front
    refine .trans (.shortened (show "retention_ms" ∈ Config.names by decide) _) ?_
    refine .trans (.reordered (List.Perm.swap (some "max_lease_ms", Value.null) _ [])) ?_
    refine .trans (.shortened (show "max_lease_ms" ∈ Config.names by decide) _) ?_
    exact .extended (show "comment" ∉ Config.names by decide) (.array []) _
  have hdecoded : decode? Config (Value.object full).write =
      some { Config.standard with defaultLeaseMs := 5000 } := by
    rw [decode?_of_read? hfull]
    decide
  obtain ⟨⟨htransaction, -⟩, hdurations, hconfigs⟩ := json_forms
  obtain ⟨hcarries, -⟩ := hdurations 18446744073709551611 4000000007 _ _ .nanosFirst (hparts _ _)
  obtain ⟨-, hexceeds⟩ := hdurations 18446744073709551612 4000000007 _ _ .nanosFirst (hparts _ _)
  exact ⟨htransaction.readBack last, hcarries (by decide), hexceeds (by decide), hdecoded,
    (hconfigs full brief _ _ hrespelled hfull hbrief).2 _ hdecoded⟩

end LeasedCommit.Json
