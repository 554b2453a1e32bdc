import LeasedCommit.Proofs.JsonTokens

set_option autoImplicit false

/-! # Values that are written and read back

The readers of values, items and members call each other, each with less fuel, and a text is read
with three times its length. The fuel that a value needs is bounded by the length of its own text
(`Json.Value.IsReadBack`), so one induction over the value goes through arrays and objects, with an
induction over their items and members inside. -/

namespace LeasedCommit.Json

open Text

/-! ## Values that can be written -/

/-- A value whose numbers are written as numbers. -/
inductive Value.Legible : Value → Prop
  | null : Legible .null
  | bool (b : Bool) : Legible (.bool b)
  | natural (n : Nat) : Legible (.natural n)
  | number {literal : String} (h : number? literal.toList = some (.number literal, [])) :
      Legible (.number literal)
  | text (spelled : Option String) : Legible (.text spelled)
  | array {items : List Value} (h : ∀ item ∈ items, Legible item) : Legible (.array items)
  | object {members : List (Option String × Value)} (h : ∀ m ∈ members, Legible m.2) :
      Legible (.object members)

open Value (itemsAfter membersAfter quoted Legible)

/-! ## Where a value begins -/

theorem skipBlanks_cons {c : Char} (h : isBlank c = false) (cs : List Char) :
    skipBlanks (c :: cs) = c :: cs := by
  rw [skipBlanks, List.dropWhile_cons, h]
  rfl

/-- No other mark begins a number. -/
theorem ne_of_numberHead {c : Char} (h : c = '-' ∨ c.isDigit = true) {mark : Char}
    (hminus : mark ≠ '-') (hdigit : mark.isDigit = false) : c ≠ mark := by
  rintro rfl
  rcases h with h | h
  · exact hminus h
  · rw [h] at hdigit
    cases hdigit

theorem isBlank_numberHead {c : Char} (h : c = '-' ∨ c.isDigit = true) : isBlank c = false := by
  have hspace : c ≠ ' ' := ne_of_numberHead h (by decide) (by decide)
  have htab : c ≠ '\t' := ne_of_numberHead h (by decide) (by decide)
  have hline : c ≠ '\n' := ne_of_numberHead h (by decide) (by decide)
  have hreturn : c ≠ '\r' := ne_of_numberHead h (by decide) (by decide)
  simp only [isBlank, Bool.or_eq_false_iff, beq_eq_false_iff_ne]
  exact ⟨⟨⟨hspace, htab⟩, hline⟩, hreturn⟩

/-- What begins like a number is read as one. -/
theorem value?_number {c : Char} (h : c = '-' ∨ c.isDigit = true) (fuel : Nat) (cs : List Char) :
    value? (fuel + 1) (c :: cs) = number? (c :: cs) := by
  have hother : ∀ mark ds, mark ≠ '-' → mark.isDigit = false → c :: cs ≠ mark :: ds :=
    fun mark ds hminus hdigit => cons_ne (ne_of_numberHead h hminus hdigit) ds
  rw [value?, skipBlanks_cons (isBlank_numberHead h)]
  -- every other kind of value has a mark of its own
  split
  all_goals first
    | rfl
    | (rename_i heq
       exact absurd heq (hother _ _ (by decide) (by decide)))

theorem Value.number?_natural (n : Nat) :
    number? (Value.natural n).chars = some (.natural n, []) := by
  rw [Value.chars, Nat.toString_eq_ofList_toDigits, String.toList_ofList]
  exact number?_numeral (isNumeral_toDigits n)

/-- What begins a value: something that is neither blank nor the end of an array. -/
def BeginsValue (cs : List Char) : Prop := ∃ c ds, cs = c :: ds ∧ isBlank c = false ∧ c ≠ ']'

theorem BeginsValue.append {cs : List Char} (h : BeginsValue cs) (rest : List Char) :
    BeginsValue (cs ++ rest) := by
  obtain ⟨c, ds, rfl, hblank, hend⟩ := h
  exact ⟨c, ds ++ rest, rfl, hblank, hend⟩

theorem beginsValue_of_number? {cs : List Char} (h : (number? cs).isSome = true) :
    BeginsValue cs := by
  obtain ⟨c, ds, rfl, hc⟩ := number?_head h
  exact ⟨c, ds, rfl, isBlank_numberHead hc, ne_of_numberHead hc (by decide) (by decide)⟩

theorem Value.Legible.beginsValue {v : Value} (h : v.Legible) : BeginsValue v.chars := by
  cases h with
  | null => exact ⟨_, _, rfl, rfl, by decide⟩
  | bool b => cases b <;> exact ⟨_, _, rfl, rfl, by decide⟩
  | natural n =>
      refine beginsValue_of_number? ?_
      rw [number?_natural]
      rfl
  | number h =>
      refine beginsValue_of_number? ?_
      rw [Value.chars, h]
      rfl
  | text spelled =>
      obtain ⟨body, hbody, -⟩ := text?_quoted spelled
      exact ⟨'"', body, hbody, rfl, by decide⟩
  | array h =>
      rename_i items
      cases items <;> exact ⟨_, _, rfl, rfl, by decide⟩
  | object h =>
      rename_i members
      rcases members with _ | ⟨⟨name, value⟩, members⟩ <;> exact ⟨_, _, rfl, rfl, by decide⟩

/-! ## Items and members -/

/-- A value that is read back from its text, whatever follows that cannot continue a number. Its
length says how deep the readers have to go. -/
def Value.IsReadBack (v : Value) : Prop :=
  ∀ (fuel : Nat) (rest : List Char), 3 * v.chars.length ≤ fuel → EndsNumber rest →
    value? fuel (v.chars ++ rest) = some (v, rest)

/-- There is always enough to look at the first mark. -/
theorem Value.Legible.isReadBack_of_succ {v : Value} (h : v.Legible)
    (hread : ∀ (fuel : Nat) (rest : List Char), 3 * v.chars.length ≤ fuel + 1 → EndsNumber rest →
      value? (fuel + 1) (v.chars ++ rest) = some (v, rest)) : v.IsReadBack := by
  intro fuel rest hfuel hends
  obtain ⟨c, cs, hchars, -⟩ := h.beginsValue
  have hlength : v.chars.length = cs.length + 1 := by rw [hchars, List.length_cons]
  obtain ⟨fuel, rfl⟩ := Nat.exists_eq_add_one_of_ne_zero (show fuel ≠ 0 by omega)
  exact hread fuel rest hfuel hends

/-- What stands after an item cannot continue a number. -/
theorem endsNumber_itemsAfter (items : List Value) (rest : List Char) :
    EndsNumber (itemsAfter items ++ rest) := by
  cases items with
  | nil => exact endsNumber_cons (.inr (.inl rfl)) rest
  | cons item items => exact endsNumber_cons (.inl rfl) _

theorem endsNumber_membersAfter (members : List (Option String × Value)) (rest : List Char) :
    EndsNumber (membersAfter members ++ rest) := by
  rcases members with _ | ⟨⟨name, value⟩, members⟩
  · exact endsNumber_cons (.inr (.inr rfl)) rest
  · exact endsNumber_cons (.inl rfl) _

/-- The items of an array are read one after the other. -/
theorem items?_chars {items : List Value} (hitems : ∀ item ∈ items, item.IsReadBack) :
    ∀ {item : Value} (fuel : Nat) (rest : List Char), item.IsReadBack →
      3 * (item.chars ++ itemsAfter items).length ≤ fuel →
      items? fuel (item.chars ++ itemsAfter items ++ rest) = some (item :: items, rest) := by
  induction items with
  | nil =>
      intro item fuel rest hitem hfuel
      simp only [List.length_append, itemsAfter, List.length_singleton] at hfuel
      obtain ⟨fuel, rfl⟩ := Nat.exists_eq_add_one_of_ne_zero (show fuel ≠ 0 by omega)
      have hread := hitem fuel _ (by omega) (endsNumber_itemsAfter [] rest)
      rw [List.append_assoc, items?, hread]
      rfl
  | cons next items ih =>
      intro item fuel rest hitem hfuel
      obtain ⟨hnext, hrest⟩ := List.forall_mem_cons.mp hitems
      simp only [List.length_append, itemsAfter, List.length_cons] at hfuel
      obtain ⟨fuel, rfl⟩ := Nat.exists_eq_add_one_of_ne_zero (show fuel ≠ 0 by omega)
      have hread := hitem fuel _ (by omega) (endsNumber_itemsAfter (next :: items) rest)
      -- the comma has paid for the call to the next item
      have hmore := ih hrest fuel rest hnext (by
        rw [List.length_append]
        omega)
      rw [List.append_assoc, items?, hread]
      show (items? fuel (next.chars ++ itemsAfter items ++ rest)).map _ = _
      rw [hmore]
      rfl

theorem member?_chars (name : Option String) {value : Value} (hvalue : value.IsReadBack)
    (fuel : Nat) (rest : List Char) (hfuel : 3 * value.chars.length + 1 ≤ fuel)
    (hends : EndsNumber rest) :
    member? fuel (quoted name ++ ':' :: (value.chars ++ rest)) = some ((name, value), rest) := by
  obtain ⟨body, hbody, hname⟩ := text?_quoted name
  obtain ⟨fuel, rfl⟩ := Nat.exists_eq_add_one_of_ne_zero (show fuel ≠ 0 by omega)
  have hread := hvalue fuel rest (by omega) hends
  rw [hbody, List.cons_append, member?, skipBlanks_cons rfl]
  -- a member begins with the quote of its name
  split
  · rename_i heq
    obtain ⟨-, rfl⟩ := List.cons.inj heq
    rw [hname]
    show (value? fuel (value.chars ++ rest)).map _ = _
    rw [hread]
    rfl
  · rename_i hquote
    exact absurd rfl (hquote _)

/-- The members of an object are read one after the other. -/
theorem members?_chars {members : List (Option String × Value)}
    (hmembers : ∀ m ∈ members, m.2.IsReadBack) :
    ∀ (name : Option String) {value : Value} (fuel : Nat) (rest : List Char), value.IsReadBack →
      3 * (quoted name ++ ':' :: (value.chars ++ membersAfter members)).length ≤ fuel →
      members? fuel (quoted name ++ ':' :: (value.chars ++ membersAfter members) ++ rest) =
        some ((name, value) :: members, rest) := by
  induction members with
  | nil =>
      intro name value fuel rest hvalue hfuel
      simp only [List.length_append, membersAfter, List.length_cons, List.length_nil] at hfuel
      obtain ⟨fuel, rfl⟩ := Nat.exists_eq_add_one_of_ne_zero (show fuel ≠ 0 by omega)
      have hread := member?_chars name hvalue fuel _ (by omega)
        (endsNumber_membersAfter [] rest)
      rw [List.append_assoc, List.cons_append, List.append_assoc, members?, hread]
      rfl
  | cons next members ih =>
      intro name value fuel rest hvalue hfuel
      obtain ⟨hnext, hrest⟩ := List.forall_mem_cons.mp hmembers
      obtain ⟨nextName, nextValue⟩ := next
      simp only [List.length_append, membersAfter, List.length_cons] at hfuel
      obtain ⟨fuel, rfl⟩ := Nat.exists_eq_add_one_of_ne_zero (show fuel ≠ 0 by omega)
      have hread := member?_chars name hvalue fuel _ (by omega)
        (endsNumber_membersAfter ((nextName, nextValue) :: members) rest)
      have hmore := ih hrest nextName fuel rest hnext (by
        simp only [List.length_append, List.length_cons]
        omega)
      rw [List.append_assoc, List.cons_append, List.append_assoc, members?, hread]
      show (members? fuel (quoted nextName ++
        ':' :: (nextValue.chars ++ membersAfter members) ++ rest)).map _ = _
      rw [hmore]
      rfl

/-! ## Values -/

theorem value?_of_number? {v : Value} (h : number? v.chars = some (v, [])) (fuel : Nat)
    {rest : List Char} (hends : EndsNumber rest) :
    value? (fuel + 1) (v.chars ++ rest) = some (v, rest) := by
  obtain ⟨c, cs, hchars, hc⟩ := number?_head (Option.isSome_of_mem h)
  have hstop := stops_number? h hends
  rw [hchars] at hstop ⊢
  exact (value?_number hc fuel (cs ++ rest)).trans hstop

theorem value?_array {items : List Value} (hlegible : ∀ item ∈ items, item.Legible)
    (hitems : ∀ item ∈ items, item.IsReadBack) {fuel : Nat} (rest : List Char)
    (hfuel : 3 * (Value.array items).chars.length ≤ fuel + 1) :
    value? (fuel + 1) ((Value.array items).chars ++ rest) = some (.array items, rest) := by
  cases items with
  | nil => rfl
  | cons item items =>
      obtain ⟨hitem, hmore⟩ := List.forall_mem_cons.mp hitems
      rw [Value.chars] at hfuel ⊢
      rw [List.length_cons] at hfuel
      have hread := items?_chars hmore fuel rest hitem (by omega)
      -- the first item does not look like the end of the array
      obtain ⟨c, cs, hcs, hblank, hend⟩ :=
        ((hlegible item List.mem_cons_self).beginsValue.append (itemsAfter items)).append rest
      have hopen : skipBlanks ('[' :: c :: cs) = '[' :: c :: cs := skipBlanks_cons rfl (c :: cs)
      rw [hcs] at hread
      rw [List.cons_append, hcs]
      simp only [value?, hopen, skipBlanks_cons hblank]
      split
      · rename_i heq
        exact absurd heq (cons_ne hend _)
      · rw [hread]
        rfl

theorem value?_object {members : List (Option String × Value)}
    (hmembers : ∀ m ∈ members, m.2.IsReadBack) {fuel : Nat} (rest : List Char)
    (hfuel : 3 * (Value.object members).chars.length ≤ fuel + 1) :
    value? (fuel + 1) ((Value.object members).chars ++ rest) = some (.object members, rest) := by
  cases members with
  | nil => rfl
  | cons first members =>
      obtain ⟨name, value⟩ := first
      obtain ⟨hvalue, hmore⟩ : value.IsReadBack ∧ ∀ m ∈ members, m.2.IsReadBack :=
        List.forall_mem_cons.mp hmembers
      rw [Value.chars] at hfuel ⊢
      rw [List.length_cons] at hfuel
      have hread := members?_chars hmore name fuel rest hvalue (by omega)
      obtain ⟨body, hbody, -⟩ := text?_quoted name
      rw [hbody] at hread ⊢
      rw [List.cons_append, value?, skipBlanks_cons rfl]
      exact congrArg (Option.map fun found => (Value.object found.1, found.2)) hread

/-- **Values are read back**, one inside the other. -/
theorem Value.Legible.isReadBack {v : Value} (h : v.Legible) : v.IsReadBack := by
  induction h with
  | null => exact Legible.null.isReadBack_of_succ fun fuel rest hfuel hends => rfl
  | bool b =>
      refine (Legible.bool b).isReadBack_of_succ fun fuel rest hfuel hends => ?_
      cases b <;> rfl
  | natural n =>
      refine (Legible.natural n).isReadBack_of_succ fun fuel rest hfuel hends => ?_
      exact value?_of_number? (Value.number?_natural n) fuel hends
  | @number literal h =>
      refine (Legible.number h).isReadBack_of_succ fun fuel rest hfuel hends => ?_
      have hread : number? (Value.number literal).chars = some (.number literal, []) := by
        rwa [Value.chars]
      exact value?_of_number? hread fuel hends
  | text spelled =>
      refine (Legible.text spelled).isReadBack_of_succ fun fuel rest hfuel hends => ?_
      obtain ⟨body, hbody, hread⟩ := text?_quoted spelled
      rw [Value.chars, hbody]
      show (text? (body ++ rest)).map _ = _
      rw [hread]
      rfl
  | array h ih =>
      refine (Legible.array h).isReadBack_of_succ fun fuel rest hfuel hends => ?_
      exact value?_array h ih rest hfuel
  | object h ih =>
      refine (Legible.object h).isReadBack_of_succ fun fuel rest hfuel hends => ?_
      exact value?_object ih rest hfuel

/-- **The text of a value is read as this value.** -/
theorem Value.read?_write {v : Value} (h : v.Legible) : read? v.write = some v := by
  have hread := h.isReadBack (3 * v.chars.length + 3) [] (by omega) endsNumber_nil
  rw [List.append_nil] at hread
  rw [read?, write, String.length_ofList, String.toList_ofList, hread]
  rfl

end LeasedCommit.Json
