import LeasedCommit.Json.Reader
import LeasedCommit.Proofs.Numerals
import Mathlib.Data.Option.Basic

set_option autoImplicit false

/-! # Strings and numbers in a JSON text

A string is escaped character by character and read as UTF-16 units, so that the two agree is an
induction over the characters (`Json.text?_quoted`). A number has no mark at its end: its reader
takes what could belong to it. `Json.Stops` says that something after it that cannot is left
alone, and it holds of the reader because it holds of the readers of its parts. -/

namespace LeasedCommit.Json

open Text

variable {rest : List Char}

/-! ## Escapes -/

theorem digit?_hexDigit (n : Nat) : digit? 16 (Value.hexDigit n) = some (n % 16) := by
  have hlt : n % 16 < 16 := Nat.mod_lt n (by decide)
  rw [Value.hexDigit, Nat.toDigits_of_lt_base hlt]
  exact digit?_digitChar (Nat.le_refl 16) hlt

/-- Four hexadecimal digits spell a control character. -/
theorem ofDigits?_control {n : Nat} (h : n < 32) :
    ofDigits? 16 ['0', '0', Value.hexDigit (n / 16), Value.hexDigit n] = some n := by
  have hzero : ofDigits? 16 ['0', '0'] = some 0 := by decide
  have hhigh := ofDigits?_concat hzero (digit?_hexDigit (n / 16))
  have hlow := ofDigits?_concat hhigh (digit?_hexDigit n)
  have hvalue : 16 * (16 * 0 + n / 16 % 16) + n % 16 = n := by omega
  rw [hvalue] at hlow
  exact hlow

/-- The units of a string with one more in front. -/
def withUnit (unit : Nat) (found : Option (List Nat × List Char)) :
    Option (List Nat × List Char) :=
  found.map fun (units, rest) => (unit :: units, rest)

theorem units?_short {letter : Char} {unit : Nat} (hletter : letter ≠ 'u')
    (hunit : shortEscape? letter = some unit) (rest : List Char) :
    units? ('\\' :: letter :: rest) = withUnit unit (units? rest) := by
  rw [units?, hunit]
  · cases units? rest <;> rfl
  · intro a b c d rest heq
    exact absurd heq hletter

theorem units?_control {c : Char} (h : c.toNat < 32) (rest : List Char) :
    units? ('\\' :: 'u' :: '0' :: '0' :: Value.hexDigit (c.toNat / 16) ::
      Value.hexDigit c.toNat :: rest) = withUnit c.toNat (units? rest) := by
  rw [units?, ofDigits?_control h]
  cases units? rest <;> rfl

theorem units?_plain {c : Char} (hquote : c ≠ '"') (hslash : c ≠ '\\') (h : 32 ≤ c.toNat)
    (rest : List Char) : units? (c :: rest) = withUnit c.toNat (units? rest) := by
  have hguard : (guard (32 ≤ c.toNat) : Option Unit) = some () := if_pos h
  rw [units?, hguard]
  · cases units? rest <;> rfl
  · exact hquote
  · intro a b d e rest heq
    exact absurd heq hslash
  · intro d rest heq
    exact absurd heq hslash

/-- **A character is read as it is escaped.** -/
theorem units?_escaped (c : Char) (rest : List Char) :
    units? (Value.escaped c ++ rest) = withUnit c.toNat (units? rest) := by
  have hshort {letter : Char} {unit : Nat} (hletter : letter ≠ 'u')
      (hunit : shortEscape? letter = some unit) (hc : c.toNat = unit) :
      units? ('\\' :: letter :: rest) = withUnit c.toNat (units? rest) := by
    rw [hc]
    exact units?_short hletter hunit rest
  unfold Value.escaped
  split_ifs with hquote hslash hline hreturn htab hback hfeed hcontrol
  · exact hshort (by decide) rfl (congrArg Char.toNat hquote)
  · exact hshort (by decide) rfl (congrArg Char.toNat hslash)
  · exact hshort (by decide) rfl (congrArg Char.toNat hline)
  · exact hshort (by decide) rfl (congrArg Char.toNat hreturn)
  · exact hshort (by decide) rfl (congrArg Char.toNat htab)
  · exact hshort (by decide) rfl hback
  · exact hshort (by decide) rfl hfeed
  · exact units?_control hcontrol rest
  · exact units?_plain hquote hslash (Nat.le_of_not_lt hcontrol) rest

/-! ## Strings -/

theorem units?_flatMap_escaped (cs rest : List Char) :
    units? (cs.flatMap Value.escaped ++ '"' :: rest) = some (cs.map Char.toNat, rest) := by
  induction cs with
  | nil => rfl
  | cons c cs ih =>
      rw [List.flatMap_cons, List.append_assoc, units?_escaped, ih]
      rfl

/-- A character is not half of a surrogate pair. -/
theorem not_isLeading (c : Char) : isLeading c.toNat = false ∧ isTrailing c.toNat = false := by
  have hvalid : c.toNat < 0xD800 ∨ (0xDFFF < c.toNat ∧ c.toNat < 0x110000) := c.valid
  simp only [isLeading, isTrailing, Bool.and_eq_false_iff, decide_eq_false_iff_not]
  omega

theorem spelled?_map_toNat (cs : List Char) : spelled? (cs.map Char.toNat) = some cs := by
  induction cs with
  | nil => rfl
  | cons c cs ih =>
      obtain ⟨hleading, htrailing⟩ := not_isLeading c
      rw [List.map_cons, spelled?.eq_def]
      simp only [hleading, htrailing, Bool.false_eq_true, if_false, ih, Option.map_some,
        Char.ofNat_toNat]

/-- **A string is read as it is quoted**, whatever follows. -/
theorem text?_quoted (name : Option String) :
    ∃ body, Value.quoted name = '"' :: body ∧ ∀ rest, text? (body ++ rest) = some (name, rest) := by
  cases name with
  | none => exact ⟨_, rfl, fun rest => rfl⟩
  | some s =>
      refine ⟨_, rfl, fun rest => ?_⟩
      rw [List.append_assoc, List.singleton_append, text?, units?_flatMap_escaped]
      show some ((spelled? (s.toList.map Char.toNat)).map String.ofList, rest) = _
      rw [spelled?_map_toNat, Option.map_some, String.ofList_toList]

/-! ## Numbers -/

/-- A text that cannot continue a number. -/
def EndsNumber (rest : List Char) : Prop :=
  ∀ c ∈ rest.head?, c.isDigit = false ∧ c ≠ '.' ∧ c ≠ 'e' ∧ c ≠ 'E'

theorem endsNumber_nil : EndsNumber [] := by
  intro c hc
  cases hc

theorem endsNumber_cons {c : Char} (h : c = ',' ∨ c = ']' ∨ c = '}') (rest : List Char) :
    EndsNumber (c :: rest) := by
  intro d hd
  obtain rfl := Option.some.inj hd
  rcases h with rfl | rfl | rfl <;> decide

/-- A reader that takes no more if something follows that cannot continue a number. -/
def Stops {α : Type} (read : Reader α) : Prop :=
  ∀ {cs left rest : List Char} {a : α}, read cs = some (a, left) → EndsNumber rest →
    read (cs ++ rest) = some (a, left ++ rest)

theorem takeWhile_append_of_ends (cs : List Char) (h : EndsNumber rest) :
    (cs ++ rest).takeWhile Char.isDigit = cs.takeWhile Char.isDigit ∧
      (cs ++ rest).dropWhile Char.isDigit = cs.dropWhile Char.isDigit ++ rest := by
  induction cs with
  | nil =>
      cases rest with
      | nil => exact ⟨rfl, rfl⟩
      | cons c rest =>
          have hc : c.isDigit = false := (h c rfl).1
          rw [List.nil_append, List.takeWhile_cons, List.dropWhile_cons, hc]
          exact ⟨rfl, rfl⟩
  | cons c cs ih =>
      rw [List.cons_append, List.takeWhile_cons, List.takeWhile_cons, List.dropWhile_cons,
        List.dropWhile_cons]
      cases c.isDigit with
      | true => exact ⟨congrArg (c :: ·) ih.1, ih.2⟩
      | false => exact ⟨rfl, rfl⟩

theorem stops_digits? : Stops digits? := by
  intro cs left rest ds h hends
  obtain ⟨htake, hdrop⟩ := takeWhile_append_of_ends cs hends
  unfold digits? some? at h ⊢
  rw [htake, hdrop]
  cases hds : cs.takeWhile Char.isDigit with
  | nil => simp [hds] at h
  | cons d more =>
      rw [hds] at h
      obtain ⟨rfl, rfl⟩ := Prod.mk.inj (Option.some.inj h)
      rfl

theorem stops_wholePart? : Stops wholePart? := by
  intro cs left rest ds h hends
  unfold wholePart? at h ⊢
  cases hread : digits? cs with
  | none => simp [hread] at h
  | some found =>
      obtain ⟨ds', left'⟩ := found
      rw [hread] at h
      rw [stops_digits? hread hends]
      split at h
      · cases h
      · rename_i hzero
        obtain ⟨rfl, rfl⟩ := Prod.mk.inj (Option.some.inj h)
        split
        · rename_i heq
          obtain ⟨rfl, -⟩ := Prod.mk.inj (Option.some.inj heq)
          exact absurd rfl (hzero _ _ _)
        · rfl

/-- What stops, with something added to what it has read. -/
theorem Stops.map {α β : Type} {read : Reader α} (h : Stops read) (f : α → β) :
    Stops fun cs => (read cs).map fun (a, rest) => (f a, rest) := by
  intro cs left rest b hb hends
  obtain ⟨⟨a, left'⟩, hread, heq⟩ := Option.map_eq_some_iff.mp hb
  obtain ⟨rfl, rfl⟩ := Prod.mk.inj heq
  show (read (cs ++ rest)).map _ = _
  rw [h hread hends]
  rfl

theorem fraction?_of_ne (h : ∀ c ∈ rest.head?, c ≠ '.') : fraction? rest = some ([], rest) := by
  cases rest with
  | nil => rfl
  | cons c rest =>
      rw [fraction?]
      exact cons_ne (h c rfl)

theorem stops_fraction? : Stops fraction? := by
  intro cs left rest ds h hends
  by_cases hpoint : ∃ more, cs = '.' :: more
  · obtain ⟨more, rfl⟩ := hpoint
    exact stops_digits?.map ('.' :: ·) h hends
  · have hnone : ∀ c ∈ (cs ++ rest).head?, c ≠ '.' := by
      cases cs with
      | nil => exact fun c hc => (hends c hc).2.1
      | cons c cs =>
          rintro d hd rfl
          obtain rfl := Option.some.inj hd
          exact hpoint ⟨cs, rfl⟩
    -- without a point nothing is taken, and what follows brings none
    have hself : fraction? cs = some ([], cs) := by
      refine fraction?_of_ne fun c hc => hnone c ?_
      rw [List.head?_append, hc]
      rfl
    rw [hself] at h
    obtain ⟨rfl, rfl⟩ := Prod.mk.inj (Option.some.inj h)
    exact fraction?_of_ne hnone

/-- The sign and the digits of an exponent after its letter. -/
def exponentAfter? (letter : Char) : Reader (List Char)
  | '+' :: cs => (digits? cs).map fun (ds, rest) => (letter :: '+' :: ds, rest)
  | '-' :: cs => (digits? cs).map fun (ds, rest) => (letter :: '-' :: ds, rest)
  | cs => (digits? cs).map fun (ds, rest) => (letter :: ds, rest)

theorem stops_exponentAfter? (letter : Char) : Stops (exponentAfter? letter) := by
  intro cs left rest ds h hends
  cases cs with
  | nil => cases h
  | cons c cs =>
      by_cases hplus : c = '+'
      · subst hplus
        exact stops_digits?.map (letter :: '+' :: ·) h hends
      · by_cases hminus : c = '-'
        · subst hminus
          exact stops_digits?.map (letter :: '-' :: ·) h hends
        · have hunsigned : ∀ cs, exponentAfter? letter (c :: cs) =
              (digits? (c :: cs)).map fun (ds, rest) => (letter :: ds, rest) := by
            intro cs
            rw [exponentAfter?]
            · exact cons_ne hplus
            · exact cons_ne hminus
          rw [hunsigned] at h
          rw [List.cons_append, hunsigned]
          exact stops_digits?.map (letter :: ·) h hends

theorem exponent?_letter {c : Char} (h : c = 'e' ∨ c = 'E') (cs : List Char) :
    exponent? (c :: cs) = exponentAfter? c cs :=
  if_pos h

theorem exponent?_of_ne (h : ∀ c ∈ rest.head?, c ≠ 'e' ∧ c ≠ 'E') :
    exponent? rest = some ([], rest) := by
  cases rest with
  | nil => rfl
  | cons c rest => exact if_neg (not_or.mpr (h c rfl))

theorem stops_exponent? : Stops exponent? := by
  intro cs left rest ds h hends
  cases cs with
  | nil =>
      obtain ⟨rfl, rfl⟩ := Prod.mk.inj (Option.some.inj h)
      exact exponent?_of_ne fun c hc => (hends c hc).2.2
  | cons c cs =>
      by_cases hletter : c = 'e' ∨ c = 'E'
      · rw [exponent?_letter hletter] at h
        rw [List.cons_append, exponent?_letter hletter]
        exact stops_exponentAfter? c h hends
      · have hself : ∀ cs, exponent? (c :: cs) = some ([], c :: cs) := fun cs => if_neg hletter
        rw [hself] at h
        obtain ⟨rfl, rfl⟩ := Prod.mk.inj (Option.some.inj h)
        exact hself (cs ++ rest)

/-- A number after its sign, if it has one. -/
def numberAfter? (sign : List Char) : Reader Value := fun cs => do
  let (whole, cs) ← wholePart? cs
  let (fraction, cs) ← fraction? cs
  let (exponent, cs) ← exponent? cs
  if sign.isEmpty && fraction.isEmpty && exponent.isEmpty then
    return (.natural (← ofDigits? 10 whole), cs)
  else
    return (.number (String.ofList (sign ++ whole ++ fraction ++ exponent)), cs)

theorem number?_of_ne {c : Char} (h : c ≠ '-') (cs : List Char) :
    number? (c :: cs) = numberAfter? [] (c :: cs) := by
  unfold number?
  split
  rename_i hsign
  split at hsign
  · rename_i hminus
    exact absurd hminus (cons_ne h _)
  · obtain ⟨rfl, rfl⟩ := Prod.mk.inj hsign
    rfl

theorem stops_numberAfter? (sign : List Char) : Stops (numberAfter? sign) := by
  intro cs left rest v h hends
  unfold numberAfter? at h ⊢
  obtain ⟨⟨whole, cs₁⟩, hwhole, h⟩ := Option.bind_eq_some_iff.mp h
  obtain ⟨⟨fraction, cs₂⟩, hfraction, h⟩ := Option.bind_eq_some_iff.mp h
  obtain ⟨⟨exponent, cs₃⟩, hexponent, h⟩ := Option.bind_eq_some_iff.mp h
  simp only [stops_wholePart? hwhole hends, stops_fraction? hfraction hends,
    stops_exponent? hexponent hends, Option.bind_eq_bind, Option.bind_some]
  replace h : (if (sign.isEmpty && fraction.isEmpty && exponent.isEmpty) = true then
      (ofDigits? 10 whole).bind fun n => some (.natural n, cs₃)
    else some (.number (String.ofList (sign ++ whole ++ fraction ++ exponent)), cs₃)) =
      some (v, left) := h
  split at h
  · rename_i hnatural
    obtain ⟨n, hn, hv⟩ := Option.bind_eq_some_iff.mp h
    obtain ⟨rfl, rfl⟩ := Prod.mk.inj (Option.some.inj hv)
    rw [if_pos hnatural, hn]
    rfl
  · rename_i hnumber
    obtain ⟨rfl, rfl⟩ := Prod.mk.inj (Option.some.inj h)
    rw [if_neg hnumber]
    rfl

theorem stops_number? : Stops number? := by
  intro cs left rest v h hends
  cases cs with
  | nil => cases h
  | cons c cs =>
      by_cases hminus : c = '-'
      · subst hminus
        exact stops_numberAfter? ['-'] h hends
      · rw [number?_of_ne hminus] at h
        rw [List.cons_append, number?_of_ne hminus]
        exact stops_numberAfter? [] h hends

/-- A number begins with a sign or a digit. -/
theorem number?_head {cs : List Char} (h : (number? cs).isSome = true) :
    ∃ c ds, cs = c :: ds ∧ (c = '-' ∨ c.isDigit = true) := by
  cases cs with
  | nil => cases h
  | cons c cs =>
      refine ⟨c, cs, rfl, ?_⟩
      by_cases hminus : c = '-'
      · exact .inl hminus
      · right
        rw [number?_of_ne hminus] at h
        cases hdigit : c.isDigit with
        | true => rfl
        | false =>
            have hnone : wholePart? (c :: cs) = none := by
              unfold wholePart? digits? some?
              rw [List.takeWhile_cons, hdigit]
              rfl
            unfold numberAfter? at h
            rw [hnone] at h
            cases h

theorem wholePart?_numeral {n : Nat} {cs : List Char} (h : IsNumeral n cs) :
    wholePart? cs = some (cs, []) := by
  have hten : ∀ d < 10, (Nat.digitChar d).isDigit = true := by decide
  have hdigits : ∀ c ∈ cs, c.isDigit = true := by
    intro c hc
    obtain ⟨d, hd, rfl⟩ := h.digits c hc
    exact hten d hd
  have htake : cs.takeWhile Char.isDigit = cs := by
    have happend := @List.takeWhile_append_of_pos _ Char.isDigit cs [] hdigits
    rwa [List.takeWhile_nil, List.append_nil] at happend
  have hdrop : cs.dropWhile Char.isDigit = [] := by
    have happend := @List.dropWhile_append_of_pos _ Char.isDigit cs [] hdigits
    rwa [List.dropWhile_nil, List.append_nil] at happend
  obtain ⟨c, ds, rfl, -⟩ := h.exists_cons
  have hread : digits? (c :: ds) = some (c :: ds, []) := by
    unfold digits? some?
    rw [htake, hdrop]
  unfold wholePart?
  rw [hread]
  split
  · -- a zero in front is all that there is
    rename_i heq
    obtain ⟨hzero, -⟩ := Prod.mk.inj (Option.some.inj heq)
    obtain ⟨rfl, rfl⟩ := List.cons.inj hzero
    cases h.leading _ rfl
  · rfl

/-- **A natural number is read as it is written.** -/
theorem number?_numeral {n : Nat} {cs : List Char} (h : IsNumeral n cs) :
    number? cs = some (.natural n, []) := by
  have hwhole := wholePart?_numeral h
  have hvalue := h.value
  obtain ⟨c, ds, rfl, hc⟩ := h.exists_cons
  have hread : numberAfter? [] (c :: ds) = some (.natural n, []) := by
    unfold numberAfter?
    rw [hwhole]
    show (ofDigits? 10 (c :: ds)).bind (fun n => some (Value.natural n, [])) = _
    rw [hvalue]
    rfl
  rw [number?_of_ne (hc.ne (by decide)), hread]

end LeasedCommit.Json
