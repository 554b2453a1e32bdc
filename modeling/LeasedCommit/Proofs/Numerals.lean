import LeasedCommit.Toml.Moment
import Mathlib.Data.List.Induction

set_option autoImplicit false

/-! # Numerals on a line

A natural number is written in decimal digits without a needless zero in front (`Text.IsNumeral`).
At the end of a line every reader of TOML values but the one for integers gives such a numeral up,
and that one takes all of it (`Toml.integer?_numeral`). -/

namespace LeasedCommit

namespace Text

/-- A text is none that begins with another character. -/
theorem cons_ne {c d : Char} {cs : List Char} (h : c ≠ d) (ds : List Char) : c :: cs ≠ d :: ds := by
  intro heq
  exact h (List.cons.inj heq).1

/-- The ten decimal digits. -/
def IsDecimal (c : Char) : Prop := ∃ d < 10, c = Nat.digitChar d

/-- A digit is none of the characters that the ten digits are not. -/
theorem IsDecimal.ne {c mark : Char} (h : IsDecimal c) (hmark : ∀ d < 10, Nat.digitChar d ≠ mark) :
    c ≠ mark := by
  obtain ⟨d, hd, rfl⟩ := h
  exact hmark d hd

theorem digit?_digitChar {base d : Nat} (hbase : base ≤ 16) (hd : d < base) :
    digit? base (Nat.digitChar d) = some d := by
  have hall : ∀ base ≤ 16, ∀ d < base, digit? base (Nat.digitChar d) = some d := by decide
  exact hall base hbase d hd

theorem IsDecimal.digit?_isSome {c : Char} (h : IsDecimal c) : (digit? 10 c).isSome = true := by
  obtain ⟨d, hd, rfl⟩ := h
  rw [digit?_digitChar (by decide) hd]
  rfl

/-- One more digit. -/
theorem ofDigits?_concat {base n d : Nat} {cs : List Char} {c : Char}
    (h : ofDigits? base cs = some n) (hd : digit? base c = some d) :
    ofDigits? base (cs ++ [c]) = some (base * n + d) := by
  unfold ofDigits? at h ⊢
  rw [List.foldl_append, h, List.foldl_cons, List.foldl_nil, Option.bind_some, hd, Option.map_some]

/-- **The digits of a number spell it**, in every base that there are digits for. -/
theorem ofDigits?_toDigits {base : Nat} (hone : 1 < base) (hbase : base ≤ 16) (n : Nat) :
    ofDigits? base (Nat.toDigits base n) = some n := by
  induction n using Nat.strongRecOn with
  | ind n ih =>
      by_cases hn : n < base
      · rw [Nat.toDigits_of_lt_base hn]
        have hdigit : ofDigits? base ([] ++ [Nat.digitChar n]) = some (base * 0 + n) :=
          ofDigits?_concat rfl (digit?_digitChar hbase hn)
        rwa [Nat.mul_zero, Nat.zero_add] at hdigit
      · have hle : base ≤ n := Nat.le_of_not_lt hn
        have hless : n / base < n := Nat.div_lt_self (by omega) hone
        have hlast : n % base < base := Nat.mod_lt n (by omega)
        rw [Nat.toDigits_of_base_le hone hle,
          ofDigits?_concat (ih _ hless) (digit?_digitChar hbase hlast), Nat.div_add_mod]

/-- What spells a number consists of digits. -/
theorem digit?_isSome_of_mem {base n : Nat} {cs : List Char} (h : ofDigits? base cs = some n)
    {c : Char} (hc : c ∈ cs) : (digit? base c).isSome = true := by
  induction cs using List.reverseRecOn generalizing n with
  | nil => cases hc
  | append_singleton cs last ih =>
      unfold ofDigits? at h
      rw [List.foldl_append, List.foldl_cons, List.foldl_nil, Option.bind_eq_some_iff] at h
      obtain ⟨m, hm, hlast⟩ := h
      rcases List.mem_append.mp hc with hc | hc
      · exact ih hm hc
      · obtain rfl := List.mem_singleton.mp hc
        obtain ⟨d, hd, -⟩ := Option.map_eq_some_iff.mp hlast
        rw [hd]
        rfl

/-- The decimal digits of a number, without a needless zero in front. -/
structure IsNumeral (n : Nat) (cs : List Char) : Prop where
  value : ofDigits? 10 cs = some n
  digits : ∀ c ∈ cs, IsDecimal c
  nonempty : cs ≠ []
  leading : ∀ rest, cs = '0' :: rest → rest = []

/-- A numeral begins with a digit. -/
theorem IsNumeral.exists_cons {n : Nat} {cs : List Char} (h : IsNumeral n cs) :
    ∃ c ds, cs = c :: ds ∧ IsDecimal c := by
  obtain ⟨c, ds, rfl⟩ := List.exists_cons_of_ne_nil h.nonempty
  exact ⟨c, ds, rfl, h.digits c List.mem_cons_self⟩

/-- **The digits of every number are a numeral.** -/
theorem isNumeral_toDigits (n : Nat) : IsNumeral n (Nat.toDigits 10 n) := by
  have hvalue (n : Nat) : ofDigits? 10 (Nat.toDigits 10 n) = some n :=
    ofDigits?_toDigits (by decide) (by decide) n
  induction n using Nat.strongRecOn with
  | ind n ih =>
      have hself := hvalue n
      by_cases hn : n < 10
      · rw [Nat.toDigits_of_lt_base hn] at hself ⊢
        exact ⟨hself, fun c hc => ⟨n, hn, List.mem_singleton.mp hc⟩, List.cons_ne_nil _ _,
          fun rest h => (List.cons.inj h).2.symm⟩
      · have h := ih (n / 10) (by omega)
        rw [Nat.toDigits_of_base_le (by decide) (by omega)] at hself ⊢
        refine ⟨hself, fun c hc => ?_, List.append_ne_nil_of_left_ne_nil h.nonempty _,
          fun rest hzero => ?_⟩
        · rcases List.mem_append.mp hc with hc | hc
          · exact h.digits c hc
          · exact ⟨n % 10, by omega, List.mem_singleton.mp hc⟩
        · -- a zero in front would be all that is in front of the last digit
          obtain ⟨c, cs, hcs, -⟩ := h.exists_cons
          rw [hcs, List.cons_append] at hzero
          obtain ⟨rfl, -⟩ := List.cons.inj hzero
          have hnone := hvalue (n / 10)
          rw [hcs, h.leading cs hcs] at hnone
          have hzero : n / 10 = 0 := (Option.some.inj hnone).symm
          omega

end Text

namespace Toml

open Text

variable {n : Nat} {cs rest : List Char}

/-! ## Runs of digits -/

theorem moreDigits_append (h : ∀ c ∈ cs, IsDecimal c) :
    moreDigits 10 (cs ++ '\n' :: rest) = (cs, '\n' :: rest) := by
  induction cs with
  | nil =>
      rw [List.nil_append, moreDigits]
      · rfl
      · rintro c rest ⟨⟩
  | cons c cs ih =>
      have hc := h c List.mem_cons_self
      have hne : c ≠ '_' := hc.ne (by decide)
      rw [List.cons_append, moreDigits, if_pos hc.digit?_isSome,
        ih fun c hc => h c (List.mem_cons_of_mem _ hc)]
      rintro d rest hmark -
      exact hne hmark

theorem digits?_numeral (h : IsNumeral n cs) :
    digits? 10 (cs ++ '\n' :: rest) = some (cs, '\n' :: rest) := by
  obtain ⟨c, ds, rfl, hc⟩ := h.exists_cons
  rw [List.cons_append, digits?, if_pos hc.digit?_isSome,
    moreDigits_append fun c hc => h.digits c (List.mem_cons_of_mem _ hc)]

theorem wholeDigits?_numeral (h : IsNumeral n cs) :
    wholeDigits? (cs ++ '\n' :: rest) = some (cs, '\n' :: rest) := by
  obtain ⟨c, ds, rfl, hc⟩ := h.exists_cons
  by_cases hzero : c = '0'
  · subst hzero
    rw [h.leading ds rfl]
    rfl
  · rw [← digits?_numeral h, List.cons_append, wholeDigits?]
    exact cons_ne hzero

theorem sign_numeral (h : IsNumeral n cs) :
    sign (cs ++ '\n' :: rest) = (false, cs ++ '\n' :: rest) := by
  obtain ⟨c, ds, rfl, hc⟩ := h.exists_cons
  have hplus : c ≠ '+' := hc.ne (by decide)
  have hminus : c ≠ '-' := hc.ne (by decide)
  rw [List.cons_append, sign]
  · exact cons_ne hplus
  · exact cons_ne hminus

/-! ## What a numeral is not -/

theorem part?_eq_some {width low high k : Nat} {after : List Char}
    (h : part? width low high cs = some (k, after)) :
    ofDigits? 10 (cs.take width) = some k ∧ after = cs.drop width := by
  unfold part? at h
  obtain ⟨-, -, hnumber⟩ := Option.bind_eq_some_iff.mp h
  obtain ⟨k', hk, hbounds⟩ := Option.bind_eq_some_iff.mp hnumber
  obtain ⟨-, -, hread⟩ := Option.bind_eq_some_iff.mp hbounds
  obtain ⟨rfl, rfl⟩ := Prod.mk.inj (Option.some.inj hread)
  exact ⟨hk, rfl⟩

/-- A number of fixed width is followed by another digit or by the end of the line, and so by no
mark. -/
theorem mark?_of_part? (h : ∀ c ∈ cs, IsDecimal c) {width low high k : Nat} {mark : Char}
    (hdigit : ∀ d < 10, Nat.digitChar d ≠ mark) (hend : mark ≠ '\n') {after : List Char}
    (hpart : part? width low high (cs ++ '\n' :: rest) = some (k, after)) :
    mark? mark after = none := by
  obtain ⟨hvalue, rfl⟩ := part?_eq_some hpart
  -- the number cannot go beyond the end of the line
  have hwidth : width ≤ cs.length := by
    by_contra hlong
    have hmem : '\n' ∈ (cs ++ '\n' :: rest).take width := by
      obtain ⟨k, hk⟩ : ∃ k, width - cs.length = k + 1 := ⟨width - cs.length - 1, by omega⟩
      rw [List.take_append, hk, List.take_succ_cons]
      exact List.mem_append_right _ List.mem_cons_self
    have hsome := digit?_isSome_of_mem hvalue hmem
    cases hsome
  rw [List.drop_append_of_le_length hwidth]
  cases hcs : cs.drop width with
  | nil => exact if_neg (Ne.symm hend)
  | cons c ds =>
      have hc : IsDecimal c := h c (List.mem_of_mem_drop (hcs ▸ List.mem_cons_self))
      exact if_neg (hc.ne hdigit)

theorem date?_numeral (h : IsNumeral n cs) : date? (cs ++ '\n' :: rest) = none := by
  unfold date?
  cases hpart : part? 4 0 9999 (cs ++ '\n' :: rest) with
  | none => rfl
  | some found =>
      have hmark := mark?_of_part? h.digits (by decide) (show '-' ≠ '\n' by decide) hpart
      simp only [Option.bind_eq_bind, Option.bind_some, hmark, Option.bind_none]

theorem time?_numeral (h : IsNumeral n cs) : time? (cs ++ '\n' :: rest) = none := by
  unfold time?
  cases hpart : part? 2 0 23 (cs ++ '\n' :: rest) with
  | none => rfl
  | some found =>
      have hmark := mark?_of_part? h.digits (by decide) (show ':' ≠ '\n' by decide) hpart
      simp only [Option.bind_eq_bind, Option.bind_some, hmark, Option.bind_none]

theorem moment?_numeral (h : IsNumeral n cs) : moment? (cs ++ '\n' :: rest) = none := by
  unfold moment?
  simp only [date?_numeral h, time?_numeral h, Option.bind_eq_bind, Option.bind_none]

theorem decimal?_numeral (h : IsNumeral n cs) : decimal? (cs ++ '\n' :: rest) = none := by
  unfold decimal?
  simp only [sign_numeral h, wholeDigits?_numeral h, Option.bind_eq_bind, Option.bind_some,
    fraction?, exponent?]
  rfl

theorem special?_numeral (h : IsNumeral n cs) : special? (cs ++ '\n' :: rest) = none := by
  obtain ⟨c, ds, rfl, hc⟩ := h.exists_cons
  have hi : c ≠ 'i' := hc.ne (by decide)
  have hn : c ≠ 'n' := hc.ne (by decide)
  unfold special?
  rw [sign_numeral h, List.cons_append]
  split
  · rename_i heq
    exact absurd heq (cons_ne hi _)
  · rename_i heq
    exact absurd heq (cons_ne hn _)
  · rfl

/-! ## What it is -/

/-- A zero in front is the whole numeral, so it marks no other base. -/
theorem eq_newline_of_zero (h : IsNumeral n cs) {c : Char} {after : List Char}
    (heq : cs ++ '\n' :: rest = '0' :: c :: after) : c = '\n' := by
  obtain ⟨d, ds, rfl, -⟩ := h.exists_cons
  obtain ⟨rfl, hrest⟩ := List.cons.inj heq
  rw [h.leading ds rfl] at hrest
  exact (List.cons.inj hrest).1.symm

/-- **A numeral at the end of a line is read as an integer**, as far as there are integers. -/
theorem integer?_numeral (h : IsNumeral n cs) (hn : n < 9223372036854775808) :
    integer? (cs ++ '\n' :: rest) = some (.integer n, '\n' :: rest) := by
  have hsize : integerOf? false n = some (.integer n) := if_pos hn
  unfold integer?
  split
  · rename_i heq
    cases eq_newline_of_zero h heq
  · rename_i heq
    cases eq_newline_of_zero h heq
  · rename_i heq
    cases eq_newline_of_zero h heq
  · simp only [sign_numeral h, wholeDigits?_numeral h, h.value, hsize, Option.map_some,
      Option.bind_eq_bind, Option.bind_some]
    rfl

end Toml

end LeasedCommit
