import Mathlib.Data.Nat.Digits.Defs
import Subregister.Operand

namespace Subregister.Text.Radix

def lowerDigits : List Char :=
  ['0', '1', '2', '3', '4', '5', '6', '7', '8', '9', 'a', 'b', 'c', 'd', 'e', 'f']

def upperDigits : List Char :=
  ['0', '1', '2', '3', '4', '5', '6', '7', '8', '9', 'A', 'B', 'C', 'D', 'E', 'F']

def Digit (r : Radix) (c : Char) (d : Nat) : Prop :=
  d < r.base ∧ (lowerDigits[d]? = some c ∨ upperDigits[d]? = some c)

inductive Tail (r : Radix) : List Char → List Nat → Prop
  | nil : Tail r [] []
  | digit {c : Char} {d : Nat} {cs : List Char} {ds : List Nat} :
      r.Digit c d → Tail r cs ds → Tail r (c :: cs) (d :: ds)
  | separator {cs : List Char} {ds : List Nat} : Tail r cs ds → Tail r ('_' :: cs) ds

inductive Run (r : Radix) : List Char → List Nat → Prop
  | digit {c : Char} {d : Nat} {cs : List Char} {ds : List Nat} :
      r.Digit c d → Tail r cs ds → Run r (c :: cs) (d :: ds)

def number (r : Radix) (ds : List Nat) : Nat :=
  Nat.ofDigits r.base ds.reverse

theorem number_concat (r : Radix) (ds : List Nat) (d : Nat) : r.number (ds ++ [d]) = r.number ds * r.base + d := by
  rw [number, List.reverse_append, List.reverse_singleton, List.singleton_append, Nat.ofDigits_cons, Nat.mul_comm,
    Nat.add_comm]
  rfl

theorem base_le (r : Radix) : r.base ≤ 16 := by
  cases r <;> decide

theorem one_lt_base (r : Radix) : 1 < r.base := by
  cases r <;> decide

theorem toNat_of_digitValue? {c : Char} {d : Nat} (h : digitValue? c = some d) : 48 ≤ c.toNat ∧ c.toNat < 103 := by
  unfold digitValue? at h
  split at h
  · next hc =>
    have low : 48 ≤ c.toNat := hc.1
    have high : c.toNat ≤ 57 := hc.2
    omega
  · split at h
    · next hc =>
      have low : 97 ≤ c.toNat := hc.1
      have high : c.toNat ≤ 102 := hc.2
      omega
    · split at h
      · next hc =>
        have low : 65 ≤ c.toNat := hc.1
        have high : c.toNat ≤ 70 := hc.2
        omega
      · exact absurd h (by simp)

theorem toNat_of_digit? {r : Radix} {c : Char} (h : (r.digit? c).isSome) : 48 ≤ c.toNat ∧ c.toNat < 103 := by
  obtain ⟨d, hd⟩ := Option.isSome_iff_exists.mp h
  exact toNat_of_digitValue? (Option.filter_eq_some_iff.mp hd).1

theorem of_digit_tables {p : Char → Nat → Bool} {n : Nat}
    (h : ∀ d < n, lowerDigits[d]?.all (p · d) = true ∧ upperDigits[d]?.all (p · d) = true) {c : Char} {d : Nat}
    (hd : d < n) (hc : lowerDigits[d]? = some c ∨ upperDigits[d]? = some c) : p c d = true := by
  obtain ⟨lower, upper⟩ := h d hd
  rcases hc with hc | hc
  · rwa [hc] at lower
  · rwa [hc] at upper

theorem digitValue?_eq_some_iff (c : Char) (d : Nat) :
    digitValue? c = some d ↔ lowerDigits[d]? = some c ∨ upperDigits[d]? = some c := by
  constructor
  · intro h
    -- No digit lies at or above code point 103, so that a finite table holds them all.
    have table : ∀ n < 103, ∀ d, digitValue? (Char.ofNat n) = some d →
        lowerDigits[d]? = some (Char.ofNat n) ∨ upperDigits[d]? = some (Char.ofNat n) := by decide
    have hc := table c.toNat (toNat_of_digitValue? h).2 d
    rw [Char.ofNat_toNat] at hc
    exact hc h
  · intro h
    have hd : d < 16 := by
      rcases h with h | h
      · exact (List.getElem?_eq_some_iff.mp h).1
      · exact (List.getElem?_eq_some_iff.mp h).1
    have hc := of_digit_tables (p := fun c d => digitValue? c == some d) (by decide) hd h
    exact eq_of_beq hc

theorem digit?_eq_some_iff (r : Radix) (c : Char) (d : Nat) : r.digit? c = some d ↔ r.Digit c d := by
  rw [digit?, Option.filter_eq_some_iff, digitValue?_eq_some_iff, Digit, and_comm, decide_eq_true_iff]

theorem Digit.unique {r : Radix} {c : Char} {d e : Nat} (hd : r.Digit c d) (he : r.Digit c e) : d = e := by
  have h := (digit?_eq_some_iff r c d).mpr hd
  rw [(digit?_eq_some_iff r c e).mpr he] at h
  exact (Option.some.inj h).symm

theorem Digit.ne_separator {r : Radix} {c : Char} {d : Nat} (h : r.Digit c d) : c ≠ '_' := by
  rintro rfl
  exact absurd ((digit?_eq_some_iff r '_' d).mpr h) (by simp [digit?, digitValue?])

theorem digit_decimal_iff (c : Char) (d : Nat) : decimal.Digit c d ↔ hexadecimal.Digit c d ∧ c.isDigit := by
  constructor
  · rintro ⟨hd, h⟩
    refine ⟨⟨by simp only [base] at hd ⊢; omega, h⟩, ?_⟩
    exact of_digit_tables (p := fun c _ => c.isDigit) (by decide) hd h
  · rintro ⟨⟨hd, h⟩, hc⟩
    have small := of_digit_tables (p := fun c d => !c.isDigit || decide (d < 10)) (by decide) hd h
    rw [hc, Bool.not_true, Bool.false_or, decide_eq_true_iff] at small
    exact ⟨small, h⟩

theorem digit_digitChar {r : Radix} {d : Nat} (h : d < r.base) : r.Digit d.digitChar d := by
  have table : ∀ d < 16, lowerDigits[d]? = some d.digitChar := by decide
  exact ⟨h, Or.inl (table d (h.trans_le r.base_le))⟩

theorem Tail.unique {r : Radix} {cs : List Char} {ds es : List Nat} (hd : r.Tail cs ds) (he : r.Tail cs es) :
    ds = es := by
  induction hd generalizing es with
  | nil =>
    cases he
    rfl
  | digit hc _ ih =>
    cases he with
    | digit hc' ht => rw [hc.unique hc', ih ht]
    | separator => exact absurd rfl hc.ne_separator
  | separator _ ih =>
    cases he with
    | digit hc' _ => exact absurd rfl hc'.ne_separator
    | separator ht => exact ih ht

theorem Tail.append {r : Radix} {cs es : List Char} {ds fs : List Nat} (h : r.Tail cs ds) (h' : r.Tail es fs) :
    r.Tail (cs ++ es) (ds ++ fs) := by
  induction h with
  | nil => exact h'
  | digit hc _ ih => exact .digit hc ih
  | separator _ ih => exact .separator ih

theorem Tail.mem {r : Radix} {cs : List Char} {ds : List Nat} (h : r.Tail cs ds) {c : Char} (hc : c ∈ cs) :
    c = '_' ∨ (r.digit? c).isSome := by
  induction h with
  | nil => cases hc
  | digit hd _ ih =>
    rcases List.mem_cons.mp hc with rfl | hc
    · exact .inr (by rw [(digit?_eq_some_iff r c _).mpr hd, Option.isSome_some])
    · exact ih hc
  | separator _ ih =>
    rcases List.mem_cons.mp hc with rfl | hc
    · exact .inl rfl
    · exact ih hc

theorem Run.tail {r : Radix} {cs : List Char} {ds : List Nat} (h : r.Run cs ds) : r.Tail cs ds := by
  obtain ⟨hc, ht⟩ := h
  exact .digit hc ht

theorem Run.append {r : Radix} {cs es : List Char} {ds fs : List Nat} (h : r.Run cs ds) (h' : r.Tail es fs) :
    r.Run (cs ++ es) (ds ++ fs) := by
  obtain ⟨hc, ht⟩ := h
  exact .digit hc (ht.append h')

theorem exists_run_toDigits (r : Radix) (n : Nat) : ∃ ds, r.Run (Nat.toDigits r.base n) ds ∧ r.number ds = n := by
  induction n using Nat.strong_induction_on with
  | _ n ih =>
    by_cases hn : n < r.base
    · refine ⟨[n], ?_, by simp [number]⟩
      rw [Nat.toDigits_of_lt_base hn]
      exact .digit (digit_digitChar hn) .nil
    · have hn := Nat.le_of_not_lt hn
      obtain ⟨ds, hr, hv⟩ := ih (n / r.base) (Nat.div_lt_self (by have := r.one_lt_base; omega) r.one_lt_base)
      have hd : n % r.base < r.base := Nat.mod_lt n (by have := r.one_lt_base; omega)
      refine ⟨ds ++ [n % r.base], ?_, ?_⟩
      · rw [Nat.toDigits_of_base_le r.one_lt_base hn]
        exact hr.append (.digit (digit_digitChar hd) .nil)
      · rw [number_concat, hv]
        exact Nat.div_add_mod' n r.base

end Subregister.Text.Radix

namespace Subregister.Literal

open Text

/-- Digits join the number read so far at its low end, so what is read in 64 bits stays the residue of what is
written. -/
theorem accumulate_eq_ok_iff (r : Radix) (es : List Nat) (cs : List Char) (v : UInt64) :
    accumulate r (UInt64.ofNat (Nat.ofDigits r.base es)) cs = .ok v ↔
      ∃ ds, r.Tail cs ds ∧ v = UInt64.ofNat (Nat.ofDigits r.base (ds.reverse ++ es)) := by
  induction cs generalizing es with
  | nil =>
    constructor
    · intro h
      exact ⟨[], .nil, (Except.ok.inj h).symm⟩
    · rintro ⟨ds, ⟨⟩, rfl⟩
      rfl
  | cons c cs ih =>
    rw [accumulate]
    by_cases hc : c = '_'
    · subst hc
      rw [if_pos rfl, ih]
      constructor
      · rintro ⟨ds, ht, hv⟩
        exact ⟨ds, .separator ht, hv⟩
      · rintro ⟨ds, ht, hv⟩
        cases ht with
        | digit hd _ => exact absurd rfl hd.ne_separator
        | separator ht => exact ⟨ds, ht, hv⟩
    · rw [if_neg hc]
      cases hd : r.digit? c with
      | none =>
        constructor
        · intro h
          exact absurd h (by simp)
        · rintro ⟨ds, ht, -⟩
          cases ht with
          | digit hd' _ => exact absurd ((Radix.digit?_eq_some_iff r c _).mpr hd') (by simp [hd])
          | separator => exact absurd rfl hc
      | some d =>
        have hd' := (Radix.digit?_eq_some_iff r c d).mp hd
        have step : UInt64.ofNat (Nat.ofDigits r.base es) * UInt64.ofNat r.base + UInt64.ofNat d =
            UInt64.ofNat (Nat.ofDigits r.base (d :: es)) := by
          rw [Nat.ofDigits_cons, Nat.add_comm, Nat.mul_comm, UInt64.ofNat_add, UInt64.ofNat_mul]
        simp only [step, ih]
        constructor
        · rintro ⟨ds, ht, rfl⟩
          exact ⟨d :: ds, .digit hd' ht, by simp⟩
        · rintro ⟨ds, ht, rfl⟩
          cases ht with
          | @digit _ e _ ds hd'' ht =>
            obtain rfl := hd'.unique hd''
            exact ⟨ds, ht, by simp⟩
          | separator => exact absurd rfl hc

theorem run_eq_ok_iff (r : Radix) (cs : List Char) (v : UInt64) :
    run r cs = .ok v ↔ ∃ ds, r.Run cs ds ∧ v = UInt64.ofNat (r.number ds) := by
  cases cs with
  | nil =>
    constructor
    · intro h
      exact absurd h (by simp [run])
    · rintro ⟨ds, ⟨⟩, -⟩
  | cons c cs =>
    rw [run]
    by_cases hc : c = '_'
    · subst hc
      rw [if_pos rfl]
      constructor
      · intro h
        exact absurd h (by simp)
      · rintro ⟨ds, ⟨hd, -⟩, -⟩
        exact absurd rfl hd.ne_separator
    · rw [if_neg hc]
      cases hd : r.digit? c with
      | none =>
        constructor
        · intro h
          exact absurd h (by simp)
        · rintro ⟨ds, ⟨hd', -⟩, -⟩
          exact absurd ((Radix.digit?_eq_some_iff r c _).mpr hd') (by simp [hd])
      | some d =>
        have hd' := (Radix.digit?_eq_some_iff r c d).mp hd
        have first := accumulate_eq_ok_iff r [d] cs v
        rw [Nat.ofDigits_singleton] at first
        simp only [first]
        constructor
        · rintro ⟨ds, ht, rfl⟩
          exact ⟨d :: ds, .digit hd' ht, by simp [Radix.number]⟩
        · rintro ⟨ds, ⟨hd'', ht⟩, rfl⟩
          obtain rfl := hd'.unique hd''
          exact ⟨_, ht, by simp [Radix.number]⟩

end Subregister.Literal
