import Subregister.Proofs.LiteralForms
import Subregister.Proofs.Trimming

namespace Subregister.Literal

open Text

inductive Spells : List Char → Int → Prop
  | unsigned {f : Form} {cs : List Char} {n : Nat} : Body f cs n → Spells cs n
  | positive {f : Form} {cs : List Char} {n : Nat} : Body f cs n → Spells ('+' :: cs) n
  | negative {f : Form} {cs : List Char} {n : Nat} : Body f cs n → Spells ('-' :: cs) (-n)

theorem Body.exists_digit {f : Form} {cs : List Char} {n : Nat} (h : Body f cs n) :
    ∃ c ds, cs = c :: ds ∧ c.isDigit = true := by
  cases h with
  | plain h =>
    obtain ⟨hc, -⟩ := h
    exact ⟨_, _, rfl, ((Radix.digit_decimal_iff _ _).mp hc).2⟩
  | suffixed hc _ _ => exact ⟨_, _, rfl, ((Radix.digit_decimal_iff _ _).mp hc).2⟩
  | marked => exact ⟨_, _, rfl, rfl⟩

theorem signed_of_unsigned {cs : List Char} (hn : cs.head? ≠ some '-') (hp : cs.head? ≠ some '+') :
    signed cs = body cs := by
  fun_cases signed cs
  · exact absurd rfl hn
  · exact absurd rfl hp
  · rfl

theorem signed_negative (cs : List Char) (v : UInt64) :
    signed ('-' :: cs) = .ok v ↔ ∃ f n, Body f cs n ∧ v = UInt64.ofInt (-n) := by
  have neg (n : Nat) : UInt64.ofInt (-n) = 0 - UInt64.ofInt n := by rw [UInt64.ofInt_neg, UInt64.zero_sub]
  rw [signed]
  constructor
  · intro h
    cases hb : body cs with
    | ok u =>
      rw [hb] at h
      obtain ⟨f, n, hf, rfl⟩ := (body_eq_ok_iff cs u).mp hb
      exact ⟨f, n, hf, (Except.ok.inj h).symm.trans (neg n).symm⟩
    | error e =>
      rw [hb] at h
      cases h
  · rintro ⟨f, n, hf, rfl⟩
    rw [(body_eq_ok_iff cs _).mpr ⟨f, n, hf, rfl⟩, neg]
    rfl

theorem signed_eq_ok_iff (cs : List Char) (v : UInt64) :
    signed cs = .ok v ↔ ∃ z, Spells cs z ∧ v = UInt64.ofInt z := by
  by_cases hn : cs.head? = some '-'
  · obtain ⟨cs, rfl⟩ := List.head?_eq_some_iff.mp hn
    rw [signed_negative]
    constructor
    · rintro ⟨f, n, hf, hv⟩
      exact ⟨-n, .negative hf, hv⟩
    · rintro ⟨z, hz, hv⟩
      cases hz with
      | unsigned hf => exact absurd hf.exists_digit (by simp)
      | negative hf => exact ⟨_, _, hf, hv⟩
  · by_cases hp : cs.head? = some '+'
    · obtain ⟨cs, rfl⟩ := List.head?_eq_some_iff.mp hp
      rw [signed, body_eq_ok_iff]
      constructor
      · rintro ⟨f, n, hf, hv⟩
        exact ⟨n, .positive hf, hv⟩
      · rintro ⟨z, hz, hv⟩
        cases hz with
        | unsigned hf => exact absurd hf.exists_digit (by simp)
        | positive hf => exact ⟨_, _, hf, hv⟩
    · rw [signed_of_unsigned hn hp, body_eq_ok_iff]
      constructor
      · rintro ⟨f, n, hf, hv⟩
        exact ⟨n, .unsigned hf, hv⟩
      · rintro ⟨z, hz, hv⟩
        cases hz with
        | unsigned hf => exact ⟨_, _, hf, hv⟩
        | positive => exact absurd rfl hp
        | negative => exact absurd rfl hn

theorem parse_eq_ok_iff (s : String) (v : UInt64) :
    parse s = .ok v ↔ ∃ z, Spells (Blank.trim s.toList) z ∧ v = UInt64.ofInt z := by
  have h : parse s = .ok v ↔ ofChars s.toList = .ok v := by
    rw [parse]
    cases ofChars s.toList with
    | ok u => simp [Except.mapError]
    | error e => simp [Except.mapError]
  rw [h, ofChars, ← signed_eq_ok_iff]
  cases Blank.trim s.toList with
  | nil => simp [signed, body, split, run, startsWithDigit]
  | cons c cs => rfl

example : parse "\u2003-0B_h\n" = .ok (0 - 11) := by rfl

end Subregister.Literal
