import Subregister.Proofs.Reference

namespace Subregister

def Slot.HighReplaced (reg byte n : Nat) : Prop :=
  ∀ i : Nat, n.testBit i = if 8 ≤ i ∧ i < 16 then byte.testBit (i - 8) else reg.testBit i

theorem Slot.highReplaced_iff {reg byte n : Nat} (hb : byte < 256) :
    HighReplaced reg byte n ↔ n = 2 ^ 16 * (reg / 2 ^ 16) + (2 ^ 8 * byte + reg % 2 ^ 8) := by
  have low : reg % 2 ^ 8 < 2 ^ 8 := Nat.mod_lt _ (by decide)
  have half : 2 ^ 8 * byte + reg % 2 ^ 8 < 2 ^ 16 := by omega
  have built : HighReplaced reg byte (2 ^ 16 * (reg / 2 ^ 16) + (2 ^ 8 * byte + reg % 2 ^ 8)) := by
    intro i
    rw [Nat.testBit_two_pow_mul_add _ half, Nat.testBit_two_pow_mul_add _ low, Nat.testBit_mod_two_pow,
      Nat.testBit_div_two_pow]
    by_cases h16 : i < 16
    · by_cases h8 : i < 8
      · have below : ¬ 8 ≤ i := by omega
        simp only [h16, h8, below, if_true, decide_true, Bool.true_and, false_and, if_false]
      · have inside : 8 ≤ i := by omega
        simp only [h16, h8, inside, if_true, if_false, true_and]
    · have above : i - 16 + 16 = i := by omega
      simp only [h16, and_false, if_false, above]
  constructor
  · intro h
    apply Nat.eq_of_testBit_eq
    intro i
    rw [h i, built i]
  · rintro rfl
    exact built

namespace Evaluator

def addHigh (e : Evaluator) (reg : UInt32) (v : UInt64) : Reply UInt64 := do
  let h ← highByte (.ofWord v)
  e.binary .add (.ofInt reg.toNat) (.ofWord h) (.text "dd")

theorem highByte_ofWord (v : UInt64) : highByte (.ofWord v) = pure (Slot.raise v) := by
  rw [highByte, Operand.value_ofWord]
  rfl

theorem addHigh_result (e : Evaluator) (reg : UInt32) (v : UInt64) :
    ∃ r, (e.addHigh reg v).result = .ok r ∧ r.toNat = (reg.toNat + 2 ^ 8 * (v.toNat % 2 ^ 8)) % 2 ^ 32 := by
  have hreg : (Operand.ofInt reg.toNat).value = .ok reg.toUInt64 := by
    rw [← UInt32.toNat_toUInt64]
    exact Operand.value_ofWord _
  have hd : (Size.text "dd").resolve e.standard = .ok .standard := rfl
  obtain ⟨r, hr, hsum⟩ := e.exists_binary_computes .add hreg (Operand.value_ofWord (Slot.raise v)) hd
  refine ⟨r, ?_, ?_⟩
  · rw [addHigh, highByte_ofWord, pure_bind]
    exact hr
  · have hlt := reg.toNat_lt
    simp only [Mnemonic.Computes, BinaryOp.Computes, Designator.standard, Designator.destination,
      Designator.uniform, Slot.width, Width.bits, Slot.field, Slot.raise_toNat, UInt32.toNat_toUInt64] at hsum
    omega

/-- The low half of the register is what an addition to its high byte alone leaves there, and the upper half takes up
the carry, so that the sum is the register with that byte replaced exactly where the byte does not overflow. -/
theorem addHigh_replaces_iff (e : Evaluator) (reg : UInt32) (v : UInt64) :
    ∃ r, (e.addHigh reg v).result = .ok r ∧
      let a := reg.toNat / 256 % 256
      let b := v.toNat % 256
      r.toNat % 2 ^ 16 = 256 * ((a + b) % 256) + reg.toNat % 256 ∧
      r.toNat / 2 ^ 16 = (reg.toNat / 2 ^ 16 + (a + b) / 256) % 2 ^ 16 ∧
      (Slot.HighReplaced reg.toNat ((a + b) % 256) r.toNat ↔ a + b < 256) := by
  obtain ⟨r, hr, hsum⟩ := e.addHigh_result reg v
  have hlt := reg.toNat_lt
  refine ⟨r, hr, ?_, ?_, ?_⟩
  · omega
  · omega
  · rw [Slot.highReplaced_iff (by omega)]
    omega

theorem addHigh_overflowing_byte : ¬ ∀ (e : Evaluator) (reg : UInt32) (v : UInt64),
    ∃ r, (e.addHigh reg v).result = .ok r ∧
      Slot.HighReplaced reg.toNat ((reg.toNat / 256 % 256 + v.toNat % 256) % 256) r.toNat := by
  intro h
  obtain ⟨r, hr, hbits⟩ := h .new 0xFF00 1
  obtain rfl : 0x10000 = r := Except.ok.inj hr
  exact absurd (hbits 16) (by decide)

end Evaluator

end Subregister
