import Subregister.Proofs.ShiftSums
import Subregister.Proofs.Turning

/-!
Rotations put together from two shifts whose counts make up the width. Where one of the counts is the width itself, the
policies disagree on its shift: some leave nothing of the word and some the whole of it. The other shift, by nothing,
leaves the whole word in any case, and so the two together do.
-/

namespace Subregister

theorem CountPolicy.effective_bits (p : CountPolicy) (w : Width) :
    p.effective (.ofNat w.bits) w = 0 ∨ p.effective (.ofNat w.bits) w = .ofNat w.bits := by
  cases p <;> cases w <;> decide

namespace Shift

variable (s : Shift) (w : Width) (p : CountPolicy) (x : UInt64)

theorem toNat_of_lt {c : UInt64} (hc : c.toNat < w.bits) :
    (s.op.apply x c w p).toNat = s.move w.bits c.toNat x.toNat := by
  rw [s.toNat_apply, p.effective_of_lt hc]

theorem apply_of_effective_zero {c : UInt64} (h : p.effective c w = 0) : s.op.apply x c w p = w.truncate x := by
  apply UInt64.toNat_inj.mp
  rw [s.toNat_apply, h, w.truncate_toNat]
  exact s.move_zero _ _

theorem or_ends (t : Shift) :
    BinaryOp.or.apply (s.op.apply x 0 w p) (t.op.apply x (.ofNat w.bits) w p) w p = w.truncate x := by
  have cut := w.truncate_of_lt (w.truncate_lt x)
  rw [s.apply_of_effective_zero w p x (p.effective_of_lt w.bits_pos), BinaryOp.apply, BinaryOp.compute]
  rcases p.effective_bits w with h | h
  · rw [t.apply_of_effective_zero w p x h, UInt64.or_self, cut]
  · have gone : t.op.apply x (.ofNat w.bits) w p = 0 := by
      apply UInt64.toNat_inj.mp
      rw [t.toNat_apply, h, w.toNat_bits]
      exact t.move_of_le (Nat.le_refl _) _
    rw [gone, UInt64.or_zero, cut]

end Shift

namespace BinaryOp

open Width

theorem or_comm_apply (x y : UInt64) (w : Width) (p : CountPolicy) : or.apply x y w p = or.apply y x w p := by
  rw [apply, apply, compute, compute, UInt64.or_comm]

theorem turned_shl_or_shr (w : Width) (p : CountPolicy) (x : UInt64) {m n : UInt64} (hm : 0 < m.toNat)
    (hn : 0 < n.toNat) (hmn : n.toNat + m.toNat = w.bits) :
    Turned w.bits n.toNat (w.truncate x).toNat (or.apply (shl.apply x n w p) (shr.apply x m w p) w p).toNat := by
  have up : (shl.apply x n w p).toNat = x.toNat * 2 ^ n.toNat % 2 ^ w.bits := Shift.up.toNat_of_lt w p x (by omega)
  have down : (shr.apply x m w p).toNat = x.toNat % 2 ^ w.bits / 2 ^ m.toNat := Shift.down.toNat_of_lt w p x (by omega)
  have rest : w.bits - n.toNat = m.toNat := by omega
  have turned := turned_of_lt (show n.toNat < w.bits by omega) (w.truncate_lt x)
  rw [rest, Nat.shiftLeft_eq, Nat.shiftRight_eq_div_pow, w.truncate_toNat, Nat.or_mod_two_pow,
    Nat.mod_mul_mod] at turned
  rw [apply, compute, w.truncate_toNat, w.truncate_toNat, UInt64.toNat_or, up, down, Nat.or_mod_two_pow, Nat.mod_mod]
  exact turned

theorem rol_eq_shl_or_shr (w : Width) (p : CountPolicy) (x : UInt64) {m n : UInt64}
    (hmn : n.toNat + m.toNat = w.bits) :
    rol.apply x n w p = or.apply (shl.apply x n w p) (shr.apply x m w p) w p := by
  have whole := w.toNat_bits
  rcases Nat.eq_zero_or_pos n.toNat with hn | hn
  · obtain rfl : n = 0 := UInt64.toNat_inj.mp hn
    obtain rfl : m = .ofNat w.bits := UInt64.toNat_inj.mp (by omega)
    have still : rol.apply x 0 w p = w.truncate x := (turned_rol w p x 0).eq_truncate (Int.dvd_zero _)
    exact still.trans (Shift.up.or_ends w p x .down).symm
  rcases Nat.eq_zero_or_pos m.toNat with hm | hm
  · obtain rfl : m = 0 := UInt64.toNat_inj.mp hm
    obtain rfl : n = .ofNat w.bits := UInt64.toNat_inj.mp (by omega)
    have around : rol.apply x (.ofNat w.bits) w p = w.truncate x := by
      apply (turned_rol w p x _).eq_truncate
      exact ⟨1, by rw [whole, Int.mul_one]⟩
    rw [or_comm_apply]
    exact around.trans (Shift.down.or_ends w p x .up).symm
  · exact UInt64.toNat_inj.mp ((turned_rol w p x n).unique (turned_shl_or_shr w p x hm hn hmn))

theorem ror_eq_rol_rest (w : Width) (p : CountPolicy) (x : UInt64) {m n : UInt64} (hmn : n.toNat + m.toNat = w.bits) :
    ror.apply x n w p = rol.apply x m w p := by
  have around : (w.bits : Int) ∣ -n.toNat - m.toNat := ⟨-1, by omega⟩
  exact UInt64.toNat_inj.mp (((turned_ror w p x n).congr around).unique (turned_rol w p x m))

theorem rotations_by_hand (w : Width) (p : CountPolicy) (x n : UInt64) (hn : n.toNat ≤ w.bits) :
    let rest := UInt64.ofNat w.bits - n
    rol.apply x n w p = or.apply (shl.apply x n w p) (shr.apply x rest w p) w p ∧
    ror.apply x n w p = or.apply (shr.apply x n w p) (shl.apply x rest w p) w p := by
  intro rest
  have hrest : rest.toNat = w.bits - n.toNat := w.toNat_bits_sub hn
  have left : n.toNat + rest.toNat = w.bits := by omega
  have right : rest.toNat + n.toNat = w.bits := by omega
  refine ⟨rol_eq_shl_or_shr w p x left, ?_⟩
  rw [ror_eq_rol_rest w p x left, rol_eq_shl_or_shr w p x right, or_comm_apply]

theorem rotations_by_hand_at_the_ends :
    let x : UInt64 := 0x5DEADBEEF
    (0 : UInt64).toNat ≤ Width.word.bits ∧ (32 : UInt64).toNat ≤ Width.dword.bits ∧
    shr.apply x 16 .word .hardware = 0 ∧ shl.apply x 32 .dword .hardware = 0xDEADBEEF ∧
    rol.apply x 0 .word .hardware = or.apply (shl.apply x 0 .word .hardware) (shr.apply x 16 .word .hardware) .word
      .hardware ∧
    ror.apply x 32 .dword .hardware = or.apply (shr.apply x 32 .dword .hardware) (shl.apply x 0 .dword .hardware) .dword
      .hardware := by
  intro x
  have first : (0 : UInt64).toNat ≤ Width.word.bits := by decide
  have last : (32 : UInt64).toNat ≤ Width.dword.bits := by decide
  exact ⟨first, last, by decide, by decide, (rotations_by_hand .word .hardware x 0 first).1,
    (rotations_by_hand .dword .hardware x 32 last).2⟩

end BinaryOp

end Subregister
