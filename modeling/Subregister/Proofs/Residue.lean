import Mathlib.Algebra.Group.Int.Defs
import Mathlib.Algebra.Group.Nat.Defs
import Mathlib.Data.Int.Basic
import Subregister.Designator

namespace Subregister

namespace Width

theorem mask_toNat (w : Width) : w.mask.toNat = 2 ^ w.bits - 1 := by
  cases w <;> rfl

theorem truncate_toNat (w : Width) (v : UInt64) : (w.truncate v).toNat = v.toNat % 2 ^ w.bits := by
  rw [truncate, UInt64.toNat_and, mask_toNat, Nat.and_two_pow_sub_one_eq_mod]

theorem truncate_lt (w : Width) (v : UInt64) : (w.truncate v).toNat < 2 ^ w.bits := by
  rw [truncate_toNat]
  exact Nat.mod_lt _ (Nat.two_pow_pos _)

theorem truncate_of_lt (w : Width) {v : UInt64} (hv : v.toNat < 2 ^ w.bits) : w.truncate v = v := by
  apply UInt64.toNat_inj.mp
  rw [truncate_toNat, Nat.mod_eq_of_lt hv]

end Width

namespace Slot

def field : Slot → Nat → Nat
  | high, n => n / 256 % 256
  | s, n => n % 2 ^ s.width.bits

theorem field_lt (s : Slot) (n : Nat) : s.field n < 2 ^ s.width.bits := by
  cases s
  all_goals exact Nat.mod_lt _ (by decide)

theorem field_of_ne_high {s : Slot} (hs : s ≠ high) (n : Nat) : s.field n = n % 2 ^ s.width.bits := by
  cases s
  case high => exact absurd rfl hs
  all_goals rfl

theorem low_byte_toNat (v : UInt64) : (v &&& 0xFF).toNat = v.toNat % 256 :=
  Width.truncate_toNat .byte v

theorem read_toNat (s : Slot) (v : UInt64) : (s.read v).toNat = s.field v.toNat := by
  cases s
  case high =>
    have shifted : (v >>> 8).toNat = v.toNat / 256 := by
      rw [UInt64.toNat_shiftRight]
      exact Nat.shiftRight_eq_div_pow _ 8
    change ((v >>> 8) &&& 0xFF).toNat = _
    rw [low_byte_toNat, shifted, field]
  all_goals exact Width.truncate_toNat _ v

theorem raise_toNat (v : UInt64) : (raise v).toNat = v.toNat % 256 * 256 := by
  rw [raise, UInt64.toNat_shiftLeft, low_byte_toNat]
  simp [Nat.shiftLeft_eq]
  omega

theorem read_read {s : Slot} (hs : s ≠ high) (v : UInt64) : s.read (s.read v) = s.read v := by
  apply UInt64.toNat_inj.mp
  rw [read_toNat, read_toNat, field_of_ne_high hs, field_of_ne_high hs, Nat.mod_mod]

theorem read_raise_read (v : UInt64) : high.read (raise (high.read v)) = high.read v := by
  apply UInt64.toNat_inj.mp
  rw [read_toNat, read_toNat, raise_toNat, read_toNat]
  simp only [field]
  omega

end Slot

namespace Residue

theorem toNat_ofInt (z : Int) : ((UInt64.ofInt z).toNat : Int) = z % 2 ^ 64 := by
  have h : 0 ≤ z % 2 ^ 64 := Int.emod_nonneg z (by decide)
  rw [UInt64.ofInt, UInt64.toNat_ofNat', Int.natCast_emod, Int.toNat_of_nonneg h]
  exact Int.emod_emod_of_dvd z (Int.dvd_refl _)

theorem eq_ofInt_iff (v : UInt64) (z : Int) : v = UInt64.ofInt z ↔ (v.toNat : Int) = z % 2 ^ 64 := by
  rw [← toNat_ofInt, Int.ofNat_inj, UInt64.toNat_inj]

theorem ofInt_natCast (n : Nat) : UInt64.ofInt n = UInt64.ofNat n := by
  symm
  rw [eq_ofInt_iff, UInt64.toNat_ofNat']
  rfl

theorem ofInt_toNat (v : UInt64) : UInt64.ofInt v.toNat = v := by
  rw [ofInt_natCast, UInt64.ofNat_toNat]

theorem ofInt_sub (a b : Int) : UInt64.ofInt (a - b) = UInt64.ofInt a - UInt64.ofInt b := by
  rw [Int.sub_eq_add_neg, UInt64.ofInt_add, UInt64.ofInt_neg, UInt64.sub_eq_add_neg]

theorem add_eq_ofInt (x y : UInt64) : x + y = UInt64.ofInt (x.toNat + y.toNat) := by
  rw [UInt64.ofInt_add, ofInt_toNat, ofInt_toNat]

theorem sub_eq_ofInt (x y : UInt64) : x - y = UInt64.ofInt (x.toNat - y.toNat) := by
  rw [ofInt_sub, ofInt_toNat, ofInt_toNat]

theorem toNat_ofInt_emod {k : Nat} (hk : k ≤ 64) (z : Int) : ((UInt64.ofInt z).toNat : Int) % 2 ^ k = z % 2 ^ k := by
  have hd : ((2 ^ k : Nat) : Int) ∣ ((2 ^ 64 : Nat) : Int) := Int.natCast_dvd_natCast.mpr (Nat.pow_dvd_pow 2 hk)
  rw [toNat_ofInt]
  rw [Int.natCast_pow] at hd
  exact Int.emod_emod_of_dvd z hd

theorem truncate_ofInt (w : Width) (z : Int) : ((w.truncate (UInt64.ofInt z)).toNat : Int) = z % 2 ^ w.bits := by
  rw [Width.truncate_toNat, Int.natCast_emod, ← toNat_ofInt_emod w.bits_le z, Int.natCast_pow]
  rfl

end Residue

end Subregister
