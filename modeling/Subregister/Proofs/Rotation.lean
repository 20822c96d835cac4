import Subregister.Operation
import Subregister.Proofs.Residue

namespace Subregister.Width

/-- Each bit of `a` below the width moves up by `k` places, around the end, and no other bit is set. -/
def Turned (w : Nat) (k : Int) (a r : Nat) : Prop :=
  ∀ i : Nat, r.testBit i = (decide (i < w) && a.testBit (((i - k) % w).toNat))

theorem Turned.congr {w a r : Nat} {k l : Int} (h : Turned w k a r) (hkl : (w : Int) ∣ k - l) : Turned w l a r := by
  intro i
  have he : k % w = l % w := Int.emod_eq_emod_iff_emod_sub_eq_zero.mpr (Int.emod_eq_zero_of_dvd hkl)
  rw [h i, Int.sub_emod, he, ← Int.sub_emod]

theorem turned_of_lt {w n a : Nat} (hn : n < w) (ha : a < 2 ^ w) :
    Turned w n a ((a <<< n ||| a >>> (w - n)) % 2 ^ w) := by
  intro i
  rw [Nat.testBit_mod_two_pow]
  by_cases hi : i < w
  -- From `n` on, a bit has moved up from below; the first `n` have come around from the top.
  · simp only [hi, decide_true, Bool.true_and, Nat.testBit_or, Nat.testBit_shiftLeft, Nat.testBit_shiftRight]
    by_cases hin : n ≤ i
    · have index : ((i - n : Int) % w).toNat = i - n := by
        rw [Int.emod_eq_of_lt (by omega) (by omega)]
        omega
      have above : a.testBit (w - n + i) = false :=
        Nat.testBit_lt_two_pow (Nat.lt_of_lt_of_le ha (Nat.pow_le_pow_right (by decide) (by omega)))
      simp only [ge_iff_le, hin, decide_true, Bool.true_and, above, Bool.or_false, index]
    · have index : ((i - n : Int) % w).toNat = w - n + i := by
        rw [← Int.add_emod_right, Int.emod_eq_of_lt (by omega) (by omega)]
        omega
      simp only [ge_iff_le, hin, decide_false, Bool.false_and, Bool.false_or, index]
  · simp only [hi, decide_false, Bool.false_and]

theorem toNat_bits (w : Width) : (UInt64.ofNat w.bits).toNat = w.bits := by
  cases w <;> rfl

theorem toNat_mod_bits (w : Width) (c : UInt64) : (c % UInt64.ofNat w.bits).toNat = c.toNat % w.bits := by
  rw [UInt64.toNat_mod, toNat_bits]

theorem toNat_mod_bits_lt (w : Width) (c : UInt64) : (c % UInt64.ofNat w.bits).toNat < w.bits := by
  rw [toNat_mod_bits]
  exact Nat.mod_lt _ w.bits_pos

theorem toNat_bits_sub (w : Width) {k : UInt64} (hk : k.toNat ≤ w.bits) :
    (UInt64.ofNat w.bits - k).toNat = w.bits - k.toNat := by
  have hle : k ≤ UInt64.ofNat w.bits := by rwa [UInt64.le_iff_toNat_le, toNat_bits]
  rw [UInt64.toNat_sub_of_le _ _ hle, toNat_bits]

theorem bits_dvd_sub_mod (w : Width) (c : UInt64) :
    (w.bits : Int) ∣ c.toNat - (c % UInt64.ofNat w.bits).toNat := by
  rw [toNat_mod_bits, Int.natCast_emod]
  exact Int.dvd_self_sub_emod

theorem two_pow_bits_dvd (w : Width) : 2 ^ w.bits ∣ 2 ^ 64 :=
  Nat.pow_dvd_pow 2 w.bits_le

theorem ofNat_bits_le_iff (w : Width) (c : UInt64) : UInt64.ofNat w.bits ≤ c ↔ w.bits ≤ c.toNat := by
  rw [UInt64.le_iff_toNat_le, toNat_bits]

theorem toNat_shiftLeft (w : Width) (v c : UInt64) :
    (w.truncate (w.shiftLeft v c)).toNat = v.toNat * 2 ^ c.toNat % 2 ^ w.bits := by
  rw [truncate_toNat]
  by_cases h : w.bits ≤ c.toNat
  · have hd : 2 ^ w.bits ∣ v.toNat * 2 ^ c.toNat := Nat.dvd_trans (Nat.pow_dvd_pow 2 h) (Nat.dvd_mul_left _ _)
    rw [shiftLeft, if_pos ((w.ofNat_bits_le_iff c).mpr h), Nat.mod_eq_zero_of_dvd hd]
    exact Nat.zero_mod _
  · have hc : c.toNat < 64 := by
      have := w.bits_le
      omega
    rw [shiftLeft, if_neg (fun hle => h ((w.ofNat_bits_le_iff c).mp hle)), UInt64.toNat_shiftLeft,
      Nat.mod_eq_of_lt hc, Nat.mod_mod_of_dvd _ w.two_pow_bits_dvd, Nat.shiftLeft_eq]

theorem toNat_shiftRight (w : Width) {v : UInt64} (hv : v.toNat < 2 ^ w.bits) (c : UInt64) :
    (w.shiftRight v c).toNat = v.toNat / 2 ^ c.toNat := by
  by_cases h : w.bits ≤ c.toNat
  · rw [shiftRight, if_pos ((w.ofNat_bits_le_iff c).mpr h)]
    exact (Nat.div_eq_of_lt (Nat.lt_of_lt_of_le hv (Nat.pow_le_pow_right (by decide) h))).symm
  · have hc : c.toNat < 64 := by
      have := w.bits_le
      omega
    rw [shiftRight, if_neg (fun hle => h ((w.ofNat_bits_le_iff c).mp hle)), UInt64.toNat_shiftRight,
      Nat.mod_eq_of_lt hc, Nat.shiftRight_eq_div_pow]

theorem turned_or_shifts (w : Width) {v k : UInt64} (hv : v.toNat < 2 ^ w.bits) (hpos : 0 < k.toNat)
    (hk : k.toNat < w.bits) :
    Turned w.bits k.toNat v.toNat (w.truncate (v <<< k ||| v >>> (UInt64.ofNat w.bits - k))).toNat := by
  have hle := w.bits_le
  have hk64 : k.toNat % 64 = k.toNat := Nat.mod_eq_of_lt (by omega)
  have hrest := w.toNat_bits_sub (Nat.le_of_lt hk)
  have hrest64 : (w.bits - k.toNat) % 64 = w.bits - k.toNat := Nat.mod_eq_of_lt (by omega)
  rw [truncate_toNat, UInt64.toNat_or, UInt64.toNat_shiftLeft, UInt64.toNat_shiftRight, hk64, hrest, hrest64,
    Nat.or_mod_two_pow, Nat.mod_mod_of_dvd _ w.two_pow_bits_dvd, ← Nat.or_mod_two_pow]
  exact turned_of_lt hk hv

theorem turned_zero (w : Width) {v : UInt64} (hv : v.toNat < 2 ^ w.bits) :
    Turned w.bits 0 v.toNat (w.truncate v).toNat := by
  have h := turned_of_lt w.bits_pos hv
  rwa [Nat.shiftLeft_zero, Nat.sub_zero, Nat.shiftRight_eq_div_pow, Nat.div_eq_of_lt hv, Nat.or_zero,
    ← truncate_toNat] at h

theorem turned_rotateLeft (w : Width) {v : UInt64} (hv : v.toNat < 2 ^ w.bits) (c : UInt64) :
    Turned w.bits c.toNat v.toNat (w.truncate (w.rotateLeft v c)).toNat := by
  have hd := w.bits_dvd_sub_mod c
  have hlt := w.toNat_mod_bits_lt c
  rw [rotateLeft]
  generalize c % UInt64.ofNat w.bits = n at hd hlt ⊢
  by_cases hz : n = 0
  · subst hz
    rw [← Int.dvd_neg, Int.neg_sub] at hd
    exact (w.turned_zero hv).congr hd
  · have hpos : n.toNat ≠ 0 := fun h => hz (UInt64.toNat_inj.mp h)
    rw [← Int.dvd_neg, Int.neg_sub] at hd
    simp only [hz, if_false]
    exact (w.turned_or_shifts hv (by omega) hlt).congr hd

theorem turned_rotateRight (w : Width) {v : UInt64} (hv : v.toNat < 2 ^ w.bits) (c : UInt64) :
    Turned w.bits (-c.toNat) v.toNat (w.truncate (w.rotateRight v c)).toNat := by
  have hd := w.bits_dvd_sub_mod c
  have hlt := w.toNat_mod_bits_lt c
  rw [rotateRight]
  generalize c % UInt64.ofNat w.bits = n at hd hlt ⊢
  by_cases hz : n = 0
  · subst hz
    apply (w.turned_zero hv).congr
    simpa using hd
  · have hpos : n.toNat ≠ 0 := fun h => hz (UInt64.toNat_inj.mp h)
    have hrest := w.toNat_bits_sub (Nat.le_of_lt hlt)
    have hback : UInt64.ofNat w.bits - (UInt64.ofNat w.bits - n) = n := by
      apply UInt64.toNat_inj.mp
      rw [w.toNat_bits_sub (by omega), hrest]
      omega
    have h := w.turned_or_shifts hv (k := UInt64.ofNat w.bits - n) (by omega) (by omega)
    rw [hback, hrest, UInt64.or_comm] at h
    simp only [hz, if_false]
    apply h.congr
    have he : ((w.bits - n.toNat : Nat) : Int) - -c.toNat = w.bits + (c.toNat - n.toNat) := by omega
    rw [he]
    exact Int.dvd_add (Int.dvd_refl _) hd

end Subregister.Width
