import Subregister.Proofs.Configuration
import Subregister.Proofs.Reference

namespace Subregister

namespace Width

theorem Turned.trans {w a b c : Nat} {k l : Int} (hk : Turned w k a b) (hl : Turned w l b c) :
    Turned w (k + l) a c := by
  intro i
  rw [hl i, hk]
  by_cases hi : i < w
  · have hw : (w : Int) ≠ 0 := by omega
    have below : ((i - l) % w).toNat < w := by
      have := Int.emod_lt_of_pos (i - l) (b := w) (by omega)
      omega
    have index : (((i - l) % w).toNat - k) % w = (i - (k + l)) % w := by
      rw [Int.toNat_of_nonneg (Int.emod_nonneg _ hw), Int.emod_sub_emod]
      congr 1
      omega
    rw [decide_eq_true below, Bool.true_and, index]
  · simp only [hi, decide_false, Bool.false_and]

theorem Turned.eq_truncate {w : Width} {x r : UInt64} {k : Int} (h : Turned w.bits k (w.truncate x).toNat r.toNat)
    (hk : (w.bits : Int) ∣ k) : r = w.truncate x := by
  have still := w.turned_zero (w.truncate_lt x)
  rw [w.truncate_of_lt (w.truncate_lt x)] at still
  have unmoved := h.congr (l := 0) (by rwa [Int.sub_zero])
  exact UInt64.toNat_inj.mp (unmoved.unique still)

theorem bits_dvd_two_pow (w : Width) : w.bits ∣ 2 ^ 64 := by
  cases w <;> decide

theorem bits_dvd_sub_ofInt (w : Width) (z : Int) : (w.bits : Int) ∣ z - (UInt64.ofInt z).toNat := by
  rw [Residue.toNat_ofInt]
  exact Int.dvd_trans (Int.natCast_dvd_natCast.mpr w.bits_dvd_two_pow) Int.dvd_self_sub_emod

end Width

namespace BinaryOp

open Width Residue

theorem turned_rol (w : Width) (p : CountPolicy) (x n : UInt64) :
    Turned w.bits n.toNat (w.truncate x).toNat (rol.apply x n w p).toNat := by
  rw [rol.apply_policy (by decide) (by decide) x n w p .unbounded]
  exact w.turned_rotateLeft (w.truncate_lt x) n

theorem turned_ror (w : Width) (p : CountPolicy) (x n : UInt64) :
    Turned w.bits (-n.toNat) (w.truncate x).toNat (ror.apply x n w p).toNat := by
  rw [ror.apply_policy (by decide) (by decide) x n w p .unbounded]
  exact w.turned_rotateRight (w.truncate_lt x) n

theorem eq_rol_of_turned {w : Width} {x r : UInt64} {z : Int} (p : CountPolicy)
    (h : Turned w.bits z (w.truncate x).toNat r.toNat) : r = rol.apply x (.ofInt z) w p :=
  UInt64.toNat_inj.mp ((h.congr (w.bits_dvd_sub_ofInt z)).unique (turned_rol w p x (.ofInt z)))

theorem rol_rol (w : Width) (p q r : CountPolicy) (x m n : UInt64) :
    rol.apply (rol.apply x m w p) n w q = rol.apply x (m + n) w r := by
  have second := turned_rol w q (rol.apply x m w p) n
  rw [truncate_apply] at second
  rw [eq_rol_of_turned r ((turned_rol w p x m).trans second), UInt64.ofInt_add, ofInt_toNat, ofInt_toNat]

theorem ror_eq_rol_neg (w : Width) (p q : CountPolicy) (x n : UInt64) :
    ror.apply x n w p = rol.apply x (-n) w q := by
  rw [eq_rol_of_turned q (turned_ror w p x n), UInt64.ofInt_neg, ofInt_toNat]

theorem ror_rol (w : Width) (p q : CountPolicy) (x n : UInt64) :
    ror.apply (rol.apply x n w p) n w q = w.truncate x := by
  rw [ror_eq_rol_neg w q q, rol_rol w p q q, UInt64.add_right_neg]
  exact (turned_rol w q x 0).eq_truncate (Int.dvd_zero _)

/-- Whatever policies cut the counts down, they act by rotation as words under wrapping addition, which agree with the
integers modulo any width. -/
theorem rotations_act (w : Width) (p q r : CountPolicy) (x m n : UInt64) :
    rol.apply (rol.apply x m w p) n w q = rol.apply x (m + n) w r ∧
    ror.apply x n w p = rol.apply x (-n) w q ∧
    (w.bits ∣ n.toNat → (rol.apply x n w p).toNat = x.toNat % 2 ^ w.bits ∧
      (ror.apply x n w p).toNat = x.toNat % 2 ^ w.bits) ∧
    (ror.apply (rol.apply x n w p) n w q).toNat = x.toNat % 2 ^ w.bits := by
  rw [← w.truncate_toNat, ror_rol]
  refine ⟨rol_rol w p q r x m n, ror_eq_rol_neg w p q x n, fun h => ?_, rfl⟩
  have whole : (w.bits : Int) ∣ n.toNat := Int.natCast_dvd_natCast.mpr h
  rw [(turned_rol w p x n).eq_truncate whole, (turned_ror w p x n).eq_truncate (Int.dvd_neg.mpr whole)]
  exact ⟨rfl, rfl⟩

theorem rotations_act_around_the_end :
    let x : UInt64 := 0xF0181
    let m : UInt64 := 0xFFFFFFFFFFFFFFFD
    let n : UInt64 := 24
    (rol.apply (rol.apply x m .byte .unbounded) n .byte .hardware = rol.apply x (m + n) .byte .modulo ∧
      m + n = 21) ∧
    Width.byte.bits ∣ n.toNat ∧ (ror.apply x n .byte .unbounded).toNat = 0x81 :=
  have acts := rotations_act .byte .unbounded .hardware .modulo 0xF0181 0xFFFFFFFFFFFFFFFD 24
  have whole : Width.byte.bits ∣ (24 : UInt64).toNat := by decide
  ⟨⟨acts.1, rfl⟩, whole, (acts.2.2.1 whole).2⟩

end BinaryOp

end Subregister
