import Mathlib.Data.Int.ModEq
import Subregister.Proofs.Reference

/-!
Expressions computed at a wide width and cut to a narrow one at the end. No bit of a sum, a difference, a negation, a
bitwise operation or a shift to the left depends on a higher bit of an operand, so that the cuts at the inner nodes can
all be left to the last, provided that both widths make the same use of the count of a shift.
-/

namespace Subregister

def BinaryOp.isLocal : BinaryOp → Bool
  | add | sub | and | or | xor => true
  | shl | shr | rol | ror => false

inductive Expression
  | leaf (v : UInt64)
  | unary (op : UnaryOp) (x : Expression)
  | binary (op : BinaryOp) (isLocal : op.isLocal = true) (x y : Expression)
  | shl (x : Expression) (count : UInt64)

def Expression.evaluate (w : Width) (p : CountPolicy) : Expression → UInt64
  | leaf v => v
  | unary op x => op.apply (x.evaluate w p) w
  | binary op _ x y => op.apply (x.evaluate w p) (y.evaluate w p) w p
  | shl x count => BinaryOp.shl.apply (x.evaluate w p) count w p

namespace Width

theorem truncate_truncate {v w : Width} (h : v.bits ≤ w.bits) (x : UInt64) :
    v.truncate (w.truncate x) = v.truncate x := by
  apply UInt64.toNat_inj.mp
  rw [truncate_toNat, truncate_toNat, truncate_toNat, Nat.mod_mod_of_dvd _ (Nat.pow_dvd_pow 2 h)]

theorem truncate_eq_iff {w : Width} {x y : UInt64} :
    w.truncate x = w.truncate y ↔ x.toNat % 2 ^ w.bits = y.toNat % 2 ^ w.bits := by
  rw [← truncate_toNat, ← truncate_toNat, UInt64.toNat_inj]

theorem truncate_ofInt_eq_iff {w : Width} {a b : Int} :
    w.truncate (.ofInt a) = w.truncate (.ofInt b) ↔ a ≡ b [ZMOD 2 ^ w.bits] := by
  rw [← UInt64.toNat_inj, ← Int.ofNat_inj, Residue.truncate_ofInt, Residue.truncate_ofInt, Int.ModEq]

theorem modEq_of_truncate_eq {w : Width} {x y : UInt64} (h : w.truncate x = w.truncate y) :
    x.toNat ≡ y.toNat [ZMOD 2 ^ w.bits] := by
  rwa [← truncate_ofInt_eq_iff, Residue.ofInt_toNat, Residue.ofInt_toNat]

end Width

section

variable {w : Width} {x x' y y' : UInt64}

theorem UnaryOp.integer_modEq (op : UnaryOp) {n a b : Int} (h : a ≡ b [ZMOD n]) :
    op.integer a ≡ op.integer b [ZMOD n] := by
  cases op with
  | inc => exact h.add_right 1
  | dec => exact h.sub_right 1
  | not => exact h.neg.sub_right 1
  | neg => exact h.neg

theorem UnaryOp.truncate_compute (op : UnaryOp) (hx : w.truncate x = w.truncate x') :
    w.truncate (op.compute x) = w.truncate (op.compute x') := by
  rw [compute_eq_ofInt, compute_eq_ofInt, Width.truncate_ofInt_eq_iff]
  exact op.integer_modEq (Width.modEq_of_truncate_eq hx)

theorem BinaryOp.truncate_compute {op : BinaryOp} (h : op.isLocal = true) (hx : w.truncate x = w.truncate x')
    (hy : w.truncate y = w.truncate y') (v v' : Width) (p : CountPolicy) :
    w.truncate (op.compute x y v p) = w.truncate (op.compute x' y' v' p) := by
  have hxi := Width.modEq_of_truncate_eq hx
  have hyi := Width.modEq_of_truncate_eq hy
  rw [Width.truncate_eq_iff] at hx hy
  cases op with
  | add =>
    rw [compute, compute, Residue.add_eq_ofInt, Residue.add_eq_ofInt x', Width.truncate_ofInt_eq_iff]
    exact hxi.add hyi
  | sub =>
    rw [compute, compute, Residue.sub_eq_ofInt, Residue.sub_eq_ofInt x', Width.truncate_ofInt_eq_iff]
    exact hxi.sub hyi
  | and =>
    rw [compute, compute, Width.truncate_eq_iff, UInt64.toNat_and, UInt64.toNat_and, Nat.and_mod_two_pow, hx, hy,
      ← Nat.and_mod_two_pow]
  | or =>
    rw [compute, compute, Width.truncate_eq_iff, UInt64.toNat_or, UInt64.toNat_or, Nat.or_mod_two_pow, hx, hy,
      ← Nat.or_mod_two_pow]
  | xor =>
    rw [compute, compute, Width.truncate_eq_iff, UInt64.toNat_xor, UInt64.toNat_xor, Nat.xor_mod_two_pow, hx, hy,
      ← Nat.xor_mod_two_pow]
  | shl | shr | rol | ror => cases h

theorem Width.truncate_shiftLeft (hx : w.truncate x = w.truncate x') (c : UInt64) {w' : Width}
    (hw : w.bits ≤ w'.bits) : w.truncate (w.shiftLeft x c) = w.truncate (w'.truncate (w'.shiftLeft x' c)) := by
  rw [truncate_eq_iff] at hx
  apply UInt64.toNat_inj.mp
  rw [toNat_shiftLeft, truncate_toNat, toNat_shiftLeft, Nat.mod_mod_of_dvd _ (Nat.pow_dvd_pow 2 hw), Nat.mul_mod, hx,
    ← Nat.mul_mod]

end

theorem CountPolicy.effective_eq {w w' : Width} {p : CountPolicy} (hw : w.bits ≤ w'.bits)
    (hp : p = .unbounded ∨ p = .hardware ∧ w'.bits ≤ 32) (c : UInt64) : p.effective c w = p.effective c w' := by
  rcases hp with rfl | ⟨rfl, hw'⟩
  · rfl
  · have narrow {v : Width} (h : v.bits ≤ 32) : v ≠ .qword := by
      rintro rfl
      exact absurd h (by decide)
    rw [effective, effective, if_neg (narrow (hw.trans hw')), if_neg (narrow hw')]

namespace Expression

theorem truncate_evaluate {w w' : Width} {p : CountPolicy} (hw : w.bits ≤ w'.bits)
    (hp : p = .unbounded ∨ p = .hardware ∧ w'.bits ≤ 32) (t : Expression) :
    w.truncate (t.evaluate w p) = w.truncate (t.evaluate w' p) := by
  -- The operands of a node agree below the narrow width only: what stands above it in the wide ones must not come down.
  induction t with
  | leaf v => rfl
  | unary op x ih =>
    rw [evaluate, evaluate, op.truncate_apply, UnaryOp.apply, UnaryOp.apply, Width.truncate_truncate hw]
    exact op.truncate_compute ih
  | binary op h x y ihx ihy =>
    rw [evaluate, evaluate, op.truncate_apply, BinaryOp.apply, BinaryOp.apply, Width.truncate_truncate hw]
    exact BinaryOp.truncate_compute h ihx ihy w w' p
  | shl x count ih =>
    rw [evaluate, evaluate, BinaryOp.truncate_apply, BinaryOp.apply, BinaryOp.apply, BinaryOp.compute,
      BinaryOp.compute, CountPolicy.effective_eq hw hp]
    exact Width.truncate_shiftLeft ih _ hw

theorem truncate_evaluate_self {t : Expression} (h : ∀ v, t ≠ leaf v) (w : Width) (p : CountPolicy) :
    w.truncate (t.evaluate w p) = t.evaluate w p := by
  cases t with
  | leaf v => exact absurd rfl (h v)
  | unary op x => exact op.truncate_apply _ w
  | binary op _ x y => exact op.truncate_apply _ _ w p
  | shl x count => exact BinaryOp.truncate_apply _ _ _ w p

theorem evaluate_cut_once {w w' : Width} {p : CountPolicy} (hw : w.bits ≤ w'.bits)
    (hp : p = .unbounded ∨ p = .hardware ∧ w'.bits ≤ 32) (t : Expression) :
    w.truncate (t.evaluate w p) = t.evaluate w' p &&& w.mask ∧
    ((∀ v, t ≠ leaf v) → t.evaluate w p = t.evaluate w' p &&& w.mask) := by
  have cut := truncate_evaluate hw hp t
  refine ⟨cut, fun h => ?_⟩
  rw [← truncate_evaluate_self h w p]
  exact cut

theorem evaluate_cut_once_between_widths :
    let t : Expression := binary .sub rfl (shl (unary .not (leaf 0xDEADBEEFCAFE)) 17)
      (unary .neg (binary .xor rfl (leaf 0x3000F0F3) (unary .inc (leaf 0xFFFF))))
    t.evaluate .word .hardware = 0xF0F3 ∧ t.evaluate .dword .hardware = 0x9A03F0F3 ∧
      t.evaluate .word .hardware = t.evaluate .dword .hardware &&& Width.word.mask := by
  intro t
  have narrower : Width.word.bits ≤ Width.dword.bits := by decide
  have steady : CountPolicy.hardware = .unbounded ∨ CountPolicy.hardware = .hardware ∧ Width.dword.bits ≤ 32 :=
    .inr ⟨rfl, by decide⟩
  have inner (v : UInt64) : t ≠ leaf v := Expression.noConfusion
  exact ⟨by decide, by decide, (evaluate_cut_once narrower steady t).2 inner⟩

example : (shl (leaf 1) 32).evaluate .byte .hardware = 1 ∧
    (shl (leaf 1) 32).evaluate .qword .hardware &&& Width.byte.mask = 0 := by
  decide

end Expression

end Subregister
