import Subregister.Proofs.Evaluation
import Subregister.Proofs.Residue
import Subregister.Proofs.Rotation

namespace Subregister

def CountPolicy.reduce (p : CountPolicy) (w n : Nat) : Nat :=
  match p with
  | hardware => n % if w = 64 then 64 else 32
  | modulo => n % w
  | unbounded => n

def BinaryOp.Computes (op : BinaryOp) (w a b c r : Nat) : Prop :=
  match op with
  | add => (r : Int) = (a + b) % 2 ^ w
  | sub => (r : Int) = (a - b) % 2 ^ w
  | and => r = (a &&& b) % 2 ^ w
  | or => r = (a ||| b) % 2 ^ w
  | xor => r = (a ^^^ b) % 2 ^ w
  | shl => r = a * 2 ^ c % 2 ^ w
  | shr => r = a / 2 ^ c
  | rol => Width.Turned w c a r
  | ror => Width.Turned w (-c) a r

def UnaryOp.integer (op : UnaryOp) (a : Int) : Int :=
  match op with
  | inc => a + 1
  | dec => a - 1
  | not => -a - 1
  | neg => -a

def Mnemonic.Computes (m : Mnemonic) (p : CountPolicy) (w a b r : Nat) : Prop :=
  match m with
  | binary op => op.Computes w a b (p.reduce w b) r
  | unary op => (r : Int) = op.integer a % 2 ^ w

theorem CountPolicy.toNat_effective (p : CountPolicy) (c : UInt64) (w : Width) :
    (p.effective c w).toNat = p.reduce w.bits c.toNat := by
  cases p with
  | hardware =>
    rw [hardware_toNat]
    cases w <;> rfl
  | modulo => exact modulo_toNat c w
  | unbounded => rfl

namespace Width

theorem Turned.unique {w a r s : Nat} {k : Int} (hr : Turned w k a r) (hs : Turned w k a s) : r = s := by
  apply Nat.eq_of_testBit_eq
  intro i
  rw [hr i, hs i]

end Width

theorem BinaryOp.truncate_apply (op : BinaryOp) (x y : UInt64) (w : Width) (p : CountPolicy) :
    w.truncate (op.apply x y w p) = op.apply x y w p :=
  w.truncate_of_lt (w.truncate_lt _)

theorem UnaryOp.truncate_apply (op : UnaryOp) (x : UInt64) (w : Width) : w.truncate (op.apply x w) = op.apply x w :=
  w.truncate_of_lt (w.truncate_lt _)

open Residue in
theorem BinaryOp.computes_apply (op : BinaryOp) (w : Width) (p : CountPolicy) {x : UInt64}
    (hx : x.toNat < 2 ^ w.bits) (y : UInt64) :
    op.Computes w.bits x.toNat y.toNat (p.reduce w.bits y.toNat) (op.apply x y w p).toNat := by
  have cut := w.truncate_of_lt hx
  rw [← p.toNat_effective, apply]
  cases op with
  | add =>
    rw [compute, add_eq_ofInt]
    exact truncate_ofInt w _
  | sub =>
    rw [compute, sub_eq_ofInt]
    exact truncate_ofInt w _
  | and =>
    rw [compute, Width.truncate_toNat, UInt64.toNat_and]
    rfl
  | or =>
    rw [compute, Width.truncate_toNat, UInt64.toNat_or]
    rfl
  | xor =>
    rw [compute, Width.truncate_toNat, UInt64.toNat_xor]
    rfl
  | shl => exact w.toNat_shiftLeft x _
  | shr =>
    have low := w.toNat_shiftRight hx (p.effective y w)
    have hlt : (w.shiftRight x (p.effective y w)).toNat < 2 ^ w.bits := by
      rw [low]
      exact Nat.lt_of_le_of_lt (Nat.div_le_self _ _) hx
    rw [compute, cut, w.truncate_of_lt hlt]
    exact low
  | rol =>
    rw [compute, cut]
    exact w.turned_rotateLeft hx _
  | ror =>
    rw [compute, cut]
    exact w.turned_rotateRight hx _

open Residue in
theorem UnaryOp.compute_eq_ofInt (op : UnaryOp) (x : UInt64) : op.compute x = UInt64.ofInt (op.integer x.toNat) := by
  cases op with
  | inc => rw [compute, integer, UInt64.ofInt_add, ofInt_toNat, UInt64.ofInt_one]
  | dec => rw [compute, integer, ofInt_sub, ofInt_toNat, UInt64.ofInt_one]
  | not => rw [compute, integer, ofInt_sub, UInt64.ofInt_neg, ofInt_toNat, UInt64.ofInt_one,
      UInt64.not_eq_neg_sub]
  | neg => rw [compute, integer, UInt64.ofInt_neg, ofInt_toNat, UInt64.zero_sub]

theorem UnaryOp.toNat_apply (op : UnaryOp) (w : Width) (x : UInt64) :
    ((op.apply x w).toNat : Int) = op.integer x.toNat % 2 ^ w.bits := by
  rw [apply, compute_eq_ofInt]
  exact Residue.truncate_ofInt w _

namespace Mnemonic

theorem computes_apply (m : Mnemonic) (w : Width) (p : CountPolicy) {x : UInt64} (hx : x.toNat < 2 ^ w.bits)
    (y : UInt64) : m.Computes p w.bits x.toNat y.toNat (m.apply x y w p).toNat := by
  cases m with
  | binary op => exact op.computes_apply w p hx y
  | unary op => exact op.toNat_apply w x

theorem Computes.unique {m : Mnemonic} {p : CountPolicy} {w a b r s : Nat} (hr : m.Computes p w a b r)
    (hs : m.Computes p w a b s) : r = s := by
  cases m with
  | binary op =>
    cases op
    case rol | ror => exact Width.Turned.unique hr hs
    case add | sub => exact Int.ofNat.inj (hr.trans hs.symm)
    all_goals exact Eq.trans hr (Eq.symm hs)
  | unary op => exact Int.ofNat.inj (hr.trans hs.symm)

end Mnemonic

namespace Evaluator

theorem exists_result_computes (e : Evaluator) {m : Mnemonic} {x : Operand} {y : Option Operand} {u v : UInt64}
    (h : Operand.Valued m x y u v) (d : Designator) :
    ∃ r : UInt64, (e.apply m x y d).result = .ok r ∧
      m.Computes e.policy d.destination.bits (d.first.field u.toNat) (d.second.field v.toNat) r.toNat := by
  refine ⟨(e.computed m d (d.first.read u) (d.second.read v)).result, ?_, ?_⟩
  · rw [apply_eq_settle, e.trace_of_valued d h]
    rfl
  · have hlt : (d.first.read u).toNat < 2 ^ d.destination.bits := by
      rw [Slot.read_toNat]
      exact d.first.field_lt u.toNat
    rw [computed_result, ← Slot.read_toNat, ← Slot.read_toNat]
    exact m.computes_apply d.destination e.policy hlt (d.second.read v)

theorem exists_binary_computes (e : Evaluator) (op : BinaryOp) {x y : Operand} {size : Size} {u v : UInt64}
    {d : Designator} (hx : x.value = .ok u) (hy : y.value = .ok v) (hd : size.resolve e.standard = .ok d) :
    ∃ r, (e.binary op x y size).result = .ok r ∧ Mnemonic.Computes (.binary op) e.policy d.destination.bits
      (d.first.field u.toNat) (d.second.field v.toNat) r.toNat := by
  rw [binary, resolve, hd]
  exact e.exists_result_computes ⟨hx, fun _ => ⟨y, rfl, hy⟩⟩ d

theorem exists_unary_computes (e : Evaluator) (op : UnaryOp) {x : Operand} {size : Size} {u : UInt64}
    {d : Designator} (hx : x.value = .ok u) (hd : size.resolve e.standard = .ok d) :
    ∃ r, (e.unary op x size).result = .ok r ∧
      (r.toNat : Int) = op.integer (d.first.field u.toNat) % 2 ^ d.destination.bits := by
  rw [unary, resolve, hd]
  exact e.exists_result_computes (m := .unary op) (v := 0) ⟨hx, fun h => by cases h⟩ d

end Evaluator

end Subregister
