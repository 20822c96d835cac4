import Mathlib.Algebra.GroupWithZero.Nat
import Subregister.Proofs.Reference

namespace Subregister

inductive Shift
  | up | down

namespace Shift

def op : Shift → BinaryOp
  | up => .shl
  | down => .shr

def move (s : Shift) (w n a : Nat) : Nat :=
  match s with
  | up => a * 2 ^ n % 2 ^ w
  | down => a % 2 ^ w / 2 ^ n

theorem move_zero (s : Shift) (w a : Nat) : s.move w 0 a = a % 2 ^ w := by
  cases s with
  | up => rw [move, Nat.pow_zero, Nat.mul_one]
  | down => rw [move, Nat.pow_zero, Nat.div_one]

theorem move_lt (s : Shift) (w n a : Nat) : s.move w n a < 2 ^ w := by
  have cut (b : Nat) : b % 2 ^ w < 2 ^ w := Nat.mod_lt b (Nat.two_pow_pos w)
  cases s with
  | up => exact cut _
  | down => exact Nat.lt_of_le_of_lt (Nat.div_le_self _ _) (cut a)

theorem move_mod (s : Shift) (w n a : Nat) : s.move w n (a % 2 ^ w) = s.move w n a := by
  cases s with
  | up => rw [move, move, Nat.mod_mul_mod]
  | down => rw [move, move, Nat.mod_mod]

theorem move_move (s : Shift) (w m n a : Nat) : s.move w n (s.move w m a) = s.move w (m + n) a := by
  cases s with
  | up => rw [move, move, move, Nat.mod_mul_mod, Nat.mul_assoc, ← Nat.pow_add]
  | down =>
    have short : a % 2 ^ w / 2 ^ m < 2 ^ w := down.move_lt w m a
    rw [move, move, move, Nat.mod_eq_of_lt short, Nat.div_div_eq_div_mul, ← Nat.pow_add]

theorem move_of_le (s : Shift) {w n : Nat} (h : w ≤ n) (a : Nat) : s.move w n a = 0 := by
  cases s with
  | up => exact Nat.mod_eq_zero_of_dvd (Nat.dvd_mul_left_of_dvd (Nat.pow_dvd_pow 2 h) a)
  | down =>
    exact Nat.div_eq_of_lt (Nat.lt_of_lt_of_le (Nat.mod_lt a (Nat.two_pow_pos w)) (Nat.pow_le_pow_right (by decide) h))

theorem move_min (s : Shift) {w m : Nat} (h : w ≤ m) (n a : Nat) : s.move w (min n m) a = s.move w n a := by
  rcases Nat.le_total n m with hn | hn
  · rw [Nat.min_eq_left hn]
  · rw [Nat.min_eq_right hn, s.move_of_le h, s.move_of_le (Nat.le_trans h hn)]

theorem toNat_apply (s : Shift) (w : Width) (p : CountPolicy) (x c : UInt64) :
    (s.op.apply x c w p).toNat = s.move w.bits (p.effective c w).toNat x.toNat := by
  cases s with
  | up => exact w.toNat_shiftLeft x _
  | down =>
    have short := down.move_lt w.bits (p.effective c w).toNat x.toNat
    rw [op, BinaryOp.apply, BinaryOp.compute, w.truncate_toNat, w.toNat_shiftRight (w.truncate_lt x), w.truncate_toNat]
    exact Nat.mod_eq_of_lt short

end Shift

def BinaryOp.inTurn (op : BinaryOp) (w : Width) (p : CountPolicy) (v : UInt64) (counts : List UInt64) : UInt64 :=
  counts.foldl (fun v c => op.apply v c w p) v

def CountPolicy.total (p : CountPolicy) (w : Width) (counts : List UInt64) : Nat :=
  (counts.map fun c => (p.effective c w).toNat).sum

namespace Shift

theorem toNat_inTurn (s : Shift) (w : Width) (p : CountPolicy) (x : UInt64) (counts : List UInt64) :
    (s.op.inTurn w p (w.truncate x) counts).toNat = s.move w.bits (p.total w counts) x.toNat := by
  -- Between two shifts there is a word within the width, so that what is said of `x` cut short can be said of it.
  induction counts generalizing x with
  | nil => rw [CountPolicy.total, List.map_nil, List.sum_nil, s.move_zero, ← w.truncate_toNat]; rfl
  | cons c counts ih =>
    have next := ih (s.op.apply (w.truncate x) c w p)
    rw [s.op.truncate_apply, s.toNat_apply, w.truncate_toNat, s.move_mod, s.move_move] at next
    rw [CountPolicy.total, List.map_cons, List.sum_cons]
    exact next

theorem inTurn_eq (s : Shift) (w : Width) (p : CountPolicy) (x : UInt64) (counts : List UInt64) :
    s.op.inTurn w p (w.truncate x) counts =
      s.op.apply x (.ofNat (min (p.total w counts) (2 ^ 64 - 1))) w .unbounded := by
  have whole : w.bits ≤ 2 ^ 64 - 1 := Nat.le_trans w.bits_le (by decide)
  apply UInt64.toNat_inj.mp
  rw [toNat_inTurn, toNat_apply, CountPolicy.effective, UInt64.toNat_ofNat', Nat.mod_eq_of_lt (by omega),
    s.move_min whole]

theorem toNat_unbounded (s : Shift) (w : Width) (x n : UInt64) :
    (s.op.apply x n w .unbounded).toNat = s.move w.bits n.toNat x.toNat :=
  s.toNat_apply w .unbounded x n

theorem down_up (w n a : Nat) : down.move w n (up.move w n a) = a % 2 ^ (w - n) := by
  rcases Nat.le_total n w with h | h
  · have split : 2 ^ w = 2 ^ (w - n) * 2 ^ n := by rw [← Nat.pow_add, Nat.sub_add_cancel h]
    rw [move, move, Nat.mod_mod, split, Nat.mul_mod_mul_right, Nat.mul_div_cancel _ (Nat.two_pow_pos n)]
  · rw [down.move_of_le h, Nat.sub_eq_zero_of_le h, Nat.pow_zero, Nat.mod_one]

theorem testBit_up_down (w n a i : Nat) :
    (up.move w n (down.move w n a)).testBit i = (decide (n ≤ i) && (a % 2 ^ w).testBit i) := by
  have short : a % 2 ^ w / 2 ^ n * 2 ^ n < 2 ^ w :=
    Nat.lt_of_le_of_lt (Nat.div_mul_le_self _ _) (Nat.mod_lt a (Nat.two_pow_pos w))
  rw [move, move, Nat.mod_eq_of_lt short, Nat.testBit_mul_two_pow, Nat.testBit_div_two_pow]
  by_cases h : n ≤ i
  · rw [Nat.sub_add_cancel h]
  · simp [h]

/-- Shifts of one kind add up, whatever policy cuts their counts, and of a shift there and back an end of the word
remains. -/
theorem shifts_add_up (w : Width) (x : UInt64) :
    (∀ (p : CountPolicy) (counts : List UInt64),
      let start : UInt64 := .ofNat (x.toNat % 2 ^ w.bits)
      let sum : UInt64 := .ofNat (min (p.total w counts) (2 ^ 64 - 1))
      BinaryOp.shl.inTurn w p start counts = BinaryOp.shl.apply x sum w .unbounded ∧
      BinaryOp.shr.inTurn w p start counts = BinaryOp.shr.apply x sum w .unbounded) ∧
    ∀ n : UInt64,
      let back := BinaryOp.shr.apply (BinaryOp.shl.apply x n w .unbounded) n w .unbounded
      let forth := BinaryOp.shl.apply (BinaryOp.shr.apply x n w .unbounded) n w .unbounded
      back.toNat = x.toNat % 2 ^ (w.bits - n.toNat) ∧
      (∀ i, forth.toNat.testBit i = (decide (n.toNat ≤ i) && (x.toNat % 2 ^ w.bits).testBit i)) ∧
      (w.bits ≤ n.toNat → back = 0 ∧ forth = 0) := by
  constructor
  · intro p counts
    rw [← w.truncate_toNat, UInt64.ofNat_toNat]
    exact ⟨up.inTurn_eq w p x counts, down.inTurn_eq w p x counts⟩
  · intro n back forth
    have hback : back.toNat = down.move w.bits n.toNat (up.move w.bits n.toNat x.toNat) := by
      rw [← toNat_unbounded, ← toNat_unbounded]
      rfl
    have hforth : forth.toNat = up.move w.bits n.toNat (down.move w.bits n.toNat x.toNat) := by
      rw [← toNat_unbounded, ← toNat_unbounded]
      rfl
    refine ⟨?_, ?_, fun hn => ⟨UInt64.toNat_inj.mp ?_, UInt64.toNat_inj.mp ?_⟩⟩
    · rw [hback, down_up]
    · intro i
      rw [hforth, testBit_up_down]
    · rw [hback, down.move_of_le hn]
      rfl
    · rw [hforth, up.move_of_le hn]
      rfl

theorem shifts_add_up_beyond_a_word :
    let x : UInt64 := 0xF0181
    let counts : List UInt64 := [3, 0xFFFFFFFFFFFFFFFF, 9]
    let start : UInt64 := .ofNat (x.toNat % 2 ^ Width.word.bits)
    let sum (p : CountPolicy) : UInt64 := .ofNat (min (p.total .word counts) (2 ^ 64 - 1))
    let back := BinaryOp.shr.apply (BinaryOp.shl.apply x 40 .word .unbounded) 40 .word .unbounded
    sum .unbounded = 0xFFFFFFFFFFFFFFFF ∧ sum .modulo = 27 ∧
    BinaryOp.shl.inTurn .word .unbounded start counts = BinaryOp.shl.apply x (sum .unbounded) .word .unbounded ∧
    BinaryOp.shr.inTurn .word .modulo start counts = BinaryOp.shr.apply x (sum .modulo) .word .unbounded ∧
    Width.word.bits ≤ (40 : UInt64).toNat ∧ back = 0 := by
  intro x counts start sum back
  have sums := (shifts_add_up .word x).1
  have past : Width.word.bits ≤ (40 : UInt64).toNat := by decide
  exact ⟨by decide, by decide, (sums .unbounded counts).1, (sums .modulo counts).2, past,
    (((shifts_add_up .word x).2 40).2.2 past).1⟩

end Shift

end Subregister
