import Subregister.Proofs.Narrowing

/-!
Chains of operations that come to the same. What a chain comes to is settled up to a multiple of the power of two of its
slot, so that an identity of integers, or one between the sum of two numbers and their bits, carries over to the chains
that spell its two sides.
-/

namespace Subregister

theorem Slot.field_modEq {s : Slot} (hs : s ≠ high) (n : Nat) : s.field n ≡ n [ZMOD 2 ^ s.width.bits] := by
  rw [field_of_ne_high hs, Int.natCast_emod, Int.natCast_pow]
  exact Int.mod_modEq _ _

inductive Formula
  | operand (x : Operand)
  | unary (op : UnaryOp) (x : Formula)
  | binary (op : BinaryOp) (x y : Formula)

namespace Formula

def run (e : Evaluator) (size : Size) : Formula → Reply Operand
  | operand x => pure x
  | unary op x => do return .ofWord (← e.unary op (← x.run e size) size)
  | binary op x y => do return .ofWord (← e.binary op (← x.run e size) (← y.run e size) size)

def one : Formula :=
  operand (.ofInt 1)

def differences (x y : Formula) : List Formula :=
  [binary .sub x y, binary .add x (unary .neg y), unary .not (binary .add (unary .not x) y)]

def opposites (x : Formula) : List Formula :=
  [unary .neg x, unary .inc (unary .not x), unary .not (unary .dec x)]

def sums (x y : Formula) : List Formula :=
  [binary .add x y, binary .add (binary .xor x y) (binary .shl (binary .and x y) one),
    binary .add (binary .or x y) (binary .and x y)]

def exclusions (x y : Formula) : List Formula :=
  [binary .xor x y, binary .sub (binary .or x y) (binary .and x y)]

def Agree (e : Evaluator) (size : Size) (fs : List Formula) : Prop :=
  ∃ r, ∀ f ∈ fs, (f.run e size).result = .ok (.ofWord r)

def ComesTo (e : Evaluator) (size : Size) (w : Nat) (f : Formula) (z : Int) : Prop :=
  ∃ x v, (f.run e size).result = .ok x ∧ x.value = .ok v ∧ v.toNat ≡ z [ZMOD 2 ^ w]

def Yields (e : Evaluator) (size : Size) (w : Nat) (f : Formula) (z : Int) : Prop :=
  ∃ r, (f.run e size).result = .ok (.ofWord r) ∧ (r.toNat : Int) = z % 2 ^ w

theorem xor_or_and_add (a b : Nat) : (a ^^^ b) + 2 * (a &&& b) = a + b ∧ (a ||| b) + (a &&& b) = a + b := by
  -- The lowest bits make up a half adder; the rest is the same for the halves.
  induction a using Nat.strong_induction_on generalizing b with
  | _ a ih =>
    by_cases ha : a = 0
    · simp [ha]
    · obtain ⟨carried, met⟩ := ih (a / 2) (by omega) (b / 2)
      rw [← Nat.xor_div_two, ← Nat.and_div_two] at carried
      rw [← Nat.or_div_two, ← Nat.and_div_two] at met
      have xor := Nat.xor_mod_two_eq_one (a := a) (b := b)
      have and := Nat.and_mod_two_eq_one (a := a) (b := b)
      have or := Nat.or_mod_two_eq_one (a := a) (b := b)
      omega

section

variable {e : Evaluator} {size : Size} {w : Nat} {f x y : Formula} {a b : Int}

theorem Yields.comesTo (h : Yields e size w f a) : ComesTo e size w f a := by
  obtain ⟨r, hr, ha⟩ := h
  exact ⟨_, r, hr, Operand.value_ofWord r, ha ▸ Int.mod_modEq a _⟩

theorem Yields.congr (h : Yields e size w f a) (hab : a = b) : Yields e size w f b :=
  hab ▸ h

theorem agree_of_yields {fs : List Formula} (hf : fs ≠ []) (h : ∀ f ∈ fs, Yields e size w f a) :
    Agree e size fs := by
  obtain ⟨f, hf⟩ := List.exists_mem_of_ne_nil fs hf
  obtain ⟨r, -, hr⟩ := h f hf
  refine ⟨r, fun g hg => ?_⟩
  obtain ⟨r', hg, hr'⟩ := h g hg
  obtain rfl : r' = r := UInt64.toNat_inj.mp (Int.ofNat_inj.mp (hr'.trans hr.symm))
  exact hg

end

section

variable {e : Evaluator} {size : Size} {s : Slot} (hs : s ≠ .high) (hd : size.resolve e.standard = .ok (.uniform s))
variable {x y : Formula} {a b : Int}
include hs hd

theorem yields_unary (op : UnaryOp) (hx : ComesTo e size s.width.bits x a) :
    Yields e size s.width.bits (unary op x) (op.integer a) := by
  obtain ⟨x', v, hrun, hv, ha⟩ := hx
  obtain ⟨r, hr, computes⟩ := e.exists_unary_computes op hv hd
  refine ⟨r, ?_, ?_⟩
  · rw [run, Reply.result_bind hrun, Reply.result_bind hr]
    rfl
  · exact computes.trans (op.integer_modEq ((Slot.field_modEq hs _).trans ha))

theorem exists_binary (op : BinaryOp) (hx : ComesTo e size s.width.bits x a) (hy : ComesTo e size s.width.bits y b) :
    ∃ r : UInt64, ((binary op x y).run e size).result = .ok (.ofWord r) ∧ ∃ m n : Nat,
      op.Computes s.width.bits m n (e.policy.reduce s.width.bits n) r.toNat ∧
      (m ≡ a [ZMOD 2 ^ s.width.bits] ∧ m < 2 ^ s.width.bits) ∧
      n ≡ b [ZMOD 2 ^ s.width.bits] ∧ n < 2 ^ s.width.bits := by
  obtain ⟨x', u, runx, hu, ha⟩ := hx
  obtain ⟨y', v, runy, hv, hb⟩ := hy
  obtain ⟨r, hr, computes⟩ := e.exists_binary_computes op hu hv hd
  refine ⟨r, ?_, _, _, computes, ⟨(Slot.field_modEq hs _).trans ha, s.field_lt _⟩,
    (Slot.field_modEq hs _).trans hb, s.field_lt _⟩
  rw [run, Reply.result_bind runx, Reply.result_bind runy, Reply.result_bind hr]
  rfl

theorem yields_add (hx : ComesTo e size s.width.bits x a) (hy : ComesTo e size s.width.bits y b) :
    Yields e size s.width.bits (binary .add x y) (a + b) := by
  obtain ⟨r, hr, m, n, sum, ⟨hm, -⟩, hn, -⟩ := exists_binary hs hd .add hx hy
  exact ⟨r, hr, Eq.trans sum (hm.add hn)⟩

theorem yields_sub (hx : ComesTo e size s.width.bits x a) (hy : ComesTo e size s.width.bits y b) :
    Yields e size s.width.bits (binary .sub x y) (a - b) := by
  obtain ⟨r, hr, m, n, difference, ⟨hm, -⟩, hn, -⟩ := exists_binary hs hd .sub hx hy
  exact ⟨r, hr, Eq.trans difference (hm.sub hn)⟩

theorem yields_double (hx : ComesTo e size s.width.bits x a) :
    Yields e size s.width.bits (binary .shl x one) (2 * a) := by
  have first : ComesTo e size s.width.bits one (1 : Nat) := ⟨_, 1, rfl, rfl, Int.ModEq.refl 1⟩
  obtain ⟨r, hr, m, n, moved, ⟨hm, -⟩, hn, short⟩ := exists_binary hs hd .shl hx first
  have long : 1 < 2 ^ s.width.bits := Nat.one_lt_two_pow s.width.bits_pos.ne'
  obtain rfl : n = 1 := (Int.natCast_modEq_iff.mp hn).eq_of_lt_of_lt short long
  have count : e.policy.reduce s.width.bits 1 = 1 := by
    cases e.policy <;> cases s <;> rfl
  have doubled : r.toNat = 2 * m % 2 ^ s.width.bits := by
    rw [count] at moved
    rw [Nat.mul_comm]
    exact moved
  refine ⟨r, hr, ?_⟩
  rw [doubled]
  push_cast
  exact hm.mul_left 2

theorem yields_bitwise (op : BinaryOp) (f : Nat → Nat → Nat)
    (hop : ∀ w a b c r, op.Computes w a b c r → r = f a b % 2 ^ w) {a b : Nat} (ha : a < 2 ^ s.width.bits)
    (hb : b < 2 ^ s.width.bits) (hx : ComesTo e size s.width.bits x a) (hy : ComesTo e size s.width.bits y b) :
    Yields e size s.width.bits (binary op x y) (f a b) := by
  obtain ⟨r, hr, m, n, bits, ⟨hm, shortm⟩, hn, shortn⟩ := exists_binary hs hd op hx hy
  obtain rfl : m = a := (Int.natCast_modEq_iff.mp hm).eq_of_lt_of_lt shortm ha
  obtain rfl : n = b := (Int.natCast_modEq_iff.mp hn).eq_of_lt_of_lt shortn hb
  refine ⟨r, hr, ?_⟩
  rw [hop _ _ _ _ _ bits]
  push_cast
  rfl

omit hd in
theorem comesTo_operand {x : Operand} {u : UInt64} (hx : x.value = .ok u) :
    ComesTo e size s.width.bits (operand x) (s.field u.toNat) :=
  ⟨x, u, rfl, hx, (Slot.field_modEq hs _).symm⟩

theorem agree_differences (hx : ComesTo e size s.width.bits x a) (hy : ComesTo e size s.width.bits y b) :
    Agree e size (differences x y) := by
  have opposite := (yields_unary hs hd .neg hy).comesTo
  have complement := (yields_unary hs hd .not hx).comesTo
  have sum := (yields_add hs hd complement hy).comesTo
  apply agree_of_yields (a := a - b) (List.cons_ne_nil _ _)
  simp only [List.forall_mem_cons]
  refine ⟨yields_sub hs hd hx hy, (yields_add hs hd hx opposite).congr ?_, (yields_unary hs hd .not sum).congr ?_,
    List.forall_mem_nil _⟩
  · simp only [UnaryOp.integer]
    omega
  · simp only [UnaryOp.integer]
    omega

theorem agree_opposites (hx : ComesTo e size s.width.bits x a) : Agree e size (opposites x) := by
  have complement := (yields_unary hs hd .not hx).comesTo
  have lower := (yields_unary hs hd .dec hx).comesTo
  apply agree_of_yields (a := -a) (List.cons_ne_nil _ _)
  simp only [List.forall_mem_cons]
  refine ⟨yields_unary hs hd .neg hx, (yields_unary hs hd .inc complement).congr ?_,
    (yields_unary hs hd .not lower).congr ?_, List.forall_mem_nil _⟩
  · simp only [UnaryOp.integer]
    omega
  · simp only [UnaryOp.integer]
    omega

section

variable {a b : Nat} (ha : a < 2 ^ s.width.bits) (hb : b < 2 ^ s.width.bits)
variable (hx : ComesTo e size s.width.bits x a) (hy : ComesTo e size s.width.bits y b)
include ha hb hx hy

theorem yields_and : Yields e size s.width.bits (binary .and x y) (a &&& b : Nat) :=
  yields_bitwise hs hd .and (· &&& ·) (fun _ _ _ _ _ h => h) ha hb hx hy

theorem yields_or : Yields e size s.width.bits (binary .or x y) (a ||| b : Nat) :=
  yields_bitwise hs hd .or (· ||| ·) (fun _ _ _ _ _ h => h) ha hb hx hy

theorem yields_xor : Yields e size s.width.bits (binary .xor x y) (a ^^^ b : Nat) :=
  yields_bitwise hs hd .xor (· ^^^ ·) (fun _ _ _ _ _ h => h) ha hb hx hy

theorem agree_sums : Agree e size (sums x y) := by
  have common := (yields_and hs hd ha hb hx hy).comesTo
  have union := (yields_or hs hd ha hb hx hy).comesTo
  have unlike := (yields_xor hs hd ha hb hx hy).comesTo
  have carry := (yields_double hs hd common).comesTo
  obtain ⟨carried, met⟩ := xor_or_and_add a b
  apply agree_of_yields (a := a + b) (List.cons_ne_nil _ _)
  simp only [List.forall_mem_cons]
  refine ⟨yields_add hs hd hx hy, (yields_add hs hd unlike carry).congr ?_, (yields_add hs hd union common).congr ?_,
    List.forall_mem_nil _⟩
  · omega
  · omega

theorem agree_exclusions : Agree e size (exclusions x y) := by
  have common := (yields_and hs hd ha hb hx hy).comesTo
  have union := (yields_or hs hd ha hb hx hy).comesTo
  obtain ⟨carried, met⟩ := xor_or_and_add a b
  apply agree_of_yields (a := (a ^^^ b : Nat)) (List.cons_ne_nil _ _)
  simp only [List.forall_mem_cons]
  refine ⟨yields_xor hs hd ha hb hx hy, (yields_sub hs hd union common).congr ?_, List.forall_mem_nil _⟩
  omega

end

theorem chains_agree {x y : Operand} {u v : UInt64} (hx : x.value = .ok u) (hy : y.value = .ok v) :
    Agree e size (differences (operand x) (operand y)) ∧ Agree e size (opposites (operand x)) ∧
    Agree e size (sums (operand x) (operand y)) ∧ Agree e size (exclusions (operand x) (operand y)) := by
  have first : ComesTo e size s.width.bits (operand x) (s.field u.toNat) := comesTo_operand hs hx
  have second : ComesTo e size s.width.bits (operand y) (s.field v.toNat) := comesTo_operand hs hy
  have shortx := s.field_lt u.toNat
  have shorty := s.field_lt v.toNat
  exact ⟨agree_differences hs hd first second, agree_opposites hs hd first,
    agree_sums hs hd shortx shorty first second, agree_exclusions hs hd shortx shorty first second⟩

end

theorem chains_agree_past_the_width :
    let e : Evaluator := ⟨.modulo, .standard⟩
    let size : Size := .text "W"
    let x : Formula := operand (.literal "-0x1_2345")
    let y : Formula := operand (.bytes [0xFF, 0xFF, 0x80, 0x01])
    Slot.word ≠ .high ∧ size.resolve e.standard = .ok (.uniform .word) ∧
    (Operand.literal "-0x1_2345").value = .ok (0 - 0x12345) ∧
    (Operand.bytes [0xFF, 0xFF, 0x80, 0x01]).value = .ok 0xFFFF8001 ∧
    Agree e size (differences x y) ∧ Agree e size (opposites x) ∧ Agree e size (sums x y) ∧
    Agree e size (exclusions x y) := by
  intro e size x y
  have narrow : Slot.word ≠ .high := by decide
  have letter : size.resolve e.standard = .ok (.uniform .word) := rfl
  have hx : (Operand.literal "-0x1_2345").value = .ok (0 - 0x12345) := by rfl
  have hy : (Operand.bytes [0xFF, 0xFF, 0x80, 0x01]).value = .ok 0xFFFF8001 := by rfl
  exact ⟨narrow, letter, hx, hy, chains_agree narrow letter hx hy⟩

example : ((unary .neg (operand (.ofInt 0x0200))).run .new (.slot .high)).result = .ok (.ofWord 0xFE) ∧
    ((unary .not (unary .dec (operand (.ofInt 0x0200)))).run .new (.slot .high)).result = .ok (.ofWord 0xFF) := by
  decide

end Formula

end Subregister
