import Mathlib.Data.Nat.Bitwise
import Subregister.Proofs.HighByte

namespace Subregister

namespace Slot

def wide : List Slot :=
  [word, dword, qword]

theorem le_bits_of_wide {s : Slot} (h : s ∈ wide) : 16 ≤ s.width.bits := by
  cases s
  case low | high => simp [wide] at h
  all_goals decide

theorem field_of_wide {s : Slot} (h : s ∈ wide) (n : Nat) : s.field n = n % 2 ^ s.width.bits := by
  apply field_of_ne_high
  rintro rfl
  simp [wide] at h

theorem field_raise_of_wide {s : Slot} (h : s ∈ wide) (v : UInt64) : s.field (raise v).toNat = v.toNat % 256 * 256 := by
  have room : 2 ^ 16 ≤ 2 ^ s.width.bits := Nat.pow_le_pow_right (by decide) (le_bits_of_wide h)
  rw [field_of_wide h, raise_toNat]
  exact Nat.mod_eq_of_lt (by omega)

namespace HighReplaced

variable {a b x y m n w : Nat}

theorem self (n : Nat) : HighReplaced n (n / 256 % 256) n := by
  rw [highReplaced_iff (by omega)]
  omega

theorem raised (hb : b < 256) : HighReplaced 0 b (b * 256) := by
  rw [highReplaced_iff hb]
  omega

theorem byte_eq (hx : x < 256) (h : HighReplaced a x n) : n / 256 % 256 = x := by
  rw [highReplaced_iff hx] at h
  omega

theorem mod (hw : 16 ≤ w) (h : HighReplaced a x n) : HighReplaced (a % 2 ^ w) x (n % 2 ^ w) := by
  intro i
  rw [Nat.testBit_mod_two_pow, Nat.testBit_mod_two_pow, h i]
  by_cases hi : 8 ≤ i ∧ i < 16
  · have below : i < w := by omega
    simp [hi, below]
  · simp [hi]

theorem bitwise {f : Bool → Bool → Bool} (hf : f false false = false) (h : HighReplaced a x m)
    (k : HighReplaced b y n) : HighReplaced (Nat.bitwise f a b) (Nat.bitwise f x y) (Nat.bitwise f m n) := by
  intro i
  rw [Nat.testBit_bitwise hf, Nat.testBit_bitwise hf, Nat.testBit_bitwise hf, h i, k i]
  split <;> rfl

theorem masked (n : Nat) : HighReplaced (n % 2 ^ 32) 0 ((n % 2 ^ 32) &&& 0xFFFF00FF) := by
  have outside : HighReplaced (2 ^ 32 - 1) 0 0xFFFF00FF := (highReplaced_iff (by decide)).mpr (by decide)
  have met := ((self n).mod (show 16 ≤ 32 by decide)).bitwise (f := and) rfl outside
  change HighReplaced ((n % 2 ^ 32) &&& (2 ^ 32 - 1)) ((n / 256 % 256) &&& 0) _ at met
  rwa [Nat.and_two_pow_sub_one_eq_mod, Nat.mod_mod, Nat.and_zero] at met

end HighReplaced

end Slot

theorem Mnemonic.apply_lt (m : Mnemonic) (x y : UInt64) (w : Width) (p : CountPolicy) :
    (m.apply x y w p).toNat < 2 ^ w.bits := by
  cases m with
  | binary op => exact w.truncate_lt _
  | unary op => exact w.truncate_lt _

def Reply.WritesHigh (r : Reply UInt64) (reg byte : Nat) : Prop :=
  ∃ v, r.result = .ok v ∧ Slot.HighReplaced reg byte v.toNat

namespace Evaluator

open Slot

def injectHigh (e : Evaluator) (op : BinaryOp) (reg v : UInt64) (size : Size) : Reply UInt64 := do
  let high ← highByte (.ofWord v)
  e.binary op (.ofWord reg) (.ofWord high) size

def replaceHigh (e : Evaluator) (reg v : UInt64) : Reply UInt64 := do
  let kept ← e.binary .and (.ofWord reg) (.ofInt 0xFFFF00FF) (.text "dd")
  e.injectHigh .or kept v (.text "dd")

theorem injectHigh_result (e : Evaluator) (op : BinaryOp) (reg v : UInt64) {size : Size} {s t : Slot} (hs : s ∈ wide)
    (ht : t ∈ wide) (hd : size.resolve e.standard = .ok ⟨s, t⟩) :
    ∃ r : UInt64, (e.injectHigh op reg v size).result = .ok r ∧ ∃ c,
      op.Computes s.width.bits (reg.toNat % 2 ^ s.width.bits) (v.toNat % 256 * 256) c r.toNat := by
  obtain ⟨r, hr, computes⟩ := e.exists_binary_computes op (Operand.value_ofWord reg) (Operand.value_ofWord (raise v)) hd
  rw [field_of_wide hs, field_raise_of_wide ht] at computes
  refine ⟨r, ?_, _, computes⟩
  rw [injectHigh, highByte_ofWord, pure_bind]
  exact hr

theorem injectHigh_bitwise (e : Evaluator) (op : BinaryOp) {f : Bool → Bool → Bool} (hf : ∀ p, f p false = p)
    (hop : ∀ w a b c r, op.Computes w a b c r → r = Nat.bitwise f a b % 2 ^ w) {a x : Nat} {reg : UInt64}
    (h : HighReplaced a x reg.toNat) (v : UInt64) {size : Size} {s t : Slot} (hs : s ∈ wide) (ht : t ∈ wide)
    (hd : size.resolve e.standard = .ok ⟨s, t⟩) :
    (e.injectHigh op reg v size).WritesHigh (a % 2 ^ s.width.bits) (Nat.bitwise f x (v.toNat % 256)) := by
  obtain ⟨r, hr, c, computes⟩ := e.injectHigh_result op reg v hs ht hd
  have room := le_bits_of_wide hs
  have met := ((h.mod room).bitwise (hf false) (HighReplaced.raised (Nat.mod_lt v.toNat (by decide)))).mod room
  rw [Nat.bitwise_zero_right, if_pos (hf true), Nat.mod_mod, ← hop _ _ _ _ _ computes] at met
  exact ⟨r, hr, met⟩

theorem injectHigh_add (e : Evaluator) (reg v : UInt64) {size : Size} {t : Slot} (ht : t ∈ wide)
    (hd : size.resolve e.standard = .ok ⟨.word, t⟩) :
    (e.injectHigh .add reg v size).WritesHigh (reg.toNat % 2 ^ 16) ((reg.toNat / 256 % 256 + v.toNat % 256) % 256) := by
  obtain ⟨r, hr, c, computes⟩ := e.injectHigh_result .add reg v (by decide) ht hd
  refine ⟨r, hr, ?_⟩
  simp only [BinaryOp.Computes, Slot.width, Width.bits] at computes
  rw [highReplaced_iff (by omega)]
  omega

theorem injectHigh_sub (e : Evaluator) (reg v : UInt64) {size : Size} {t : Slot} (ht : t ∈ wide)
    (hd : size.resolve e.standard = .ok ⟨.word, t⟩) :
    (e.injectHigh .sub reg v size).WritesHigh (reg.toNat % 2 ^ 16)
      ((((reg.toNat / 256 % 256 : Nat) : Int) - (v.toNat % 256 : Nat)) % 256).toNat := by
  obtain ⟨r, hr, c, computes⟩ := e.injectHigh_result .sub reg v (by decide) ht hd
  refine ⟨r, hr, ?_⟩
  simp only [BinaryOp.Computes, Slot.width, Width.bits] at computes
  rw [highReplaced_iff (by omega)]
  omega

theorem replaceHigh_writes (e : Evaluator) (reg v : UInt64) :
    (e.replaceHigh reg v).WritesHigh (reg.toNat % 2 ^ 32) (v.toNat % 256) := by
  have hd : (Size.text "dd").resolve e.standard = .ok .standard := rfl
  have mask : (Operand.ofInt 0xFFFF00FF).value = .ok 0xFFFF00FF := rfl
  obtain ⟨kept, hkept, computes⟩ := e.exists_binary_computes .and (Operand.value_ofWord reg) mask hd
  have cleared : HighReplaced (reg.toNat % 2 ^ 32) 0 kept.toNat := by
    have cut : kept.toNat = ((reg.toNat % 2 ^ 32) &&& 0xFFFF00FF) % 2 ^ 32 := computes
    have masked := (HighReplaced.masked reg.toNat).mod (show 16 ≤ 32 by decide)
    rwa [Nat.mod_mod, ← cut] at masked
  obtain ⟨r, hr, written⟩ := e.injectHigh_bitwise .or Bool.or_false (fun _ _ _ _ _ h => h) cleared v
    (by decide) (by decide) hd
  refine ⟨r, ?_, ?_⟩
  · rw [replaceHigh, Reply.result_bind hkept]
    exact hr
  · change HighReplaced (reg.toNat % 2 ^ 32 % 2 ^ 32) (0 ||| v.toNat % 256) _ at written
    rwa [Nat.mod_mod, Nat.zero_or] at written

theorem format_high {n r : UInt64} (h : n.toNat / 256 % 256 = r.toNat) :
    (format (.ofWord n) "h").result = .ok r := by
  have read : high.read n = r := by
    apply UInt64.toNat_inj.mp
    rw [read_toNat]
    exact h
  have hs : Slot.parse "h" = .ok high := rfl
  rw [format, hs, Operand.value_ofWord, ← read]
  rfl

theorem lt_of_first_high {e : Evaluator} {c : Call Operand} {q : Request} {r : UInt64}
    (hq : c.request e.standard = some (.ok q)) (hs : q.slots.first = high) (hr : (e.answer c).result = .ok r) :
    r.toNat < 256 := by
  obtain ⟨q', u, v, hq', -, settled⟩ := exists_computed_of_result (by rw [hq]; exact Option.some_ne_none _) hr
  obtain rfl := Except.ok.inj (Option.some.inj (hq.symm.trans hq'))
  have result : r = q.mnemonic.apply (q.slots.first.read u) (q.slots.second.read v) q.slots.destination e.policy := by
    rw [settled, Reply.settle, computed_result] at hr
    exact (Except.ok.inj hr).symm
  have narrow : q.slots.destination = .byte := by rw [Designator.destination, hs]; rfl
  have short := q.mnemonic.apply_lt (q.slots.first.read u) (q.slots.second.read v) q.slots.destination e.policy
  rwa [← result, narrow] at short

/-- No carry can leave the byte in an operation on single bits, nor in a sum or a difference cut where the byte ends;
and a byte taken out by a mask leaves room for any other. -/
theorem writes_high_byte (e : Evaluator) (reg v : UInt64) :
    let a := reg.toNat / 256 % 256
    let b := v.toNat % 256
    (∀ s ∈ wide, ∀ t ∈ wide, ∀ size : Size, size.resolve e.standard = .ok ⟨s, t⟩ →
      (e.injectHigh .or reg v size).WritesHigh (reg.toNat % 2 ^ s.width.bits) (a ||| b) ∧
      (e.injectHigh .xor reg v size).WritesHigh (reg.toNat % 2 ^ s.width.bits) (a ^^^ b)) ∧
    (∀ t ∈ wide, ∀ size : Size, size.resolve e.standard = .ok ⟨.word, t⟩ →
      (e.injectHigh .add reg v size).WritesHigh (reg.toNat % 2 ^ 16) ((a + b) % 256) ∧
      (e.injectHigh .sub reg v size).WritesHigh (reg.toNat % 2 ^ 16) (((a : Int) - b) % 256).toNat) ∧
    (∀ r : UInt64, r.toNat < 256 → ∃ n, (e.replaceHigh reg r).result = .ok n ∧
      HighReplaced (reg.toNat % 2 ^ 32) r.toNat n.toNat ∧ (format (.ofWord n) "h").result = .ok r) ∧
    ∀ c q r, c.request e.standard = some (.ok q) → q.slots.first = high → (e.answer c).result = .ok r →
      r.toNat < 256 := by
  intro a b
  refine ⟨fun s hs t ht size hd => ⟨?_, ?_⟩, fun t ht size hd => ⟨?_, ?_⟩, fun r hr => ?_, ?_⟩
  · exact e.injectHigh_bitwise .or Bool.or_false (fun _ _ _ _ _ h => h) (HighReplaced.self _) v hs ht hd
  · exact e.injectHigh_bitwise .xor Bool.xor_false (fun _ _ _ _ _ h => h) (HighReplaced.self _) v hs ht hd
  · exact e.injectHigh_add reg v ht hd
  · exact e.injectHigh_sub reg v ht hd
  · obtain ⟨n, hn, written⟩ := e.replaceHigh_writes reg r
    rw [Nat.mod_eq_of_lt hr] at written
    exact ⟨n, hn, written, format_high (written.byte_eq hr)⟩
  · exact fun c q r => lt_of_first_high

theorem writes_high_byte_past_its_end :
    let reg : UInt64 := 0xAABBFF11
    let dec : Call Operand := .unary .dec (.ofInt 0xFF11) (.slot .high)
    (Size.text "Wq").resolve Evaluator.new.standard = .ok ⟨.word, .qword⟩ ∧
    (Evaluator.new.injectHigh .or reg 0x302 (.text "Wq")).WritesHigh 0xFF11 0xFF ∧
    (Evaluator.new.injectHigh .add reg 0x302 (.text "Wq")).WritesHigh 0xFF11 0x01 ∧
    ((0x5C : UInt64).toNat < 256 ∧ ∃ n, (Evaluator.new.replaceHigh reg 0x5C).result = .ok n ∧
      HighReplaced 0xAABBFF11 0x5C n.toNat) ∧
    (Evaluator.new.answer dec).result = .ok 0xFE ∧ (0xFE : UInt64).toNat < 256 := by
  intro reg dec
  have hd : (Size.text "Wq").resolve Evaluator.new.standard = .ok ⟨.word, .qword⟩ := rfl
  have byte : (0x5C : UInt64).toNat < 256 := by decide
  have down : (Evaluator.new.answer dec).result = .ok 0xFE := rfl
  obtain ⟨bits, sums, replaced, results⟩ := writes_high_byte .new reg 0x302
  have joined := (bits .word (by decide) .qword (by decide) _ hd).1
  have added := (sums .qword (by decide) _ hd).1
  rw [show reg.toNat % 2 ^ Slot.word.width.bits = 0xFF11 by decide,
    show reg.toNat / 256 % 256 ||| (0x302 : UInt64).toNat % 256 = 0xFF by decide] at joined
  rw [show reg.toNat % 2 ^ 16 = 0xFF11 by decide,
    show (reg.toNat / 256 % 256 + (0x302 : UInt64).toNat % 256) % 256 = 0x01 by decide] at added
  obtain ⟨n, hn, written, -⟩ := replaced 0x5C byte
  exact ⟨hd, joined, added, ⟨byte, n, hn, written⟩, down, results _ _ _ rfl rfl down⟩

end Evaluator

end Subregister
