import Subregister.Evaluator
import Subregister.Proofs.LiteralOffsets
import Subregister.Proofs.Rotation

/-!
Calls carried out with every step checked that a processor or a text can refuse: shifts by 64 bits or more,
differences below zero, remainders by zero, and reads and cuts of a text. No check ever fails, whatever the
evaluator and the call, and the replies are those of the evaluator.
-/

namespace Subregister.Checked

def shl (v n : UInt64) : Except Trap UInt64 :=
  if n < 64 then .ok (v <<< n) else .error .overlongShift

def shr (v n : UInt64) : Except Trap UInt64 :=
  if n < 64 then .ok (v >>> n) else .error .overlongShift

def rem (v n : UInt64) : Except Trap UInt64 :=
  if n = 0 then .error .zeroDivisor else .ok (v % n)

def sub (m n : UInt64) : Except Trap UInt64 :=
  if n ≤ m then .ok (m - n) else .error .underflow

def effective (p : CountPolicy) (count : UInt64) (w : Width) : Except Trap UInt64 :=
  match p with
  | .modulo => rem count (UInt64.ofNat w.bits)
  | .hardware | .unbounded => return p.effective count w

def shiftLeft (w : Width) (v count : UInt64) : Except Trap UInt64 :=
  if UInt64.ofNat w.bits ≤ count then return 0 else shl v count

def shiftRight (w : Width) (v count : UInt64) : Except Trap UInt64 :=
  if UInt64.ofNat w.bits ≤ count then return 0 else shr v count

def rotateLeft (w : Width) (v count : UInt64) : Except Trap UInt64 := do
  let n ← rem count (UInt64.ofNat w.bits)
  if n = 0 then return v else return (← shl v n) ||| (← shr v (← sub (UInt64.ofNat w.bits) n))

def rotateRight (w : Width) (v count : UInt64) : Except Trap UInt64 := do
  let n ← rem count (UInt64.ofNat w.bits)
  if n = 0 then return v else return (← shr v n) ||| (← shl v (← sub (UInt64.ofNat w.bits) n))

def compute (op : BinaryOp) (x y : UInt64) (w : Width) (p : CountPolicy) : Except Trap UInt64 :=
  match op with
  | .shl => do shiftLeft w x (← effective p y w)
  | .shr => do shiftRight w (w.truncate x) (← effective p y w)
  | .rol => do rotateLeft w (w.truncate x) (← effective p y w)
  | .ror => do rotateRight w (w.truncate x) (← effective p y w)
  -- The others wrap around or go bit by bit, and have nothing to check.
  | .add | .sub | .and | .or | .xor => return op.compute x y w p

def apply (m : Mnemonic) (x y : UInt64) (w : Width) (p : CountPolicy) : Except Trap UInt64 := do
  match m with
  | .binary op => return w.truncate (← compute op x y w p)
  | .unary op => return op.apply x w

theorem shl_of_lt {n : UInt64} (h : n.toNat < 64) (v : UInt64) : shl v n = .ok (v <<< n) :=
  if_pos (UInt64.lt_iff_toNat_lt.mpr h)

theorem shr_of_lt {n : UInt64} (h : n.toNat < 64) (v : UInt64) : shr v n = .ok (v >>> n) :=
  if_pos (UInt64.lt_iff_toNat_lt.mpr h)

theorem rem_bits (w : Width) (v : UInt64) : rem v (UInt64.ofNat w.bits) = .ok (v % UInt64.ofNat w.bits) :=
  if_neg (by cases w <;> decide)

theorem sub_of_le {m n : UInt64} (h : n.toNat ≤ m.toNat) : sub m n = .ok (m - n) :=
  if_pos (UInt64.le_iff_toNat_le.mpr h)

example : shl 1 64 = .error .overlongShift ∧ rem 1 0 = .error .zeroDivisor ∧ sub 0 1 = .error .underflow := by decide

theorem effective_eq (p : CountPolicy) (count : UInt64) (w : Width) :
    effective p count w = .ok (p.effective count w) := by
  cases p with
  | modulo => exact rem_bits w count
  | hardware | unbounded => rfl

theorem lt_of_not_bits_le {w : Width} {n : UInt64} (h : ¬ UInt64.ofNat w.bits ≤ n) : n.toNat < 64 := by
  have := w.bits_le
  rw [w.ofNat_bits_le_iff] at h
  omega

theorem shiftLeft_eq (w : Width) (v n : UInt64) : shiftLeft w v n = .ok (w.shiftLeft v n) := by
  rw [shiftLeft, Width.shiftLeft]
  split
  next => rfl
  next h => exact shl_of_lt (lt_of_not_bits_le h) v

theorem shiftRight_eq (w : Width) (v n : UInt64) : shiftRight w v n = .ok (w.shiftRight v n) := by
  rw [shiftRight, Width.shiftRight]
  split
  next => rfl
  next h => exact shr_of_lt (lt_of_not_bits_le h) v

theorem rotation_amounts (w : Width) (c : UInt64) (h : c % UInt64.ofNat w.bits ≠ 0) :
    (c % UInt64.ofNat w.bits).toNat < 64 ∧
      sub (UInt64.ofNat w.bits) (c % UInt64.ofNat w.bits) = .ok (UInt64.ofNat w.bits - c % UInt64.ofNat w.bits) ∧
      (UInt64.ofNat w.bits - c % UInt64.ofNat w.bits).toNat < 64 := by
  have hlt := w.toNat_mod_bits_lt c
  have hle := w.bits_le
  have hpos : (c % UInt64.ofNat w.bits).toNat ≠ 0 := fun hz => h (UInt64.toNat_inj.mp hz)
  refine ⟨by omega, sub_of_le (by rw [w.toNat_bits]; omega), ?_⟩
  rw [w.toNat_bits_sub (Nat.le_of_lt hlt)]
  omega

theorem rotateLeft_eq (w : Width) (v c : UInt64) : rotateLeft w v c = .ok (w.rotateLeft v c) := by
  rw [rotateLeft, rem_bits, ok_bind, Width.rotateLeft]
  by_cases h : c % UInt64.ofNat w.bits = 0
  · simp only [h, if_true]
    rfl
  · obtain ⟨front, difference, back⟩ := rotation_amounts w c h
    simp only [h, if_false, shl_of_lt front, difference, ok_bind, shr_of_lt back]
    rfl

theorem rotateRight_eq (w : Width) (v c : UInt64) : rotateRight w v c = .ok (w.rotateRight v c) := by
  rw [rotateRight, rem_bits, ok_bind, Width.rotateRight]
  by_cases h : c % UInt64.ofNat w.bits = 0
  · simp only [h, if_true]
    rfl
  · obtain ⟨front, difference, back⟩ := rotation_amounts w c h
    simp only [h, if_false, shr_of_lt front, difference, ok_bind, shl_of_lt back]
    rfl

theorem compute_eq (op : BinaryOp) (x y : UInt64) (w : Width) (p : CountPolicy) :
    compute op x y w p = .ok (op.compute x y w p) := by
  cases op with
  | add | sub | and | or | xor => rfl
  | shl => rw [compute, effective_eq, ok_bind, shiftLeft_eq, BinaryOp.compute]
  | shr => rw [compute, effective_eq, ok_bind, shiftRight_eq, BinaryOp.compute]
  | rol => rw [compute, effective_eq, ok_bind, rotateLeft_eq, BinaryOp.compute]
  | ror => rw [compute, effective_eq, ok_bind, rotateRight_eq, BinaryOp.compute]

theorem apply_eq (m : Mnemonic) (x y : UInt64) (w : Width) (p : CountPolicy) :
    apply m x y w p = .ok (m.apply x y w p) := by
  cases m with
  | binary op =>
    rw [apply, compute_eq]
    rfl
  | unary op => rfl

def bigEndian (data : List UInt8) : Except Trap UInt64 :=
  data.foldlM (fun v b => return (← shl v 8) ||| b.toUInt64) 0

def value : Operand → Except Trap (Except Error UInt64)
  | .integer bits => return (Operand.integer bits).value
  | .literal text => parse text
  | .bytes data => return .ok (← bigEndian data)

def readSlot (s : Slot) (v : UInt64) : Except Trap UInt64 :=
  match s.mode with
  | .highByte => return (← shr v 8) &&& 0xFF
  | .lowByte | .full => return s.truncate v

def raise (v : UInt64) : Except Trap UInt64 :=
  shl (v &&& 0xFF) 8

def read (x : Operand) (s : Slot) : ExceptT Error (Except Trap) UInt64 := do
  let v ← ExceptT.mk (value x)
  readSlot s v

def trace (e : Evaluator) (m : Mnemonic) (x : Operand) (y : Option Operand) (d : Designator) :
    ExceptT Error (Except Trap) Trace :=
  match m with
  | .unary op => do
    let a ← read x d.first
    return .unary op a d (← apply (.unary op) a 0 d.destination e.policy)
  | .binary op => do
    let a ← read x d.first
    let b ← read (← ExceptT.mk (.ok (Evaluator.requiredOperand op y))) d.second
    return .binary op a b d (← apply (.binary op) a b d.destination e.policy)

theorem bigEndian_eq (data : List UInt8) : bigEndian data = .ok (Operand.bigEndian data) := by
  have step (v : UInt64) (b : UInt8) : (do return (← shl v 8) ||| b.toUInt64) =
      (pure (v <<< 8 ||| b.toUInt64) : Except Trap UInt64) := by
    rw [shl_of_lt (by decide)]
    rfl
  simp only [bigEndian, step, List.foldlM_pure]
  rfl

theorem value_eq (x : Operand) : value x = .ok x.value := by
  cases x with
  | integer bits => rfl
  | literal text => exact parse_eq text
  | bytes data =>
    rw [value, bigEndian_eq]
    rfl

theorem readSlot_eq (s : Slot) (v : UInt64) : readSlot s v = .ok (s.read v) := by
  rw [readSlot, Slot.read]
  cases s.mode with
  | highByte =>
    rw [shr_of_lt (by decide)]
    rfl
  | lowByte | full => rfl

theorem raise_eq (v : UInt64) : raise v = .ok (Slot.raise v) :=
  shl_of_lt (by decide) _

theorem mk_bind {α β : Type} (r : Except Error α) {f : α → ExceptT Error (Except Trap) β} {g : α → Except Error β}
    (h : ∀ a, f a = ExceptT.mk (.ok (g a))) : (ExceptT.mk (.ok r) >>= f) = ExceptT.mk (.ok (r >>= g)) := by
  cases r with
  | ok a => exact h a
  | error e => rfl

theorem read_eq (x : Operand) (s : Slot) : read x s = ExceptT.mk (.ok (x.read s)) := by
  have mapped : x.read s = x.value >>= fun v => pure (s.read v) := by
    rw [Operand.read]
    cases x.value <;> rfl
  rw [mapped, read, value_eq]
  refine mk_bind _ fun v => ?_
  rw [readSlot_eq]
  rfl

theorem trace_eq (e : Evaluator) (m : Mnemonic) (x : Operand) (y : Option Operand) (d : Designator) :
    trace e m x y d = ExceptT.mk (.ok (e.trace m x y d)) := by
  cases m with
  | unary op =>
    rw [trace, read_eq]
    exact mk_bind _ fun a => rfl
  | binary op =>
    rw [trace, read_eq]
    refine mk_bind _ fun a => mk_bind _ fun y => ?_
    rw [read_eq]
    refine mk_bind _ fun b => ?_
    rw [apply_eq]
    rfl

def following {α β : Type} (r : Reply α) (f : α → Except Trap (Reply β)) : Except Trap (Reply β) :=
  match r.result with
  | .ok a => do
    let s ← f a
    return ⟨s.result, r.log ++ s.log⟩
  | .error e => return ⟨.error e, r.log⟩

def dispatch (e : Evaluator) (m : Mnemonic) (x : Operand) (y : Option Operand) (d : Designator) :
    Except Trap (Reply UInt64) := do
  let outcome ← (trace e m x y d).run
  return do
    let t ← Reply.ofExcept outcome
    Reply.note t
    return t.result

def answer (e : Evaluator) : Call Operand → Except Trap (Reply UInt64)
  | .binary op x y size => following (e.resolve size) (dispatch e (.binary op) x (some y))
  | .unary op x size => following (e.resolve size) (dispatch e (.unary op) x none)
  | .eval name x y size =>
    following (.ofExcept (Mnemonic.parse name)) fun m =>
      following (e.resolve (size.elim .omitted .text)) (dispatch e m x y)
  | .apply m x y d => dispatch e m x y d
  | .highByte x => do
    following (.ofExcept (← value x)) fun v => return pure (← raise v)
  | .format x mode =>
    following (.ofExcept (Slot.parse mode)) fun s => do
      following (.ofExcept (← value x)) fun v => return pure (← readSlot s v)

theorem following_eq {α β : Type} (r : Reply α) {f : α → Except Trap (Reply β)} {g : α → Reply β}
    (h : ∀ a, f a = .ok (g a)) : following r f = .ok (r >>= g) := by
  rcases r with ⟨_ | a, log⟩
  · rfl
  · simp only [following, h, ok_bind]
    rfl

theorem dispatch_eq (e : Evaluator) (m : Mnemonic) (x : Operand) (y : Option Operand) (d : Designator) :
    dispatch e m x y d = .ok (e.apply m x y d) := by
  rw [dispatch, trace_eq]
  rfl

theorem answer_eq (e : Evaluator) (c : Call Operand) : answer e c = .ok (e.answer c) := by
  cases c with
  | binary op x y size => exact following_eq _ (dispatch_eq e (.binary op) x (some y))
  | unary op x size => exact following_eq _ (dispatch_eq e (.unary op) x none)
  | eval name x y size => exact following_eq _ fun m => following_eq _ (dispatch_eq e m x y)
  | apply m x y d => exact dispatch_eq e m x y d
  | highByte x =>
    rw [answer, value_eq, ok_bind]
    exact following_eq _ fun v => by rw [raise_eq]; rfl
  | format x mode =>
    refine following_eq _ fun s => ?_
    rw [value_eq, ok_bind]
    exact following_eq _ fun v => by rw [readSlot_eq]; rfl

theorem nothing_traps :
    (∀ s : String, parse s = .ok (Literal.parse s)) ∧
    (∀ (m : Mnemonic) (x y : UInt64) (w : Width) (p : CountPolicy), apply m x y w p = .ok (m.apply x y w p)) ∧
    ∀ (e : Evaluator) (c : Call Operand), answer e c = .ok (e.answer c) :=
  ⟨parse_eq, apply_eq, answer_eq⟩

end Subregister.Checked
