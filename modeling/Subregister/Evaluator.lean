import Subregister.Operand
import Subregister.Reply

namespace Subregister

structure Evaluator where
  policy : CountPolicy
  standard : Designator
  deriving DecidableEq, Inhabited

namespace Evaluator

def new : Evaluator :=
  ⟨.hardware, .standard⟩

theorem default_eq_new : (default : Evaluator) = new := rfl

def requiredOperand (op : BinaryOp) : Option Operand → Except Error Operand
  | some y => .ok y
  | none => .error (.missingOperand op.name)

def trace (e : Evaluator) (m : Mnemonic) (x : Operand) (y : Option Operand) (d : Designator) :
    Except Error Trace :=
  match m with
  | .unary op => do
    let a ← x.read d.first
    return .unary op a d (op.apply a d.destination)
  | .binary op => do
    let a ← x.read d.first
    let b ← (← requiredOperand op y).read d.second
    return .binary op a b d (op.apply a b d.destination e.policy)

def apply (e : Evaluator) (m : Mnemonic) (x : Operand) (y : Option Operand) (d : Designator) : Reply UInt64 := do
  let t ← Reply.ofExcept (e.trace m x y d)
  Reply.note t
  return t.result

def resolve (e : Evaluator) (size : Size) : Reply Designator :=
  Reply.ofExcept (size.resolve e.standard)

def binary (e : Evaluator) (op : BinaryOp) (x y : Operand) (size : Size) : Reply UInt64 := do
  e.apply (.binary op) x (some y) (← e.resolve size)

def unary (e : Evaluator) (op : UnaryOp) (x : Operand) (size : Size) : Reply UInt64 := do
  e.apply (.unary op) x none (← e.resolve size)

def eval (e : Evaluator) (name : String) (x : Operand) (y : Option Operand) (size : Option String) :
    Reply UInt64 := do
  let m ← Reply.ofExcept (Mnemonic.parse name)
  let d ← e.resolve (size.elim .omitted .text)
  e.apply m x y d

def highByte (x : Operand) : Reply UInt64 := do
  return Slot.raise (← Reply.ofExcept x.value)

def format (x : Operand) (mode : String) : Reply UInt64 := do
  let s ← Reply.ofExcept (Slot.parse mode)
  return s.read (← Reply.ofExcept x.value)

end Evaluator

inductive Call (α : Type)
  | binary (op : BinaryOp) (x y : α) (size : Size)
  | unary (op : UnaryOp) (x : α) (size : Size)
  | eval (name : String) (x : α) (y : Option α) (size : Option String)
  | apply (m : Mnemonic) (x : α) (y : Option α) (slots : Designator)
  | highByte (x : α)
  | format (x : α) (mode : String)

def Call.map {α β : Type} (f : α → β) : Call α → Call β
  | binary op x y size => binary op (f x) (f y) size
  | unary op x size => unary op (f x) size
  | eval name x y size => eval name (f x) (y.map f) size
  | apply m x y d => apply m (f x) (y.map f) d
  | highByte x => highByte (f x)
  | format x mode => format (f x) mode

def Evaluator.answer (e : Evaluator) : Call Operand → Reply UInt64
  | .binary op x y size => e.binary op x y size
  | .unary op x size => e.unary op x size
  | .eval name x y size => e.eval name x y size
  | .apply m x y d => e.apply m x y d
  | .highByte x => highByte x
  | .format x mode => format x mode

end Subregister
