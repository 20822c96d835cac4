import Subregister.Error
import Subregister.Width

namespace Subregister

inductive BinaryOp
  | add | sub | and | or | xor | shl | shr | rol | ror
  deriving DecidableEq

inductive UnaryOp
  | inc | dec | not | neg
  deriving DecidableEq

namespace Width

def shiftLeft (w : Width) (v count : UInt64) : UInt64 :=
  if UInt64.ofNat w.bits ≤ count then 0 else v <<< count

def shiftRight (w : Width) (v count : UInt64) : UInt64 :=
  if UInt64.ofNat w.bits ≤ count then 0 else v >>> count

def rotateLeft (w : Width) (v count : UInt64) : UInt64 :=
  let n := count % UInt64.ofNat w.bits
  if n = 0 then v else v <<< n ||| v >>> (UInt64.ofNat w.bits - n)

def rotateRight (w : Width) (v count : UInt64) : UInt64 :=
  let n := count % UInt64.ofNat w.bits
  if n = 0 then v else v >>> n ||| v <<< (UInt64.ofNat w.bits - n)

end Width

namespace BinaryOp

def all : List BinaryOp :=
  [add, sub, and, or, xor, shl, shr, rol, ror]

def name : BinaryOp → String
  | add => "add"
  | sub => "sub"
  | and => "and"
  | or => "or"
  | xor => "xor"
  | shl => "shl"
  | shr => "shr"
  | rol => "rol"
  | ror => "ror"

def compute (op : BinaryOp) (x y : UInt64) (w : Width) (p : CountPolicy) : UInt64 :=
  match op with
  | add => x + y
  | sub => x - y
  | and => x &&& y
  | or => x ||| y
  | xor => x ^^^ y
  | shl => w.shiftLeft x (p.effective y w)
  | shr => w.shiftRight (w.truncate x) (p.effective y w)
  | rol => w.rotateLeft (w.truncate x) (p.effective y w)
  | ror => w.rotateRight (w.truncate x) (p.effective y w)

def apply (op : BinaryOp) (x y : UInt64) (w : Width) (p : CountPolicy) : UInt64 :=
  w.truncate (op.compute x y w p)

end BinaryOp

namespace UnaryOp

def all : List UnaryOp :=
  [inc, dec, not, neg]

def name : UnaryOp → String
  | inc => "inc"
  | dec => "dec"
  | not => "not"
  | neg => "neg"

def compute (op : UnaryOp) (x : UInt64) : UInt64 :=
  match op with
  | inc => x + 1
  | dec => x - 1
  | not => ~~~x
  | neg => 0 - x

def apply (op : UnaryOp) (x : UInt64) (w : Width) : UInt64 :=
  w.truncate (op.compute x)

end UnaryOp

inductive Mnemonic
  | binary (op : BinaryOp)
  | unary (op : UnaryOp)
  deriving DecidableEq

namespace Mnemonic

def all : List Mnemonic :=
  BinaryOp.all.map binary ++ UnaryOp.all.map unary

def name : Mnemonic → String
  | binary op => op.name
  | unary op => op.name

def isUnary : Mnemonic → Bool
  | binary _ => false
  | unary _ => true

def foldCase (s : String) : List Char :=
  s.toList.map Char.toLower

def ofName? (s : String) : Option Mnemonic :=
  all.find? (fun m => m.name.toList == foldCase s)

theorem ofName?_name (m : Mnemonic) : ofName? m.name = some m := by
  rcases m with op | op <;> cases op <;> rfl

theorem foldCase_name (m : Mnemonic) : foldCase m.name = m.name.toList := by
  rcases m with op | op <;> cases op <;> rfl

theorem ofName?_eq_some_iff {s : String} {m : Mnemonic} : ofName? s = some m ↔ foldCase s = m.name.toList := by
  constructor
  · intro h
    have hm := List.find?_some h
    exact (eq_of_beq hm).symm
  · intro h
    rw [← ofName?_name m, ofName?, ofName?, h, foldCase_name]

def parse (s : String) : Except Error Mnemonic :=
  match ofName? s with
  | some m => .ok m
  | none => .error (.unsupported s)

def Spelled (m : Mnemonic) (s : String) : Prop :=
  foldCase s = m.name.toList

theorem spelled_iff {m : Mnemonic} {s : String} : m.Spelled s ↔ ofName? s = some m :=
  ofName?_eq_some_iff.symm

theorem spelled_name (m : Mnemonic) : m.Spelled m.name :=
  foldCase_name m

theorem Spelled.unique {m n : Mnemonic} {s : String} (hm : m.Spelled s) (hn : n.Spelled s) : m = n := by
  rw [spelled_iff] at hm hn
  exact Option.some.inj (hm.symm.trans hn)

theorem parse_eq_ok_iff {m : Mnemonic} {s : String} : parse s = .ok m ↔ m.Spelled s := by
  rw [spelled_iff, parse]
  cases ofName? s <;> simp

theorem parse_eq_error_iff {s : String} {f : Error} :
    parse s = .error f ↔ (∀ m : Mnemonic, ¬ m.Spelled s) ∧ f = .unsupported s := by
  simp only [spelled_iff]
  rw [parse]
  cases ofName? s <;> simp [eq_comm]

def apply (m : Mnemonic) (x y : UInt64) (w : Width) (p : CountPolicy) : UInt64 :=
  match m with
  | binary op => op.apply x y w p
  | unary op => op.apply x w

end Mnemonic

end Subregister
