import Subregister.Designator
import Subregister.Operation

namespace Subregister

inductive Trace
  | binary (op : BinaryOp) (x y : UInt64) (slots : Designator) (result : UInt64)
  | unary (op : UnaryOp) (x : UInt64) (slots : Designator) (result : UInt64)
  deriving DecidableEq

namespace Trace

def result : Trace → UInt64
  | binary _ _ _ _ r => r
  | unary _ _ _ r => r

def number (v : UInt64) : String :=
  Text.Hexadecimal.marked (Text.Hexadecimal.digits v.toNat)

def text : Trace → String
  | binary op x y d r => op.name ++ " " ++ number x ++ ", " ++ number y ++ " [" ++ d.text ++ "] = " ++ number r
  | unary op x d r => op.name ++ " " ++ number x ++ " [" ++ d.text ++ "] = " ++ number r

end Trace

inductive Record
  | computed (t : Trace)
  | rejected (e : Error)
  deriving DecidableEq

namespace Record

def level : Record → String
  | computed _ => "TRACE"
  | rejected _ => "DEBUG"

def text : Record → String
  | computed t => t.text
  | rejected e => "rejected: " ++ e.message

def line (r : Record) : String :=
  r.level ++ " " ++ r.text

end Record

structure Reply (α : Type) where
  result : Except Error α
  log : List Record

namespace Reply

variable {α β : Type}

def andThen (r : Reply α) (f : α → Reply β) : Reply β :=
  match r.result with
  | .ok a =>
    let s := f a
    ⟨s.result, r.log ++ s.log⟩
  | .error e => ⟨.error e, r.log⟩

instance : Monad Reply where
  pure a := ⟨.ok a, []⟩
  bind := andThen

instance : LawfulMonad Reply := LawfulMonad.mk' _
  (fun r => by rcases r with ⟨_ | _, _⟩ <;> simp [Functor.map, andThen])
  (fun a f => by simp [bind, andThen, pure])
  (fun r f g => by
    rcases r with ⟨_ | _, _⟩
    · rfl
    · simp only [bind, andThen]
      split <;> simp)
  (by intros; rfl)
  (by intros; rfl)
  (by
    intro α β x y
    rcases x with ⟨_ | _, _⟩ <;> rfl)

def ofExcept : Except Error α → Reply α
  | .ok a => ⟨.ok a, []⟩
  | .error e => ⟨.error e, [.rejected e]⟩

def note (t : Trace) : Reply Unit :=
  ⟨.ok (), [.computed t]⟩

end Reply

end Subregister
