namespace Subregister.Text

inductive Radix
  | binary | octal | decimal | hexadecimal
  deriving DecidableEq

def digitValue? (c : Char) : Option Nat :=
  if '0' ≤ c ∧ c ≤ '9' then some (c.toNat - '0'.toNat)
  else if 'a' ≤ c ∧ c ≤ 'f' then some (c.toNat - 'a'.toNat + 10)
  else if 'A' ≤ c ∧ c ≤ 'F' then some (c.toNat - 'A'.toNat + 10)
  else none

namespace Radix

def base : Radix → Nat
  | binary => 2
  | octal => 8
  | decimal => 10
  | hexadecimal => 16

def digit? (r : Radix) (c : Char) : Option Nat :=
  (digitValue? c).filter (· < r.base)

def name : Radix → String
  | binary => "binary"
  | octal => "octal"
  | decimal => "decimal"
  | hexadecimal => "hex"

end Radix

namespace Hexadecimal

def digits (n : Nat) : List Char :=
  Nat.toDigits 16 n

def padded (width n : Nat) : List Char :=
  List.replicate (width - (digits n).length) '0' ++ digits n

def upper (cs : List Char) : List Char :=
  cs.map Char.toUpper

def marked (cs : List Char) : String :=
  String.ofList ('0' :: 'x' :: cs)

end Hexadecimal

namespace Quoted

def isControl (c : Char) : Bool :=
  c.toNat < 0x20 || (0x7F ≤ c.toNat && c.toNat ≤ 0x9F)

def escape (c : Char) : List Char :=
  match c with
  | '"' => ['\\', '"']
  | '\\' => ['\\', '\\']
  | '\t' => ['\\', 't']
  | '\n' => ['\\', 'n']
  | '\r' => ['\\', 'r']
  | '\x00' => ['\\', '0']
  | c => if isControl c then '\\' :: 'u' :: '\x7b' :: (Hexadecimal.digits c.toNat ++ ['\x7d']) else [c]

def quote (cs : List Char) : List Char :=
  '"' :: (cs.flatMap escape ++ ['"'])

end Quoted

namespace Blank

def isBlank (c : Char) : Bool :=
  (0x09 ≤ c.toNat && c.toNat ≤ 0x0D) || c.toNat == 0x20 || c.toNat == 0x85 || c.toNat == 0xA0 ||
  c.toNat == 0x1680 || (0x2000 ≤ c.toNat && c.toNat ≤ 0x200A) || c.toNat == 0x2028 ||
  c.toNat == 0x2029 || c.toNat == 0x202F || c.toNat == 0x205F || c.toNat == 0x3000

def trimEnd : List Char → List Char
  | [] => []
  | c :: cs =>
    match trimEnd cs with
    | [] => if isBlank c then [] else [c]
    | d :: ds => c :: d :: ds

def trim (cs : List Char) : List Char :=
  trimEnd (cs.dropWhile isBlank)

end Blank

end Subregister.Text
