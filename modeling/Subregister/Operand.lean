import Subregister.Designator

namespace Subregister

namespace Literal

def accumulate (r : Text.Radix) (v : UInt64) : List Char → Except Fault UInt64
  | [] => .ok v
  | c :: cs =>
    if c = '_' then accumulate r v cs
    else match r.digit? c with
      | some d => accumulate r (v * UInt64.ofNat r.base + UInt64.ofNat d) cs
      | none => .error (.badDigit r)

def run (r : Text.Radix) : List Char → Except Fault UInt64
  | [] => .error .noDigits
  | c :: cs =>
    if c = '_' then .error .leadingSeparator
    else match r.digit? c with
      | some d => accumulate r (UInt64.ofNat d) cs
      | none => .error (.badDigit r)

def startsWithDigit : List Char → Bool
  | [] => false
  | c :: _ => c.isDigit

def endsWithMark (cs : List Char) : Bool :=
  cs.getLast? = some 'h' || cs.getLast? = some 'H'

/-- The radix and the digits of a literal without its sign. The mark `0x` wins over a last `h`, and that over `0b`
and `0o`, so that `0bh` is eleven. -/
def split : List Char → Text.Radix × List Char
  | '0' :: 'x' :: cs | '0' :: 'X' :: cs => (.hexadecimal, cs)
  | cs =>
    if startsWithDigit cs && endsWithMark cs then (.hexadecimal, cs.dropLast)
    else match cs with
      | '0' :: 'b' :: ds | '0' :: 'B' :: ds => (.binary, ds)
      | '0' :: 'o' :: ds | '0' :: 'O' :: ds => (.octal, ds)
      | _ => (.decimal, cs)

def body (cs : List Char) : Except Fault UInt64 :=
  run (split cs).1 (split cs).2

def signed : List Char → Except Fault UInt64
  | '-' :: cs => (body cs).map (0 - ·)
  | '+' :: cs => body cs
  | cs => body cs

def ofChars (cs : List Char) : Except Fault UInt64 :=
  match Text.Blank.trim cs with
  | [] => .error .empty
  | c :: cs => signed (c :: cs)

def parse (s : String) : Except Error UInt64 :=
  (ofChars s.toList).mapError (.literal s)

end Literal

inductive Operand
  | integer (bits : BitVec 128)
  | literal (text : String)
  | bytes (data : List UInt8)
  deriving DecidableEq

namespace Operand

def ofInt (v : Int) : Operand :=
  integer (BitVec.ofInt 128 v)

def ofWord (v : UInt64) : Operand :=
  ofInt v.toNat

def ofChar (c : Char) : Operand :=
  ofInt c.toNat

def bigEndian (data : List UInt8) : UInt64 :=
  data.foldl (fun v b => v <<< 8 ||| b.toUInt64) 0

def value : Operand → Except Error UInt64
  | integer bits => .ok (UInt64.ofBitVec (bits.setWidth 64))
  | literal text => Literal.parse text
  | bytes data => .ok (bigEndian data)

theorem value_ofWord (v : UInt64) : (ofWord v).value = .ok v := by
  simp only [ofWord, ofInt, value, Except.ok.injEq]
  apply UInt64.toNat_inj.mp
  have := v.toNat_lt
  rw [UInt64.toNat_ofBitVec, BitVec.toNat_setWidth, BitVec.toNat_ofInt]
  omega

def read (x : Operand) (s : Slot) : Except Error UInt64 :=
  x.value.map s.read

end Operand

end Subregister
