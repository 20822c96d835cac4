import Subregister.Json

namespace Subregister.Json

inductive Token
  | openArray | closeArray | openObject | closeObject | comma | colon
  | leaf (v : Json)
  | text (t : List Symbol)

inductive Phase
  | sign | zero | whole | point | fraction | mark | markSign | exponent
  deriving DecidableEq

namespace Phase

def next : Phase → Char → Option Phase
  | sign, c => if c = '0' then some zero else if c.isDigit then some whole else none
  | zero, c => if c = '.' then some point else if c = 'e' ∨ c = 'E' then some mark else none
  | whole, c =>
    if c.isDigit then some whole
    else if c = '.' then some point
    else if c = 'e' ∨ c = 'E' then some mark
    else none
  | point, c => if c.isDigit then some fraction else none
  | fraction, c => if c.isDigit then some fraction else if c = 'e' ∨ c = 'E' then some mark else none
  | mark, c => if c = '+' ∨ c = '-' then some markSign else if c.isDigit then some exponent else none
  | markSign, c => if c.isDigit then some exponent else none
  | exponent, c => if c.isDigit then some exponent else none

def isComplete : Phase → Bool
  | zero | whole | fraction | exponent => true
  | sign | point | mark | markSign => false

end Phase

inductive Scan
  | between
  | word (rest : List Char) (v : Json)
  | number (phase : Phase) (spelling : List Char)
  | text (read : List Symbol)
  | escape (read : List Symbol)
  | unit (read : List Symbol) (missing : Nat) (value : Nat)

namespace Scan

def isHigh (unit : Nat) : Bool :=
  0xD800 ≤ unit && unit ≤ 0xDBFF

def isLow (unit : Nat) : Bool :=
  0xDC00 ≤ unit && unit ≤ 0xDFFF

def addUnit (read : List Symbol) (unit : Nat) : List Symbol :=
  if isLow unit then
    match read with
    | .lone high :: rest =>
      if isHigh high then .scalar (Char.ofNat (0x10000 + (high - 0xD800) * 0x400 + (unit - 0xDC00))) :: rest
      else .lone unit :: read
    | _ => .lone unit :: read
  else if isHigh unit then .lone unit :: read
  else .scalar (Char.ofNat unit) :: read

def escaped? : Char → Option Char
  | '"' => some '"'
  | '\\' => some '\\'
  | '/' => some '/'
  | 'b' => some '\x08'
  | 'f' => some '\x0c'
  | 'n' => some '\n'
  | 'r' => some '\r'
  | 't' => some '\t'
  | _ => none

def isGap (c : Char) : Bool :=
  c = ' ' || c = '\t' || c = '\n' || c = '\r'

def start (c : Char) : Option (Scan × List Token) :=
  if isGap c then some (between, [])
  else if c.isDigit then some (number (if c = '0' then .zero else .whole) [c], [])
  else match c with
    | '-' => some (number .sign ['-'], [])
    | '"' => some (text [], [])
    | 'n' => some (word ['u', 'l', 'l'] .null, [])
    | 't' => some (word ['r', 'u', 'e'] (.bool true), [])
    | 'f' => some (word ['a', 'l', 's', 'e'] (.bool false), [])
    | '[' => some (between, [.openArray])
    | ']' => some (between, [.closeArray])
    | '\x7b' => some (between, [.openObject])
    | '\x7d' => some (between, [.closeObject])
    | ',' => some (between, [.comma])
    | ':' => some (between, [.colon])
    | _ => none

def numberToken (spelling : List Char) : Token :=
  .leaf (.number spelling.reverse)

def step : Scan → Char → Option (Scan × List Token)
  | between, c => start c
  | word rest v, c =>
    match rest with
    | [] => none
    | [d] => if c = d then some (between, [.leaf v]) else none
    | d :: e :: ds => if c = d then some (word (e :: ds) v, []) else none
  | number phase spelling, c =>
    match phase.next c with
    | some phase => some (number phase (c :: spelling), [])
    | none =>
      if phase.isComplete then (start c).map fun (s, ts) => (s, numberToken spelling :: ts) else none
  | text read, c =>
    if c = '"' then some (between, [.text read.reverse])
    else if c = '\\' then some (escape read, [])
    else if c.toNat < 0x20 then none
    else some (text (.scalar c :: read), [])
  | escape read, c =>
    if c = 'u' then some (unit read 3 0, [])
    else (escaped? c).map fun d => (text (.scalar d :: read), [])
  | unit read missing value, c =>
    match Text.Radix.hexadecimal.digit? c, missing with
    | some d, 0 => some (text (addUnit read (value * 16 + d)), [])
    | some d, missing + 1 => some (unit read missing (value * 16 + d), [])
    | none, _ => none

def finish : Scan → Option (List Token)
  | between => some []
  | number phase spelling => if phase.isComplete then some [numberToken spelling] else none
  | _ => none

def run (s : Scan) : List Char → Option (List Token)
  | [] => s.finish
  | c :: cs => do
    let (s, ts) ← s.step c
    return ts ++ (← s.run cs)

end Scan

def tokens? (cs : List Char) : Option (List Token) :=
  Scan.between.run cs

inductive Frame
  | array (items : List Json)
  | object (members : List (List Symbol × Json)) (name : List Symbol)

inductive Assembly
  | value (stack : List Frame)
  | firstItem (stack : List Frame)
  | firstName (stack : List Frame)
  | name (members : List (List Symbol × Json)) (stack : List Frame)
  | colon (members : List (List Symbol × Json)) (name : List Symbol) (stack : List Frame)
  | done (v : Json) (stack : List Frame)

namespace Assembly

def open? (stack : List Frame) : Token → Option Assembly
  | .leaf v => some (done v stack)
  | .text t => some (done (.string t) stack)
  | .openArray => some (firstItem stack)
  | .openObject => some (firstName stack)
  | _ => none

def step : Assembly → Token → Option Assembly
  | value stack, t => open? stack t
  | firstItem stack, .closeArray => some (done (.array []) stack)
  | firstItem stack, t => open? (.array [] :: stack) t
  | firstName stack, .closeObject => some (done (.object []) stack)
  | firstName stack, .text n => some (colon [] n stack)
  | name members stack, .text n => some (colon members n stack)
  | colon members n stack, .colon => some (value (.object members n :: stack))
  | done v (.array items :: stack), .comma => some (value (.array (v :: items) :: stack))
  | done v (.array items :: stack), .closeArray => some (done (.array (v :: items).reverse) stack)
  | done v (.object members n :: stack), .comma => some (name ((n, v) :: members) stack)
  | done v (.object members n :: stack), .closeObject => some (done (.object ((n, v) :: members).reverse) stack)
  | _, _ => none

def finish : Assembly → Option Json
  | done v [] => some v
  | _ => none

def run (a : Assembly) : List Token → Option Json
  | [] => a.finish
  | t :: ts => do (← a.step t).run ts

end Assembly

def ofTokens? (ts : List Token) : Option Json :=
  (Assembly.value []).run ts

def parse? (s : String) : Option Json := do
  ofTokens? (← tokens? s.toList)

end Subregister.Json
