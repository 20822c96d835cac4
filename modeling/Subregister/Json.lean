import Subregister.Text

namespace Subregister

/-- A unit of a string: a character, or a surrogate whose other half is missing. -/
inductive Json.Symbol
  | scalar (c : Char)
  | lone (unit : Nat)
  deriving DecidableEq

inductive Json
  | null
  | bool (b : Bool)
  | number (spelling : List Char)
  | string (text : List Json.Symbol)
  | array (items : List Json)
  | object (members : List (List Json.Symbol × Json))

namespace Json

namespace Symbol

def unicodeEscape (unit : Nat) : List Char :=
  '\\' :: 'u' :: Text.Hexadecimal.padded 4 unit

def write : Symbol → List Char
  | scalar '"' => ['\\', '"']
  | scalar '\\' => ['\\', '\\']
  | scalar '\x08' => ['\\', 'b']
  | scalar '\t' => ['\\', 't']
  | scalar '\n' => ['\\', 'n']
  | scalar '\x0c' => ['\\', 'f']
  | scalar '\r' => ['\\', 'r']
  | scalar c => if c.toNat < 0x20 then unicodeEscape c.toNat else [c]
  | lone unit => unicodeEscape unit

def quote (text : List Symbol) : List Char :=
  '"' :: (text.flatMap write ++ ['"'])

def ofString (s : String) : List Symbol :=
  s.toList.map scalar

def char? : Symbol → Option Char
  | scalar c => some c
  | lone _ => none

def chars? (text : List Symbol) : Option (List Char) :=
  text.mapM char?

theorem chars?_map_scalar (cs : List Char) : chars? (cs.map scalar) = some cs := by
  induction cs with
  | nil => rfl
  | cons c cs ih =>
    simp only [chars?] at ih
    simp only [chars?, List.map_cons, List.mapM_cons, char?, ih]
    rfl

end Symbol

def ofString (s : String) : Json :=
  string (Symbol.ofString s)

def ofInt (v : Int) : Json :=
  if v < 0 then number ('-' :: Nat.toDigits 10 v.natAbs) else number (Nat.toDigits 10 v.natAbs)

def record (members : List (String × Json)) : Json :=
  object (members.map fun m => (Symbol.ofString m.1, m.2))

mutual

def write : Json → List Char
  | null => ['n', 'u', 'l', 'l']
  | bool true => ['t', 'r', 'u', 'e']
  | bool false => ['f', 'a', 'l', 's', 'e']
  | number spelling => spelling
  | string text => Symbol.quote text
  | array [] => ['[', ']']
  | array (x :: xs) => '[' :: (write x ++ writeItems xs)
  | object [] => ['\x7b', '\x7d']
  | object ((k, x) :: ms) => '\x7b' :: (Symbol.quote k ++ ':' :: (write x ++ writeMembers ms))

def writeItems : List Json → List Char
  | [] => [']']
  | x :: xs => ',' :: (write x ++ writeItems xs)

def writeMembers : List (List Symbol × Json) → List Char
  | [] => ['\x7d']
  | (k, x) :: ms => ',' :: (Symbol.quote k ++ ':' :: (write x ++ writeMembers ms))

end

def text (v : Json) : String :=
  String.ofList v.write

end Json

end Subregister
