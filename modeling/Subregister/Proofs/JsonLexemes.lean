import Mathlib.Data.List.Forall2
import Subregister.Json.Reading
import Subregister.Proofs.Numeral

namespace Subregister.Json

open Text

def High (u : Nat) : Prop :=
  0xD800 ≤ u ∧ u < 0xDC00

def Low (u : Nat) : Prop :=
  0xDC00 ≤ u ∧ u < 0xE000

def Escape (u : Nat) (cs : List Char) : Prop :=
  ∃ hs ds, cs = '\\' :: 'u' :: hs ∧ List.Forall₂ Radix.hexadecimal.Digit hs ds ∧ ds.length = 4 ∧
    u = Radix.hexadecimal.number ds

def shortEscapes : List (Char × Char) :=
  [('"', '"'), ('\\', '\\'), ('/', '/'), ('b', '\x08'), ('f', '\x0c'), ('n', '\n'), ('r', '\r'), ('t', '\t')]

namespace Symbol

inductive Shown : Symbol → List Char → Prop
  | plain {c : Char} : c ≠ '"' → c ≠ '\\' → 0x20 ≤ c.toNat → Shown (scalar c) [c]
  | short {e c : Char} : (e, c) ∈ shortEscapes → Shown (scalar c) ['\\', e]
  | unit {c : Char} {cs : List Char} : Escape c.toNat cs → Shown (scalar c) cs
  | pair {c : Char} {high low : Nat} {cs ds : List Char} : High high → Low low → Escape high cs → Escape low ds →
      c.toNat = 0x10000 + (high - 0xD800) * 0x400 + (low - 0xDC00) → Shown (scalar c) (cs ++ ds)
  | lone {u : Nat} {cs : List Char} : High u ∨ Low u → Escape u cs → Shown (lone u) cs

/-- Two halves that would be read as one character. -/
def Meets : Symbol → Symbol → Prop
  | lone u, lone v => High u ∧ Low v
  | _, _ => False

def Apart (t : List Symbol) : Prop :=
  t.IsChain fun a b => ¬ a.Meets b

structure Spelled (t : List Symbol) (cs : List Char) : Prop where
  apart : Apart t
  shown : ∃ parts, List.Forall₂ Shown t parts ∧ cs = parts.flatten

end Symbol

namespace Numeral

def Digits (cs : List Char) : Prop :=
  cs ≠ [] ∧ ∀ c ∈ cs, c.isDigit = true

def signs : List (List Char) :=
  [[], ['-']]

def Whole (cs : List Char) : Prop :=
  cs = ['0'] ∨ Digits cs ∧ cs.head? ≠ some '0'

def Fraction (cs : List Char) : Prop :=
  cs = [] ∨ ∃ ds, cs = '.' :: ds ∧ Digits ds

def Exponent (cs : List Char) : Prop :=
  cs = [] ∨ ∃ m ∈ ['e', 'E'], ∃ sign ∈ [[], ['+'], ['-']], ∃ ds, cs = m :: (sign ++ ds) ∧ Digits ds

end Numeral

open Numeral in
inductive Numeral : List Char → Prop
  | mk {sign whole fraction exponent : List Char} : sign ∈ signs → Whole whole → Fraction fraction →
      Exponent exponent → Numeral (sign ++ whole ++ fraction ++ exponent)

inductive Lexeme : Token → List Char → Prop
  | openArray : Lexeme .openArray ['[']
  | closeArray : Lexeme .closeArray [']']
  | openObject : Lexeme .openObject ['\x7b']
  | closeObject : Lexeme .closeObject ['\x7d']
  | comma : Lexeme .comma [',']
  | colon : Lexeme .colon [':']
  | null : Lexeme (.leaf .null) ['n', 'u', 'l', 'l']
  | true : Lexeme (.leaf (.bool true)) ['t', 'r', 'u', 'e']
  | false : Lexeme (.leaf (.bool false)) ['f', 'a', 'l', 's', 'e']
  | number {cs : List Char} : Numeral cs → Lexeme (.leaf (.number cs)) cs
  | text {t : List Symbol} {cs : List Char} : Symbol.Spelled t cs → Lexeme (.text t) ('"' :: (cs ++ ['"']))

def Gap (cs : List Char) : Prop :=
  ∀ c ∈ cs, c ∈ [' ', '\t', '\n', '\r']

inductive Laid : List Token → List Char → Prop
  | last {gap : List Char} : Gap gap → Laid [] gap
  | next {t : Token} {ts : List Token} {gap cs rest : List Char} :
      Gap gap → Lexeme t cs → Laid ts rest → Laid (t :: ts) (gap ++ cs ++ rest)

end Subregister.Json
