import Subregister.Error
import Subregister.Width

namespace Subregister

inductive ReadMode
  | full | lowByte | highByte
  deriving DecidableEq

def ReadMode.all : List ReadMode :=
  [full, lowByte, highByte]

inductive Slot
  | low | high | word | dword | qword
  deriving DecidableEq

namespace Slot

def letter : Slot → Char
  | low => 'l'
  | high => 'h'
  | word => 'w'
  | dword => 'd'
  | qword => 'q'

def all : List Slot :=
  [low, high, word, dword, qword]

def ofLetter? (c : Char) : Option Slot :=
  all.find? (fun s => s.letter == c.toLower)

theorem ofLetter?_letter (s : Slot) : ofLetter? s.letter = some s := by
  cases s <;> rfl

def width : Slot → Width
  | low | high => .byte
  | word => .word
  | dword => .dword
  | qword => .qword

def mode : Slot → ReadMode
  | low => .lowByte
  | high => .highByte
  | word | dword | qword => .full

def truncate (s : Slot) (v : UInt64) : UInt64 :=
  s.width.truncate v

def read (s : Slot) (v : UInt64) : UInt64 :=
  match s.mode with
  | .highByte => (v >>> 8) &&& 0xFF
  | .lowByte | .full => s.truncate v

def raise (v : UInt64) : UInt64 :=
  (v &&& 0xFF) <<< 8

end Slot

structure Designator where
  first : Slot
  second : Slot
  deriving DecidableEq

namespace Designator

def uniform (s : Slot) : Designator :=
  ⟨s, s⟩

def standard : Designator :=
  uniform .dword

instance : Inhabited Designator :=
  ⟨standard⟩

def destination (d : Designator) : Width :=
  d.first.width

def letters (d : Designator) : List Char :=
  [d.first.letter, d.second.letter]

def text (d : Designator) : String :=
  String.ofList d.letters

def slot (c : Char) : Except Fault Slot :=
  match Slot.ofLetter? c with
  | some s => .ok s
  | none => .error .unknownLetter

/-- A single letter stands for both operands. The length is judged before any letter. -/
def ofLetters : List Char → Except Fault Designator
  | [] => .error .empty
  | [a] => do return uniform (← slot a)
  | [a, b] => do return ⟨← slot a, ← slot b⟩
  | _ => .error .tooLong

theorem ofLetters_letters (d : Designator) : ofLetters d.letters = .ok d := by
  simp only [letters, ofLetters, slot, Slot.ofLetter?_letter]
  rfl

def parse (s : String) : Except Error Designator :=
  (ofLetters s.toList).mapError (.designator s)

theorem parse_text (d : Designator) : parse d.text = .ok d := by
  rw [parse, text, String.toList_ofList, ofLetters_letters]
  rfl

theorem parse_letter (s : Slot) : parse (String.ofList [s.letter]) = .ok (uniform s) := by
  rw [parse, String.toList_ofList, ofLetters, slot, Slot.ofLetter?_letter]
  rfl

end Designator

def Slot.ofLetters : List Char → Except Designator.Fault Slot
  | [] => .error .empty
  | c :: _ => Designator.slot c

def Slot.parse (s : String) : Except Error Slot :=
  (Slot.ofLetters s.toList).mapError (.designator s)

inductive Size
  | omitted
  | text (s : String)
  | slot (s : Slot)
  | slots (d : Designator)
  | given (size : Size)

def Size.resolve (standard : Designator) : Size → Except Error Designator
  | omitted => .ok standard
  | text s => Designator.parse s
  | slot s => .ok (.uniform s)
  | slots d => .ok d
  | given size => size.resolve standard

end Subregister
