import Subregister.Evaluator
import Subregister.Json.Reading

namespace Subregister

class Tagged (α : Type) where
  all : List α
  tag : α → String
  find_tag : ∀ a, all.find? (fun b => tag b == tag a) = some a

namespace Tagged

variable {α : Type} [Tagged α]

def ofTag? (s : String) : Option α :=
  all.find? (fun a => tag a == s)

theorem ofTag?_tag (a : α) : ofTag? (tag a) = some a :=
  find_tag a

instance : Tagged Width where
  all := Width.all
  tag
    | .byte => "Byte"
    | .word => "Word"
    | .dword => "Dword"
    | .qword => "Qword"
  find_tag := by intro a; cases a <;> rfl

instance : Tagged ReadMode where
  all := ReadMode.all
  tag
    | .full => "Full"
    | .lowByte => "LowByte"
    | .highByte => "HighByte"
  find_tag := by intro a; cases a <;> rfl

instance : Tagged Slot where
  all := Slot.all
  tag
    | .low => "Low"
    | .high => "High"
    | .word => "Word"
    | .dword => "Dword"
    | .qword => "Qword"
  find_tag := by intro a; cases a <;> rfl

instance : Tagged CountPolicy where
  all := CountPolicy.all
  tag
    | .hardware => "Hardware"
    | .modulo => "Modulo"
    | .unbounded => "Unbounded"
  find_tag := by intro a; cases a <;> rfl

instance : Tagged Mnemonic where
  all := Mnemonic.all
  tag
    | .binary .add => "Add"
    | .binary .sub => "Sub"
    | .binary .and => "And"
    | .binary .or => "Or"
    | .binary .xor => "Xor"
    | .binary .shl => "Shl"
    | .binary .shr => "Shr"
    | .binary .rol => "Rol"
    | .binary .ror => "Ror"
    | .unary .inc => "Inc"
    | .unary .dec => "Dec"
    | .unary .not => "Not"
    | .unary .neg => "Neg"
  find_tag := by rintro (op | op) <;> cases op <;> rfl

end Tagged

class Stored (α : Type) where
  toJson : α → Json
  ofJson? : Json → Option α

namespace Stored

variable {α β : Type}

def save [Stored α] (a : α) : String :=
  (toJson a).text

def load? [Stored α] (s : String) : Option α :=
  (Json.parse? s).bind ofJson?

def tag? : Json → Option String
  | .string t => (Json.Symbol.chars? t).map String.ofList
  | .object [(t, .null)] => (Json.Symbol.chars? t).map String.ofList
  | _ => none

instance [Tagged α] : Stored α where
  toJson a := .ofString (Tagged.tag a)
  ofJson? v := (tag? v).bind Tagged.ofTag?

def name? (m : List Json.Symbol × Json) : Option (String × Json) := do
  return (String.ofList (← Json.Symbol.chars? m.1), m.2)

def member? (name : String) (members : List (String × Json)) : Option Json :=
  match members.filter (fun m => m.1 == name) with
  | [m] => some m.2
  | _ => none

def fields? (first second : String) : Json → Option (Json × Json)
  | .array [a, b] => some (a, b)
  | .object members => do
    let members ← members.mapM name?
    return (← member? first members, ← member? second members)
  | _ => none

def pair? [Stored α] [Stored β] (first second : String) (v : Json) : Option (α × β) := do
  let (a, b) ← fields? first second v
  return (← ofJson? a, ← ofJson? b)

instance : Stored Designator where
  toJson d := .record [("first", toJson d.first), ("second", toJson d.second)]
  ofJson? v := (pair? "first" "second" v).map fun (a, b) => ⟨a, b⟩

instance : Stored Evaluator where
  toJson e := .record [("shift_count", toJson e.policy), ("default_size", toJson e.standard)]
  ofJson? v := (pair? "shift_count" "default_size" v).map fun (p, d) => ⟨p, d⟩

end Stored

def Operand.toJson : Operand → Json
  | integer bits => .record [("Integer", .ofInt bits.toInt)]
  | literal text => .record [("Numeric", .ofString text)]
  | bytes data => .record [("Bytes", .array (data.map fun b => .ofInt b.toNat))]

def Error.toJson : Error → Json
  | literal text fault =>
    .record [("Parse", .record [("literal", .ofString text), ("reason", .ofString fault.reason)])]
  | designator text fault =>
    .record [("InvalidSize", .record [("designator", .ofString text), ("reason", .ofString fault.reason)])]
  | unsupported mnemonic => .record [("UnsupportedOperation", .record [("mnemonic", .ofString mnemonic)])]
  | missingOperand mnemonic => .record [("MissingOperand", .record [("mnemonic", .ofString mnemonic)])]

end Subregister
