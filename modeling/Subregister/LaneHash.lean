import Subregister.Evaluator
import Subregister.Text

namespace Subregister.LaneHash

inductive Fault
  | refused (e : Error)
  | noLane (index : UInt64)

def Fault.message : Fault → String
  | refused e => e.message
  | noLane index => "no lane " ++ toString index.toNat

def lift {α : Type} (r : Reply α) : Except Fault α :=
  r.result.mapError .refused

abbrev Lanes := Vector UInt8 4

def byteOf (v : UInt32) (lane : Nat) : UInt8 :=
  (v >>> UInt32.ofNat (8 * lane)).toUInt8

def split (v : UInt32) : Lanes :=
  Vector.ofFn fun i => byteOf v i

def join (lanes : Lanes) : UInt32 :=
  lanes[0].toUInt32 ||| lanes[1].toUInt32 <<< 8 ||| lanes[2].toUInt32 <<< 16 ||| lanes[3].toUInt32 <<< 24

def seed : UInt32 :=
  0x87654321

def lane (e : Evaluator) (pass position : Nat) : Except Fault UInt64 := do
  let sum ← lift (e.binary .add (.ofInt position) (.ofInt pass) (.text "dd"))
  lift (e.binary .and (.ofWord sum) (.ofInt 3) (.text "dd"))

def stir (e : Evaluator) (lane byte : UInt8) : Except Fault UInt8 := do
  let mixed ← lift (e.binary .xor (.ofInt lane.toNat) (.ofInt byte.toNat) (.text "ld"))
  let down ← lift (e.unary .dec (.ofWord mixed) (.text "l"))
  return down.toUInt8

def absorb (e : Evaluator) (pass position : Nat) (byte : UInt8) (lanes : Lanes) : Except Fault Lanes := do
  let index ← lane e pass position
  if h : index.toNat < 4 then
    return lanes.set index.toNat (← stir e lanes[index.toNat] byte)
  else
    .error (.noLane index)

def sweep (e : Evaluator) (pass : Nat) : Nat → List UInt8 → Lanes → Except Fault Lanes
  | _, [], lanes => .ok lanes
  | position, byte :: bytes, lanes => do
    sweep e pass (position + 1) bytes (← absorb e pass position byte lanes)

def sweeps (e : Evaluator) (bytes : List UInt8) : List Nat → Lanes → Except Fault Lanes
  | [], lanes => .ok lanes
  | pass :: passes, lanes => do sweeps e bytes passes (← sweep e pass 0 bytes lanes)

def hash (e : Evaluator) (text : String) : Except Fault UInt32 := do
  return join (← sweeps e text.toUTF8.data.toList [0, 1, 2] (split seed))

def hex (width : Nat) (v : Nat) : String :=
  Text.Hexadecimal.marked (Text.Hexadecimal.padded width v)

def upperHex (width : Nat) (v : Nat) : String :=
  Text.Hexadecimal.marked (Text.Hexadecimal.upper (Text.Hexadecimal.padded width v))

def reportLines (text : String) : Except Fault (List String) := do
  let e := Evaluator.new
  let h ← hash e text
  let raised ← lift (Evaluator.highByte (.ofInt 0x22))
  let eax ← lift (e.binary .add (.ofInt 0xAABBCCDD) (.ofWord raised) (.text "dd"))
  let ah ← lift (Evaluator.format (.ofWord eax) "h")
  return [
    "hash(" ++ String.ofList (Text.Quoted.quote text.toList) ++ ") = " ++ hex 8 h.toNat,
    "eax after add ah, 0x22 = " ++ upperHex 8 eax.toNat,
    "ah = " ++ upperHex 2 ah.toNat]

def sample : String :=
  "McTray.exe"

def report (text : Option String) : Except Fault String := do
  let lines ← reportLines (text.getD sample)
  return String.join (lines.map (· ++ "\n"))

end Subregister.LaneHash
