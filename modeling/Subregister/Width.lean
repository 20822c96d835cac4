namespace Subregister

inductive Width
  | byte | word | dword | qword
  deriving DecidableEq

namespace Width

def bits : Width → Nat
  | byte => 8
  | word => 16
  | dword => 32
  | qword => 64

theorem bits_pos (w : Width) : 0 < w.bits := by
  cases w <;> decide

theorem bits_le (w : Width) : w.bits ≤ 64 := by
  cases w <;> decide

def mask : Width → UInt64
  | byte => 0xFF
  | word => 0xFFFF
  | dword => 0xFFFFFFFF
  | qword => 0xFFFFFFFFFFFFFFFF

def truncate (w : Width) (v : UInt64) : UInt64 :=
  v &&& w.mask

def name : Width → String
  | byte => "byte"
  | word => "word"
  | dword => "dword"
  | qword => "qword"

def all : List Width :=
  [byte, word, dword, qword]

instance : Ord Width where
  compare v w := compare v.bits w.bits

end Width

inductive CountPolicy
  | hardware | modulo | unbounded
  deriving DecidableEq, Inhabited

namespace CountPolicy

def all : List CountPolicy :=
  [hardware, modulo, unbounded]

/-- The count in use. A processor keeps six bits of it for a quadword and five for anything narrower. -/
def effective (p : CountPolicy) (count : UInt64) (w : Width) : UInt64 :=
  match p with
  | hardware => if w = .qword then count &&& 0x3F else count &&& 0x1F
  | modulo => count % UInt64.ofNat w.bits
  | unbounded => count

theorem hardware_toNat (count : UInt64) (w : Width) :
    (hardware.effective count w).toNat = if w = .qword then count.toNat % 64 else count.toNat % 32 := by
  have five : (count &&& 0x1F).toNat = count.toNat % 32 := by
    rw [UInt64.toNat_and]
    exact Nat.and_two_pow_sub_one_eq_mod _ 5
  have six : (count &&& 0x3F).toNat = count.toNat % 64 := by
    rw [UInt64.toNat_and]
    exact Nat.and_two_pow_sub_one_eq_mod _ 6
  simp only [effective]
  split <;> assumption

theorem modulo_toNat (count : UInt64) (w : Width) :
    (modulo.effective count w).toNat = count.toNat % w.bits := by
  have h : (UInt64.ofNat w.bits).toNat = w.bits := by cases w <;> rfl
  rw [effective, UInt64.toNat_mod, h]

end CountPolicy

end Subregister
