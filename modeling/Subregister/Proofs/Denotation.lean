import Mathlib.Data.List.Induction
import Subregister.Proofs.Evaluation
import Subregister.Proofs.LiteralReading

namespace Subregister

namespace Operand

def bigEndianNumber (data : List UInt8) : Nat :=
  Nat.ofDigits 256 (data.reverse.map UInt8.toNat)

inductive Denotes : Operand → Int → Prop
  | integer (v : Int) : Denotes (ofInt v) v
  | char (c : Char) : Denotes (ofChar c) c.toNat
  | bytes (data : List UInt8) : Denotes (bytes data) (bigEndianNumber data)
  | literal {s : String} {core : List Char} {z : Int} :
      Text.Blank.Trimmed s.toList core → Literal.Spells core z → Denotes (literal s) z

theorem value_ofInt (v : Int) : (ofInt v).value = .ok (UInt64.ofInt v) := by
  rw [ofInt, value, Except.ok.injEq, Residue.eq_ofInt_iff, UInt64.toNat_ofBitVec, BitVec.toNat_setWidth,
    BitVec.toNat_ofInt]
  omega

theorem shiftLeft_or_byte (v : UInt64) (b : UInt8) : v <<< 8 ||| b.toUInt64 = v * 256 + b.toUInt64 := by
  apply UInt64.toNat_inj.mp
  have hb : b.toNat < 2 ^ 8 := b.toNat_lt
  have shifted : (v <<< 8).toNat = (v.toNat % 2 ^ 56) <<< 8 := by
    rw [UInt64.toNat_shiftLeft, Nat.shiftLeft_eq, Nat.shiftLeft_eq]
    change v.toNat * 2 ^ 8 % 2 ^ 64 = v.toNat % 2 ^ 56 * 2 ^ 8
    omega
  rw [UInt64.toNat_or, shifted, UInt8.toNat_toUInt64, ← Nat.shiftLeft_add_eq_or_of_lt hb, Nat.shiftLeft_eq,
    UInt64.toNat_add, UInt64.toNat_mul, UInt8.toNat_toUInt64]
  change v.toNat % 2 ^ 56 * 2 ^ 8 + b.toNat = (v.toNat * 256 % 2 ^ 64 + b.toNat) % 2 ^ 64
  omega

theorem bigEndian_eq_ofNat (data : List UInt8) : bigEndian data = UInt64.ofNat (bigEndianNumber data) := by
  -- From the right, since a byte read later joins the number at its low end.
  induction data using List.reverseRecOn with
  | nil => rfl
  | append_singleton data b ih =>
    have number : bigEndianNumber (data ++ [b]) = b.toNat + 256 * bigEndianNumber data := by
      rw [bigEndianNumber, List.reverse_append, List.reverse_singleton, List.singleton_append, List.map_cons,
        Nat.ofDigits_cons, bigEndianNumber]
    have word : bigEndian (data ++ [b]) = bigEndian data <<< 8 ||| b.toUInt64 := by
      rw [bigEndian, List.foldl_append]
      rfl
    rw [word, shiftLeft_or_byte, ih, number, UInt64.ofNat_add, UInt64.ofNat_mul, UInt64.ofNat_uInt8ToNat,
      UInt64.add_comm, UInt64.mul_comm]
    rfl

theorem Denotes.value {x : Operand} {z : Int} (h : x.Denotes z) : x.value = .ok (UInt64.ofInt z) := by
  cases h with
  | integer => exact value_ofInt z
  | char c => exact value_ofInt c.toNat
  | bytes data => rw [Operand.value, bigEndian_eq_ofNat, Residue.ofInt_natCast]
  | literal ht hz =>
    rw [ht.eq_trim] at hz
    exact (Literal.parse_eq_ok_iff _ _).mpr ⟨z, hz, rfl⟩

theorem exists_denotes {x : Operand} {v : UInt64} (h : x.value = .ok v) : ∃ z, x.Denotes z := by
  cases x with
  | integer bits =>
    refine ⟨bits.toInt, ?_⟩
    have hb : ofInt bits.toInt = integer bits := congrArg integer BitVec.ofInt_toInt
    rw [← hb]
    exact .integer _
  | bytes data => exact ⟨_, .bytes data⟩
  | literal s =>
    obtain ⟨z, hz, -⟩ := (Literal.parse_eq_ok_iff s v).mp h
    exact ⟨z, .literal (Text.Blank.trimmed_trim _) hz⟩

theorem value_eq_ok_iff {x : Operand} {v : UInt64} :
    x.value = .ok v ↔ ∃ z, x.Denotes z ∧ (v.toNat : Int) = z % 2 ^ 64 := by
  constructor
  · intro h
    obtain ⟨z, hz⟩ := exists_denotes h
    obtain rfl := Except.ok.inj (hz.value.symm.trans h)
    exact ⟨z, hz, Residue.toNat_ofInt z⟩
  · rintro ⟨z, hz, hv⟩
    rw [hz.value, (Residue.eq_ofInt_iff v z).mpr hv]

end Operand

namespace Slot

def reach : Slot → Nat
  | low => 8
  | high => 16
  | word => 16
  | dword => 32
  | qword => 64

theorem reach_le (s : Slot) : s.reach ≤ 64 := by
  cases s <;> decide

theorem field_mod_reach (s : Slot) (n : Nat) : s.field (n % 2 ^ s.reach) = s.field n := by
  cases s with
  | high =>
    simp only [field, reach]
    omega
  | _ => exact Nat.mod_mod _ _

theorem read_ofInt_congr {s : Slot} {a b : Int} (h : a % 2 ^ s.reach = b % 2 ^ s.reach) :
    s.read (UInt64.ofInt a) = s.read (UInt64.ofInt b) := by
  have residues : (UInt64.ofInt a).toNat % 2 ^ s.reach = (UInt64.ofInt b).toNat % 2 ^ s.reach := by
    have ha := Residue.toNat_ofInt_emod s.reach_le a
    have hb := Residue.toNat_ofInt_emod s.reach_le b
    exact_mod_cast (ha.trans h).trans hb.symm
  apply UInt64.toNat_inj.mp
  rw [read_toNat, read_toNat, ← field_mod_reach, residues, field_mod_reach]

end Slot

def Operand.Alike (s : Slot) (x y : Operand) : Prop :=
  ∃ a b, x.Denotes a ∧ y.Denotes b ∧ a % 2 ^ s.reach = b % 2 ^ s.reach

theorem Operand.Alike.read_eq {s : Slot} {x y : Operand} (h : Alike s x y) : x.read s = y.read s := by
  obtain ⟨a, b, ha, hb, hab⟩ := h
  rw [read, read, ha.value, hb.value]
  exact congrArg Except.ok (Slot.read_ofInt_congr hab)

namespace Evaluator

theorem apply_sees_residues_in_reach (e : Evaluator) (m : Mnemonic) (d : Designator) :
    (∀ x v, Operand.value x = .ok v ↔ ∃ z, x.Denotes z ∧ (v.toNat : Int) = z % 2 ^ 64) ∧
    (∀ x x' y, Operand.Alike d.first x x' → e.apply m x y d = e.apply m x' y d) ∧
    ∀ x y y', Operand.Alike d.second y y' → e.apply m x (some y) d = e.apply m x (some y') d :=
  ⟨fun _ _ => Operand.value_eq_ok_iff, fun _ _ _ h => e.apply_eq_of_reads m h.read_eq rfl,
    fun _ _ _ h => e.apply_eq_of_reads m rfl (congrArg some h.read_eq)⟩

theorem apply_sees_residues_in_reach_of_other_kinds :
    Operand.Alike .high (.ofInt (-1)) (.bytes [0x12, 0xFF, 0xFF]) ∧
    Operand.Alike .word (.ofChar 'A') (.literal " 0x1_0041") ∧
    Evaluator.apply .new (.binary .rol) (.ofInt (-1)) (some (.ofChar 'A')) ⟨.high, .word⟩ =
      Evaluator.apply .new (.binary .rol) (.bytes [0x12, 0xFF, 0xFF]) (some (.literal " 0x1_0041")) ⟨.high, .word⟩ := by
  have hx : Operand.Alike .high (.ofInt (-1)) (.bytes [0x12, 0xFF, 0xFF]) :=
    ⟨-1, _, .integer _, .bytes _, by decide⟩
  have hy : Operand.Alike .word (.ofChar 'A') (.literal " 0x1_0041") := by
    obtain ⟨z, hz, hv⟩ := Operand.value_eq_ok_iff.mp (show (Operand.literal " 0x1_0041").value = .ok 0x10041 by rfl)
    refine ⟨65, z, .char 'A', hz, ?_⟩
    change (0x10041 : Int) = _ at hv
    change (65 : Int) % 2 ^ 16 = z % 2 ^ 16
    omega
  have h := apply_sees_residues_in_reach .new (.binary .rol) ⟨.high, .word⟩
  exact ⟨hx, hy, (h.2.1 _ _ _ hx).trans (h.2.2 _ _ _ hy)⟩

end Evaluator

end Subregister
