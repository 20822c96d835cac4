import Subregister.LaneHash
import Subregister.Proofs.Denotation
import Subregister.Proofs.Reference

/-!
The lanes of the hash, one by one. A sweep over the text gives each byte to one lane, and what a lane holds in the end
is a fold over the bytes it was given, in the order of the sweeps.
-/

namespace Subregister

namespace LaneHash

open Operand

theorem lift_of_result {α : Type} {r : Reply α} {a : α} (h : r.result = .ok a) : lift r = .ok a := by
  rw [lift, h]
  rfl

theorem exists_lane (e : Evaluator) (pass position : Nat) :
    ∃ index, lane e pass position = .ok index ∧ index.toNat = (position + pass) % 4 := by
  have dd : (Size.text "dd").resolve e.standard = .ok ⟨.dword, .dword⟩ := rfl
  obtain ⟨sum, hsum, add⟩ := e.exists_binary_computes .add (value_ofInt position) (value_ofInt pass) dd
  obtain ⟨index, hindex, and⟩ := e.exists_binary_computes .and (value_ofWord sum) (value_ofInt 3) dd
  refine ⟨index, ?_, ?_⟩
  · rw [lane, lift_of_result hsum]
    exact lift_of_result hindex
  · have low (n : Nat) : n &&& 3 = n % 4 := Nat.and_two_pow_sub_one_eq_mod n 2
    change (sum.toNat : Int) = _ at add
    change index.toNat = (sum.toNat % 2 ^ 32 &&& 3) % 2 ^ 32 at and
    simp only [Slot.field, Slot.width, Width.bits, Designator.destination, Residue.ofInt_natCast,
      UInt64.toNat_ofNat'] at add
    rw [low] at and
    omega

def mix (lane byte : UInt8) : UInt8 :=
  (lane ^^^ byte) - 1

theorem stir_eq (e : Evaluator) (s b : UInt8) : stir e s b = .ok (mix s b) := by
  have ld : (Size.text "ld").resolve e.standard = .ok ⟨.low, .dword⟩ := rfl
  have l : (Size.text "l").resolve e.standard = .ok ⟨.low, .low⟩ := rfl
  obtain ⟨mixed, hmixed, xor⟩ := e.exists_binary_computes .xor (value_ofInt s.toNat) (value_ofInt b.toNat) ld
  obtain ⟨down, hdown, dec⟩ := e.exists_unary_computes .dec (value_ofWord mixed) l
  have stirred : stir e s b = (lift (e.unary .dec (.ofWord mixed) (.text "l"))).map UInt64.toUInt8 := by
    rw [stir, lift_of_result hmixed]
    rfl
  rw [stirred, lift_of_result hdown]
  apply congrArg Except.ok
  apply UInt8.toNat_inj.mp
  rw [mix, UInt8.toNat_sub, UInt8.toNat_xor, UInt64.toNat_toUInt8]
  change mixed.toNat = _ at xor
  simp only [Slot.field, Slot.width, Width.bits, Designator.destination, UnaryOp.integer, Residue.ofInt_natCast,
    UInt64.toNat_ofNat'] at xor dec
  have hs : s.toNat % 2 ^ 64 % 2 ^ 8 = s.toNat := by
    have := s.toNat_lt
    omega
  have hb : b.toNat % 2 ^ 64 % 2 ^ 32 = b.toNat := by
    have := b.toNat_lt
    omega
  rw [hs, hb] at xor
  change down.toNat % 2 ^ 8 = (2 ^ 8 - 1 + (s.toNat ^^^ b.toNat)) % 2 ^ 8
  omega

theorem exists_absorb (e : Evaluator) (pass position : Nat) (byte : UInt8) (lanes : Lanes) :
    ∃ after, absorb e pass position byte lanes = .ok after ∧
      ∀ j (hj : j < 4), after[j] = if (position + pass) % 4 = j then mix lanes[j] byte else lanes[j] := by
  obtain ⟨index, hindex, hmod⟩ := exists_lane e pass position
  have hlt : index.toNat < 4 := by
    rw [hmod]
    exact Nat.mod_lt _ (by decide)
  refine ⟨lanes.set index.toNat (mix lanes[index.toNat] byte), ?_, ?_⟩
  · rw [absorb, hindex]
    change (if h : index.toNat < 4 then _ else _) = _
    rw [dif_pos hlt, stir_eq]
    rfl
  · intro j hj
    rw [← hmod, Vector.getElem_set]
    by_cases h : index.toNat = j
    · subst h
      simp only [if_true]
    · rw [if_neg h, if_neg h]

def share (pass lane position : Nat) (bytes : List UInt8) : List UInt8 :=
  ((bytes.zipIdx position).filter fun m => (m.2 + pass) % 4 = lane).map Prod.fst

theorem share_cons (pass lane position : Nat) (b : UInt8) (bytes : List UInt8) :
    share pass lane position (b :: bytes) =
      (if (position + pass) % 4 = lane then [b] else []) ++ share pass lane (position + 1) bytes := by
  rw [share, List.zipIdx_cons, List.filter_cons]
  split <;> simp_all [share]

theorem share_append (pass lane position : Nat) (bytes more : List UInt8) : share pass lane position (bytes ++ more) =
    share pass lane position bytes ++ share pass lane (position + bytes.length) more := by
  rw [share, List.zipIdx_append, List.filter_append, List.map_append]
  rfl

theorem exists_sweep (e : Evaluator) (pass position : Nat) (bytes : List UInt8) (lanes : Lanes) :
    ∃ after, sweep e pass position bytes lanes = .ok after ∧
      ∀ j (hj : j < 4), after[j] = (share pass j position bytes).foldl mix lanes[j] := by
  -- The lanes vary along the text: a byte is mixed into what the bytes before it have left.
  induction bytes generalizing position lanes with
  | nil => exact ⟨lanes, rfl, fun _ _ => rfl⟩
  | cons b bytes ih =>
    obtain ⟨next, hnext, step⟩ := exists_absorb e pass position b lanes
    obtain ⟨after, hafter, rest⟩ := ih (position + 1) next
    refine ⟨after, ?_, ?_⟩
    · rw [sweep, hnext]
      exact hafter
    · intro j hj
      rw [rest j hj, step j hj, share_cons]
      split
      · rfl
      · rfl

def shares (passes : List Nat) (lane : Nat) (bytes : List UInt8) : List UInt8 :=
  passes.flatMap fun pass => share pass lane 0 bytes

theorem exists_sweeps (e : Evaluator) (bytes : List UInt8) (passes : List Nat) (lanes : Lanes) :
    ∃ after, sweeps e bytes passes lanes = .ok after ∧
      ∀ j (hj : j < 4), after[j] = (shares passes j bytes).foldl mix lanes[j] := by
  induction passes generalizing lanes with
  | nil => exact ⟨lanes, rfl, fun _ _ => rfl⟩
  | cons pass passes ih =>
    obtain ⟨next, hnext, swept⟩ := exists_sweep e pass 0 bytes lanes
    obtain ⟨after, hafter, rest⟩ := ih next
    refine ⟨after, ?_, ?_⟩
    · rw [sweeps, hnext]
      exact hafter
    · intro j hj
      rw [rest j hj, swept j hj, shares, shares, List.flatMap_cons, List.foldl_append]

theorem toNat_shiftLeft_byte (b : UInt8) (k : UInt32) (hk : k.toNat ≤ 24) :
    (b.toUInt32 <<< k).toNat = b.toNat * 2 ^ k.toNat := by
  have hlt : b.toNat * 2 ^ k.toNat < 2 ^ 32 :=
    Nat.lt_of_lt_of_le (Nat.mul_lt_mul_of_lt_of_le b.toNat_lt (Nat.pow_le_pow_right (by decide) hk) (by decide))
      (by decide)
  have hk' : k.toNat % 32 = k.toNat := Nat.mod_eq_of_lt (by omega)
  rw [UInt32.toNat_shiftLeft, UInt8.toNat_toUInt32, hk', Nat.shiftLeft_eq, Nat.mod_eq_of_lt hlt]

theorem toNat_or_bytes (a b c d : UInt8) :
    (a.toUInt32 ||| b.toUInt32 <<< 8 ||| c.toUInt32 <<< 16 ||| d.toUInt32 <<< 24).toNat =
      a.toNat + b.toNat * 2 ^ 8 + c.toNat * 2 ^ 16 + d.toNat * 2 ^ 24 := by
  have above {x k : Nat} (n : Nat) (hx : x < 2 ^ k) : x ||| n * 2 ^ k = x + n * 2 ^ k := by
    rw [Nat.or_comm, Nat.mul_comm, ← Nat.two_pow_add_eq_or_of_lt hx, Nat.add_comm]
  have ha := a.toNat_lt
  have hb := b.toNat_lt
  have hc := c.toNat_lt
  rw [UInt32.toNat_or, UInt32.toNat_or, UInt32.toNat_or, toNat_shiftLeft_byte _ 8 (by decide),
    toNat_shiftLeft_byte _ 16 (by decide), toNat_shiftLeft_byte _ 24 (by decide), UInt8.toNat_toUInt32]
  change ((_ ||| b.toNat * 2 ^ 8) ||| c.toNat * 2 ^ 16) ||| d.toNat * 2 ^ 24 = _
  rw [above _ ha, above (k := 16) _ (by omega), above (k := 24) _ (by omega)]

theorem byte_join (lanes : Lanes) (j : Nat) (hj : j < 4) : (join lanes).toNat / 256 ^ j % 256 = lanes[j].toNat := by
  have h₀ := lanes[0].toNat_lt
  have h₁ := lanes[1].toNat_lt
  have h₂ := lanes[2].toNat_lt
  have h₃ := lanes[3].toNat_lt
  rw [join, toNat_or_bytes]
  match j, hj with
  | 0, _ | 1, _ | 2, _ | 3, _ => omega

theorem exists_hash (e : Evaluator) (text : String) : ∃ h, hash e text = .ok h ∧ ∀ j (_ : j < 4),
    h.toNat / 256 ^ j % 256 = ((shares [0, 1, 2] j text.toUTF8.data.toList).foldl mix (byteOf seed j)).toNat := by
  obtain ⟨after, hafter, folds⟩ := exists_sweeps e text.toUTF8.data.toList [0, 1, 2] (split seed)
  refine ⟨join after, ?_, fun j hj => ?_⟩
  · rw [hash, hafter]
    rfl
  · rw [byte_join after j hj, folds j hj, split, Vector.getElem_ofFn]

end LaneHash

end Subregister
