import Subregister.Proofs.LaneFolds

namespace Subregister.LaneHash

def everyFourth {α : Type} (r : Int) (xs : List α) : List α :=
  (xs.zipIdx.filter fun m => (m.2 : Int) % 4 = r % 4).map Prod.fst

def step (s : Nat) (b : UInt8) : Nat :=
  ((((s ^^^ b.toNat : Nat) : Int) - 1) % 256).toNat

theorem toNat_mix (s b : UInt8) : (mix s b).toNat = step s.toNat b := by
  have h := (s ^^^ b).toNat_lt
  rw [UInt8.toNat_xor] at h
  rw [mix, UInt8.toNat_sub, UInt8.toNat_xor, step]
  change (2 ^ 8 - 1 + (s.toNat ^^^ b.toNat)) % 2 ^ 8 = _
  omega

theorem toNat_foldl_mix (bytes : List UInt8) (s : UInt8) : (bytes.foldl mix s).toNat = bytes.foldl step s.toNat := by
  symm
  apply List.foldl_hom UInt8.toNat
  intro s b
  exact (toNat_mix s b).symm

theorem share_eq_everyFourth (pass : Nat) {j : Nat} (hj : j < 4) (bytes : List UInt8) :
    share pass j 0 bytes = everyFourth (j - pass) bytes := by
  have same (i : Nat) : (i + pass) % 4 = j ↔ (i : Int) % 4 = (j - pass) % 4 := by omega
  simp only [share, everyFourth, same]

theorem shares_eq_everyFourth {j : Nat} (hj : j < 4) (bytes : List UInt8) : shares [0, 1, 2] j bytes =
    everyFourth j bytes ++ everyFourth (j - 1) bytes ++ everyFourth (j - 2) bytes := by
  simp [shares, share_eq_everyFourth _ hj]

theorem toNat_byteOf (v : UInt32) {j : Nat} (hj : j < 4) : (byteOf v j).toNat = v.toNat / 256 ^ j % 256 := by
  have small : 8 * j < 2 ^ 32 := by omega
  have amount : 8 * j % 32 = 8 * j := Nat.mod_eq_of_lt (by omega)
  have weight : 2 ^ (8 * j) = 256 ^ j := Nat.pow_mul 2 8 j
  rw [byteOf, UInt32.toNat_toUInt8, UInt32.toNat_shiftRight, UInt32.toNat_ofNat_of_lt' small, amount,
    Nat.shiftRight_eq_div_pow, weight]

theorem hash_folds_classes (e : Evaluator) (text : String) :
    (∀ pass position : Nat, ∃ index, lane e pass position = .ok index ∧ index.toNat < 4) ∧
    ∃ h : UInt32, hash e text = .ok h ∧ ∀ j : Nat, j < 4 →
      let bytes := text.toUTF8.data.toList
      h.toNat / 256 ^ j % 256 =
        (everyFourth j bytes ++ everyFourth (j - 1) bytes ++ everyFourth (j - 2) bytes).foldl step
          (0x87654321 / 256 ^ j % 256) := by
  constructor
  · intro pass position
    obtain ⟨index, hindex, hmod⟩ := exists_lane e pass position
    exact ⟨index, hindex, hmod ▸ Nat.mod_lt _ (by decide)⟩
  · obtain ⟨h, hh, folds⟩ := exists_hash e text
    refine ⟨h, hh, fun j hj => ?_⟩
    rw [folds j hj, toNat_foldl_mix, toNat_byteOf seed hj, shares_eq_everyFourth hj]
    rfl

theorem hash_folds_classes_of_accent : ∃ h : UInt32, hash .new "né" = .ok h ∧ 0 < 4 ∧
    h.toNat / 256 ^ 0 % 256 = [0x6E, 0xA9].foldl step 0x21 := by
  have bytes : "né".toUTF8.data.toList = [0x6E, 0xC3, 0xA9] := by decide
  obtain ⟨h, hh, folds⟩ := (hash_folds_classes .new "né").2
  refine ⟨h, hh, by decide, ?_⟩
  have first := folds 0 (by decide)
  rw [bytes] at first
  exact first

example : hash .new "McTray.exe" = .ok 0x923CA517 := by cbv

end Subregister.LaneHash
