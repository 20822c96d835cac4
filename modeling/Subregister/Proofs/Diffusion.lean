import Subregister.Proofs.LaneFolds

namespace Subregister.LaneHash

theorem mix_left_injective (b : UInt8) : Function.Injective fun s => mix s b := by
  intro s t h
  exact (UInt8.xor_left_inj b).mp ((UInt8.sub_left_inj 1).mp h)

theorem mix_right_injective (s : UInt8) : Function.Injective (mix s) := by
  intro b c h
  exact (UInt8.xor_right_inj s).mp ((UInt8.sub_left_inj 1).mp h)

theorem foldl_mix_injective (bytes : List UInt8) : Function.Injective (bytes.foldl mix) := by
  induction bytes with
  | nil => exact fun s t h => h
  | cons b bytes ih => exact fun s t h => mix_left_injective b (ih h)

theorem foldl_mix_ne {b c : UInt8} (h : b ≠ c) (before after : List UInt8) (s : UInt8) :
    (before ++ b :: after).foldl mix s ≠ (before ++ c :: after).foldl mix s := by
  rw [List.foldl_append, List.foldl_append, List.foldl_cons, List.foldl_cons]
  intro heq
  exact h (mix_right_injective _ (foldl_mix_injective after heq))

section

variable {lane k : Nat} {l r : List UInt8}

theorem share_through (pass lane : Nat) (l : List UInt8) (b : UInt8) (r : List UInt8) :
    share pass lane 0 (l ++ b :: r) = share pass lane 0 l ++
      ((if (l.length + pass) % 4 = lane then [b] else []) ++ share pass lane (l.length + 1) r) := by
  rw [share_append, share_cons, Nat.zero_add]

theorem shares_of_missed {passes : List Nat} (h : ∀ pass ∈ passes, (l.length + pass) % 4 ≠ lane) (b c : UInt8) :
    shares passes lane (l ++ b :: r) = shares passes lane (l ++ c :: r) := by
  rw [shares, shares, List.flatMap_def, List.flatMap_def]
  apply congrArg List.flatten
  apply List.map_congr_left
  intro pass hpass
  rw [share_through, share_through, if_neg (h pass hpass), if_neg (h pass hpass)]

theorem exists_shares_of_met (front back : List Nat) (hk : (l.length + k) % 4 = lane)
    (h : ∀ pass ∈ front ++ back, (l.length + pass) % 4 ≠ lane) :
    ∃ before after, ∀ b, shares (front ++ k :: back) lane (l ++ b :: r) = before ++ b :: after := by
  rw [List.forall_mem_append] at h
  refine ⟨shares front lane (l ++ 0 :: r) ++ share k lane 0 l,
    share k lane (l.length + 1) r ++ shares back lane (l ++ 0 :: r), fun b => ?_⟩
  have split : shares (front ++ k :: back) lane (l ++ b :: r) = shares front lane (l ++ b :: r) ++
      (share k lane 0 (l ++ b :: r) ++ shares back lane (l ++ b :: r)) := by
    rw [shares, List.flatMap_append, List.flatMap_cons]
    rfl
  rw [split, shares_of_missed h.1 b 0, shares_of_missed h.2 b 0, share_through, if_pos hk]
  simp only [List.append_assoc, List.cons_append, List.nil_append]

end

structure DifferAt (p : Nat) (s t : String) : Prop where
  size_eq : s.toUTF8.size = t.toUTF8.size
  differ_iff : ∀ i, s.toUTF8.data[i]? ≠ t.toUTF8.data[i]? ↔ i = p

theorem exists_split_of_differ {α : Type} {xs ys : List α} {p : Nat} (hlen : xs.length = ys.length)
    (h : ∀ i, xs[i]? ≠ ys[i]? ↔ i = p) :
    ∃ l r b c, b ≠ c ∧ l.length = p ∧ xs = l ++ b :: r ∧ ys = l ++ c :: r := by
  have agree {i : Nat} (hi : i ≠ p) : xs[i]? = ys[i]? := by
    by_contra hne
    exact hi ((h i).mp hne)
  have hx : p < xs.length := by
    by_contra hp
    apply (h p).mpr rfl
    rw [List.getElem?_eq_none (by omega), List.getElem?_eq_none (by omega)]
  have hy : p < ys.length := hlen ▸ hx
  have front : xs.take p = ys.take p := by
    apply List.ext_getElem?
    intro i
    rw [List.getElem?_take, List.getElem?_take]
    split
    · exact agree (by omega)
    · rfl
  have back : xs.drop (p + 1) = ys.drop (p + 1) := by
    apply List.ext_getElem?
    intro i
    rw [List.getElem?_drop, List.getElem?_drop]
    exact agree (by omega)
  refine ⟨xs.take p, xs.drop (p + 1), xs[p], ys[p], ?_, ?_, ?_, ?_⟩
  · intro heq
    apply (h p).mpr rfl
    rw [List.getElem?_eq_getElem hx, List.getElem?_eq_getElem hy, heq]
  · rw [List.length_take]
    omega
  · rw [List.getElem_cons_drop, List.take_append_drop]
  · rw [front, back, List.getElem_cons_drop, List.take_append_drop]

theorem DifferAt.exists_split {p : Nat} {s t : String} (h : DifferAt p s t) :
    ∃ l r b c, b ≠ c ∧ l.length = p ∧ s.toUTF8.data.toList = l ++ b :: r ∧ t.toUTF8.data.toList = l ++ c :: r := by
  apply exists_split_of_differ h.size_eq
  intro i
  rw [Array.getElem?_toList, Array.getElem?_toList]
  exact h.differ_iff i

theorem hash_spreads_change (e : Evaluator) {p : Nat} {s t : String} (h : DifferAt p s t) :
    ∃ u v : UInt32, hash e s = .ok u ∧ hash e t = .ok v ∧
      (∀ k < 3, u.toNat / 256 ^ ((p + k) % 4) % 256 ≠ v.toNat / 256 ^ ((p + k) % 4) % 256) ∧
      u.toNat / 256 ^ ((p + 3) % 4) % 256 = v.toNat / 256 ^ ((p + 3) % 4) % 256 := by
  obtain ⟨l, r, b, c, hbc, rfl, hs, ht⟩ := h.exists_split
  obtain ⟨u, hu, ubytes⟩ := exists_hash e s
  obtain ⟨v, hv, vbytes⟩ := exists_hash e t
  rw [hs] at ubytes
  rw [ht] at vbytes
  refine ⟨u, v, hu, hv, fun k hk => ?_, ?_⟩
  · have lane_lt : (l.length + k) % 4 < 4 := Nat.mod_lt _ (by decide)
    -- Lanes are four and passes three, so no other pass than the `k`th gives the byte to this lane.
    have met : ∃ before after, ∀ b, shares [0, 1, 2] ((l.length + k) % 4) (l ++ b :: r) = before ++ b :: after := by
      match k, hk with
      | 0, _ => exact exists_shares_of_met [] [1, 2] rfl (by simp; omega)
      | 1, _ => exact exists_shares_of_met [0] [2] rfl (by simp; omega)
      | 2, _ => exact exists_shares_of_met [0, 1] [] rfl (by simp; omega)
    obtain ⟨before, after, hshares⟩ := met
    rw [ubytes _ lane_lt, vbytes _ lane_lt, hshares, hshares]
    exact fun heq => foldl_mix_ne hbc before after _ (UInt8.toNat_inj.mp heq)
  · have lane_lt : (l.length + 3) % 4 < 4 := Nat.mod_lt _ (by decide)
    have missed : ∀ pass ∈ [0, 1, 2], (l.length + pass) % 4 ≠ (l.length + 3) % 4 := by
      simp
      omega
    rw [ubytes _ lane_lt, vbytes _ lane_lt, shares_of_missed missed b c]

theorem hash_spreads_change_of_accent : DifferAt 4 "1: é" "1: è" ∧
    ∃ u v : UInt32, hash .new "1: é" = .ok u ∧ hash .new "1: è" = .ok v ∧
      (∀ k < 3, u.toNat / 256 ^ ((4 + k) % 4) % 256 ≠ v.toNat / 256 ^ ((4 + k) % 4) % 256) ∧
      u.toNat / 256 ^ ((4 + 3) % 4) % 256 = v.toNat / 256 ^ ((4 + 3) % 4) % 256 := by
  have h : DifferAt 4 "1: é" "1: è" := by
    have hs : "1: é".toUTF8.data = #[0x31, 0x3A, 0x20, 0xC3, 0xA9] := by decide
    have ht : "1: è".toUTF8.data = #[0x31, 0x3A, 0x20, 0xC3, 0xA8] := by decide
    refine ⟨by decide, fun i => ?_⟩
    rw [hs, ht]
    match i with
    | 0 | 1 | 2 | 3 | 4 => decide
    | i + 5 => simp
  exact ⟨h, hash_spreads_change .new h⟩

end Subregister.LaneHash
