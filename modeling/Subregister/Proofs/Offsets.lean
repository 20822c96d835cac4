import Mathlib.Data.List.Basic

namespace Subregister.Checked

inductive Trap
  | outOfRange | insideCharacter | overlongShift | underflow | zeroDivisor | badRadix
  deriving DecidableEq

theorem ok_bind {α β : Type} (a : α) (f : α → Except Trap β) : (Except.ok a >>= f) = f a := rfl

def byteAt (s : String) (i : Nat) : Except Trap UInt8 :=
  if h : (⟨i⟩ : String.Pos.Raw) < s.rawEndPos then .ok (s.getUTF8Byte ⟨i⟩ h) else .error .outOfRange

def cut (s : String) (i : Nat) : Except Trap (String × String) :=
  if h : (⟨i⟩ : String.Pos.Raw).IsValid s then
    .ok ((s.sliceTo ⟨⟨i⟩, h⟩).copy, (s.sliceFrom ⟨⟨i⟩, h⟩).copy)
  else
    .error .insideCharacter

def textFrom (s : String) (i : Nat) : Except Trap String :=
  (cut s i).map Prod.snd

def textTo (s : String) (i : Nat) : Except Trap String :=
  (cut s i).map Prod.fst

theorem cut_eq_ok_iff {s t u : String} {i : Nat} : cut s i = .ok (t, u) ↔ s = t ++ u ∧ i = t.utf8ByteSize := by
  constructor
  · intro h
    rw [cut] at h
    split at h
    next hv =>
      have parts := String.Pos.splits (s := s) ⟨⟨i⟩, hv⟩
      obtain ⟨rfl, rfl⟩ := Prod.mk.inj (Except.ok.inj h)
      exact ⟨parts.eq_append, congrArg String.Pos.Raw.byteIdx parts.offset_eq_rawEndPos⟩
    next => cases h
  · rintro ⟨rfl, rfl⟩
    have hv : (⟨t.utf8ByteSize⟩ : String.Pos.Raw).IsValid (t ++ u) :=
      String.Pos.Raw.isValid_iff_exists_append.mpr ⟨t, u, rfl, rfl⟩
    have parts := String.Pos.splits_append_rawEndPos (s := t) (t := u)
    rw [cut, dif_pos hv]
    exact congrArg _ (Prod.ext parts.copy_sliceTo_eq parts.copy_sliceFrom_eq)

example : textFrom "é1" 1 = .error .insideCharacter := by decide

def encode (cs : List Char) : List UInt8 :=
  cs.flatMap String.utf8EncodeChar

theorem utf8ByteSize_ofList (cs : List Char) : (String.ofList cs).utf8ByteSize = (encode cs).length := by
  rw [← String.size_toByteArray, String.toByteArray_ofList, List.utf8Encode, List.size_toByteArray, encode]

theorem length_le_utf8ByteSize (cs : List Char) : cs.length ≤ (String.ofList cs).utf8ByteSize := by
  rw [utf8ByteSize_ofList]
  induction cs with
  | nil => exact Nat.le_refl _
  | cons c cs ih =>
    have := c.utf8Size_pos
    simp only [encode, List.flatMap_cons, List.length_append, String.length_utf8EncodeChar, List.length_cons] at ih ⊢
    omega

theorem utf8ByteSize_pos {cs : List Char} (h : cs ≠ []) : 0 < (String.ofList cs).utf8ByteSize :=
  Nat.lt_of_lt_of_le (List.length_pos_of_ne_nil h) (length_le_utf8ByteSize cs)

theorem utf8Size_of_lt {c : Char} (h : c.toNat < 0x80) : c.utf8Size = 1 := by
  rw [Char.utf8Size_eq_one_iff]
  exact UInt32.le_iff_toNat_le.mpr (Nat.le_of_lt_succ h)

theorem utf8ByteSize_of_lt {cs : List Char} (h : ∀ c ∈ cs, c.toNat < 0x80) :
    (String.ofList cs).utf8ByteSize = cs.length := by
  rw [utf8ByteSize_ofList]
  induction cs with
  | nil => rfl
  | cons c cs ih =>
    have hc := utf8Size_of_lt (h c List.mem_cons_self)
    have hcs := ih fun d hd => h d (List.mem_cons_of_mem c hd)
    simp only [encode, List.flatMap_cons, List.length_append, String.length_utf8EncodeChar, List.length_cons] at hcs ⊢
    omega

theorem textFrom_ofList (front : List Char) (h : ∀ c ∈ front, c.toNat < 0x80) (cs : List Char) :
    textFrom (String.ofList (front ++ cs)) front.length = .ok (String.ofList cs) := by
  rw [textFrom, cut_eq_ok_iff.mpr ⟨String.ofList_append, (utf8ByteSize_of_lt h).symm⟩]
  rfl

theorem textFrom_cons {k : Char} (hk : k.toNat < 0x80) (cs : List Char) :
    textFrom (String.ofList (k :: cs)) 1 = .ok (String.ofList cs) :=
  textFrom_ofList [k] (by simpa using hk) cs

theorem textTo_ofList (cs back : List Char) (h : ∀ c ∈ back, c.toNat < 0x80) :
    textTo (String.ofList (cs ++ back)) ((String.ofList (cs ++ back)).utf8ByteSize - back.length) =
      .ok (String.ofList cs) := by
  have size : (String.ofList (cs ++ back)).utf8ByteSize - back.length = (String.ofList cs).utf8ByteSize := by
    rw [String.ofList_append, String.utf8ByteSize_append, utf8ByteSize_of_lt h, Nat.add_sub_cancel]
  rw [textTo, cut_eq_ok_iff.mpr ⟨String.ofList_append, size⟩]
  rfl

theorem byteAt_of_getElem? {cs : List Char} {i : Nat} {b : UInt8} (h : (encode cs)[i]? = some b) :
    byteAt (String.ofList cs) i = .ok b := by
  obtain ⟨hi, rfl⟩ := List.getElem?_eq_some_iff.mp h
  have hlt : (⟨i⟩ : String.Pos.Raw) < (String.ofList cs).rawEndPos := by
    rw [String.Pos.Raw.lt_iff, String.byteIdx_rawEndPos, utf8ByteSize_ofList]
    exact hi
  rw [byteAt, dif_pos hlt, String.getUTF8Byte_eq_getElem]
  simp [encode, List.utf8Encode]

def Shows (b : UInt8) (c : Char) : Prop :=
  b.toNat = c.toNat ∨ 0x80 ≤ b.toNat ∧ 0x80 ≤ c.toNat

theorem shows_of_mem {b : UInt8} {c : Char} (h : b ∈ String.utf8EncodeChar c) : Shows b c := by
  have value : c.val.toNat = c.toNat := rfl
  revert h
  fun_cases String.utf8EncodeChar c with
  | case1 v hv =>
    intro h
    left
    rw [List.mem_singleton.mp h, UInt8.toNat_ofNat']
    omega
  | case2 v hv hw =>
    intro h
    right
    simp only [List.mem_cons, List.not_mem_nil, or_false] at h
    rcases h with rfl | rfl <;> rw [UInt8.toNat_ofNat'] <;> omega
  | case3 v hv hw hx =>
    intro h
    right
    simp only [List.mem_cons, List.not_mem_nil, or_false] at h
    rcases h with rfl | rfl | rfl <;> rw [UInt8.toNat_ofNat'] <;> omega
  | case4 v hv hw hx =>
    intro h
    right
    simp only [List.mem_cons, List.not_mem_nil, or_false] at h
    rcases h with rfl | rfl | rfl | rfl <;> rw [UInt8.toNat_ofNat'] <;> omega

theorem Shows.beq_toUInt8 {b : UInt8} {c k : Char} (h : Shows b c) (hk : k.toNat < 0x80) :
    (b == k.toUInt8) = (c == k) := by
  have value : k.toUInt8.toNat = k.toNat := Nat.mod_eq_of_lt (show k.toNat < 2 ^ 8 by omega)
  rw [Bool.eq_iff_iff, beq_iff_eq, beq_iff_eq, ← UInt8.toNat_inj, ← Char.toNat_inj, value]
  rcases h with h | h <;> omega

theorem byteAt_zero (c : Char) (cs : List Char) : ∃ b, byteAt (String.ofList (c :: cs)) 0 = .ok b ∧ Shows b c := by
  obtain ⟨b, bs, hb⟩ := List.exists_cons_of_ne_nil (String.utf8EncodeChar_ne_nil (c := c))
  have front : (encode (c :: cs))[0]? = some b := by simp [encode, hb]
  exact ⟨b, byteAt_of_getElem? front, shows_of_mem (by simp [hb])⟩

theorem byteAt_one {k : Char} (hk : k.toNat < 0x80) (c : Char) (cs : List Char) :
    ∃ b, byteAt (String.ofList (k :: c :: cs)) 1 = .ok b ∧ Shows b c := by
  obtain ⟨b, bs, hb⟩ := List.exists_cons_of_ne_nil (String.utf8EncodeChar_ne_nil (c := c))
  have second : (encode (k :: c :: cs))[1]? = some b := by
    simp [encode, String.utf8EncodeChar_eq_singleton (utf8Size_of_lt hk), hb]
  exact ⟨b, byteAt_of_getElem? second, shows_of_mem (by simp [hb])⟩

theorem byteAt_last (cs : List Char) (c : Char) :
    ∃ b, byteAt (String.ofList (cs ++ [c])) ((String.ofList (cs ++ [c])).utf8ByteSize - 1) = .ok b ∧ Shows b c := by
  have hne := String.utf8EncodeChar_ne_nil (c := c)
  have final : (encode (cs ++ [c])).getLast? = some ((String.utf8EncodeChar c).getLast hne) := by
    simp [encode, List.getLast?_append, List.getLast?_eq_some_getLast hne]
  rw [List.getLast?_eq_getElem?, ← utf8ByteSize_ofList] at final
  exact ⟨_, byteAt_of_getElem? final, shows_of_mem (List.getLast_mem hne)⟩

def isDigit (b : UInt8) : Bool :=
  0x30 ≤ b && b ≤ 0x39

theorem Shows.isDigit_eq {b : UInt8} {c : Char} (h : Shows b c) : isDigit b = c.isDigit := by
  have low : (0x30 ≤ b) ↔ 0x30 ≤ b.toNat := UInt8.le_iff_toNat_le
  have high : (b ≤ 0x39) ↔ b.toNat ≤ 0x39 := UInt8.le_iff_toNat_le
  have digit : c.isDigit = true ↔ 0x30 ≤ c.toNat ∧ c.toNat ≤ 0x39 := Char.isDigit_iff_toNat
  rw [Bool.eq_iff_iff, digit, isDigit, Bool.and_eq_true, decide_eq_true_eq, decide_eq_true_eq, low, high]
  rcases h with h | h <;> omega

end Subregister.Checked
