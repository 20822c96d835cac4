import Subregister.Proofs.JsonTrees

namespace Subregister.Json

open Text

def Token.write : Token → List Char
  | openArray => ['[']
  | closeArray => [']']
  | openObject => ['\x7b']
  | closeObject => ['\x7d']
  | comma => [',']
  | colon => [':']
  | leaf v => v.write
  | text t => Symbol.quote t

mutual

theorem write_eq_flatMap (v : Json) : v.write = v.tokens.flatMap Token.write := by
  match v with
  | null | bool true | bool false | array [] | object [] => rfl
  | number _ | string _ => exact (List.flatMap_singleton _ _).symm
  | array (x :: xs) =>
    rw [write, tokens, write_eq_flatMap x, writeItems_eq_flatMap xs, ← List.flatMap_append]
    rfl
  | object ((k, x) :: ms) =>
    rw [write, tokens, write_eq_flatMap x, writeMembers_eq_flatMap ms, ← List.flatMap_append]
    rfl

theorem writeItems_eq_flatMap (xs : List Json) : writeItems xs = (itemTokens xs).flatMap Token.write := by
  match xs with
  | [] => rfl
  | x :: xs =>
    rw [writeItems, itemTokens, write_eq_flatMap x, writeItems_eq_flatMap xs, ← List.flatMap_append]
    rfl

theorem writeMembers_eq_flatMap (ms : List (List Symbol × Json)) :
    writeMembers ms = (memberTokens ms).flatMap Token.write := by
  match ms with
  | [] => rfl
  | (k, x) :: ms =>
    rw [writeMembers, memberTokens, write_eq_flatMap x, writeMembers_eq_flatMap ms, ← List.flatMap_append]
    rfl

end

def Legible (v : Json) : Prop :=
  ∀ t ∈ v.tokens, Lexeme t t.write

theorem laid_flatMap_write {ts : List Token} (h : ∀ t ∈ ts, Lexeme t t.write) : Laid ts (ts.flatMap Token.write) := by
  induction ts with
  | nil => exact .last gap_nil
  | cons t ts ih =>
    have rest := ih fun u hu => h u (List.mem_cons_of_mem t hu)
    exact .next gap_nil (h t List.mem_cons_self) rest

theorem Legible.spells {v : Json} (h : v.Legible) : Spells v.text v := by
  rw [Spells, text, String.toList_ofList, write_eq_flatMap]
  exact laid_flatMap_write h

theorem Legible.text_injective {v w : Json} (hv : v.Legible) (hw : w.Legible) (h : v.text = w.text) : v = w :=
  hv.spells.unique (h ▸ hw.spells)

namespace Symbol

theorem escape_control {n : Nat} (h : n < 0x20) : Escape n (unicodeEscape n) := by
  have digits : ∀ n < 0x20, unicodeEscape n = ['\\', 'u', '0', '0', (n / 16).digitChar, (n % 16).digitChar] := by
    decide
  have digit {d : Nat} (hd : d < 16) : Radix.hexadecimal.Digit d.digitChar d := Radix.digit_digitChar hd
  refine ⟨_, [0, 0, n / 16, n % 16], digits n h, ?_, rfl, ?_⟩
  · have zero : Radix.hexadecimal.Digit '0' 0 := digit (by decide)
    exact .cons zero (.cons zero (.cons (digit (by omega)) (.cons (digit (by omega)) .nil)))
  · have numbers : ∀ n < 0x20, n = Radix.hexadecimal.number [0, 0, n / 16, n % 16] := by decide
    exact numbers n h

theorem shown_write (c : Char) : (scalar c).Shown (scalar c).write := by
  unfold write
  split
  case h_8 d quote backslash _ _ _ _ _ hd =>
    obtain rfl := scalar.inj hd
    split
    · next control => exact .unit (escape_control control)
    · next printed =>
      exact .plain quote backslash (Nat.le_of_not_lt printed)
  case h_9 hd => cases hd
  all_goals
    next hd =>
    obtain rfl := scalar.inj hd
    exact .short (by decide)

theorem spelled_write (cs : List Char) : Spelled (cs.map scalar) ((cs.map scalar).flatMap write) := by
  refine ⟨?_, cs.map fun c => (scalar c).write, ?_, ?_⟩
  · exact (List.pairwise_map.mpr (List.pairwise_of_forall fun _ _ => id)).isChain
  · rw [List.forall₂_map_left_iff, List.forall₂_map_right_iff, List.forall₂_same]
    exact fun c _ => shown_write c
  · rw [List.flatMap_map, List.flatMap_def]

theorem lexeme_quote (s : String) : Lexeme (.text (ofString s)) (quote (ofString s)) :=
  .text (spelled_write s.toList)

end Symbol

theorem whole_toDigits (n : Nat) : Numeral.Whole (Nat.toDigits 10 n) := by
  by_cases zero : n = 0
  · subst zero
    exact .inl rfl
  · refine .inr ⟨⟨Nat.toDigits_ne_nil, fun c hc => Nat.isDigit_of_mem_toDigits (by decide) (by decide) hc⟩, ?_⟩
    induction n using Nat.strong_induction_on with
    | _ n ih =>
      by_cases small : n < 10
      · have heads : ∀ n < 10, n ≠ 0 → [n.digitChar].head? ≠ some '0' := by decide
        rw [Nat.toDigits_of_lt_base small]
        exact heads n small zero
      · rw [Nat.toDigits_of_base_le (by decide) (by omega), List.head?_append_of_ne_nil _ Nat.toDigits_ne_nil]
        exact ih (n / 10) (by omega) (by omega)

theorem numeral_of_whole {sign cs : List Char} (hs : sign ∈ Numeral.signs) (h : Numeral.Whole cs) :
    Numeral (sign ++ cs) := by
  have numeral : Numeral (sign ++ cs ++ [] ++ []) := .mk hs h (.inl rfl) (.inl rfl)
  simpa using numeral

theorem legible_ofInt (v : Int) : (ofInt v).Legible := by
  have legible {cs : List Char} (h : Numeral cs) : (number cs).Legible :=
    List.forall_mem_singleton.mpr (.number h)
  rw [ofInt]
  split
  · exact legible (numeral_of_whole (List.mem_pair.mpr (.inr rfl)) (whole_toDigits _))
  · exact legible (numeral_of_whole (List.mem_pair.mpr (.inl rfl)) (whole_toDigits _))

theorem legible_ofString (s : String) : (ofString s).Legible :=
  List.forall_mem_singleton.mpr (Symbol.lexeme_quote s)

theorem legible_array {xs : List Json} (h : ∀ x ∈ xs, x.Legible) : (array xs).Legible := by
  have items : ∀ xs : List Json, (∀ x ∈ xs, x.Legible) → ∀ t ∈ itemTokens xs, Lexeme t t.write := by
    intro xs h
    induction xs with
    | nil => exact List.forall_mem_singleton.mpr .closeArray
    | cons x xs ih =>
      obtain ⟨hx, hxs⟩ := List.forall_mem_cons.mp h
      exact List.forall_mem_cons.mpr ⟨.comma, List.forall_mem_append.mpr ⟨hx, ih hxs⟩⟩
  cases xs with
  | nil => exact List.forall_mem_cons.mpr ⟨.openArray, List.forall_mem_singleton.mpr .closeArray⟩
  | cons x xs => exact List.forall_mem_cons.mpr ⟨.openArray, (List.forall_mem_cons.mp (items (x :: xs) h)).2⟩

theorem legible_record {ms : List (String × Json)} (h : ∀ m ∈ ms, m.2.Legible) : (record ms).Legible := by
  have members : ∀ ms : List (String × Json), (∀ m ∈ ms, m.2.Legible) →
      ∀ t ∈ memberTokens (ms.map fun m => (Symbol.ofString m.1, m.2)), Lexeme t t.write := by
    intro ms h
    induction ms with
    | nil => exact List.forall_mem_singleton.mpr .closeObject
    | cons m ms ih =>
      obtain ⟨hm, hms⟩ := List.forall_mem_cons.mp h
      have value := List.forall_mem_append.mpr ⟨hm, ih hms⟩
      refine List.forall_mem_cons.mpr ⟨.comma, List.forall_mem_cons.mpr ⟨Symbol.lexeme_quote m.1, ?_⟩⟩
      exact List.forall_mem_cons.mpr ⟨.colon, value⟩
  cases ms with
  | nil => exact List.forall_mem_cons.mpr ⟨.openObject, List.forall_mem_singleton.mpr .closeObject⟩
  | cons m ms => exact List.forall_mem_cons.mpr ⟨.openObject, (List.forall_mem_cons.mp (members (m :: ms) h)).2⟩

theorem ofInt_injective {v w : Int} (h : ofInt v = ofInt w) : v = w := by
  have digits {m n : Nat} (h : Nat.toDigits 10 m = Nat.toDigits 10 n) : m = n := by
    rw [← Nat.ofDigitChars_ten_toDigits (n := m), h, Nat.ofDigitChars_ten_toDigits]
  have minus (m n : Nat) : '-' :: Nat.toDigits 10 m ≠ Nat.toDigits 10 n := by
    intro h
    have minus : '-' ∈ Nat.toDigits 10 n := h ▸ List.mem_cons_self
    exact absurd (Nat.isDigit_of_mem_toDigits (by decide) (by decide) minus) (by decide)
  rw [ofInt, ofInt] at h
  split at h <;> split at h <;> injection h with h
  · injection h with _ h
    have := digits h
    omega
  · exact absurd h (minus _ _)
  · exact absurd h.symm (minus _ _)
  · have := digits h
    omega

theorem Symbol.ofString_injective {s t : String} (h : Symbol.ofString s = Symbol.ofString t) : s = t := by
  have scalars : Function.Injective scalar := fun _ _ => scalar.inj
  exact String.toList_inj.mp (scalars.list_map h)

theorem ofString_injective {s t : String} (h : ofString s = ofString t) : s = t :=
  Symbol.ofString_injective (Json.string.inj h)

end Subregister.Json
