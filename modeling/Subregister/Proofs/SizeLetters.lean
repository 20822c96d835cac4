import Mathlib.Data.List.Basic
import Subregister.Proofs.Evaluation

namespace Subregister

namespace Slot

def capital : Slot → Char
  | low => 'L'
  | high => 'H'
  | word => 'W'
  | dword => 'D'
  | qword => 'Q'

def Spelled (s : Slot) (c : Char) : Prop :=
  c = s.letter ∨ c = s.capital

def IsLetter (c : Char) : Prop :=
  ∃ s : Slot, s.Spelled c

theorem Spelled.toLower {s : Slot} {c : Char} (h : s.Spelled c) : c.toLower = s.letter := by
  rcases h with rfl | rfl
  · cases s <;> rfl
  · cases s <;> rfl

theorem eq_or_of_toLower {c d : Char} (h : c.toLower = d) : c = d ∨ c.toNat + 32 = d.toNat := by
  subst h
  by_cases capital : c.val ≥ 'A'.val ∧ c.val ≤ 'Z'.val
  · have lowered : c.toLower.val = c.val + 32 := congrArg Char.val (dif_pos capital)
    have low : c.val.toNat ≤ 90 := UInt32.le_iff_toNat_le.mp capital.2
    right
    change c.val.toNat + 32 = c.toLower.val.toNat
    rw [lowered, UInt32.toNat_add]
    exact (Nat.mod_eq_of_lt (by omega)).symm
  · have kept : c.toLower = c := dif_neg capital
    exact .inl kept.symm

theorem spelled_iff_toLower {s : Slot} {c : Char} : s.Spelled c ↔ c.toLower = s.letter := by
  constructor
  · exact Spelled.toLower
  · intro h
    have below : s.capital.toNat + 32 = s.letter.toNat := by cases s <;> rfl
    rcases eq_or_of_toLower h with hc | hc
    · exact .inl hc
    · exact .inr (Char.toNat_inj.mp (by omega))

theorem ofLetter?_eq_some_iff {s : Slot} {c : Char} : ofLetter? c = some s ↔ s.Spelled c := by
  rw [spelled_iff_toLower]
  constructor
  · intro h
    have found := List.find?_some h
    exact (eq_of_beq found).symm
  · intro h
    rw [← ofLetter?_letter s, ofLetter?, ofLetter?, h]
    cases s <;> rfl

end Slot

namespace Designator

inductive Spells : List Char → Designator → Prop
  | one {s : Slot} {c : Char} : s.Spelled c → Spells [c] ⟨s, s⟩
  | two {s t : Slot} {c d : Char} : s.Spelled c → t.Spelled d → Spells [c, d] ⟨s, t⟩

def doubled : List Char → List Char
  | [c] => [c, c]
  | cs => cs

def Fault.Shows (cs : List Char) : Fault → Prop
  | empty => cs = []
  | tooLong => 3 ≤ cs.length
  | unknownLetter => (cs.length = 1 ∨ cs.length = 2) ∧ ∃ c ∈ cs, ¬ Slot.IsLetter c

theorem slot_eq_ok_iff {c : Char} {s : Slot} : slot c = .ok s ↔ s.Spelled c := by
  rw [← Slot.ofLetter?_eq_some_iff, slot]
  cases Slot.ofLetter? c <;> simp

theorem slot_cases (c : Char) :
    (∃ s, slot c = .ok s ∧ s.Spelled c) ∨ slot c = .error .unknownLetter ∧ ¬ Slot.IsLetter c := by
  cases h : Slot.ofLetter? c with
  | some s =>
    have spelled := Slot.ofLetter?_eq_some_iff.mp h
    exact .inl ⟨s, slot_eq_ok_iff.mpr spelled, spelled⟩
  | none =>
    refine .inr ⟨by rw [slot, h], ?_⟩
    rintro ⟨s, hs⟩
    rw [Slot.ofLetter?_eq_some_iff.mpr hs] at h
    cases h

theorem ofLetters_cases (cs : List Char) :
    (∃ d, ofLetters cs = .ok d ∧ Spells cs d) ∨ ∃ g, ofLetters cs = .error g ∧ g.Shows cs := by
  match cs with
  | [] => exact .inr ⟨.empty, rfl, rfl⟩
  | [c] =>
    rw [ofLetters]
    rcases slot_cases c with ⟨s, hs, hc⟩ | ⟨hs, hc⟩
    · rw [hs]
      exact .inl ⟨_, rfl, .one hc⟩
    · rw [hs]
      exact .inr ⟨_, rfl, .inl rfl, c, .head _, hc⟩
  | [c, d] =>
    rw [ofLetters]
    rcases slot_cases c with ⟨s, hs, hc⟩ | ⟨hs, hc⟩
    · rcases slot_cases d with ⟨t, ht, hd⟩ | ⟨ht, hd⟩
      · rw [hs, ht]
        exact .inl ⟨_, rfl, .two hc hd⟩
      · rw [hs, ht]
        exact .inr ⟨_, rfl, .inr rfl, d, .tail _ (.head _), hd⟩
    · rw [hs]
      exact .inr ⟨_, rfl, .inr rfl, c, .head _, hc⟩
  | c :: d :: b :: cs => exact .inr ⟨.tooLong, rfl, Nat.le_add_left 3 cs.length⟩

theorem ofLetters_of_spells {cs : List Char} {d : Designator} (h : Spells cs d) : ofLetters cs = .ok d := by
  cases h with
  | one hc =>
    rw [ofLetters, slot_eq_ok_iff.mpr hc]
    rfl
  | two hc hd =>
    rw [ofLetters, slot_eq_ok_iff.mpr hc, slot_eq_ok_iff.mpr hd]
    rfl

theorem Spells.only_letters {cs : List Char} {d : Designator} (h : Spells cs d) :
    (cs.length = 1 ∨ cs.length = 2) ∧ ∀ c ∈ cs, Slot.IsLetter c := by
  cases h with
  | one hc =>
    refine ⟨.inl rfl, List.forall_mem_cons.mpr ⟨⟨_, hc⟩, ?_⟩⟩
    exact List.forall_mem_nil _
  | two hc hd =>
    refine ⟨.inr rfl, List.forall_mem_cons.mpr ⟨⟨_, hc⟩, List.forall_mem_cons.mpr ⟨⟨_, hd⟩, ?_⟩⟩⟩
    exact List.forall_mem_nil _

theorem Fault.Shows.not_only_letters {g : Fault} {cs : List Char} (h : g.Shows cs) :
    ¬ ((cs.length = 1 ∨ cs.length = 2) ∧ ∀ c ∈ cs, Slot.IsLetter c) := by
  rintro ⟨length, letters⟩
  cases g with
  | empty =>
    rw [List.length_eq_zero_iff.mpr h] at length
    omega
  | tooLong =>
    have : 3 ≤ cs.length := h
    omega
  | unknownLetter =>
    obtain ⟨-, c, hc, unknown⟩ := h
    exact unknown (letters c hc)

theorem Fault.Shows.unique {f g : Fault} {cs : List Char} (hf : f.Shows cs) (hg : g.Shows cs) : f = g := by
  cases f <;> cases g <;> grind [Fault.Shows]

theorem ofLetters_eq_ok_iff {cs : List Char} {d : Designator} : ofLetters cs = .ok d ↔ Spells cs d := by
  refine ⟨fun h => ?_, ofLetters_of_spells⟩
  rcases ofLetters_cases cs with ⟨d', hd, hs⟩ | ⟨g, hg, -⟩
  · obtain rfl := Except.ok.inj (hd.symm.trans h)
    exact hs
  · cases hg.symm.trans h

theorem ofLetters_eq_error_iff {cs : List Char} {g : Fault} : ofLetters cs = .error g ↔ g.Shows cs := by
  rcases ofLetters_cases cs with ⟨d, hd, hs⟩ | ⟨f, hf, hs⟩
  · rw [hd]
    exact iff_of_false nofun fun hg => hg.not_only_letters hs.only_letters
  · rw [hf, Except.error.injEq]
    constructor
    · rintro rfl
      exact hs
    · exact hs.unique

theorem Spells.letters_eq {cs : List Char} {d : Designator} (h : Spells cs d) :
    d.letters = doubled (cs.map Char.toLower) := by
  cases h with
  | one hc => simp only [letters, doubled, List.map, hc.toLower]
  | two hc hd => simp only [letters, doubled, List.map, hc.toLower, hd.toLower]

theorem Spells.first {cs : List Char} {d : Designator} (h : Spells cs d) :
    ∃ c rest, cs = c :: rest ∧ d.first.Spelled c := by
  cases h with
  | one hc => exact ⟨_, _, rfl, hc⟩
  | two hc _ => exact ⟨_, _, rfl, hc⟩

theorem exists_spells_iff {cs : List Char} :
    (∃ d, Spells cs d) ↔ (cs.length = 1 ∨ cs.length = 2) ∧ ∀ c ∈ cs, Slot.IsLetter c := by
  refine ⟨fun ⟨d, hd⟩ => hd.only_letters, fun h => ?_⟩
  rcases ofLetters_cases cs with ⟨d, -, hd⟩ | ⟨g, -, hg⟩
  · exact ⟨d, hd⟩
  · exact absurd h hg.not_only_letters

theorem parse_eq_ok_iff {s : String} {d : Designator} : parse s = .ok d ↔ Spells s.toList d := by
  rw [← ofLetters_eq_ok_iff, parse]
  cases ofLetters s.toList <;> simp [Except.mapError]

theorem parse_eq_error_iff {s : String} {f : Error} :
    parse s = .error f ↔ ∃ g : Fault, g.Shows s.toList ∧ .designator s g = f := by
  simp only [parse, mapError_eq_error_iff, ofLetters_eq_error_iff]

theorem Fault.reason_injective : Function.Injective Fault.reason := by
  intro f g
  cases f <;> cases g <;> decide

def Refuses (s reason : String) : Prop :=
  ∃ g : Fault, parse s = .error (.designator s g) ∧ g.reason = reason

theorem refuses_reason_iff {s : String} {g : Fault} : Refuses s g.reason ↔ g.Shows s.toList := by
  simp only [Refuses, parse_eq_error_iff, Error.designator.injEq, true_and, exists_eq_right,
    Fault.reason_injective.eq_iff]

end Designator

theorem Slot.parse_eq_ok_iff {s : String} {t : Slot} :
    Slot.parse s = .ok t ↔ ∃ c cs, s.toList = c :: cs ∧ t.Spelled c := by
  rw [Slot.parse]
  cases s.toList with
  | nil => simp [Slot.ofLetters, Except.mapError]
  | cons c cs =>
    rw [Slot.ofLetters]
    simp only [List.cons.injEq, ← Designator.slot_eq_ok_iff]
    cases h : Designator.slot c <;> simp [Except.mapError, h]

namespace Evaluator

theorem format_result (x : Operand) (mode : String) :
    (format x mode).result = Slot.parse mode >>= fun t => x.value.map t.read := by
  rw [format_eq_ofExcept, Reply.ofExcept_result]

theorem exists_format_iff {x : Operand} {mode : String} :
    (∃ v, (format x mode).result = .ok v) ↔ (∃ t, Slot.parse mode = .ok t) ∧ ∃ v, x.value = .ok v := by
  rw [format_result]
  cases Slot.parse mode with
  | error f => simp [bind, Except.bind]
  | ok t => cases x.value <;> simp [bind, Except.bind, Except.map]

theorem format_eq_error_iff {x : Operand} {mode : String} {f : Error} :
    (format x mode).result = .error f ↔
      Slot.parse mode = .error f ∨ (∃ t, Slot.parse mode = .ok t) ∧ x.value = .error f := by
  rw [format_result]
  cases Slot.parse mode with
  | error g => simp [bind, Except.bind]
  | ok t => cases x.value <;> simp [bind, Except.bind, Except.map]

open Designator in
theorem readers_take_letters (e : Evaluator) (s : String) (x : Operand) :
    ((∃ d, Designator.parse s = .ok d) ↔ (s.length = 1 ∨ s.length = 2) ∧ ∀ c ∈ s.toList, Slot.IsLetter c) ∧
    (∀ d, Designator.parse s = .ok d → d.text = String.ofList (doubled (s.toList.map Char.toLower)) ∧
      Designator.parse d.text = .ok d ∧ Slot.parse s = .ok d.first) ∧
    (Refuses s "empty designator" ↔ s = "") ∧
    (Refuses s "expected at most two size letters" ↔ 3 ≤ s.length) ∧
    (Refuses s "unknown size letter" ↔ (s.length = 1 ∨ s.length = 2) ∧ ∃ c ∈ s.toList, ¬ Slot.IsLetter c) ∧
    ((∃ d, Designator.parse s = .ok d) ∨ ∃ reason ∈
      ["empty designator", "expected at most two size letters", "unknown size letter"], Refuses s reason) ∧
    (∀ t, Slot.parse s = .ok t ↔ ∃ c cs, s.toList = c :: cs ∧ t.Spelled c) ∧
    ((∃ v, (e.answer (.format x s)).result = .ok v) ↔ (∃ t, Slot.parse s = .ok t) ∧ ∃ v, x.value = .ok v) ∧
    ∀ f, (e.answer (.format x s)).result = .error f ↔
      Slot.parse s = .error f ∨ (∃ t, Slot.parse s = .ok t) ∧ x.value = .error f := by
  have known (g : Designator.Fault) : Refuses s g.reason ↔ g.Shows s.toList := refuses_reason_iff
  simp only [← String.length_toList, ← String.toList_eq_nil_iff]
  refine ⟨?_, ?_, known .empty, known .tooLong, known .unknownLetter, ?_, ?_, ?_, ?_⟩
  · simp only [parse_eq_ok_iff, exists_spells_iff]
  · intro d hd
    have spelled := Designator.parse_eq_ok_iff.mp hd
    rw [← spelled.letters_eq]
    exact ⟨rfl, parse_text d, Slot.parse_eq_ok_iff.mpr spelled.first⟩
  · cases h : Designator.parse s with
    | ok d => exact .inl ⟨d, rfl⟩
    | error f =>
      obtain ⟨g, hg, -⟩ := Designator.parse_eq_error_iff.mp h
      refine .inr ⟨g.reason, ?_, (known g).mpr hg⟩
      cases g <;> simp [Fault.reason]
  · exact fun t => Slot.parse_eq_ok_iff
  · exact exists_format_iff
  · exact fun f => format_eq_error_iff

example : Designator.parse "Hzz" = .error (.designator "Hzz" .tooLong) ∧ Slot.parse "Hzz" = .ok .high :=
  ⟨by rfl, by rfl⟩

end Evaluator

end Subregister
