import Subregister.Proofs.Numeral
import Subregister.Proofs.Residue

namespace Subregister.Literal

open Text

inductive Form
  | plain | suffixed | marked (r : Radix)
  deriving DecidableEq

def marks : Radix → List Char
  | .binary => ['b', 'B']
  | .octal => ['o', 'O']
  | .decimal => []
  | .hexadecimal => ['x', 'X']

def endings : List Char :=
  ['h', 'H']

namespace Form

def radix : Form → Radix
  | plain => .decimal
  | suffixed => .hexadecimal
  | marked r => r

def affixes : Form → Nat
  | plain => 0
  | suffixed => 1
  | marked _ => 2

def digits : Form → List Char → List Char
  | plain, cs => cs
  | suffixed, cs => cs.dropLast
  | marked _, cs => cs.drop 2

theorem ext {f g : Form} (hr : f.radix = g.radix) (ha : f.affixes = g.affixes) : f = g := by
  cases f <;> cases g <;> simp_all [radix, affixes]

end Form

inductive Body : Form → List Char → Nat → Prop
  | plain {cs : List Char} {ds : List Nat} : Radix.decimal.Run cs ds → Body .plain cs (Radix.decimal.number ds)
  | suffixed {c m : Char} {d : Nat} {cs : List Char} {ds : List Nat} :
      Radix.decimal.Digit c d → Radix.hexadecimal.Tail cs ds → m ∈ endings →
      Body .suffixed (c :: cs ++ [m]) (Radix.hexadecimal.number (d :: ds))
  | marked {r : Radix} {m : Char} {cs : List Char} {ds : List Nat} :
      m ∈ marks r → r.Run cs ds → Body (.marked r) ('0' :: m :: cs) (r.number ds)

theorem endsWithMark_iff (cs : List Char) : endsWithMark cs = true ↔ ∃ ds, ∃ m ∈ endings, cs = ds ++ [m] := by
  simp only [endsWithMark, Bool.or_eq_true, decide_eq_true_eq, List.getLast?_eq_some_iff, endings, List.mem_cons,
    List.not_mem_nil, or_false]
  constructor
  · rintro (⟨ds, rfl⟩ | ⟨ds, rfl⟩)
    · exact ⟨ds, 'h', .inl rfl, rfl⟩
    · exact ⟨ds, 'H', .inr rfl, rfl⟩
  · rintro ⟨ds, m, rfl | rfl, rfl⟩
    · exact .inl ⟨ds, rfl⟩
    · exact .inr ⟨ds, rfl⟩

theorem not_mem_of_tail {r : Radix} {m : Char} {cs : List Char} {ds : List Nat} (h : r.Tail cs ds)
    (hm : m ∈ marks .hexadecimal ++ endings) : m ∉ cs := by
  intro hc
  have hmem := h.mem hc
  simp only [marks, endings, List.cons_append, List.nil_append, List.mem_cons, List.not_mem_nil, or_false] at hm
  rcases hm with rfl | rfl | rfl | rfl
  all_goals exact absurd hmem (by cases r <;> decide)

theorem endsWithMark_of_tail {r : Radix} {cs : List Char} {ds : List Nat} (h : r.Tail cs ds) :
    endsWithMark cs = false := by
  by_contra he
  obtain ⟨es, m, hm, rfl⟩ := (endsWithMark_iff cs).mp (by simpa using he)
  exact not_mem_of_tail h (List.mem_append_right _ hm) (by simp)

theorem split_plain {cs : List Char} {ds : List Nat} (h : Radix.decimal.Run cs ds) : split cs = (.decimal, cs) := by
  have unmarked : ∀ m ∈ ['x', 'X', 'b', 'B', 'o', 'O'], ∀ es, cs ≠ '0' :: m :: es := by
    rintro m hm es rfl
    have hmem := h.tail.mem (c := m) (by simp)
    simp only [List.mem_cons, List.not_mem_nil, or_false] at hm
    rcases hm with rfl | rfl | rfl | rfl | rfl | rfl
    all_goals exact absurd hmem (by decide)
  have ending : (startsWithDigit cs && endsWithMark cs) = false := by
    rw [endsWithMark_of_tail h.tail, Bool.and_false]
  fun_cases split cs
  case case3 hd => exact absurd hd (by simp [ending])
  case case8 => rfl
  all_goals exact absurd rfl (unmarked _ (by simp) _)

theorem split_marked {r : Radix} {m : Char} {cs : List Char} {ds : List Nat} (hm : m ∈ marks r) (h : r.Run cs ds) :
    split ('0' :: m :: cs) = (r, cs) := by
  have ending : endsWithMark ('0' :: m :: cs) = false := by
    rw [← endsWithMark_of_tail h.tail]
    obtain ⟨_, _⟩ := h
    simp only [endsWithMark, List.getLast?_cons_cons]
  cases r with
  | decimal => cases hm
  | hexadecimal =>
    simp only [marks, List.mem_cons, List.not_mem_nil, or_false] at hm
    rcases hm with rfl | rfl <;> rfl
  | binary =>
    simp only [marks, List.mem_cons, List.not_mem_nil, or_false] at hm
    rcases hm with rfl | rfl <;> simp [split, ending]
  | octal =>
    simp only [marks, List.mem_cons, List.not_mem_nil, or_false] at hm
    rcases hm with rfl | rfl <;> simp [split, ending]

theorem split_of_ending {cs : List Char} (ending : (startsWithDigit cs && endsWithMark cs) = true)
    (unmarked : ∀ m ∈ marks .hexadecimal, ∀ es, cs ≠ '0' :: m :: es) : split cs = (.hexadecimal, cs.dropLast) := by
  fun_cases split cs
  case case1 => exact absurd rfl (unmarked _ (by simp [marks]) _)
  case case2 => exact absurd rfl (unmarked _ (by simp [marks]) _)
  case case3 => rfl
  all_goals contradiction

theorem split_suffixed {c m : Char} {d : Nat} {cs : List Char} {ds : List Nat} (hc : Radix.decimal.Digit c d)
    (ht : Radix.hexadecimal.Tail cs ds) (hm : m ∈ endings) : split (c :: cs ++ [m]) = (.hexadecimal, c :: cs) := by
  rw [split_of_ending, List.dropLast_concat]
  · rw [(endsWithMark_iff _).mpr ⟨c :: cs, m, hm, rfl⟩, Bool.and_true]
    exact ((Radix.digit_decimal_iff c d).mp hc).2
  · intro x hx es he
    rw [List.cons_append] at he
    have hx' : x ∈ cs ++ [m] := by
      rw [(List.cons.inj he).2]
      exact List.mem_cons_self
    rcases List.mem_append.mp hx' with hx' | hx'
    · exact not_mem_of_tail ht (List.mem_append_left _ hx) hx'
    · obtain rfl := List.mem_singleton.mp hx'
      have apart : ∀ x ∈ marks .hexadecimal, x ∉ endings := by
        rw [marks, List.forall_mem_cons, List.forall_mem_singleton]
        decide
      exact apart x hx hm

theorem Body.split_eq {f : Form} {cs : List Char} {n : Nat} (h : Body f cs n) :
    split cs = (f.radix, f.digits cs) := by
  cases h with
  | plain h => exact split_plain h
  | suffixed hc ht hm =>
    rw [split_suffixed hc ht hm, Form.digits, List.dropLast_concat]
    rfl
  | marked hm h => exact split_marked hm h

theorem Body.exists_run {f : Form} {cs : List Char} {n : Nat} (h : Body f cs n) :
    ∃ ds, f.radix.Run (f.digits cs) ds ∧ f.radix.number ds = n := by
  cases h with
  | plain h => exact ⟨_, h, rfl⟩
  | suffixed hc ht hm =>
    rw [Form.digits, List.dropLast_concat]
    exact ⟨_, .digit ((Radix.digit_decimal_iff _ _).mp hc).1 ht, rfl⟩
  | marked hm h => exact ⟨_, h, rfl⟩

theorem exists_body_of_run {cs : List Char} {ds : List Nat} (h : (split cs).1.Run (split cs).2 ds) :
    ∃ f, Body f cs ((split cs).1.number ds) := by
  revert h
  fun_cases split cs
  case case3 hd =>
    intro h
    rw [Bool.and_eq_true, endsWithMark_iff] at hd
    obtain ⟨hs, es, m, hm, rfl⟩ := hd
    rw [List.dropLast_concat] at h
    obtain ⟨hc, ht⟩ := h
    exact ⟨_, .suffixed ((Radix.digit_decimal_iff _ _).mpr ⟨hc, hs⟩) ht hm⟩
  case case8 =>
    intro h
    exact ⟨_, .plain h⟩
  all_goals
    intro h
    exact ⟨_, .marked (by simp [marks]) h⟩

theorem body_eq_ok_iff (cs : List Char) (v : UInt64) :
    body cs = .ok v ↔ ∃ f n, Body f cs n ∧ v = UInt64.ofInt n := by
  rw [body, run_eq_ok_iff]
  constructor
  · rintro ⟨ds, h, rfl⟩
    obtain ⟨f, hf⟩ := exists_body_of_run h
    exact ⟨f, _, hf, (Residue.ofInt_natCast _).symm⟩
  · rintro ⟨f, n, hf, rfl⟩
    rw [hf.split_eq]
    obtain ⟨ds, h, rfl⟩ := hf.exists_run
    exact ⟨ds, h, Residue.ofInt_natCast _⟩

end Subregister.Literal
