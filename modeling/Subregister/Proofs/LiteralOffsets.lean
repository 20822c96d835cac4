import Subregister.Proofs.LiteralReading
import Subregister.Proofs.Offsets

/-!
Literals read by byte offset: the sign, the marks and the last `h` are found by looking at single bytes, and the text
is cut where they were found. No such read is out of range and no cut inside a character, whatever the text.
-/

namespace Subregister.Checked

open Text

def minus (a b : Nat) : Except Trap Nat :=
  if b ≤ a then .ok (a - b) else .error .underflow

def marked (text : String) (small large : Char) : Except Trap Bool := do
  if text.utf8ByteSize < 2 then
    return false
  else if (← byteAt text 0) == '0'.toUInt8 then
    let b ← byteAt text 1
    return b == small.toUInt8 || b == large.toUInt8
  else
    return false

def suffixed (text : String) : Except Trap Bool := do
  if text.utf8ByteSize < 2 then
    return false
  else if isDigit (← byteAt text 0) then
    let b ← byteAt text (← minus text.utf8ByteSize 1)
    return b == 'h'.toUInt8 || b == 'H'.toUInt8
  else
    return false

def split (text : String) : Except Trap (Radix × String) := do
  if ← marked text 'x' 'X' then
    return (.hexadecimal, ← textFrom text 2)
  else if ← suffixed text then
    return (.hexadecimal, ← textTo text (← minus text.utf8ByteSize 1))
  else if ← marked text 'b' 'B' then
    return (.binary, ← textFrom text 2)
  else if ← marked text 'o' 'O' then
    return (.octal, ← textFrom text 2)
  else
    return (.decimal, text)

def digit (r : Radix) (c : Char) : Except Trap (Option Nat) :=
  if 2 ≤ r.base ∧ r.base ≤ 36 then .ok (r.digit? c) else .error .badRadix

def scan (r : Radix) (v : UInt64) (seen : Bool) : List Char → Except Trap (Except Literal.Fault UInt64)
  | [] => return if seen then .ok v else .error .noDigits
  | c :: cs => do
    if c = '_' then
      if seen then scan r v seen cs else return .error .leadingSeparator
    else match ← digit r c with
      | some d => scan r (v * UInt64.ofNat r.base + UInt64.ofNat d) true cs
      | none => return .error (.badDigit r)

def unsigned (text : String) : Except Trap (Bool × String) := do
  let b ← byteAt text 0
  if b == '-'.toUInt8 then
    return (true, ← textFrom text 1)
  else if b == '+'.toUInt8 then
    return (false, ← textFrom text 1)
  else
    return (false, text)

def negateIf (negative : Bool) (v : UInt64) : UInt64 :=
  if negative then 0 - v else v

def parse (s : String) : Except Trap (Except Error UInt64) := do
  let text := String.ofList (Blank.trim s.toList)
  if text.utf8ByteSize = 0 then
    return .error (.literal s .empty)
  else
    let (negative, body) ← unsigned text
    let (r, digits) ← split body
    let outcome ← scan r 0 false digits.toList
    return (outcome.map (negateIf negative)).mapError (.literal s)

theorem minus_of_le {a b : Nat} (h : b ≤ a) : minus a b = .ok (a - b) :=
  if_pos h

theorem digit_eq (r : Radix) (c : Char) : digit r c = .ok (r.digit? c) := by
  rw [digit, if_pos (by cases r <;> decide)]

theorem scan_seen (r : Radix) (v : UInt64) (cs : List Char) : scan r v true cs = .ok (Literal.accumulate r v cs) := by
  induction cs generalizing v with
  | nil => rfl
  | cons c cs ih =>
    rw [scan, Literal.accumulate]
    split
    · exact ih v
    · rw [digit_eq]
      cases r.digit? c with
      | none => rfl
      | some d => exact ih _

theorem scan_run (r : Radix) (cs : List Char) : scan r 0 false cs = .ok (Literal.run r cs) := by
  cases cs with
  | nil => rfl
  | cons c cs =>
    rw [scan, Literal.run]
    split
    · rfl
    · rw [digit_eq]
      cases r.digit? c with
      | none => rfl
      | some d =>
        have first : 0 * UInt64.ofNat r.base + UInt64.ofNat d = UInt64.ofNat d := by
          rw [UInt64.zero_mul, UInt64.zero_add]
        exact (scan_seen r _ cs).trans (by rw [first])

def hasMark (small large : Char) : List Char → Bool
  | '0' :: c :: _ => c == small || c == large
  | _ => false

theorem hasMark_eq_true_iff {k l : Char} {cs : List Char} :
    hasMark k l cs = true ↔ ∃ c ds, cs = '0' :: c :: ds ∧ (c = k ∨ c = l) := by
  rw [hasMark.eq_def]
  split
  next c ds => simp
  next other =>
    constructor
    · exact nofun
    · rintro ⟨c, ds, rfl, -⟩
      exact absurd rfl (other c ds)

theorem hasMark_of_ne {c : Char} (h : c ≠ '0') (k l : Char) (cs : List Char) : hasMark k l (c :: cs) = false := by
  rw [Bool.eq_false_iff, ne_eq, hasMark_eq_true_iff]
  rintro ⟨_, _, heq, -⟩
  exact h (List.cons.inj heq).1

theorem hasMark_of_unmarked {k l : Char} {cs : List Char} (hk : ∀ ds, cs = '0' :: k :: ds → False)
    (hl : ∀ ds, cs = '0' :: l :: ds → False) : hasMark k l cs = false := by
  rw [Bool.eq_false_iff, ne_eq, hasMark_eq_true_iff]
  rintro ⟨c, ds, heq, rfl | rfl⟩
  · exact hk ds heq
  · exact hl ds heq

theorem marked_of_ne {c : Char} (h : c ≠ '0') (k l : Char) (cs : List Char) :
    marked (String.ofList (c :: cs)) k l = .ok false := by
  -- The second byte may lie inside `c` here, but it is not looked at.
  obtain ⟨b, hb, hs⟩ := byteAt_zero c cs
  rw [marked, hb, ok_bind, hs.beq_toUInt8 (by decide), beq_eq_false_iff_ne.mpr h]
  exact ite_self _

theorem marked_zero {k l : Char} (hk : k.toNat < 0x80) (hl : l.toNat < 0x80) (c : Char) (cs : List Char) :
    marked (String.ofList ('0' :: c :: cs)) k l = .ok (c == k || c == l) := by
  obtain ⟨b, hb, hs⟩ := byteAt_zero '0' (c :: cs)
  obtain ⟨d, hd, ht⟩ := byteAt_one (k := '0') (by decide) c cs
  have long := length_le_utf8ByteSize ('0' :: c :: cs)
  simp only [List.length_cons] at long
  rw [marked, if_neg (by omega), hb, ok_bind, hs.beq_toUInt8 (by decide), hd, ok_bind, ht.beq_toUInt8 hk,
    ht.beq_toUInt8 hl]
  rfl

theorem marked_ofList (cs : List Char) {k l : Char} (hk : k.toNat < 0x80) (hl : l.toNat < 0x80) :
    marked (String.ofList cs) k l = .ok (hasMark k l cs) := by
  match cs with
  | [] => rfl
  | [c] =>
    by_cases h : c = '0'
    · subst h
      rfl
    · rw [hasMark_of_ne h, marked_of_ne h]
  | c :: d :: cs =>
    by_cases h : c = '0'
    · subst h
      exact marked_zero hk hl d cs
    · rw [hasMark_of_ne h, marked_of_ne h]

theorem endsWithMark_concat (cs : List Char) (m : Char) :
    Literal.endsWithMark (cs ++ [m]) = (m == 'h' || m == 'H') := by
  simp [Literal.endsWithMark, Bool.beq_eq_decide_eq]

theorem suffixed_of_not_digit {c : Char} (h : c.isDigit = false) (cs : List Char) :
    suffixed (String.ofList (c :: cs)) = .ok false := by
  obtain ⟨b, hb, hs⟩ := byteAt_zero c cs
  rw [suffixed, hb, ok_bind, hs.isDigit_eq, h]
  exact ite_self _

theorem suffixed_digit {c : Char} (h : c.isDigit = true) (cs : List Char) (m : Char) :
    suffixed (String.ofList (c :: cs ++ [m])) = .ok (m == 'h' || m == 'H') := by
  obtain ⟨b, hb, hs⟩ := byteAt_zero c (cs ++ [m])
  obtain ⟨d, hd, ht⟩ := byteAt_last (c :: cs) m
  have long := length_le_utf8ByteSize (c :: cs ++ [m])
  simp only [List.length_append, List.length_cons] at long
  rw [← List.cons_append] at hb
  rw [suffixed, if_neg (by omega), hb, ok_bind, hs.isDigit_eq, h, minus_of_le (by omega), ok_bind, hd, ok_bind,
    ht.beq_toUInt8 (by decide), ht.beq_toUInt8 (by decide)]
  rfl

theorem suffixed_single {c : Char} (h : c.isDigit = true) :
    suffixed (String.ofList [c]) = .ok (Literal.endsWithMark [c]) := by
  have digit : 0x30 ≤ c.toNat ∧ c.toNat ≤ 0x39 := Char.isDigit_iff_toNat.mp h
  have small : ∀ d ∈ [c], d.toNat < 0x80 := by
    intro d hd
    obtain rfl := List.mem_singleton.mp hd
    omega
  have short : (String.ofList [c]).utf8ByteSize = 1 := utf8ByteSize_of_lt small
  have unmarked : Literal.endsWithMark [c] = false := by
    rw [← List.nil_append [c], endsWithMark_concat, Bool.or_eq_false_iff, beq_eq_false_iff_ne, beq_eq_false_iff_ne]
    constructor
    all_goals
      rintro rfl
      exact absurd h (by decide)
  rw [suffixed, if_pos (by omega), unmarked]
  rfl

theorem suffixed_ofList (cs : List Char) :
    suffixed (String.ofList cs) = .ok (Literal.startsWithDigit cs && Literal.endsWithMark cs) := by
  match cs with
  | [] => rfl
  | c :: ds =>
    rw [Literal.startsWithDigit]
    cases h : c.isDigit with
    | false => exact suffixed_of_not_digit h ds
    | true =>
      rw [Bool.true_and]
      obtain rfl | ⟨es, m, rfl⟩ := List.eq_nil_or_concat' ds
      · exact suffixed_single h
      · rw [← List.cons_append, suffixed_digit h, endsWithMark_concat]

theorem textFrom_of_hasMark {k l : Char} (hk : k.toNat < 0x80) (hl : l.toNat < 0x80) {cs : List Char}
    (h : hasMark k l cs = true) : textFrom (String.ofList cs) 2 = .ok (String.ofList (cs.drop 2)) := by
  obtain ⟨c, ds, rfl, hc⟩ := hasMark_eq_true_iff.mp h
  have small : c.toNat < 0x80 := by
    rcases hc with rfl | rfl
    · exact hk
    · exact hl
  exact textFrom_ofList ['0', c] (by simpa using small) ds

theorem textTo_of_endsWithMark {cs : List Char} (h : Literal.endsWithMark cs = true) :
    textTo (String.ofList cs) ((String.ofList cs).utf8ByteSize - 1) = .ok (String.ofList cs.dropLast) := by
  obtain ⟨ds, m, hm, rfl⟩ := (Literal.endsWithMark_iff cs).mp h
  have small : m.toNat < 0x80 := by
    simp only [Literal.endings, List.mem_cons, List.not_mem_nil, or_false] at hm
    rcases hm with rfl | rfl <;> decide
  rw [List.dropLast_concat]
  exact textTo_ofList ds [m] (by simpa using small)

theorem split_eq (cs : List Char) :
    Literal.split cs =
      if hasMark 'x' 'X' cs then (.hexadecimal, cs.drop 2)
      else if Literal.startsWithDigit cs && Literal.endsWithMark cs then (.hexadecimal, cs.dropLast)
      else if hasMark 'b' 'B' cs then (.binary, cs.drop 2)
      else if hasMark 'o' 'O' cs then (.octal, cs.drop 2)
      else (.decimal, cs) := by
  fun_cases Literal.split cs
  case case1 => rfl
  case case2 => rfl
  case case3 hx hX h => simp only [hasMark_of_unmarked hx hX, h, Bool.false_eq_true, if_true, if_false]
  case case8 hx hX h hb hB ho hO =>
    simp only [hasMark_of_unmarked hx hX, h, hasMark_of_unmarked hb hB, hasMark_of_unmarked ho hO,
      Bool.false_eq_true, if_false]
  all_goals simp_all [hasMark]

theorem split_ofList (cs : List Char) :
    split (String.ofList cs) = .ok ((Literal.split cs).1, String.ofList (Literal.split cs).2) := by
  rw [split_eq, split, marked_ofList cs (by decide) (by decide), marked_ofList cs (by decide) (by decide),
    marked_ofList cs (by decide) (by decide), suffixed_ofList]
  simp only [ok_bind]
  split_ifs with hx hs hb ho
  · rw [textFrom_of_hasMark (by decide) (by decide) hx]
    rfl
  · obtain ⟨hd, he⟩ := Bool.and_eq_true_iff.mp hs
    have nonempty : cs ≠ [] := by
      rintro rfl
      cases hd
    rw [minus_of_le (utf8ByteSize_pos nonempty), ok_bind, textTo_of_endsWithMark he]
    rfl
  · rw [textFrom_of_hasMark (by decide) (by decide) hb]
    rfl
  · rw [textFrom_of_hasMark (by decide) (by decide) ho]
    rfl
  · rfl

theorem map_negateIf_false (x : Except Literal.Fault UInt64) : x.map (negateIf false) = x := by
  cases x <;> rfl

theorem exists_unsigned (c : Char) (cs : List Char) :
    ∃ negative ds, unsigned (String.ofList (c :: cs)) = .ok (negative, String.ofList ds) ∧
      Literal.signed (c :: cs) = (Literal.body ds).map (negateIf negative) := by
  obtain ⟨b, hb, hs⟩ := byteAt_zero c cs
  rw [unsigned, hb, ok_bind, hs.beq_toUInt8 (by decide), hs.beq_toUInt8 (by decide)]
  by_cases hn : c = '-'
  · subst hn
    refine ⟨true, cs, ?_, rfl⟩
    rw [if_pos (beq_self_eq_true _), textFrom_cons (by decide)]
    rfl
  · rw [if_neg (by simpa using hn)]
    by_cases hp : c = '+'
    · subst hp
      refine ⟨false, cs, ?_, (map_negateIf_false _).symm⟩
      rw [if_pos (beq_self_eq_true _), textFrom_cons (by decide)]
      rfl
    · rw [if_neg (by simpa using hp)]
      refine ⟨false, c :: cs, rfl, ?_⟩
      rw [map_negateIf_false]
      exact Literal.signed_of_unsigned (by simpa using hn) (by simpa using hp)

theorem parse_eq (s : String) : parse s = .ok (Literal.parse s) := by
  rw [parse, Literal.parse, Literal.ofChars]
  cases Blank.trim s.toList with
  | nil => rfl
  | cons c cs =>
    obtain ⟨negative, ds, hu, hs⟩ := exists_unsigned c cs
    have long := utf8ByteSize_pos (List.cons_ne_nil c cs)
    simp only [if_neg (Nat.ne_of_gt long), hu, hs, ok_bind, split_ofList, String.toList_ofList, scan_run]
    rfl

end Subregister.Checked
