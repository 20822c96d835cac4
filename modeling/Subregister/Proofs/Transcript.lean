import Subregister.Proofs.LiteralReading
import Subregister.Reply

namespace Subregister

namespace Trace

open Text

def mnemonic : Trace → Mnemonic
  | binary op _ _ _ _ => .binary op
  | unary op _ _ _ => .unary op

def fields : Trace → List UInt64
  | binary _ x y _ _ => [x, y]
  | unary _ x _ _ => [x]

def slots : Trace → Designator
  | binary _ _ _ d _ => d
  | unary _ _ d _ => d

theorem toList_number (v : UInt64) : (number v).toList = '0' :: 'x' :: Nat.toDigits 16 v.toNat := by
  rw [number, Hexadecimal.marked, String.toList_ofList, Hexadecimal.digits]

theorem mem_number {v : UInt64} {c : Char} (hc : c ∈ (number v).toList) :
    c = 'x' ∨ c = '_' ∨ (Radix.hexadecimal.digit? c).isSome := by
  obtain ⟨ds, hr, -⟩ := Radix.exists_run_toDigits .hexadecimal v.toNat
  rw [toList_number] at hc
  rcases List.mem_cons.mp hc with rfl | hc
  · exact .inr (.inr rfl)
  · rcases List.mem_cons.mp hc with rfl | hc
    · exact .inl rfl
    · exact .inr (hr.tail.mem hc)

theorem toNat_mem_number {v : UInt64} {c : Char} (hc : c ∈ (number v).toList) : 48 ≤ c.toNat ∧ c.toNat < 121 := by
  rcases mem_number hc with rfl | rfl | hd
  · decide
  · decide
  · have := Radix.toNat_of_digit? hd
    omega

theorem blank_not_mem_number (v : UInt64) : ' ' ∉ (number v).toList := by
  intro h
  exact absurd (mem_number h) (by decide)

theorem equals_not_mem_number (v : UInt64) : '=' ∉ (number v).toList := by
  intro h
  exact absurd (mem_number h) (by decide)

theorem parse_number (v : UInt64) : Literal.parse (number v) = .ok v := by
  obtain ⟨ds, hr, hv⟩ := Radix.exists_run_toDigits .hexadecimal v.toNat
  have hb := Literal.Body.marked (List.mem_cons_self ..) hr
  rw [hv] at hb
  have ht : Blank.trim (number v).toList = (number v).toList := by
    apply Blank.trim_eq_self
    intro c hc
    exact Blank.isBlank_of_toNat (toNat_mem_number hc).1 (toNat_mem_number hc).2
  rw [Literal.parse_eq_ok_iff, ht, toList_number]
  exact ⟨v.toNat, .unsigned hb, (Residue.ofInt_toNat v).symm⟩

end Trace

structure Words where
  name : String
  first : String
  second : Option String
  size : String
  result : String
  deriving DecidableEq

structure Reading where
  mnemonic : Mnemonic
  fields : List UInt64
  slots : Designator
  result : UInt64
  deriving DecidableEq

namespace Words

def withoutLast? (m : Char) (cs : List Char) : Option String :=
  if cs.getLast? = some m then some (String.ofList cs.dropLast) else none

def bracketed? : List Char → Option String
  | '[' :: cs => withoutLast? ']' cs
  | _ => none

def ofList? : List (List Char) → Option Words
  | [name, x, size, ['='], r] => do
    return ⟨String.ofList name, String.ofList x, none, ← bracketed? size, String.ofList r⟩
  | [name, x, y, size, ['='], r] => do
    return ⟨String.ofList name, ← withoutLast? ',' x, some (String.ofList y), ← bracketed? size, String.ofList r⟩
  | _ => none

def ofText? (s : String) : Option Words :=
  ofList? (s.toList.splitOn ' ')

def number? (s : String) : Option UInt64 :=
  (Literal.parse s).toOption

def read? (w : Words) : Option Reading := do
  let m ← Mnemonic.ofName? w.name
  let fields ← (w.first :: w.second.toList).mapM number?
  let d ← (Designator.parse w.size).toOption
  let r ← number? w.result
  return ⟨m, fields, d, r⟩

theorem withoutLast?_append (m : Char) (cs : List Char) : withoutLast? m (cs ++ [m]) = some (String.ofList cs) := by
  rw [withoutLast?, List.getLast?_concat, if_pos rfl, List.dropLast_concat]

theorem number?_number (v : UInt64) : number? (Trace.number v) = some v := by
  rw [number?, Trace.parse_number]
  rfl

theorem mapM_number? (vs : List UInt64) : (vs.map Trace.number).mapM number? = some vs := by
  induction vs with
  | nil => rfl
  | cons v vs ih =>
    rw [List.map_cons, List.mapM_cons, ih, number?_number]
    rfl

theorem read?_eq_some {w : Words} {t : Reading} (hm : w.name = t.mnemonic.name)
    (hf : w.first :: w.second.toList = t.fields.map Trace.number) (hd : w.size = t.slots.text)
    (hr : w.result = Trace.number t.result) : w.read? = some t := by
  rw [read?, hm, hf, hd, hr, Mnemonic.ofName?_name, mapM_number?, Designator.parse_text, number?_number]
  rfl

end Words

def Reading.ofText? (s : String) : Option Reading :=
  (Words.ofText? s).bind Words.read?

namespace Trace

def words : Trace → Words
  | binary op x y d r => ⟨op.name, number x, some (number y), d.text, number r⟩
  | unary op x d r => ⟨op.name, number x, none, d.text, number r⟩

def reading (t : Trace) : Reading :=
  ⟨t.mnemonic, t.fields, t.slots, t.result⟩

def pieces : Trace → List (List Char)
  | binary op x y d r =>
    [op.name.toList, (number x).toList ++ [','], (number y).toList, '[' :: (d.letters ++ [']']), ['='],
      (number r).toList]
  | unary op x d r => [op.name.toList, (number x).toList, '[' :: (d.letters ++ [']']), ['='], (number r).toList]

theorem read?_words (t : Trace) : t.words.read? = some t.reading := by
  cases t with
  | binary op x y d r => exact Words.read?_eq_some rfl rfl rfl rfl
  | unary op x d r => exact Words.read?_eq_some rfl rfl rfl rfl

theorem toList_text (t : Trace) : t.text.toList = [' '].intercalate t.pieces := by
  cases t with
  | binary op x y d r => simp [text, pieces, Designator.text, List.intercalate, List.intersperse]
  | unary op x d r => simp [text, pieces, Designator.text, List.intercalate, List.intersperse]

theorem blank_not_mem_letters (d : Designator) : ' ' ∉ d.letters := by
  obtain ⟨s, t⟩ := d
  have letter : ∀ s : Slot, s.letter ≠ ' ' := by
    intro s
    cases s <;> decide
  simp [Designator.letters, (letter _).symm]

theorem blank_not_mem_name (m : Mnemonic) : ' ' ∉ m.name.toList := by
  rcases m with op | op <;> cases op <;> decide

theorem blank_not_mem_pieces (t : Trace) : ∀ cs ∈ t.pieces, ' ' ∉ cs := by
  cases t with
  | binary op x y d r =>
    have hn : ' ' ∉ op.name.toList := blank_not_mem_name (.binary op)
    simpa [pieces, blank_not_mem_number, blank_not_mem_letters] using hn
  | unary op x d r =>
    have hn : ' ' ∉ op.name.toList := blank_not_mem_name (.unary op)
    simpa [pieces, blank_not_mem_number, blank_not_mem_letters] using hn

theorem ofText?_text (t : Trace) : Words.ofText? t.text = some t.words := by
  have hne : t.pieces ≠ [] := by cases t <;> simp [pieces]
  rw [Words.ofText?, toList_text, List.splitOn_intercalate _ t.blank_not_mem_pieces hne]
  cases t with
  | binary op x y d r =>
    simp only [pieces, Words.ofList?, Words.bracketed?, Words.withoutLast?_append]
    simp [words, Designator.text]
  | unary op x d r =>
    simp only [pieces, Words.ofList?, Words.bracketed?, Words.withoutLast?_append]
    simp [words, Designator.text]

theorem ofText?_text_reading (t : Trace) : Reading.ofText? t.text = some t.reading := by
  rw [Reading.ofText?, ofText?_text]
  exact t.read?_words

end Trace

end Subregister
