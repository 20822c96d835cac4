import Mathlib.Data.Nat.Digits.Lemmas
import Subregister.Proofs.JsonScanning

/-!
Nothing but a layout of tokens is scanned: what the machine has read of the token at hand begins one of the token's
spellings.
-/

namespace Subregister.Json

open Text

namespace Symbol

theorem spelled_nil : Spelled [] [] :=
  ⟨.nil, [], .nil, rfl⟩

theorem Spelled.concat {t : List Symbol} {cs ds : List Char} {a : Symbol} (h : Spelled t cs) (ha : a.Shown ds)
    (ht : ∀ v ∈ t.getLast?, ¬ v.Meets a) : Spelled (t ++ [a]) (cs ++ ds) := by
  obtain ⟨apart, parts, shown, rfl⟩ := h
  refine ⟨?_, parts ++ [ds], List.rel_append shown (.cons ha .nil), by simp⟩
  exact List.isChain_append.mpr ⟨apart, .singleton a, fun v hv w hw => Option.some.inj hw ▸ ht v hv⟩

theorem not_meets_scalar (v : Symbol) (c : Char) : ¬ v.Meets (scalar c) := by
  cases v <;> exact id

theorem Spelled.join {t : List Symbol} {cs ds : List Char} {high low : Nat} {c : Char}
    (h : Spelled (t ++ [lone high]) cs) (hh : High high) (hl : Low low) (hd : Escape low ds)
    (hc : c.toNat = 0x10000 + (high - 0xD800) * 0x400 + (low - 0xDC00)) : Spelled (t ++ [scalar c]) (cs ++ ds) := by
  obtain ⟨apart, parts, shown, rfl⟩ := h
  have reversed := List.forall₂_reverse_iff.mpr shown
  rw [List.reverse_append] at reversed
  obtain ⟨last, before, ⟨⟩, hb, hr⟩ := List.forall₂_cons_left_iff.mp reversed
  next hlast =>
  obtain rfl : parts = before.reverse ++ [last] := by rw [← List.reverse_cons, ← hr, List.reverse_reverse]
  have first : Spelled t before.reverse.flatten := by
    refine ⟨(List.isChain_append.mp apart).1, before.reverse, ?_, rfl⟩
    rw [← List.reverse_reverse t]
    exact List.forall₂_reverse_iff.mpr hb
  rw [List.flatten_append, List.flatten_singleton, List.append_assoc]
  exact first.concat (.pair hh hl hlast hd hc) fun v _ => not_meets_scalar v c

end Symbol

theorem lt_of_escape {u : Nat} {cs : List Char} (h : Escape u cs) : u < 0x10000 := by
  obtain ⟨hs, ds, -, digits, four, rfl⟩ := h
  have small : ∀ d ∈ ds.reverse, d < 16 := by
    intro d hd
    obtain ⟨i, hi, rfl⟩ := List.getElem_of_mem (List.mem_reverse.mp hd)
    exact (digits.get (digits.length_eq ▸ hi) hi).1
  have bound := Nat.ofDigits_lt_base_pow_length (by decide : 1 < 16) small
  rwa [List.length_reverse, four] at bound

namespace Numeral

def Integral (cs : List Char) : Prop :=
  ∃ sign ∈ signs, ∃ w, cs = sign ++ w ∧ Whole w

def Mantissa (cs : List Char) : Prop :=
  ∃ i f, Integral i ∧ Fraction f ∧ cs = i ++ f

end Numeral

open Numeral in
def Phase.Read : Phase → List Char → Prop
  | sign, cs => cs = ['-']
  | zero, cs => ∃ s ∈ signs, cs = s ++ ['0']
  | whole, cs => ∃ s ∈ signs, ∃ w, cs = s ++ w ∧ Digits w ∧ w.head? ≠ some '0'
  | point, cs => ∃ i, Integral i ∧ cs = i ++ ['.']
  | fraction, cs => ∃ i ds, Integral i ∧ Digits ds ∧ cs = i ++ '.' :: ds
  | mark, cs => ∃ n, ∃ m ∈ ['e', 'E'], Mantissa n ∧ cs = n ++ [m]
  | markSign, cs => ∃ n, ∃ m ∈ ['e', 'E'], ∃ s ∈ ['+', '-'], Mantissa n ∧ cs = n ++ [m, s]
  | exponent, cs => ∃ n, ∃ m ∈ ['e', 'E'], ∃ s ∈ [[], ['+'], ['-']], ∃ ds,
      Mantissa n ∧ Digits ds ∧ cs = n ++ m :: (s ++ ds)

namespace Numeral

theorem Digits.concat {cs : List Char} (h : Digits cs) {c : Char} (hc : c.isDigit = true) : Digits (cs ++ [c]) := by
  refine ⟨by simp, fun d hd => ?_⟩
  rcases List.mem_append.mp hd with hd | hd
  · exact h.2 d hd
  · rwa [List.mem_singleton.mp hd]

theorem digits_singleton {c : Char} (hc : c.isDigit = true) : Digits [c] :=
  ⟨nofun, fun _ hd => List.mem_singleton.mp hd ▸ hc⟩

theorem Integral.mantissa {cs : List Char} (h : Integral cs) : Mantissa cs :=
  ⟨cs, [], h, .inl rfl, (List.append_nil cs).symm⟩

theorem Mantissa.numeral {n cs : List Char} (h : Mantissa n) (he : Exponent cs) : Numeral (n ++ cs) := by
  obtain ⟨i, f, ⟨sign, hs, w, rfl, hw⟩, hf, rfl⟩ := h
  exact .mk hs hw hf he

end Numeral

namespace Phase

open Numeral

variable {p : Phase} {cs : List Char}

theorem Read.integral (h : p.Read cs) (hp : p ∈ [zero, whole]) : Integral cs := by
  rcases List.mem_pair.mp hp with rfl | rfl
  · obtain ⟨s, hs, rfl⟩ := h
    exact ⟨s, hs, ['0'], rfl, .inl rfl⟩
  · obtain ⟨s, hs, w, rfl, hw⟩ := h
    exact ⟨s, hs, w, rfl, .inr hw⟩

theorem Read.mantissa (h : p.Read cs) (hp : p ∈ [zero, whole, fraction]) : Mantissa cs := by
  cases p with
  | zero | whole => exact (h.integral (by decide)).mantissa
  | fraction =>
    obtain ⟨i, ds, hi, hd, rfl⟩ := h
    exact ⟨i, '.' :: ds, hi, .inr ⟨ds, rfl, hd⟩, rfl⟩
  | sign | point | mark | markSign | exponent => exact absurd hp (by decide)

theorem Read.numeral (h : p.Read cs) (hp : p.isComplete = true) : Numeral cs := by
  cases p with
  | zero | whole | fraction =>
    have numeral := (h.mantissa (by decide)).numeral (.inl rfl)
    rwa [List.append_nil] at numeral
  | exponent =>
    obtain ⟨n, m, hm, s, hs, ds, hn, hd, rfl⟩ := h
    exact hn.numeral (.inr ⟨m, hm, s, hs, ds, rfl, hd⟩)
  | sign | point | mark | markSign => cases hp

theorem read_first {sign : List Char} (hs : sign ∈ signs) {c : Char} (hc : c.isDigit = true) :
    (first c).Read (sign ++ [c]) := by
  rw [first]
  split
  · next h => exact ⟨sign, hs, by rw [h]⟩
  · next h => exact ⟨sign, hs, [c], rfl, digits_singleton hc, fun h' => h (Option.some.inj h')⟩

theorem Read.digit {q : Phase} {c : Char} (h : p.Read cs) (hq : (p, q) ∈ digitMoves) (hc : c.isDigit = true) :
    q.Read (cs ++ [c]) := by
  simp only [digitMoves, List.mem_cons, List.not_mem_nil, or_false, Prod.mk.injEq] at hq
  rcases hq with ⟨rfl, rfl⟩ | ⟨rfl, rfl⟩ | ⟨rfl, rfl⟩ | ⟨rfl, rfl⟩ | ⟨rfl, rfl⟩ | ⟨rfl, rfl⟩
  · obtain ⟨s, hs, w, rfl, digits, zero⟩ := h
    refine ⟨s, hs, w ++ [c], List.append_assoc s w [c], digits.concat hc, ?_⟩
    rwa [List.head?_append_of_ne_nil _ digits.1]
  · obtain ⟨i, hi, rfl⟩ := h
    exact ⟨i, [c], hi, digits_singleton hc, List.append_assoc i ['.'] [c]⟩
  · obtain ⟨i, ds, hi, digits, rfl⟩ := h
    exact ⟨i, ds ++ [c], hi, digits.concat hc, List.append_assoc i ('.' :: ds) [c]⟩
  · obtain ⟨n, m, hm, hn, rfl⟩ := h
    exact ⟨n, m, hm, [], by decide, [c], hn, digits_singleton hc, List.append_assoc n [m] [c]⟩
  · obtain ⟨n, m, hm, s, hs, hn, rfl⟩ := h
    have signs : ∀ s ∈ ['+', '-'], [s] ∈ [[], ['+'], ['-']] := by simp
    exact ⟨n, m, hm, [s], signs s hs, [c], hn, digits_singleton hc, List.append_assoc n [m, s] [c]⟩
  · obtain ⟨n, m, hm, s, hs, ds, hn, digits, rfl⟩ := h
    refine ⟨n, m, hm, s, hs, ds ++ [c], hn, digits.concat hc, ?_⟩
    rw [List.append_assoc, List.cons_append, List.append_assoc]

theorem Read.next {q : Phase} {c : Char} (h : p.Read cs) (hq : p.next c = some q) : q.Read (cs ++ [c]) := by
  cases move_of_next hq with
  | first hc => exact h ▸ read_first (by decide) hc
  | digit hq hc => exact h.digit hq hc
  | point hp => exact ⟨cs, h.integral hp, rfl⟩
  | mark hp hc => exact ⟨cs, c, hc, h.mantissa hp, rfl⟩
  | sign hc =>
    obtain ⟨n, m, hm, hn, rfl⟩ := h
    exact ⟨n, m, hm, c, hc, hn, List.append_assoc n [m] [c]⟩

end Phase

theorem gap_nil : Gap [] :=
  nofun

namespace Scan

inductive Read : Scan → List Char → Prop
  | between {gap : List Char} : Gap gap → Read between gap
  | word {gap cs rest : List Char} {v : Json} :
      Gap gap → Lexeme (.leaf v) (cs ++ rest) → Read (word rest v) (gap ++ cs)
  | number {gap read : List Char} {p : Phase} :
      Gap gap → p.Read read.reverse → Read (number p read) (gap ++ read.reverse)
  | text {gap cs : List Char} {read : List Symbol} :
      Gap gap → Symbol.Spelled read.reverse cs → Read (text read) (gap ++ '"' :: cs)
  | escape {gap cs : List Char} {read : List Symbol} :
      Gap gap → Symbol.Spelled read.reverse cs → Read (escape read) (gap ++ '"' :: (cs ++ ['\\']))
  | unit {gap cs hs : List Char} {ds : List Nat} {read : List Symbol} {missing : Nat} :
      Gap gap → Symbol.Spelled read.reverse cs → List.Forall₂ Radix.hexadecimal.Digit hs ds →
      ds.length + missing = 3 →
      Read (unit read missing (Radix.hexadecimal.number ds)) (gap ++ '"' :: (cs ++ '\\' :: 'u' :: hs))

/-- After `pre`, the character `c` completes the tokens `ts` and leads to the state `s`. -/
def Advances (pre : List Char) (c : Char) (ts : List Token) (s : Scan) : Prop :=
  ∃ pre', s.Read pre' ∧ ∀ us cs, Laid us (pre' ++ cs) → Laid (ts ++ us) (pre ++ c :: cs)

section

variable {pre gap cs : List Char} {c : Char} {s : Scan}

theorem advances_of_read (h : s.Read (pre ++ [c])) : Advances pre c [] s :=
  ⟨pre ++ [c], h, fun us cs h' => by rwa [List.append_assoc] at h'⟩

theorem advances_of_lexeme {t : Token} (hg : Gap gap) (h : Lexeme t (cs ++ [c])) :
    Advances (gap ++ cs) c [t] between := by
  refine ⟨[], .between gap_nil, fun us ds h' => ?_⟩
  have laid : Laid (t :: us) (gap ++ (cs ++ [c]) ++ ds) := .next hg h h'
  simpa using laid

theorem gap_concat (hg : Gap gap) (hc : c ∈ [' ', '\t', '\n', '\r']) : Gap (gap ++ [c]) := by
  intro d hd
  rcases List.mem_append.mp hd with hd | hd
  · exact hg d hd
  · rwa [List.mem_singleton.mp hd]

theorem advances_of_word {v : Json} {ds : List Char} (hg : Gap gap) (h : Lexeme (.leaf v) (c :: ds)) :
    Advances gap c [] (word ds v) :=
  advances_of_read (.word hg h)

theorem advances_of_start {ts : List Token} (hg : Gap gap) (h : start c = some (s, ts)) : Advances gap c ts s := by
  have mark {t : Token} (ht : Lexeme t ([] ++ [c])) : Advances gap c [t] between := by
    have advances := advances_of_lexeme hg ht
    rwa [List.append_nil] at advances
  unfold start at h
  split at h
  · next hc =>
    cases h
    exact advances_of_read (.between (gap_concat hg (isGap_iff.mp hc)))
  · split at h
    · next hc =>
      cases h
      have first : (Phase.first c).Read [c].reverse := Phase.read_first (List.mem_pair.mpr (.inl rfl)) hc
      exact advances_of_read (.number hg first)
    · split at h <;> cases h
      · have sign : Phase.sign.Read ['-'].reverse := rfl
        exact advances_of_read (.number hg sign)
      · exact advances_of_read (.text hg Symbol.spelled_nil)
      · exact advances_of_word hg .null
      · exact advances_of_word hg .true
      · exact advances_of_word hg .false
      · exact mark .openArray
      · exact mark .closeArray
      · exact mark .openObject
      · exact mark .closeObject
      · exact mark .comma
      · exact mark .colon

theorem advances_of_word_step {ts : List Token} {rest : List Char} {v : Json} (hg : Gap gap)
    (hl : Lexeme (.leaf v) (cs ++ rest)) (h : (word rest v).step c = some (s, ts)) : Advances (gap ++ cs) c ts s := by
  cases rest with
  | nil => cases h
  | cons d rest =>
    cases rest with
    | nil =>
      simp only [step] at h
      split at h <;> cases h
      next hc =>
      rw [← hc] at hl
      exact advances_of_lexeme hg hl
    | cons e rest =>
      simp only [step] at h
      split at h <;> cases h
      next hc =>
      rw [← hc, List.append_cons] at hl
      have read := Read.word hg hl
      rw [← List.append_assoc] at read
      exact advances_of_read read

theorem advances_of_number_step {ts : List Token} {p : Phase} {read : List Char} (hg : Gap gap)
    (hr : p.Read read.reverse) (h : (number p read).step c = some (s, ts)) :
    Advances (gap ++ read.reverse) c ts s := by
  simp only [step] at h
  split at h
  · next q hq =>
    cases h
    have next := hr.next hq
    rw [← List.reverse_cons] at next
    refine advances_of_read ?_
    rw [List.append_assoc, ← List.reverse_cons]
    exact .number hg next
  · split at h
    · next complete =>
      obtain ⟨⟨s', us⟩, started, ⟨⟩⟩ := Option.map_eq_some_iff.mp h
      obtain ⟨pre', hp, laid⟩ := advances_of_start gap_nil started
      refine ⟨pre', hp, fun us cs h' => .next hg (.number (hr.numeral complete)) ?_⟩
      exact laid us cs h'
    · cases h

theorem spelled_add {read : List Symbol} {u : Nat} {ds : List Char} (h : Symbol.Spelled read.reverse cs)
    (hd : Escape u ds) : Symbol.Spelled (addUnit read u).reverse (cs ++ ds) := by
  unfold addUnit
  by_cases low : Low u
  · rw [if_pos (isLow_iff.mpr low)]
    split
    · next v rest =>
      split
      · next hv =>
        have high : High v := isHigh_iff.mp hv
        have joined : (Char.ofNat (0x10000 + (v - 0xD800) * 0x400 + (u - 0xDC00))).toNat =
            0x10000 + (v - 0xD800) * 0x400 + (u - 0xDC00) := by
          obtain ⟨_, _⟩ := high
          obtain ⟨_, _⟩ := low
          rw [Char.ofNat, dif_pos (.inr ⟨by omega, by omega⟩)]
          rfl
        rw [List.reverse_cons] at h ⊢
        exact h.join high low hd joined
      · next hv =>
        rw [List.reverse_cons]
        refine h.concat (.lone (.inr low) hd) fun w hw meets => ?_
        rw [List.getLast?_reverse] at hw
        cases hw
        exact hv (isHigh_iff.mpr meets.1)
    · next other =>
      rw [List.reverse_cons]
      refine h.concat (.lone (.inr low) hd) fun w hw meets => ?_
      rw [List.getLast?_reverse] at hw
      cases w with
      | scalar c => exact meets
      | lone v =>
        obtain ⟨rest, rfl⟩ := List.head?_eq_some_iff.mp hw
        exact other v rest rfl
  · rw [if_neg (isLow_iff.not.mpr low)]
    by_cases high : High u
    · rw [if_pos (isHigh_iff.mpr high), List.reverse_cons]
      refine h.concat (.lone (.inl high) hd) fun w _ meets => ?_
      cases w with
      | scalar c => exact meets
      | lone v => exact low meets.2
    · rw [if_neg (isHigh_iff.not.mpr high), List.reverse_cons]
      have value : (Char.ofNat u).toNat = u := by
        have bound := lt_of_escape hd
        rw [High] at high
        rw [Low] at low
        have valid : u.isValidChar := by
          rw [Nat.isValidChar]
          omega
        rw [Char.ofNat, dif_pos valid]
        rfl
      exact h.concat (.unit (value.symm ▸ hd)) fun w _ => Symbol.not_meets_scalar w _

theorem advances_of_text_step {ts : List Token} {read : List Symbol} (hg : Gap gap)
    (hr : Symbol.Spelled read.reverse cs) (h : (text read).step c = some (s, ts)) :
    Advances (gap ++ '"' :: cs) c ts s := by
  simp only [step] at h
  split at h
  · next quote =>
    cases h
    exact advances_of_lexeme hg (quote ▸ .text hr)
  · next quote =>
    split at h
    · next backslash =>
      cases h
      refine advances_of_read ?_
      rw [List.append_assoc, backslash]
      exact .escape hg hr
    · next backslash =>
      obtain ⟨printed, ⟨⟩⟩ := Option.ite_none_left_eq_some.mp h
      refine advances_of_read ?_
      rw [List.append_assoc]
      refine .text hg ?_
      rw [List.reverse_cons]
      exact hr.concat (.plain quote backslash (Nat.not_lt.mp printed)) fun w _ => Symbol.not_meets_scalar w c

theorem advances_of_escape_step {ts : List Token} {read : List Symbol} (hg : Gap gap)
    (hr : Symbol.Spelled read.reverse cs) (h : (escape read).step c = some (s, ts)) :
    Advances (gap ++ '"' :: (cs ++ ['\\'])) c ts s := by
  simp only [step] at h
  split at h
  · next hc =>
    cases h
    refine advances_of_read ?_
    rw [hc, List.append_assoc, List.cons_append, List.append_assoc]
    exact .unit hg hr .nil rfl
  · obtain ⟨d, hd, ⟨⟩⟩ := Option.map_eq_some_iff.mp h
    refine advances_of_read ?_
    rw [List.append_assoc, List.cons_append, List.append_assoc]
    refine .text hg ?_
    rw [List.reverse_cons]
    exact hr.concat (.short (escaped?_eq_some_iff.mp hd)) fun w _ => Symbol.not_meets_scalar w d

theorem advances_of_unit_step {ts : List Token} {read : List Symbol} {missing : Nat} {hs : List Char} {ds : List Nat}
    (hg : Gap gap) (hr : Symbol.Spelled read.reverse cs) (hd : List.Forall₂ Radix.hexadecimal.Digit hs ds)
    (count : ds.length + missing = 3)
    (h : (unit read missing (Radix.hexadecimal.number ds)).step c = some (s, ts)) :
    Advances (gap ++ '"' :: (cs ++ '\\' :: 'u' :: hs)) c ts s := by
  cases hc : Radix.hexadecimal.digit? c with
  | none => simp only [step, hc] at h; cases h
  | some d =>
    have digits : List.Forall₂ Radix.hexadecimal.Digit (hs ++ [c]) (ds ++ [d]) :=
      List.rel_append hd (.cons ((Radix.digit?_eq_some_iff _ _ _).mp hc) .nil)
    have value : Radix.hexadecimal.number (ds ++ [d]) = Radix.hexadecimal.number ds * 16 + d :=
      Radix.number_concat _ ds d
    have length : (ds ++ [d]).length = ds.length + 1 := List.length_append
    have pre : gap ++ '"' :: (cs ++ '\\' :: 'u' :: hs) ++ [c] = gap ++ '"' :: (cs ++ '\\' :: 'u' :: (hs ++ [c])) := by
      simp
    cases missing with
    | zero =>
      simp only [step, hc, ← value] at h
      cases h
      refine advances_of_read ?_
      rw [pre]
      exact .text hg (spelled_add hr ⟨_, _, rfl, digits, by omega, rfl⟩)
    | succ missing =>
      simp only [step, hc, ← value] at h
      cases h
      refine advances_of_read ?_
      rw [pre]
      exact .unit hg hr digits (by omega)

theorem advances_of_step {ts : List Token} (hr : s.Read pre) {s' : Scan} (h : s.step c = some (s', ts)) :
    Advances pre c ts s' := by
  cases hr with
  | between hg => exact advances_of_start hg h
  | word hg hl => exact advances_of_word_step hg hl h
  | number hg hp => exact advances_of_number_step hg hp h
  | text hg hs => exact advances_of_text_step hg hs h
  | escape hg hs => exact advances_of_escape_step hg hs h
  | unit hg hs hd count => exact advances_of_unit_step hg hs hd count h

end

theorem laid_of_run {s : Scan} {pre cs : List Char} {ts : List Token} (hr : s.Read pre) (h : s.run cs = some ts) :
    Laid ts (pre ++ cs) := by
  induction cs generalizing s pre ts with
  | nil =>
    rw [List.append_nil]
    cases hr with
    | between hg =>
      cases h
      exact .last hg
    | @number gap read p hg hp =>
      obtain ⟨complete, ⟨⟩⟩ := Option.ite_none_right_eq_some.mp h
      have laid : Laid [numberToken read] (gap ++ read.reverse ++ []) :=
        .next hg (.number (hp.numeral complete)) (.last gap_nil)
      rwa [List.append_nil] at laid
    | word | text | escape | unit => cases h
  | cons c cs ih =>
    obtain ⟨⟨s', us⟩, hs, h⟩ := Option.bind_eq_some_iff.mp h
    obtain ⟨vs, hv, ⟨⟩⟩ := Option.bind_eq_some_iff.mp h
    obtain ⟨pre', hr', laid⟩ := advances_of_step hr hs
    exact laid vs cs (ih hr' hv)

end Scan

theorem laid_of_tokens? {cs : List Char} {ts : List Token} (h : tokens? cs = some ts) : Laid ts cs := by
  have nothing : Scan.between.Read [] := .between gap_nil
  exact Scan.laid_of_run nothing h

end Subregister.Json
