import Mathlib.Data.List.Chain
import Subregister.Proofs.JsonLexemes

namespace Subregister.Json

open Text

def Token.IsLeaf : Token → Prop
  | leaf _ => True
  | _ => False

namespace Phase

variable {p q : Phase} {c : Char}

def first (c : Char) : Phase :=
  if c = '0' then zero else whole

def digitMoves : List (Phase × Phase) :=
  [(whole, whole), (point, fraction), (fraction, fraction), (mark, exponent), (markSign, exponent),
    (exponent, exponent)]

inductive Move : Phase → Char → Phase → Prop
  | first {c : Char} : c.isDigit = true → Move sign c (first c)
  | digit {p q : Phase} {c : Char} : (p, q) ∈ digitMoves → c.isDigit = true → Move p c q
  | point {p : Phase} : p ∈ [zero, whole] → Move p '.' point
  | mark {p : Phase} {c : Char} : p ∈ [zero, whole, fraction] → c ∈ ['e', 'E'] → Move p c mark
  | sign {c : Char} : c ∈ ['+', '-'] → Move mark c markSign

theorem move_of_next (h : p.next c = some q) : Move p c q := by
  cases p with
  | sign =>
    rw [next] at h
    split at h
    · next hc =>
      cases h
      exact hc ▸ .first (by decide)
    · next zero =>
      obtain ⟨hc, ⟨⟩⟩ := Option.ite_none_right_eq_some.mp h
      have first : first c = whole := if_neg zero
      exact first ▸ .first hc
  | zero =>
    rw [next] at h
    split at h
    · next hc =>
      cases h
      exact hc ▸ .point (by decide)
    · obtain ⟨hc, ⟨⟩⟩ := Option.ite_none_right_eq_some.mp h
      exact .mark (by decide) (List.mem_pair.mpr hc)
  | whole =>
    rw [next] at h
    split at h
    · next hc =>
      cases h
      exact .digit (by decide) hc
    · split at h
      · next hc =>
        cases h
        exact hc ▸ .point (by decide)
      · obtain ⟨hc, ⟨⟩⟩ := Option.ite_none_right_eq_some.mp h
        exact .mark (by decide) (List.mem_pair.mpr hc)
  | fraction =>
    rw [next] at h
    split at h
    · next hc =>
      cases h
      exact .digit (by decide) hc
    · obtain ⟨hc, ⟨⟩⟩ := Option.ite_none_right_eq_some.mp h
      exact .mark (by decide) (List.mem_pair.mpr hc)
  | mark =>
    rw [next] at h
    split at h
    · next hc =>
      cases h
      exact .sign (List.mem_pair.mpr hc)
    · obtain ⟨hc, ⟨⟩⟩ := Option.ite_none_right_eq_some.mp h
      exact .digit (by decide) hc
  | point | markSign | exponent =>
    obtain ⟨hc, ⟨⟩⟩ := Option.ite_none_right_eq_some.mp h
    exact .digit (by decide) hc

theorem next_of_isDigit (h : (p, q) ∈ digitMoves) (hc : c.isDigit = true) : p.next c = some q := by
  have sign : ¬ (c = '+' ∨ c = '-') := by
    rintro (rfl | rfl)
    · exact absurd hc (by decide)
    · exact absurd hc (by decide)
  simp only [digitMoves, List.mem_cons, List.not_mem_nil, or_false, Prod.mk.injEq] at h
  rcases h with ⟨rfl, rfl⟩ | ⟨rfl, rfl⟩ | ⟨rfl, rfl⟩ | ⟨rfl, rfl⟩ | ⟨rfl, rfl⟩ | ⟨rfl, rfl⟩
  case inr.inr.inr.inl => rw [next, if_neg sign, if_pos hc]
  all_goals exact if_pos hc

theorem next_of_move (h : Move p c q) : p.next c = some q := by
  cases h with
  | first hc =>
    rw [next, first, hc]
    split <;> rfl
  | digit h hc => exact next_of_isDigit h hc
  | point hp => rcases List.mem_pair.mp hp with rfl | rfl <;> rfl
  | mark hp hc =>
    have marks : ∀ p ∈ [zero, whole, fraction], p.next 'e' = some mark ∧ p.next 'E' = some mark := by decide
    rcases List.mem_pair.mp hc with rfl | rfl
    · exact (marks p hp).1
    · exact (marks p hp).2
  | sign hc => rcases List.mem_pair.mp hc with rfl | rfl <;> rfl

end Phase

namespace Scan

def Leads (s : Scan) (cs : List Char) (s' : Scan) : Prop :=
  ∀ ds, s.run (cs ++ ds) = s'.run ds

section

variable {s s' s'' : Scan} {c : Char} {cs ds : List Char}

theorem run_cons_of_step {ts : List Token} (h : s.step c = some (s', ts)) (cs : List Char) :
    s.run (c :: cs) = (s'.run cs).map (ts ++ ·) := by
  simp only [run, h, Option.bind_eq_bind, Option.bind_some]
  cases s'.run cs <;> rfl

theorem leads_nil (s : Scan) : s.Leads [] s :=
  fun _ => rfl

theorem Leads.trans (h : s.Leads cs s') (h' : s'.Leads ds s'') : s.Leads (cs ++ ds) s'' := by
  intro es
  rw [List.append_assoc, h, h']

theorem leads_of_step (h : s.step c = some (s', [])) : s.Leads [c] s' := by
  intro ds
  rw [List.singleton_append, run_cons_of_step h]
  exact Option.map_id'

theorem Leads.cons (h : s.step c = some (s', [])) (h' : s'.Leads cs s'') : s.Leads (c :: cs) s'' :=
  (leads_of_step h).trans h'

end

theorem isGap_iff {c : Char} : isGap c = true ↔ c ∈ [' ', '\t', '\n', '\r'] := by
  simp [isGap, or_assoc]

theorem leads_of_gap {gap : List Char} (h : Gap gap) : between.Leads gap between := by
  induction gap with
  | nil => exact leads_nil _
  | cons c cs ih =>
    have hc : isGap c = true := isGap_iff.mpr (h c List.mem_cons_self)
    have hs : between.step c = some (between, []) := if_pos hc
    exact .cons hs (ih fun d hd => h d (List.mem_cons_of_mem c hd))

section

variable {read : List Symbol} {u : Nat} {cs : List Char}

theorem isHigh_iff : isHigh u = true ↔ High u := by
  simp only [isHigh, High, Bool.and_eq_true, decide_eq_true_eq]
  omega

theorem isLow_iff : isLow u = true ↔ Low u := by
  simp only [isLow, Low, Bool.and_eq_true, decide_eq_true_eq]
  omega

theorem leads_of_hexadecimal (read : List Symbol) {hs : List Char} {ds : List Nat}
    (h : List.Forall₂ Radix.hexadecimal.Digit hs ds) (es : List Nat) {missing : Nat} (hl : ds.length = missing + 1) :
    (unit read missing (Radix.hexadecimal.number es)).Leads hs
      (text (addUnit read (Radix.hexadecimal.number (es ++ ds)))) := by
  induction h generalizing es missing with
  | nil => cases hl
  | @cons c d hs ds hd rest ih =>
    have digit := (Radix.digit?_eq_some_iff _ _ _).mpr hd
    have value : Radix.hexadecimal.number (es ++ [d]) = Radix.hexadecimal.number es * 16 + d :=
      Radix.number_concat _ es d
    cases missing with
    | zero =>
      obtain rfl := List.length_eq_zero_iff.mp (Nat.succ.inj hl)
      cases rest
      exact leads_of_step (by simp only [step, digit, value])
    | succ missing =>
      have later := ih (es ++ [d]) (Nat.succ.inj hl)
      rw [List.append_assoc, value] at later
      exact .cons (by simp only [step, digit]) later

theorem leads_of_escape (read : List Symbol) (h : Escape u cs) : (text read).Leads cs (text (addUnit read u)) := by
  obtain ⟨hs, ds, rfl, digits, four, rfl⟩ := h
  exact .cons rfl (.cons rfl (leads_of_hexadecimal read digits [] four))

theorem addUnit_low (h : Low u) (ht : ∀ v ∈ read.head?, ¬ v.Meets (.lone u)) :
    addUnit read u = .lone u :: read := by
  unfold addUnit
  rw [if_pos (isLow_iff.mpr h)]
  split
  · next v rest =>
    have hv : ¬ High v := fun hv => ht _ rfl ⟨hv, h⟩
    exact if_neg (isHigh_iff.not.mpr hv)
  · rfl

theorem addUnit_high (h : High u) : addUnit read u = .lone u :: read := by
  have low : ¬ Low u := fun h' => absurd h.2 (Nat.not_lt.mpr h'.1)
  unfold addUnit
  rw [if_neg (isLow_iff.not.mpr low), if_pos (isHigh_iff.mpr h)]

theorem addUnit_pair {high low : Nat} {c : Char} (hh : High high) (hl : Low low)
    (hc : c.toNat = 0x10000 + (high - 0xD800) * 0x400 + (low - 0xDC00)) :
    addUnit (.lone high :: read) low = .scalar c :: read := by
  unfold addUnit
  rw [if_pos (isLow_iff.mpr hl)]
  simp only [isHigh_iff.mpr hh, if_true, ← hc, Char.ofNat_toNat]

theorem addUnit_toNat (c : Char) : addUnit read c.toNat = .scalar c :: read := by
  have bounds : c.toNat < 0xD800 ∨ 0xE000 ≤ c.toNat := by
    have valid : c.toNat < 0xD800 ∨ 0xDFFF < c.toNat ∧ c.toNat < 0x110000 := c.valid
    omega
  have low : ¬ Low c.toNat := by
    rw [Low]
    omega
  have high : ¬ High c.toNat := by
    rw [High]
    omega
  unfold addUnit
  rw [if_neg (isLow_iff.not.mpr low), if_neg (isHigh_iff.not.mpr high), Char.ofNat_toNat]

theorem escaped?_eq_some_iff {e c : Char} : escaped? e = some c ↔ (e, c) ∈ shortEscapes := by
  constructor
  · intro h
    unfold escaped? at h
    split at h <;> cases h <;> decide
  · intro h
    have table : ∀ p ∈ shortEscapes, escaped? p.1 = some p.2 := by decide
    exact table (e, c) h

theorem leads_of_shown {t : Symbol} (h : t.Shown cs) (ht : ∀ v ∈ read.head?, ¬ v.Meets t) :
    (text read).Leads cs (text (t :: read)) := by
  cases h with
  | @plain c quote backslash printed =>
    have hs : (text read).step c = some (text (.scalar c :: read), []) := by
      rw [step, if_neg quote, if_neg backslash, if_neg (Nat.not_lt.mpr printed)]
    exact leads_of_step hs
  | @short e c h =>
    have marks : ∀ p ∈ shortEscapes, p.1 ≠ 'u' := by decide
    have mark : e ≠ 'u' := marks (e, c) h
    have hs : (escape read).step e = some (text (.scalar c :: read), []) := by
      rw [step, if_neg mark, escaped?_eq_some_iff.mpr h]
      rfl
    exact .cons rfl (leads_of_step hs)
  | @unit c cs h => exact addUnit_toNat c ▸ leads_of_escape read h
  | @pair c u _ _ _ hh hl high low hc =>
    have first := leads_of_escape read high
    rw [addUnit_high hh] at first
    have second := leads_of_escape (.lone u :: read) low
    rw [addUnit_pair hh hl hc] at second
    exact first.trans second
  | @lone u cs half h =>
    have hu : addUnit read u = .lone u :: read := by
      rcases half with high | low
      · exact addUnit_high high
      · exact addUnit_low low ht
    exact hu ▸ leads_of_escape read h

theorem leads_of_symbols {t : List Symbol} {parts : List (List Char)} (h : List.Forall₂ Symbol.Shown t parts)
    (apart : Symbol.Apart (read.reverse ++ t)) : (text read).Leads parts.flatten (text (t.reverse ++ read)) := by
  -- A low half would join a high one read just before it, so what has been read counts too.
  induction h generalizing read with
  | nil => exact leads_nil _
  | @cons a cs t parts ha rest ih =>
    have meets : ∀ v ∈ read.head?, ¬ v.Meets a := by
      intro v hv
      exact (List.isChain_append.mp apart).2.2 v (by rwa [List.getLast?_reverse]) a rfl
    have later : (text (a :: read)).Leads parts.flatten (text (t.reverse ++ a :: read)) :=
      ih (by rwa [List.reverse_cons, List.append_assoc])
    rw [List.flatten_cons, List.reverse_cons, List.append_assoc]
    exact (leads_of_shown ha meets).trans later

theorem leads_of_spelled {t : List Symbol} (h : Symbol.Spelled t cs) : (text []).Leads cs (text t.reverse) := by
  obtain ⟨apart, parts, shown, rfl⟩ := h
  have leads : (text []).Leads parts.flatten (text (t.reverse ++ [])) := leads_of_symbols shown apart
  rwa [List.append_nil] at leads

end

section

variable {p q : Phase} {cs : List Char}

open Numeral

theorem step_of_move {c : Char} (h : p.Move c q) (read : List Char) :
    (number p read).step c = some (number q (c :: read), []) := by
  simp only [step, Phase.next_of_move h]

theorem leads_of_digits (loop : (p, p) ∈ Phase.digitMoves) (h : ∀ c ∈ cs, c.isDigit = true) (read : List Char) :
    (number p read).Leads cs (number p (cs.reverse ++ read)) := by
  induction cs generalizing read with
  | nil => exact leads_nil _
  | cons c cs ih =>
    have hc : p.Move c p := .digit loop (h c List.mem_cons_self)
    rw [List.reverse_cons, List.append_assoc]
    exact .cons (step_of_move hc read) (ih (fun d hd => h d (List.mem_cons_of_mem c hd)) (c :: read))

theorem leads_of_first_digits (first : (p, q) ∈ Phase.digitMoves) (loop : (q, q) ∈ Phase.digitMoves) (h : Digits cs)
    (read : List Char) : (number p read).Leads cs (number q (cs.reverse ++ read)) := by
  obtain ⟨some_digit, digits⟩ := h
  cases cs with
  | nil => exact absurd rfl some_digit
  | cons c cs =>
    have hc : p.Move c q := .digit first (digits c List.mem_cons_self)
    rw [List.reverse_cons, List.append_assoc]
    exact .cons (step_of_move hc read)
      (leads_of_digits loop (fun d hd => digits d (List.mem_cons_of_mem c hd)) (c :: read))

theorem start_of_isDigit {c : Char} (h : c.isDigit = true) : start c = some (number (Phase.first c) [c], []) := by
  have gap : isGap c ≠ true := by
    intro hg
    have blanks : ∀ d ∈ [' ', '\t', '\n', '\r'], d.isDigit = false := by simp
    exact absurd h (by rw [blanks c (isGap_iff.mp hg)]; decide)
  unfold start
  rw [if_neg gap, if_pos h, Phase.first]

theorem leads_of_whole (h : Whole cs) (read : List Char) :
    ∃ c ds, cs = c :: ds ∧ c.isDigit = true ∧ ∃ p ∈ [Phase.zero, Phase.whole],
      (number (Phase.first c) (c :: read)).Leads ds (number p (cs.reverse ++ read)) := by
  rcases h with rfl | ⟨⟨some_digit, digits⟩, zero⟩
  · exact ⟨'0', [], rfl, rfl, .zero, by decide, leads_nil _⟩
  · cases cs with
    | nil => exact absurd rfl some_digit
    | cons c cs =>
      have first : Phase.first c = .whole := if_neg fun hc => zero (congrArg some hc)
      refine ⟨c, cs, rfl, digits c List.mem_cons_self, .whole, by decide, ?_⟩
      rw [first, List.reverse_cons, List.append_assoc]
      exact leads_of_digits (by decide) (fun d hd => digits d (List.mem_cons_of_mem c hd)) (c :: read)

theorem leads_of_integral {sign : List Char} (hs : sign ∈ signs) (hw : Whole cs) :
    ∃ p ∈ [Phase.zero, Phase.whole], between.Leads (sign ++ cs) (number p (sign ++ cs).reverse) := by
  rcases List.mem_pair.mp hs with rfl | rfl
  · obtain ⟨c, ds, rfl, hc, p, hp, leads⟩ := leads_of_whole hw []
    rw [List.append_nil] at leads
    exact ⟨p, hp, .cons (start_of_isDigit hc) leads⟩
  · obtain ⟨c, ds, rfl, hc, p, hp, leads⟩ := leads_of_whole hw ['-']
    refine ⟨p, hp, ?_⟩
    rw [List.reverse_append]
    exact .cons rfl (.cons (step_of_move (.first hc) ['-']) leads)

theorem leads_of_fraction (hp : p ∈ [Phase.zero, Phase.whole]) (h : Fraction cs) (read : List Char) :
    ∃ q ∈ [Phase.zero, Phase.whole, Phase.fraction], (number p read).Leads cs (number q (cs.reverse ++ read)) := by
  rcases h with rfl | ⟨ds, rfl, digits⟩
  · have more : ∀ p ∈ [Phase.zero, Phase.whole], p ∈ [Phase.zero, Phase.whole, Phase.fraction] := by decide
    exact ⟨p, more p hp, leads_nil _⟩
  · refine ⟨.fraction, by decide, ?_⟩
    rw [List.reverse_cons, List.append_assoc]
    exact .cons (step_of_move (.point hp) read)
      (leads_of_first_digits (by decide) (by decide) digits ('.' :: read))

theorem leads_of_exponent (hp : p ∈ [Phase.zero, Phase.whole, Phase.fraction]) (h : Exponent cs) (read : List Char) :
    ∃ q, q.isComplete = true ∧ (number p read).Leads cs (number q (cs.reverse ++ read)) := by
  rcases h with rfl | ⟨m, hm, sign, hsign, ds, rfl, digits⟩
  · have complete : ∀ p ∈ [Phase.zero, Phase.whole, Phase.fraction], p.isComplete = true := by decide
    exact ⟨p, complete p hp, leads_nil _⟩
  · refine ⟨.exponent, rfl, ?_⟩
    rw [List.reverse_cons, List.append_assoc]
    refine .cons (step_of_move (.mark hp hm) read) ?_
    have signed (s : Char) (hs : s ∈ ['+', '-']) :
        (number .mark (m :: read)).Leads (s :: ds) (number .exponent ((s :: ds).reverse ++ m :: read)) := by
      rw [List.reverse_cons, List.append_assoc]
      exact .cons (step_of_move (.sign hs) (m :: read))
        (leads_of_first_digits (by decide) (by decide) digits (s :: m :: read))
    simp only [List.mem_cons, List.not_mem_nil, or_false] at hsign
    rcases hsign with rfl | rfl | rfl
    · exact leads_of_first_digits (by decide) (by decide) digits (m :: read)
    · exact signed '+' (by decide)
    · exact signed '-' (by decide)

theorem leads_of_numeral (h : Numeral cs) : ∃ p, p.isComplete = true ∧ between.Leads cs (number p cs.reverse) := by
  obtain ⟨hs, hw, hf, he⟩ := h
  obtain ⟨p, hp, whole⟩ := leads_of_integral hs hw
  obtain ⟨q, hq, fraction⟩ := leads_of_fraction hp hf _
  rw [← List.reverse_append] at fraction
  obtain ⟨r, hr, exponent⟩ := leads_of_exponent hq he _
  rw [← List.reverse_append] at exponent
  exact ⟨r, hr, (whole.trans fraction).trans exponent⟩

end

def Stops (cs : List Char) : Prop :=
  ∀ c ∈ cs.head?, c.isDigit = false ∧ c ∉ ['.', 'e', 'E']

theorem next_of_stop {p : Phase} (hp : p.isComplete = true) {c : Char} (hc : c.isDigit = false)
    (hm : c ∉ ['.', 'e', 'E']) : p.next c = none := by
  simp only [List.mem_cons, List.not_mem_nil, or_false, not_or] at hm
  obtain ⟨point, mark, Mark⟩ := hm
  cases p with
  | zero | whole | fraction | exponent => simp [Phase.next, hc, point, mark, Mark]
  | sign | point | mark | markSign => cases hp

theorem run_number {p : Phase} (hp : p.isComplete = true) {cs : List Char} (h : Stops cs) (read : List Char) :
    (number p read).run cs = (between.run cs).map (numberToken read :: ·) := by
  cases cs with
  | nil => simp [run, finish, hp]
  | cons c cs =>
    have hn := next_of_stop hp (h c rfl).1 (h c rfl).2
    cases hs : start c with
    | none => simp [run, step, hn, hp, hs]
    | some r =>
      simp only [run, step, hn, hp, hs, if_true, Option.map_some, Option.bind_eq_bind, Option.bind_some]
      cases r.1.run cs <;> rfl

theorem run_token {s : Scan} {cs : List Char} {c : Char} {t : Token} (h : between.Leads cs s)
    (hs : s.step c = some (between, [t])) (ds : List Char) :
    between.run (cs ++ c :: ds) = (between.run ds).map (t :: ·) := by
  rw [h, run_cons_of_step hs]
  rfl

theorem run_lexeme {t : Token} {cs : List Char} (h : Lexeme t cs) {ds : List Char}
    (stops : t.IsLeaf → Stops ds) : between.run (cs ++ ds) = (between.run ds).map (t :: ·) := by
  cases h with
  | openArray | closeArray | openObject | closeObject | comma | colon => exact run_token (leads_nil _) rfl ds
  | null =>
    have leads : between.Leads ['n', 'u', 'l'] (word ['l'] .null) := .cons rfl (.cons rfl (leads_of_step rfl))
    exact run_token leads rfl ds
  | true =>
    have leads : between.Leads ['t', 'r', 'u'] (word ['e'] (.bool true)) := .cons rfl (.cons rfl (leads_of_step rfl))
    exact run_token leads rfl ds
  | false =>
    have leads : between.Leads ['f', 'a', 'l', 's'] (word ['e'] (.bool false)) :=
      .cons rfl (.cons rfl (.cons rfl (leads_of_step rfl)))
    exact run_token leads rfl ds
  | @number cs h =>
    obtain ⟨p, hp, leads⟩ := leads_of_numeral h
    rw [leads, run_number hp (stops trivial), numberToken, List.reverse_reverse]
  | @text t cs h =>
    have close : (text t.reverse).step '"' = some (between, [.text t.reverse.reverse]) := rfl
    rw [List.reverse_reverse] at close
    have leads : between.Leads ('"' :: cs) (text t.reverse) := .cons rfl (leads_of_spelled h)
    have run := run_token leads close ds
    rwa [List.cons_append, List.append_assoc]

theorem stops_of_gap {gap cs : List Char} (hg : Gap gap) (h : Stops cs) : Stops (gap ++ cs) := by
  cases gap with
  | nil => exact h
  | cons c gap =>
    have blanks : ∀ c ∈ [' ', '\t', '\n', '\r'], c.isDigit = false ∧ c ∉ ['.', 'e', 'E'] := by simp
    intro d hd
    obtain rfl := Option.some.inj hd
    exact blanks c (hg c List.mem_cons_self)

theorem stops_of_lexeme {t : Token} {cs : List Char} (h : Lexeme t cs) (ht : ¬ t.IsLeaf) (ds : List Char) :
    Stops (cs ++ ds) := by
  have marks : ∀ c ∈ ['[', ']', '\x7b', '\x7d', ',', ':', '"'], c.isDigit = false ∧ c ∉ ['.', 'e', 'E'] := by simp
  intro c hc
  cases h with
  | null | true | false | number => exact absurd trivial ht
  | openArray | closeArray | openObject | closeObject | comma | colon | text =>
    obtain rfl := Option.some.inj hc
    exact marks _ (by decide)

theorem stops_of_laid {ts : List Token} {cs : List Char} (h : Laid ts cs) (ht : ∀ t ∈ ts.head?, ¬ t.IsLeaf) :
    Stops cs := by
  cases h with
  | last hg =>
    rw [← List.append_nil cs]
    exact stops_of_gap hg nofun
  | next hg hl _ =>
    rw [List.append_assoc]
    exact stops_of_gap hg (stops_of_lexeme hl (ht _ rfl) _)

end Scan

def Sparse (ts : List Token) : Prop :=
  ts.IsChain fun a b => ¬ (a.IsLeaf ∧ b.IsLeaf)

theorem tokens?_of_laid {ts : List Token} {cs : List Char} (h : Laid ts cs) (hs : Sparse ts) :
    tokens? cs = some ts := by
  rw [tokens?]
  induction h with
  | @last gap hg =>
    rw [← List.append_nil gap, Scan.leads_of_gap hg]
    rfl
  | @next t ts gap cs rest hg hl hr ih =>
    have stops (ht : t.IsLeaf) : Scan.Stops rest :=
      Scan.stops_of_laid hr fun u hu hl => (List.isChain_cons.mp hs).1 u hu ⟨ht, hl⟩
    rw [List.append_assoc, Scan.leads_of_gap hg, Scan.run_lexeme hl stops, ih hs.tail]
    rfl

end Subregister.Json
