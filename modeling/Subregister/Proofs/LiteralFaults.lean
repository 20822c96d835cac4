import Mathlib.Data.List.Nodup
import Subregister.Proofs.Evaluation
import Subregister.Proofs.LiteralOffsets

namespace Subregister.Literal

open Text

namespace Form

def fits : Form → List Char → Bool
  | plain, _ => true
  | suffixed, cs => cs.head?.any Char.isDigit && cs.getLast?.any (· ∈ endings)
  | marked r, cs => (marks r).any fun m => ['0', m].isPrefixOf cs

def ofOutside (cs : List Char) : Form :=
  ([marked .hexadecimal, suffixed, marked .binary, marked .octal].find? (·.fits cs)).getD plain

theorem fits_marked_iff {r : Radix} {cs : List Char} :
    (marked r).fits cs = true ↔ ∃ m ∈ marks r, ∃ ds, cs = '0' :: m :: ds := by
  simp only [fits, List.any_eq_true, List.isPrefixOf_iff_prefix]
  constructor
  · rintro ⟨m, hm, ds, rfl⟩
    exact ⟨m, hm, ds, rfl⟩
  · rintro ⟨m, hm, ds, rfl⟩
    exact ⟨m, hm, ds, rfl⟩

theorem fits_marked {r : Radix} {k l : Char} (h : marks r = [k, l]) (cs : List Char) :
    (marked r).fits cs = Checked.hasMark k l cs := by
  rw [Bool.eq_iff_iff, fits_marked_iff, Checked.hasMark_eq_true_iff, h]
  constructor
  · rintro ⟨m, hm, ds, hcs⟩
    exact ⟨m, ds, hcs, by simpa using hm⟩
  · rintro ⟨m, ds, hcs, hm⟩
    exact ⟨m, by simpa using hm, ds, hcs⟩

theorem fits_suffixed (cs : List Char) : suffixed.fits cs = (startsWithDigit cs && endsWithMark cs) := by
  have first : cs.head?.any Char.isDigit = startsWithDigit cs := by
    cases cs <;> rfl
  have last : cs.getLast?.any (· ∈ endings) = endsWithMark cs := by
    rw [endsWithMark]
    cases cs.getLast? <;> simp [endings]
  rw [fits, first, last]

theorem split_eq_ofOutside (cs : List Char) : split cs = ((ofOutside cs).radix, (ofOutside cs).digits cs) := by
  rw [Checked.split_eq, ofOutside, ← fits_marked (r := .hexadecimal) rfl, ← fits_suffixed,
    ← fits_marked (r := .binary) rfl, ← fits_marked (r := .octal) rfl]
  simp only [List.find?]
  split_ifs <;> simp [*, radix, digits]

end Form

def withoutSign : List Char → List Char
  | '-' :: cs | '+' :: cs => cs
  | cs => cs

theorem digit?_eq_none_iff {r : Radix} {c : Char} : r.digit? c = none ↔ ∀ d, ¬ r.Digit c d := by
  simp only [Option.eq_none_iff_forall_ne_some, ne_eq, Radix.digit?_eq_some_iff]

def HasStray (r : Radix) (cs : List Char) : Prop :=
  ∃ c ∈ cs, c ≠ '_' ∧ ∀ d, ¬ r.Digit c d

theorem hasStray_cons {r : Radix} {c : Char} {cs : List Char} :
    HasStray r (c :: cs) ↔ (c ≠ '_' ∧ ∀ d, ¬ r.Digit c d) ∨ HasStray r cs := by
  simp only [HasStray, List.mem_cons, exists_eq_or_imp]

theorem accumulate_eq_error_iff {r : Radix} {v : UInt64} {cs : List Char} {g : Fault} :
    accumulate r v cs = .error g ↔ g = .badDigit r ∧ HasStray r cs := by
  -- Behind the first digit no other fault is left, whatever number has been read so far.
  induction cs generalizing v with
  | nil => simp [accumulate, HasStray]
  | cons c cs ih =>
    rw [accumulate, hasStray_cons, ← digit?_eq_none_iff]
    by_cases hc : c = '_'
    · simp only [hc, if_true, ih, ne_eq, not_true, false_and, false_or]
    · simp only [hc, if_false, ne_eq, not_false_eq_true, true_and]
      cases r.digit? c with
      | none => simp [eq_comm]
      | some d => simp only [ih, reduceCtorEq, false_or]

def Fault.Shows (core : List Char) (r : Radix) (run : List Char) : Fault → Prop
  | empty => core = []
  | noDigits => core ≠ [] ∧ run = []
  | leadingSeparator => run.head? = some '_'
  | badDigit q => q = r ∧ run ≠ [] ∧ run.head? ≠ some '_' ∧ HasStray r run

theorem run_eq_error_iff {core : List Char} (hcore : core ≠ []) {r : Radix} {cs : List Char} {g : Fault} :
    run r cs = .error g ↔ g.Shows core r cs := by
  cases cs with
  | nil => cases g <;> simp [run, Fault.Shows, hcore]
  | cons c cs =>
    rw [run]
    by_cases hc : c = '_'
    · cases g <;> simp [Fault.Shows, hc, hcore]
    · rw [if_neg hc]
      cases hd : r.digit? c with
      | none =>
        have stray : HasStray r (c :: cs) := hasStray_cons.mpr (.inl ⟨hc, digit?_eq_none_iff.mp hd⟩)
        cases g <;> simp [Fault.Shows, hc, hcore, stray, eq_comm]
      | some d =>
        have rest : HasStray r (c :: cs) ↔ HasStray r cs := by
          rw [hasStray_cons, ← digit?_eq_none_iff, hd]
          simp
        simp only [accumulate_eq_error_iff]
        cases g <;> simp [Fault.Shows, hc, hcore, rest]

theorem signed_eq_error_iff {cs : List Char} {g : Fault} :
    signed cs = .error g ↔ body (withoutSign cs) = .error g := by
  fun_cases signed cs
  case case1 =>
    rw [withoutSign]
    cases body _ <;> simp [Except.map]
  case case2 => rw [withoutSign]
  case case3 hn hp => rw [withoutSign.eq_3 _ hn hp]

theorem ofChars_eq_error_iff {text : List Char} {g : Fault} : ofChars text = .error g ↔
    let core := Blank.trim text
    let form := Form.ofOutside (withoutSign core)
    g.Shows core form.radix (form.digits (withoutSign core)) := by
  rw [ofChars]
  cases Blank.trim text with
  | nil =>
    have nothing : (Form.ofOutside (withoutSign [])).digits (withoutSign []) = [] := rfl
    cases g <;> simp [Fault.Shows, nothing]
  | cons c cs =>
    simp only [signed_eq_error_iff, body, Form.split_eq_ofOutside]
    exact run_eq_error_iff (List.cons_ne_nil c cs)

theorem parse_eq_error_iff {s : String} {f : Error} :
    parse s = .error f ↔ ∃ g, ofChars s.toList = .error g ∧ .literal s g = f :=
  mapError_eq_error_iff

namespace Fault

def all : List Fault :=
  [empty, leadingSeparator, noDigits, badDigit .binary, badDigit .octal, badDigit .decimal, badDigit .hexadecimal]

theorem mem_all (g : Fault) : g ∈ all := by
  cases g with
  | badDigit r => cases r <;> decide
  | empty | leadingSeparator | noDigits => decide

theorem reason_injective : Function.Injective reason := by
  have distinct : (all.map reason).Nodup := by decide
  intro f g h
  exact List.inj_on_of_nodup_map distinct f.mem_all g.mem_all h

end Fault

def Refuses (s reason : String) : Prop :=
  ∃ g : Fault, parse s = .error (.literal s g) ∧ g.reason = reason

theorem refuses_reason_iff {s : String} {g : Fault} : Refuses s g.reason ↔ ofChars s.toList = .error g := by
  simp only [Refuses, parse_eq_error_iff, Error.literal.injEq, true_and, exists_eq_right, Fault.reason_injective.eq_iff]

/-- The reason is known from what is left between the blanks and the run of digits in it: whatever the scan of the run
meets first, each reason has its own condition on the whole. -/
theorem refuses_by_run (s : String) : ∃ core, (∀ t, Blank.Trimmed s.toList t ↔ t = core) ∧
    let body := withoutSign core
    let form := Form.ofOutside body
    let run := form.digits body
    let stray := "invalid " ++ form.radix.name ++ " digit"
    (Refuses s "empty literal" ↔ core = []) ∧
    (Refuses s "missing digits" ↔ core ≠ [] ∧ run = []) ∧
    (Refuses s "digit separator before first digit" ↔ run.head? = some '_') ∧
    (Refuses s stray ↔
      run ≠ [] ∧ run.head? ≠ some '_' ∧ ∃ c ∈ run, c ≠ '_' ∧ ∀ d, ¬ form.radix.Digit c d) ∧
    ((∃ v, parse s = .ok v) ∨ ∃ reason ∈
      ["empty literal", "missing digits", "digit separator before first digit", stray], Refuses s reason) := by
  refine ⟨Blank.trim s.toList, fun t => ⟨Blank.Trimmed.eq_trim, fun h => h ▸ Blank.trimmed_trim _⟩, ?_⟩
  intro body form run stray
  have known (g : Fault) : Refuses s g.reason ↔ g.Shows (Blank.trim s.toList) form.radix run :=
    refuses_reason_iff.trans ofChars_eq_error_iff
  refine ⟨known .empty, known .noDigits, known .leadingSeparator, ?_, ?_⟩
  · exact (known (.badDigit form.radix)).trans (and_iff_right rfl)
  · cases hp : parse s with
    | ok v => exact .inl ⟨v, rfl⟩
    | error f =>
      obtain ⟨g, hg, -⟩ := parse_eq_error_iff.mp hp
      have hr := refuses_reason_iff.mpr hg
      refine .inr ⟨g.reason, ?_, hr⟩
      cases g with
      | empty => exact .head _
      | noDigits => exact .tail _ (.head _)
      | leadingSeparator => exact .tail _ (.tail _ (.head _))
      | badDigit q =>
        obtain ⟨rfl, -⟩ := (known (.badDigit q)).mp hr
        exact .tail _ (.tail _ (.tail _ (.head _)))

example : parse " -0x1_0h\n" = .error (.literal " -0x1_0h\n" (.badDigit .hexadecimal)) := by rfl

end Subregister.Literal
