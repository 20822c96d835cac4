import Subregister.Proofs.Evaluation

/-!
Requests by name and the order of their faults. Each rule says what is wrong with a request whatever else is wrong with
it, and of the rules in their order the first that applies decides the error.
-/

namespace Subregister

inductive Rule
  | name | size | first | missing | second

def Rule.all : List Rule :=
  [name, size, first, missing, second]

inductive Fault (name : String) (x : Operand) (y : Option Operand) (size : Option String) : Rule → Error → Prop
  | name : (∀ m : Mnemonic, ¬ m.Spelled name) → Fault name x y size .name (.unsupported name)
  | size {s : String} {f : Designator.Fault} :
      size = some s → Designator.parse s = .error (.designator s f) → Fault name x y size .size (.designator s f)
  | first {s : String} {f : Literal.Fault} :
      x = .literal s → Literal.parse s = .error (.literal s f) → Fault name x y size .first (.literal s f)
  | missing {op : BinaryOp} :
      (Mnemonic.binary op).Spelled name → y = none → Fault name x y size .missing (.missingOperand op.name)
  | second {op : BinaryOp} {s : String} {f : Literal.Fault} :
      (Mnemonic.binary op).Spelled name → y = some (.literal s) → Literal.parse s = .error (.literal s f) →
      Fault name x y size .second (.literal s f)

def FirstFault (fault : Rule → Error → Prop) : List Rule → Error → Prop
  | [], _ => False
  | r :: rs, f => fault r f ∨ (∀ g, ¬ fault r g) ∧ FirstFault fault rs f

section

variable {α β : Type} {fault : Rule → Error → Prop} {r : Rule} {rs : List Rule} {f : Error}

theorem exists_firstFault_iff : (∃ f, FirstFault fault rs f) ↔ ∃ r ∈ rs, ∃ f, fault r f := by
  induction rs with
  | nil => simp [FirstFault]
  | cons r rs ih =>
    simp only [List.mem_cons, exists_eq_or_imp, ← ih]
    by_cases hr : ∃ g, fault r g
    · obtain ⟨g, hg⟩ := hr
      exact ⟨fun _ => .inl ⟨g, hg⟩, fun _ => ⟨g, .inl hg⟩⟩
    · rw [not_exists] at hr
      constructor
      · rintro ⟨f, hf | ⟨-, hf⟩⟩
        · exact absurd hf (hr f)
        · exact .inr ⟨f, hf⟩
      · rintro (⟨g, hg⟩ | ⟨f, hf⟩)
        · exact absurd hg (hr g)
        · exact ⟨f, .inr ⟨hr, hf⟩⟩

theorem not_firstFault (h : ∀ r ∈ rs, ∀ g, ¬ fault r g) : ¬ FirstFault fault rs f := by
  intro hf
  obtain ⟨r, hr, g, hg⟩ := exists_firstFault_iff.mp ⟨f, hf⟩
  exact h r hr g hg

theorem bind_eq_error_iff_firstFault {stage : Except Error α} {rest : α → Except Error β}
    (hstage : ∀ g, stage = .error g ↔ fault r g)
    (hrest : ∀ a, stage = .ok a → (rest a = .error f ↔ FirstFault fault rs f)) :
    (stage >>= rest) = .error f ↔ FirstFault fault (r :: rs) f := by
  rw [FirstFault]
  cases stage with
  | error g =>
    have hg := (hstage g).mp rfl
    constructor
    · intro h
      obtain rfl := Except.error.inj h
      exact .inl hg
    · rintro (hf | ⟨none, -⟩)
      · obtain rfl := Except.error.inj ((hstage f).mpr hf)
        rfl
      · exact absurd hg (none g)
  | ok a =>
    have none (g : Error) : ¬ fault r g := fun hg => nomatch (hstage g).mpr hg
    change rest a = .error f ↔ _
    rw [hrest a rfl]
    constructor
    · exact fun hf => .inr ⟨none, hf⟩
    · rintro (hf | ⟨-, hf⟩)
      · exact absurd hf (none f)
      · exact hf

end

section

variable {name : String} {x : Operand} {y : Option Operand} {size : Option String} {f : Error}

theorem fault_name_iff : Mnemonic.parse name = .error f ↔ Fault name x y size .name f := by
  rw [Mnemonic.parse_eq_error_iff]
  constructor
  · rintro ⟨h, rfl⟩
    exact .name h
  · intro h
    cases h with
    | name h => exact ⟨h, rfl⟩

theorem fault_size_iff (standard : Designator) :
    (size.elim Size.omitted .text).resolve standard = .error f ↔ Fault name x y size .size f := by
  constructor
  · intro h
    cases size with
    | none => cases h
    | some s =>
      obtain ⟨g, -, rfl⟩ := mapError_eq_error_iff.mp h
      exact .size rfl h
  · intro h
    cases h with
    | size hs hg =>
      rw [hs]
      exact hg

theorem fault_first_iff (s : Slot) : x.read s = .error f ↔ Fault name x y size .first f := by
  rw [Operand.read_eq_error_iff, Operand.value_eq_error_iff]
  constructor
  · rintro ⟨s, g, hx, hg, rfl⟩
    exact .first hx hg
  · intro h
    cases h with
    | first hx hg => exact ⟨_, _, hx, hg, rfl⟩

theorem fault_missing_iff {op : BinaryOp} (hop : (Mnemonic.binary op).Spelled name) :
    Evaluator.requiredOperand op y = .error f ↔ Fault name x y size .missing f := by
  constructor
  · intro h
    cases y with
    | none =>
      obtain rfl := Except.error.inj h
      exact .missing hop rfl
    | some z => cases h
  · intro h
    cases h with
    | missing hop' hy =>
      obtain rfl := Mnemonic.binary.inj (hop.unique hop')
      rw [hy, Evaluator.requiredOperand]

theorem fault_second_iff {op : BinaryOp} (hop : (Mnemonic.binary op).Spelled name) {z : Operand} (hy : y = some z)
    (s : Slot) : z.read s = .error f ↔ Fault name x y size .second f := by
  rw [Operand.read_eq_error_iff, Operand.value_eq_error_iff]
  constructor
  · rintro ⟨s, g, rfl, hg, rfl⟩
    exact .second hop hy hg
  · intro h
    cases h with
    | second _ hy' hg => exact ⟨_, _, Option.some.inj (hy.symm.trans hy'), hg, rfl⟩

theorem not_fault_of_unary {op : UnaryOp} (hop : (Mnemonic.unary op).Spelled name) {r : Rule}
    (hr : r ∈ [Rule.missing, .second]) (g : Error) : ¬ Fault name x y size r g := by
  intro h
  cases h with
  | missing hop' _ => exact nomatch hop.unique hop'
  | second hop' _ _ => exact nomatch hop.unique hop'
  | _ => simp at hr

theorem trace_eq_error_iff (e : Evaluator) {m : Mnemonic} (hm : m.Spelled name) (d : Designator) :
    e.trace m x y d = .error f ↔ FirstFault (Fault name x y size) [.first, .missing, .second] f := by
  cases m with
  | unary op =>
    apply bind_eq_error_iff_firstFault fun g => fault_first_iff d.first
    intro a _
    have done : ¬ FirstFault (Fault name x y size) [.missing, .second] f :=
      not_firstFault fun r hr => not_fault_of_unary hm hr
    exact ⟨fun h => (nomatch h), fun h => absurd h done⟩
  | binary op =>
    apply bind_eq_error_iff_firstFault fun g => fault_first_iff d.first
    intro a _
    apply bind_eq_error_iff_firstFault fun g => fault_missing_iff hm
    intro z hz
    have hy : y = some z := by
      cases y with
      | none => cases hz
      | some z' => rw [Except.ok.inj hz]
    apply bind_eq_error_iff_firstFault fun g => fault_second_iff hm hy d.second
    intro b _
    exact ⟨fun h => (nomatch h), fun h => h.elim⟩

namespace Evaluator

theorem eval_eq_error_iff (e : Evaluator) :
    (e.eval name x y size).result = .error f ↔ FirstFault (Fault name x y size) Rule.all f := by
  rw [eval_eq_settle, Reply.settle_result_eq_error_iff]
  apply bind_eq_error_iff_firstFault fun g => fault_name_iff
  intro m hm
  apply bind_eq_error_iff_firstFault fun g => fault_size_iff e.standard
  intro d _
  exact trace_eq_error_iff e (Mnemonic.parse_eq_ok_iff.mp hm) d

theorem exists_eval_eq_ok_iff (e : Evaluator) :
    (∃ v, (e.eval name x y size).result = .ok v) ↔ ∀ r f, ¬ Fault name x y size r f := by
  have listed (r : Rule) : r ∈ Rule.all := by cases r <;> simp [Rule.all]
  have faulty : (∃ f, (e.eval name x y size).result = .error f) ↔ ∃ r f, Fault name x y size r f := by
    simp only [eval_eq_error_iff, exists_firstFault_iff, listed, true_and]
  constructor
  · rintro ⟨v, hv⟩ r f hf
    obtain ⟨g, hg⟩ := faulty.mpr ⟨r, f, hf⟩
    exact nomatch hv.symm.trans hg
  · intro sound
    cases hr : (e.eval name x y size).result with
    | ok v => exact ⟨v, rfl⟩
    | error f =>
      obtain ⟨r, g, hg⟩ := faulty.mp ⟨f, hr⟩
      exact absurd hg (sound r g)

theorem eval_unary_second (e : Evaluator) {op : UnaryOp} (hop : (Mnemonic.unary op).Spelled name) (z : Option Operand) :
    e.eval name x z size = e.eval name x y size := by
  rw [e.eval_spelled hop, e.eval_spelled hop]
  rfl

theorem eval_decided_by_first_fault (e : Evaluator) (name : String) (x : Operand) (y : Option Operand)
    (size : Option String) :
    (∀ f, (e.eval name x y size).result = .error f ↔ FirstFault (Fault name x y size) Rule.all f) ∧
    ((∃ v, (e.eval name x y size).result = .ok v) ↔ ∀ r f, ¬ Fault name x y size r f) ∧
    ∀ op : UnaryOp, (Mnemonic.unary op).Spelled name → ∀ z, e.eval name x z size = e.eval name x y size :=
  ⟨fun _ => e.eval_eq_error_iff, e.exists_eval_eq_ok_iff, fun _ hop z => e.eval_unary_second hop z⟩

theorem eval_decided_by_first_fault_negation :
    (Mnemonic.unary .neg).Spelled "NeG" ∧ Evaluator.eval .new "NeG" (.literal "0x10") none (some "W") =
      Evaluator.eval .new "NeG" (.literal "0x10") (some (.literal "0x")) (some "W") :=
  ⟨by rfl, (eval_decided_by_first_fault .new "NeG" (.literal "0x10") (some (.literal "0x")) (some "W")).2.2
    .neg (by rfl) none⟩

example : (Evaluator.eval .new "ADD" (.literal "0x") none (some "dx")).result =
    .error (.designator "dx" .unknownLetter) := by rfl

end Evaluator

end

end Subregister
