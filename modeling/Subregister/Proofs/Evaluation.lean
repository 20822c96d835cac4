import Subregister.Evaluator

namespace Subregister

def Reply.settle : Except Error Trace → Reply UInt64
  | .ok t => ⟨.ok t.result, [.computed t]⟩
  | .error f => ⟨.error f, [.rejected f]⟩

theorem Reply.settle_result_eq_error_iff {t : Except Error Trace} {f : Error} :
    (settle t).result = .error f ↔ t = .error f := by
  cases t <;> simp [settle]

theorem Reply.result_bind {α β : Type} {r : Reply α} {a : α} (h : r.result = .ok a) (f : α → Reply β) :
    (r >>= f).result = (f a).result := by
  obtain ⟨result, log⟩ := r
  obtain rfl : result = .ok a := h
  rfl

theorem Reply.ofExcept_result {α : Type} (r : Except Error α) : (ofExcept r).result = r := by
  cases r with
  | ok a => rfl
  | error f => rfl

structure Request where
  mnemonic : Mnemonic
  first : Operand
  second : Option Operand
  slots : Designator

def Request.fields (q : Request) : Except Error (List UInt64) :=
  match q.mnemonic with
  | .unary _ => do return [← q.first.read q.slots.first]
  | .binary op => do
    let a ← q.first.read q.slots.first
    let b ← (← Evaluator.requiredOperand op q.second).read q.slots.second
    return [a, b]

def Call.request (standard : Designator) : Call Operand → Option (Except Error Request)
  | binary op x y size => some ((size.resolve standard).map fun d => ⟨.binary op, x, some y, d⟩)
  | unary op x size => some ((size.resolve standard).map fun d => ⟨.unary op, x, none, d⟩)
  | eval name x y size => some do
    let m ← Mnemonic.parse name
    let d ← (size.elim Size.omitted .text).resolve standard
    return ⟨m, x, y, d⟩
  | apply m x y d => some (.ok ⟨m, x, y, d⟩)
  | highByte _ | format _ _ => none

/-- The operands that an operation needs have the values `u` and `v`. Nothing is asked of a second one that is not
needed. -/
structure Operand.Valued (m : Mnemonic) (x : Operand) (y : Option Operand) (u v : UInt64) : Prop where
  first : x.value = .ok u
  second : m.isUnary = false → ∃ z, y = some z ∧ z.value = .ok v

theorem Operand.read_eq_ok_iff {x : Operand} {s : Slot} {a : UInt64} :
    x.read s = .ok a ↔ ∃ u, x.value = .ok u ∧ a = s.read u := by
  rw [read]
  cases x.value with
  | ok u => simp [Except.map, eq_comm]
  | error f => simp [Except.map]

theorem mapError_eq_error_iff {α ε : Type} {r : Except ε α} {g : ε → Error} {f : Error} :
    r.mapError g = .error f ↔ ∃ e, r = .error e ∧ g e = f := by
  constructor
  · intro h
    cases r with
    | ok a => cases h
    | error e => exact ⟨e, rfl, Except.error.inj h⟩
  · rintro ⟨e, rfl, rfl⟩
    rfl

theorem Operand.value_eq_error_iff {x : Operand} {f : Error} : x.value = .error f ↔
    ∃ s g, x = .literal s ∧ Literal.parse s = .error (.literal s g) ∧ f = .literal s g := by
  cases x with
  | integer bits => simp [value]
  | bytes data => simp [value]
  | literal s =>
    rw [value]
    constructor
    · intro h
      obtain ⟨g, -, rfl⟩ := mapError_eq_error_iff.mp h
      exact ⟨s, g, rfl, h, rfl⟩
    · rintro ⟨t, g, ht, hg, rfl⟩
      obtain rfl := Operand.literal.inj ht
      exact hg

theorem Operand.read_eq_error_iff {x : Operand} {s : Slot} {f : Error} : x.read s = .error f ↔ x.value = .error f := by
  rw [read]
  cases x.value <;> simp [Except.map]

theorem Operand.Valued.read_first {m : Mnemonic} {x : Operand} {y : Option Operand} {u v : UInt64}
    (h : Valued m x y u v) (s : Slot) : x.read s = .ok (s.read u) :=
  read_eq_ok_iff.mpr ⟨u, h.first, rfl⟩

theorem Operand.Valued.read_second {m : Mnemonic} {x : Operand} {y : Option Operand} {u v : UInt64}
    (h : Valued m x y u v) (hm : m.isUnary = false) (s : Slot) :
    ∃ z, y = some z ∧ z.read s = .ok (s.read v) := by
  obtain ⟨z, hy, hz⟩ := h.second hm
  exact ⟨z, hy, read_eq_ok_iff.mpr ⟨v, hz, rfl⟩⟩

namespace Evaluator

def computed (e : Evaluator) (m : Mnemonic) (d : Designator) (a b : UInt64) : Trace :=
  match m with
  | .unary op => .unary op a d (op.apply a d.destination)
  | .binary op => .binary op a b d (op.apply a b d.destination e.policy)

theorem computed_result (e : Evaluator) (m : Mnemonic) (d : Designator) (a b : UInt64) :
    (e.computed m d a b).result = m.apply a b d.destination e.policy := by
  cases m <;> rfl

theorem trace_of_valued (e : Evaluator) {m : Mnemonic} {x : Operand} {y : Option Operand} (d : Designator)
    {u v : UInt64} (h : Operand.Valued m x y u v) :
    e.trace m x y d = .ok (e.computed m d (d.first.read u) (d.second.read v)) := by
  have hx := h.read_first d.first
  cases m with
  | unary op =>
    rw [trace, hx]
    rfl
  | binary op =>
    obtain ⟨z, rfl, hy⟩ := h.read_second rfl d.second
    rw [trace, hx]
    change (z.read d.second >>= _) = _
    rw [hy]
    rfl

theorem exists_valued_of_trace {e : Evaluator} {m : Mnemonic} {x : Operand} {y : Option Operand} {d : Designator}
    {t : Trace} (h : e.trace m x y d = .ok t) : ∃ u v, Operand.Valued m x y u v := by
  cases hx : x.value with
  | error f =>
    cases m
    all_goals
      rw [trace, Operand.read, hx] at h
      cases h
  | ok u =>
    cases m with
    | unary op => exact ⟨u, 0, hx, fun hm => nomatch hm⟩
    | binary op =>
      rw [trace, Operand.read, hx] at h
      cases y with
      | none => cases h
      | some z =>
        cases hz : z.value with
        | ok v => exact ⟨u, v, hx, fun _ => ⟨z, rfl, hz⟩⟩
        | error f =>
          change ((z.value.map d.second.read) >>= _) = _ at h
          rw [hz] at h
          cases h

theorem trace_eq_ok_iff {e : Evaluator} {m : Mnemonic} {x : Operand} {y : Option Operand} {d : Designator}
    {t : Trace} : e.trace m x y d = .ok t ↔
      ∃ u v, Operand.Valued m x y u v ∧ t = e.computed m d (d.first.read u) (d.second.read v) := by
  constructor
  · intro h
    obtain ⟨u, v, hv⟩ := exists_valued_of_trace h
    rw [e.trace_of_valued d hv] at h
    exact ⟨u, v, hv, (Except.ok.inj h).symm⟩
  · rintro ⟨u, v, hv, rfl⟩
    exact e.trace_of_valued d hv

theorem trace_binary (e : Evaluator) (op : BinaryOp) (x : Operand) (y : Option Operand) (d : Designator) :
    e.trace (.binary op) x y d = (do
      let a ← x.read d.first
      let b ← (y.map (·.read d.second)).getD (.error (.missingOperand op.name))
      return .binary op a b d (op.apply a b d.destination e.policy)) := by
  cases y <;> rfl

theorem apply_eq_of_reads (e : Evaluator) (m : Mnemonic) {x x' : Operand} {y y' : Option Operand} {d : Designator}
    (hx : x.read d.first = x'.read d.first) (hy : y.map (·.read d.second) = y'.map (·.read d.second)) :
    e.apply m x y d = e.apply m x' y' d := by
  have same : e.trace m x y d = e.trace m x' y' d := by
    cases m with
    | unary op => rw [trace, trace, hx]
    | binary op => rw [trace_binary, trace_binary, hx, hy]
  rw [apply, apply, same]

def perform (e : Evaluator) (q : Request) : Except Error Trace :=
  e.trace q.mnemonic q.first q.second q.slots

theorem perform_eq_map_fields (e : Evaluator) (q : Request) : e.perform q =
    q.fields.map fun fields => e.computed q.mnemonic q.slots (fields.getD 0 0) (fields.getD 1 0) := by
  obtain ⟨m, x, y, d⟩ := q
  cases m with
  | unary op =>
    simp only [perform, trace, Request.fields]
    cases x.read d.first <;> rfl
  | binary op =>
    simp only [perform, trace, Request.fields]
    cases x.read d.first with
    | error f => rfl
    | ok a =>
      cases y with
      | none => rfl
      | some z =>
        change (z.read d.second >>= _) = Except.map _ (z.read d.second >>= _)
        cases z.read d.second <;> rfl

theorem ofExcept_bind {α : Type} (r : Except Error α) (f : α → Reply UInt64) (g : α → Except Error Trace)
    (h : ∀ a, f a = Reply.settle (g a)) : Reply.ofExcept r >>= f = Reply.settle (r >>= g) := by
  cases r with
  | ok a => exact h a
  | error f => rfl

theorem apply_eq_settle (e : Evaluator) (m : Mnemonic) (x : Operand) (y : Option Operand) (d : Designator) :
    e.apply m x y d = Reply.settle (e.trace m x y d) := by
  rw [apply]
  cases e.trace m x y d with
  | ok t => rfl
  | error f => rfl

theorem eval_spelled (e : Evaluator) {m : Mnemonic} {name : String} (hm : m.Spelled name) (x : Operand)
    (y : Option Operand) (size : Option String) : e.eval name x y size =
      e.resolve (size.elim .omitted .text) >>= fun d => e.apply m x y d := by
  rw [eval, Mnemonic.parse_eq_ok_iff.mpr hm]
  rfl

theorem eval_eq_settle (e : Evaluator) (name : String) (x : Operand) (y : Option Operand) (size : Option String) :
    e.eval name x y size = Reply.settle (Mnemonic.parse name >>= fun m =>
      (size.elim Size.omitted .text).resolve e.standard >>= fun d => e.trace m x y d) := by
  apply ofExcept_bind
  intro m
  exact ofExcept_bind _ _ _ (e.apply_eq_settle m x y)

theorem resolve_bind_apply (e : Evaluator) (m : Mnemonic) (x : Operand) (y : Option Operand) (size : Size) :
    (e.resolve size >>= fun d => e.apply m x y d) =
      Reply.settle (((size.resolve e.standard).map fun d => ⟨m, x, y, d⟩) >>= e.perform) := by
  have hd := ofExcept_bind (size.resolve e.standard) _ _ (e.apply_eq_settle m x y)
  rw [resolve, hd]
  cases size.resolve e.standard with
  | ok d => rfl
  | error f => rfl

theorem answer_eq_settle {e : Evaluator} {c : Call Operand} {q : Except Error Request}
    (h : c.request e.standard = some q) : e.answer c = Reply.settle (q >>= e.perform) := by
  cases c with
  | binary op x y size =>
    obtain rfl := Option.some.inj h
    exact e.resolve_bind_apply (.binary op) x (some y) size
  | unary op x size =>
    obtain rfl := Option.some.inj h
    exact e.resolve_bind_apply (.unary op) x none size
  | eval name x y size =>
    obtain rfl := Option.some.inj h
    rw [answer, eval]
    cases Mnemonic.parse name with
    | ok m => exact e.resolve_bind_apply m x y (size.elim .omitted .text)
    | error f => rfl
  | apply m x y d =>
    obtain rfl := Option.some.inj h
    exact e.apply_eq_settle m x y d
  | highByte x => cases h
  | format x mode => cases h

theorem highByte_eq_ofExcept (x : Operand) : highByte x = Reply.ofExcept (x.value.map Slot.raise) := by
  rw [highByte]
  cases x.value with
  | ok v => rfl
  | error f => rfl

theorem format_eq_ofExcept (x : Operand) (mode : String) :
    format x mode = Reply.ofExcept (Slot.parse mode >>= fun s => x.value.map s.read) := by
  rw [format]
  cases Slot.parse mode with
  | error f => rfl
  | ok s =>
    cases x.value with
    | ok v => rfl
    | error f => rfl

theorem exists_answer_eq_ofExcept {e : Evaluator} {c : Call Operand} (h : c.request e.standard = none) :
    ∃ r, e.answer c = Reply.ofExcept r := by
  cases c with
  | highByte x => exact ⟨_, highByte_eq_ofExcept x⟩
  | format x mode => exact ⟨_, format_eq_ofExcept x mode⟩
  | binary | unary | eval | apply => cases h

theorem exists_computed_of_result {e : Evaluator} {c : Call Operand} {r : UInt64} (hc : c.request e.standard ≠ none)
    (hr : (e.answer c).result = .ok r) : ∃ q u v, c.request e.standard = some (.ok q) ∧
      Operand.Valued q.mnemonic q.first q.second u v ∧ e.answer c =
        Reply.settle (.ok (e.computed q.mnemonic q.slots (q.slots.first.read u) (q.slots.second.read v))) := by
  obtain ⟨q, hq⟩ := Option.ne_none_iff_exists'.mp hc
  rw [answer_eq_settle hq] at hr ⊢
  cases q with
  | error f => cases hr
  | ok q =>
    change (Reply.settle (e.perform q)).result = _ at hr
    change ∃ q' u v, _ ∧ _ ∧ Reply.settle (e.perform q) = _
    cases ht : e.perform q with
    | error f =>
      rw [ht] at hr
      cases hr
    | ok t =>
      obtain ⟨u, v, hv, rfl⟩ := trace_eq_ok_iff.mp ht
      exact ⟨q, u, v, hq, hv, rfl⟩

end Evaluator

end Subregister
