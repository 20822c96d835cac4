import Subregister.Proofs.Evaluation
import Subregister.Proofs.Transcript

namespace Subregister

namespace Trace

theorem exists_text_eq (t : Trace) : ∃ head, t.text = head ++ " = " ++ number t.result := by
  have closing : "] = " = "]" ++ " = " := rfl
  cases t with
  | binary op x y d r =>
    refine ⟨op.name ++ " " ++ number x ++ ", " ++ number y ++ " [" ++ d.text ++ "]", ?_⟩
    simp only [text, result, closing, String.append_assoc]
  | unary op x d r =>
    refine ⟨op.name ++ " " ++ number x ++ " [" ++ d.text ++ "]", ?_⟩
    simp only [text, result, closing, String.append_assoc]

end Trace

namespace Record

def Rejects (r : Record) (f : Error) : Prop :=
  r.level = "DEBUG" ∧ r.text = "rejected: " ++ f.message

/-- What stands behind the last equals sign is read as `v`. -/
def Shows (r : Record) (v : UInt64) : Prop :=
  r.level = "TRACE" ∧
    ∃ head tail, r.text = head ++ " = " ++ tail ∧ '=' ∉ tail.toList ∧ Literal.parse tail = .ok v

theorem rejects_rejected (f : Error) : (rejected f).Rejects f :=
  ⟨rfl, rfl⟩

theorem shows_computed (t : Trace) : (computed t).Shows t.result := by
  obtain ⟨head, h⟩ := t.exists_text_eq
  exact ⟨rfl, head, _, h, Trace.equals_not_mem_number _, Trace.parse_number _⟩

end Record

def Reply.Leaves {α : Type} (kept : α → List Record → Prop) (r : Reply α) : Prop :=
  match r.result with
  | .ok a => kept a r.log
  | .error f => ∃ record, r.log = [record] ∧ record.Rejects f

def Call.kept : Call Operand → UInt64 → List Record → Prop
  | highByte _, _, log | format _ _, _, log => log = []
  | _, v, log => ∃ record, log = [record] ∧ record.Shows v

namespace Reply

theorem log_ofExcept_of_ok {α : Type} {r : Except Error α} {a : α} (h : (ofExcept r).result = .ok a) :
    (ofExcept r).log = [] := by
  rw [ofExcept_result] at h
  rw [h]
  rfl

theorem log_ofExcept_of_error {α : Type} {r : Except Error α} {f : Error} (h : (ofExcept r).result = .error f) :
    (ofExcept r).log = [.rejected f] := by
  rw [ofExcept_result] at h
  rw [h]
  rfl

theorem log_settle_of_ok {t : Except Error Trace} {v : UInt64} (h : (settle t).result = .ok v) :
    ∃ record, (settle t).log = [record] ∧ record.Shows v := by
  cases t with
  | ok t =>
    obtain rfl := Except.ok.inj h
    exact ⟨_, rfl, Record.shows_computed t⟩
  | error f => cases h

theorem log_settle_of_error {t : Except Error Trace} {f : Error} (h : (settle t).result = .error f) :
    (settle t).log = [.rejected f] := by
  obtain rfl := settle_result_eq_error_iff.mp h
  rfl

end Reply

namespace Evaluator

variable {e : Evaluator} {c : Call Operand}

theorem log_of_error {f : Error} (h : (e.answer c).result = .error f) : (e.answer c).log = [.rejected f] := by
  cases hq : c.request e.standard with
  | none =>
    obtain ⟨r, hr⟩ := exists_answer_eq_ofExcept hq
    rw [hr] at h ⊢
    exact Reply.log_ofExcept_of_error h
  | some q =>
    rw [answer_eq_settle hq] at h ⊢
    exact Reply.log_settle_of_error h

theorem kept_of_ok {v : UInt64} (h : (e.answer c).result = .ok v) : c.kept v (e.answer c).log := by
  cases c with
  | binary | unary | eval | apply =>
    rw [answer_eq_settle rfl] at h ⊢
    exact Reply.log_settle_of_ok h
  | highByte x =>
    rw [answer, highByte_eq_ofExcept] at h ⊢
    exact Reply.log_ofExcept_of_ok h
  | format x mode =>
    rw [answer, format_eq_ofExcept] at h ⊢
    exact Reply.log_ofExcept_of_ok h

theorem answer_leaves_its_records (e : Evaluator) (c : Call Operand) : (e.answer c).Leaves c.kept := by
  unfold Reply.Leaves
  cases hr : (e.answer c).result with
  | ok v => exact kept_of_ok hr
  | error f => exact ⟨_, log_of_error hr, Record.rejects_rejected f⟩

end Evaluator

end Subregister
