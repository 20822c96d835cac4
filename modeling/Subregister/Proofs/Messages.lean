import Subregister.Proofs.LiteralFaults
import Subregister.Proofs.Logging
import Subregister.Proofs.SizeLetters

/-!
Messages tell their errors apart, whatever texts they quote. No opening of a message begins with another, and no closing
ends in another, so that both are known from the whole and the quoted text is what stands between them.
-/

namespace Subregister

namespace Error

def opening : Error → String
  | literal _ _ => "invalid integer literal '"
  | designator _ _ => "invalid size designator '"
  | unsupported _ => "unsupported operation '"
  | missingOperand _ => "'"

def quoted : Error → String
  | literal text _ | designator text _ => text
  | unsupported mnemonic | missingOperand mnemonic => mnemonic

def closing : Error → String
  | literal _ fault => "': " ++ fault.reason
  | designator _ fault => "': " ++ fault.reason
  | unsupported _ => "'"
  | missingOperand _ => "' takes two operands, only one was given"

theorem message_eq (f : Error) : f.message = f.opening ++ f.quoted ++ f.closing := by
  cases f with
  | literal text fault => exact String.append_assoc
  | designator text fault => exact String.append_assoc
  | unsupported mnemonic | missingOperand mnemonic => rfl

def openings : List (List Char) :=
  ["invalid integer literal '", "invalid size designator '", "unsupported operation '", "'"].map String.toList

def closings : List (List Char) :=
  (Literal.Fault.all.map (fun g => "': " ++ g.reason) ++
    [Designator.Fault.empty, .tooLong, .unknownLetter].map (fun g => "': " ++ g.reason) ++
    ["'", "' takes two operands, only one was given"]).map String.toList

theorem opening_mem (f : Error) : f.opening.toList ∈ openings := by
  apply List.mem_map_of_mem
  cases f <;> simp [opening]

theorem closing_mem (f : Error) : f.closing.toList ∈ closings := by
  apply List.mem_map_of_mem
  rw [List.mem_append, List.mem_append]
  cases f with
  | literal text fault => exact .inl (.inl (List.mem_map_of_mem fault.mem_all))
  | designator text fault =>
    refine .inl (.inr (List.mem_map_of_mem ?_))
    cases fault <;> decide
  | unsupported mnemonic | missingOperand mnemonic => simp [closing]

theorem openings_apart : ∀ a ∈ openings, ∀ b ∈ openings, a <+: b → a = b := by
  decide +kernel

theorem closings_apart : ∀ a ∈ closings, ∀ b ∈ closings, a <:+ b → a = b := by
  decide +kernel

theorem opening_eq_of_message_eq {f g : Error} (h : f.message = g.message) : f.opening = g.opening := by
  have begins (f : Error) : f.opening.toList <+: f.message.toList := by
    rw [message_eq, String.toList_append, String.toList_append, List.append_assoc]
    exact List.prefix_append _ _
  have shared := begins f
  rw [h] at shared
  apply String.toList_inj.mp
  rcases List.prefix_or_prefix_of_prefix shared (begins g) with hp | hp
  · exact openings_apart _ f.opening_mem _ g.opening_mem hp
  · exact (openings_apart _ g.opening_mem _ f.opening_mem hp).symm

theorem closing_eq_of_message_eq {f g : Error} (h : f.message = g.message) : f.closing = g.closing := by
  have ends (f : Error) : f.closing.toList <:+ f.message.toList := by
    rw [message_eq, String.toList_append]
    exact List.suffix_append _ _
  have shared := ends f
  rw [h] at shared
  apply String.toList_inj.mp
  rcases List.suffix_or_suffix_of_suffix shared (ends g) with hs | hs
  · exact closings_apart _ f.closing_mem _ g.closing_mem hs
  · exact (closings_apart _ g.closing_mem _ f.closing_mem hs).symm

theorem eq_of_parts {f g : Error} (ho : f.opening = g.opening) (hq : f.quoted = g.quoted)
    (hc : f.closing = g.closing) : f = g := by
  cases f <;> cases g <;> simp only [opening, quoted, closing] at ho hq hc
  case literal.literal =>
    obtain rfl := Literal.Fault.reason_injective ((String.append_right_inj _).mp hc)
    exact hq ▸ rfl
  case designator.designator =>
    obtain rfl := Designator.Fault.reason_injective ((String.append_right_inj _).mp hc)
    exact hq ▸ rfl
  case unsupported.unsupported => exact hq ▸ rfl
  case missingOperand.missingOperand => exact hq ▸ rfl
  all_goals exact absurd ho (by decide)

theorem message_injective : Function.Injective message := by
  intro f g h
  have ho := opening_eq_of_message_eq h
  have hc := closing_eq_of_message_eq h
  rw [message_eq, message_eq, ho, hc, String.append_left_inj, String.append_right_inj] at h
  exact eq_of_parts ho h hc

end Error

namespace Evaluator

theorem lines_of_error {e : Evaluator} {c : Call Operand} {f : Error} (h : (e.answer c).result = .error f) :
    (e.answer c).log.map Record.line = ["DEBUG rejected: " ++ f.message] := by
  rw [log_of_error h]
  exact congrArg (· :: []) String.append_assoc.symm

theorem messages_tell_errors (f g : Error) :
    (f.message = g.message ↔ f = g) ∧
    ∀ (e e' : Evaluator) (c c' : Call Operand), (e.answer c).result = .error f → (e'.answer c').result = .error g →
      ((e.answer c).log.map Record.line = (e'.answer c').log.map Record.line ↔ f = g) := by
  refine ⟨Error.message_injective.eq_iff, fun e e' c c' hf hg => ?_⟩
  rw [lines_of_error hf, lines_of_error hg, List.singleton_inj, String.append_right_inj]
  exact Error.message_injective.eq_iff

theorem messages_tell_errors_of_imitation :
    let f := Error.literal "1': missing digits" (.badDigit .decimal)
    let g := Error.literal "1" .noDigits
    let h := Error.designator "1': missing digits" .tooLong
    let read : Call Operand := .highByte (.literal "1': missing digits")
    let negate : Call Operand := .unary .neg (.ofInt 1) (.text "1': missing digits")
    f.message = "invalid integer literal '1': missing digits': invalid decimal digit" ∧
    g.message = "invalid integer literal '1': missing digits" ∧ (f.message = g.message ↔ f = g) ∧
    (new.answer read).result = .error f ∧ (new.answer negate).result = .error h ∧
    ((new.answer read).log.map Record.line = (new.answer negate).log.map Record.line ↔ f = h) := by
  intro f g h read negate
  have hf : (new.answer (.highByte (.literal "1': missing digits"))).result =
    .error (.literal "1': missing digits" (.badDigit .decimal)) := by rfl
  have hh : (new.answer (.unary .neg (.ofInt 1) (.text "1': missing digits"))).result =
    .error (.designator "1': missing digits" .tooLong) := by rfl
  exact ⟨by rfl, by rfl, (messages_tell_errors f g).1, hf, hh, (messages_tell_errors f h).2 .new .new read negate hf hh⟩

end Evaluator

end Subregister
