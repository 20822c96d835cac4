import Subregister.Proofs.Evaluation

namespace Subregister

inductive Instruction
  | binary (op : BinaryOp) (x y : Operand)
  | unary (op : UnaryOp) (x : Operand)

namespace Instruction

def mnemonic : Instruction → Mnemonic
  | binary op _ _ => .binary op
  | unary op _ => .unary op

def first : Instruction → Operand
  | binary _ x _ => x
  | unary _ x => x

/-- What may stand for the second operand where a call has room for one: anything, if the operation takes only one. -/
def Admits : Instruction → Option Operand → Prop
  | binary _ _ y, z => z = some y
  | unary _ _, _ => True

def call (size : Size) : Instruction → Call Operand
  | binary op x y => .binary op x y size
  | unary op x => .unary op x size

end Instruction

namespace Size

inductive Core
  | omitted
  | text (s : String)
  | slot (s : Slot)
  | slots (d : Designator)

def core : Size → Core
  | omitted => .omitted
  | text s => .text s
  | slot s => .slot s
  | slots d => .slots d
  | given size => size.core

namespace Core

def Means (standard d : Designator) : Core → Prop
  | omitted => d = standard
  | text s => Designator.parse s = .ok d
  | slot s => d = ⟨s, s⟩
  | slots c => d = c

def text? : Core → Option String
  | omitted => none
  | text s => some s
  | slot s => some (String.ofList [s.letter])
  | slots d => some d.text

end Core

theorem resolve_eq_ok_iff {size : Size} {standard d : Designator} :
    size.resolve standard = .ok d ↔ size.core.Means standard d := by
  induction size with
  | given size ih => exact ih
  | text s => exact Iff.rfl
  | _ => simp [resolve, core, Core.Means, Designator.uniform, eq_comm]

theorem resolve_eq_error_iff {size : Size} {standard : Designator} {f : Error} :
    size.resolve standard = .error f ↔ ∃ s, size.core = .text s ∧ Designator.parse s = .error f := by
  induction size with
  | given size ih => exact ih
  | text s => simp [resolve, core]
  | _ => simp [resolve, core]

theorem resolve_text? (size : Size) (standard : Designator) :
    (size.core.text?.elim omitted text).resolve standard = size.resolve standard := by
  induction size with
  | omitted => rfl
  | text s => rfl
  | slot s => exact Designator.parse_letter s
  | slots d => exact Designator.parse_text d
  | given size ih => exact ih

end Size

namespace Evaluator

theorem answer_call (e : Evaluator) {i : Instruction} {z : Option Operand} (hz : i.Admits z) (size : Size) :
    e.answer (i.call size) = e.resolve size >>= fun d => e.apply i.mnemonic i.first z d := by
  cases i with
  | binary op x y =>
    obtain rfl : z = some y := hz
    rfl
  | unary op x => rfl

theorem entry_points_agree (e : Evaluator) (i : Instruction) (size : Size) :
    (∀ d, size.resolve e.standard = .ok d ↔ size.core.Means e.standard d) ∧
    (∀ f, size.resolve e.standard = .error f ↔ ∃ s, size.core = .text s ∧ Designator.parse s = .error f) ∧
    ∀ z, i.Admits z →
      (∀ d, size.core.Means e.standard d → e.answer (i.call size) = e.answer (.apply i.mnemonic i.first z d)) ∧
      ∀ name, i.mnemonic.Spelled name →
        e.answer (i.call size) = e.answer (.eval name i.first z size.core.text?) := by
  refine ⟨fun d => Size.resolve_eq_ok_iff, fun f => Size.resolve_eq_error_iff, fun z hz => ⟨fun d hd => ?_, ?_⟩⟩
  · rw [e.answer_call hz, resolve, Size.resolve_eq_ok_iff.mpr hd]
    rfl
  · intro name hname
    rw [e.answer_call hz, answer, e.eval_spelled hname, resolve, resolve, Size.resolve_text?]

theorem entry_points_agree_negation_of_word :
    (Instruction.unary .neg (.literal "0x1_8000")).Admits (some (.literal "")) ∧
    (Size.given (.given (.slot .word))).core.Means .standard ⟨.word, .word⟩ ∧ (Mnemonic.unary .neg).Spelled "nEG" ∧
    Evaluator.answer .new (.unary .neg (.literal "0x1_8000") (.given (.given (.slot .word)))) =
      Evaluator.answer .new (.apply (.unary .neg) (.literal "0x1_8000") (some (.literal "")) ⟨.word, .word⟩) ∧
    Evaluator.answer .new (.unary .neg (.literal "0x1_8000") (.given (.given (.slot .word)))) =
      Evaluator.answer .new (.eval "nEG" (.literal "0x1_8000") (some (.literal "")) (some "w")) := by
  have h := (entry_points_agree .new (.unary .neg (.literal "0x1_8000")) (.given (.given (.slot .word)))).2.2
    (some (.literal "")) trivial
  exact ⟨trivial, rfl, by rfl, h.1 ⟨.word, .word⟩ rfl, h.2 "nEG" (by rfl)⟩

end Evaluator

end Subregister
