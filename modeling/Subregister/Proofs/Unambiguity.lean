import Subregister.Stored
import Subregister.Proofs.JsonWriting
import Subregister.Proofs.LiteralFaults
import Subregister.Proofs.SizeLetters

namespace Subregister

open Json

namespace Json

theorem record_injective : Function.Injective record := by
  have members : Function.Injective fun m : String × Json => (Symbol.ofString m.1, m.2) := by
    intro m n h
    obtain ⟨name, value⟩ := Prod.mk.inj h
    exact Prod.ext (Symbol.ofString_injective name) value
  intro ms ns h
  exact members.list_map (object.inj h)

def tagged (name : String) (v : Json) : Json :=
  record [(name, v)]

theorem legible_tagged (name : String) {v : Json} (h : v.Legible) : (tagged name v).Legible :=
  legible_record (List.forall_mem_singleton.mpr h)

theorem tagged_inj {k l : String} {v w : Json} : tagged k v = tagged l w ↔ k = l ∧ v = w := by
  simp [tagged, record_injective.eq_iff]

def texts (fields : List (String × String)) : Json :=
  record (fields.map fun f => (f.1, ofString f.2))

theorem legible_texts (fields : List (String × String)) : (texts fields).Legible := by
  refine legible_record (List.forall_mem_map.mpr ?_)
  exact fun f _ => legible_ofString f.2

theorem texts_injective : Function.Injective texts := by
  have fields : Function.Injective fun f : String × String => (f.1, ofString f.2) := by
    intro f g h
    obtain ⟨name, text⟩ := Prod.mk.inj h
    exact Prod.ext name (ofString_injective text)
  exact record_injective.comp fields.list_map

end Json

namespace Operand

def variant : Operand → String
  | integer _ => "Integer"
  | literal _ => "Numeric"
  | bytes _ => "Bytes"

def content : Operand → Json
  | integer bits => .ofInt bits.toInt
  | literal text => .ofString text
  | bytes data => .array (data.map fun b => .ofInt b.toNat)

theorem toJson_eq (x : Operand) : x.toJson = .tagged x.variant x.content := by
  cases x <;> rfl

theorem legible_content (x : Operand) : x.content.Legible := by
  cases x with
  | integer bits => exact legible_ofInt _
  | literal text => exact legible_ofString text
  | bytes data => exact legible_array (List.forall_mem_map.mpr fun b _ => legible_ofInt _)

theorem legible_toJson (x : Operand) : x.toJson.Legible :=
  x.toJson_eq ▸ legible_tagged _ x.legible_content

theorem toJson_injective : Function.Injective toJson := by
  intro x y h
  rw [toJson_eq, toJson_eq, tagged_inj] at h
  obtain ⟨name, content⟩ := h
  cases x with
  | integer a =>
    cases y with
    | integer b => rw [BitVec.toInt_inj.mp (ofInt_injective content)]
    | literal t | bytes t => exact absurd name (by simp [variant])
  | literal s =>
    cases y with
    | literal t => rw [ofString_injective content]
    | integer t | bytes t => exact absurd name (by simp [variant])
  | bytes a =>
    cases y with
    | bytes b =>
      have bytes : Function.Injective fun b : UInt8 => Json.ofInt b.toNat := fun _ _ h =>
        UInt8.toNat_inj.mp (Int.ofNat.inj (ofInt_injective h))
      rw [bytes.list_map (array.inj content)]
    | integer b | literal b => exact absurd name (by simp [variant])

theorem toJson_text_injective : Function.Injective fun x : Operand => x.toJson.text :=
  fun x y h => toJson_injective (x.legible_toJson.text_injective y.legible_toJson h)

end Operand

inductive Refusal
  | parse (literal reason : String)
  | invalidSize (designator reason : String)
  | unsupportedOperation (mnemonic : String)
  | missingOperand (mnemonic : String)
  deriving DecidableEq

namespace Refusal

def variant : Refusal → String
  | parse _ _ => "Parse"
  | invalidSize _ _ => "InvalidSize"
  | unsupportedOperation _ => "UnsupportedOperation"
  | missingOperand _ => "MissingOperand"

def fields : Refusal → List (String × String)
  | parse literal reason => [("literal", literal), ("reason", reason)]
  | invalidSize designator reason => [("designator", designator), ("reason", reason)]
  | unsupportedOperation mnemonic | missingOperand mnemonic => [("mnemonic", mnemonic)]

def toJson (r : Refusal) : Json :=
  .tagged r.variant (.texts r.fields)

theorem toJson_injective : Function.Injective toJson := by
  intro r q h
  obtain ⟨name, texts⟩ := tagged_inj.mp h
  have fields : r.fields = q.fields := texts_injective texts
  cases r with
  | parse text reason =>
    cases q with
    | parse => cases fields; rfl
    | invalidSize | unsupportedOperation | missingOperand => exact absurd name (by simp [variant])
  | invalidSize text reason =>
    cases q with
    | invalidSize => cases fields; rfl
    | parse | unsupportedOperation | missingOperand => exact absurd name (by simp [variant])
  | unsupportedOperation mnemonic =>
    cases q with
    | unsupportedOperation => cases fields; rfl
    | parse | invalidSize | missingOperand => exact absurd name (by simp [variant])
  | missingOperand mnemonic =>
    cases q with
    | missingOperand => cases fields; rfl
    | parse | invalidSize | unsupportedOperation => exact absurd name (by simp [variant])

theorem toJson_text_injective : Function.Injective fun r : Refusal => r.toJson.text := by
  have legible (r : Refusal) : r.toJson.Legible := legible_tagged _ (legible_texts _)
  exact fun r q h => toJson_injective ((legible r).text_injective (legible q) h)

end Refusal

namespace Error

def refusal : Error → Refusal
  | literal text fault => .parse text fault.reason
  | designator text fault => .invalidSize text fault.reason
  | unsupported mnemonic => .unsupportedOperation mnemonic
  | missingOperand mnemonic => .missingOperand mnemonic

theorem toJson_refusal (f : Error) : f.refusal.toJson = f.toJson := by
  cases f <;> rfl

theorem refusal_injective : Function.Injective refusal := by
  intro f g h
  cases f with
  | literal s fault =>
    cases g with
    | literal t fault' =>
      obtain ⟨rfl, reason⟩ := Refusal.parse.inj h
      rw [Literal.Fault.reason_injective reason]
    | designator | unsupported | missingOperand => cases h
  | designator s fault =>
    cases g with
    | designator t fault' =>
      obtain ⟨rfl, reason⟩ := Refusal.invalidSize.inj h
      rw [Designator.Fault.reason_injective reason]
    | literal | unsupported | missingOperand => cases h
  | unsupported s =>
    cases g with
    | unsupported t => rw [Refusal.unsupportedOperation.inj h]
    | literal | designator | missingOperand => cases h
  | missingOperand s =>
    cases g with
    | missingOperand t => rw [Refusal.missingOperand.inj h]
    | literal | designator | unsupported => cases h

theorem toJson_text_injective : Function.Injective fun f : Error => f.toJson.text := by
  simp only [← toJson_refusal]
  exact Refusal.toJson_text_injective.comp refusal_injective

end Error

theorem json_tells_operands_and_errors :
    (∀ x y : Operand, x.toJson.text = y.toJson.text ↔ x = y) ∧
    (∀ r q : Refusal, r.toJson.text = q.toJson.text ↔ r = q) ∧
    (∀ f : Error, f.refusal.toJson = f.toJson) ∧
    ∀ f g : Error, f.toJson.text = g.toJson.text ↔ f = g :=
  ⟨fun _ _ => Operand.toJson_text_injective.eq_iff, fun _ _ => Refusal.toJson_text_injective.eq_iff,
    Error.toJson_refusal, fun _ _ => Error.toJson_text_injective.eq_iff⟩

example : (Operand.ofInt 65).toJson.text = "\x7b\"Integer\":65\x7d" ∧
    (Operand.literal "65").toJson.text = "\x7b\"Numeric\":\"65\"\x7d" ∧
    (Operand.bytes [54, 53]).toJson.text = "\x7b\"Bytes\":[54,53]\x7d" :=
  ⟨by rfl, by rfl, by rfl⟩

end Subregister
