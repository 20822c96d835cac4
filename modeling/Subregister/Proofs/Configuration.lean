import Subregister.Proofs.EntryPoints
import Subregister.Proofs.Rotation

namespace Subregister

namespace Call

def AsksFor {α : Type} (m : Mnemonic) : Call α → Prop
  | binary op _ _ _ => m = .binary op
  | unary op _ _ => m = .unary op
  | eval name _ _ _ => m.Spelled name
  | apply n _ _ _ => m = n
  | highByte _ | format _ _ => False

def NamesSize {α : Type} : Call α → Prop
  | binary _ _ _ size | unary _ _ size => size.core ≠ .omitted
  | eval _ _ _ size => size ≠ none
  | apply _ _ _ _ | highByte _ | format _ _ => True

end Call

namespace CountPolicy

theorem effective_mod_bits (p : CountPolicy) (c : UInt64) (w : Width) :
    p.effective c w % UInt64.ofNat w.bits = c % UInt64.ofNat w.bits := by
  apply UInt64.toNat_inj.mp
  rw [Width.toNat_mod_bits, Width.toNat_mod_bits]
  cases p with
  | hardware =>
    rw [hardware_toNat]
    cases w with
    | qword => exact Nat.mod_mod _ _
    | byte | word => exact Nat.mod_mod_of_dvd _ (by decide)
    | dword => exact Nat.mod_mod _ _
  | modulo => rw [modulo_toNat, Nat.mod_mod]
  | unbounded => rfl

theorem effective_of_lt (p : CountPolicy) {c : UInt64} {w : Width} (hc : c.toNat < w.bits) : p.effective c w = c := by
  apply UInt64.toNat_inj.mp
  cases p with
  | hardware =>
    rw [hardware_toNat]
    cases w with
    | qword => exact Nat.mod_eq_of_lt hc
    | byte | word | dword => exact Nat.mod_eq_of_lt (Nat.lt_of_lt_of_le hc (by decide))
  | modulo => rw [modulo_toNat, Nat.mod_eq_of_lt hc]
  | unbounded => rfl

end CountPolicy

namespace BinaryOp

theorem apply_policy (op : BinaryOp) (hl : op ≠ shl) (hr : op ≠ shr) (x y : UInt64) (w : Width)
    (p q : CountPolicy) : op.apply x y w p = op.apply x y w q := by
  have counts : p.effective y w % UInt64.ofNat w.bits = q.effective y w % UInt64.ofNat w.bits :=
    (p.effective_mod_bits y w).trans (q.effective_mod_bits y w).symm
  rw [apply, apply]
  cases op with
  | shl => exact absurd rfl hl
  | shr => exact absurd rfl hr
  | rol => rw [compute, compute, Width.rotateLeft, Width.rotateLeft, counts]
  | ror => rw [compute, compute, Width.rotateRight, Width.rotateRight, counts]
  | add | sub | and | or | xor => rfl

theorem apply_policy_of_lt (op : BinaryOp) (x : UInt64) {y : UInt64} {w : Width} (hy : y.toNat < w.bits)
    (p q : CountPolicy) : op.apply x y w p = op.apply x y w q := by
  have counts : p.effective y w = q.effective y w := (p.effective_of_lt hy).trans (q.effective_of_lt hy).symm
  cases op with
  | shl | shr | rol | ror => rw [apply, apply, compute, compute, counts]
  | add | sub | and | or | xor => rfl

end BinaryOp

section

variable {ε α β : Type} {r : Except ε α} {b : β}

theorem exists_of_map_eq_ok {g : α → β} (h : r.map g = .ok b) : ∃ a, r = .ok a ∧ g a = b := by
  cases r with
  | ok a => exact ⟨a, rfl, Except.ok.inj h⟩
  | error f => cases h

theorem exists_of_bind_eq_ok {g : α → Except ε β} (h : r >>= g = .ok b) : ∃ a, r = .ok a ∧ g a = .ok b := by
  cases r with
  | ok a => exact ⟨a, rfl, h⟩
  | error f => cases h

end

theorem Size.resolve_of_core_ne {size : Size} (h : size.core ≠ .omitted) (standard standard' : Designator) :
    size.resolve standard = size.resolve standard' := by
  induction size with
  | omitted => exact absurd rfl h
  | text s => rfl
  | slot s => rfl
  | slots d => rfl
  | given size ih => exact ih h

theorem Call.request_of_namesSize {c : Call Operand} (h : c.NamesSize) (standard standard' : Designator) :
    c.request standard = c.request standard' := by
  cases c with
  | binary op x y size => rw [request, request, Size.resolve_of_core_ne h standard standard']
  | unary op x size => rw [request, request, Size.resolve_of_core_ne h standard standard']
  | eval name x y size =>
    cases size with
    | none => exact absurd rfl h
    | some s => rfl
  | apply m x y d => rfl
  | highByte x => rfl
  | format x mode => rfl

theorem Call.asksFor_of_request {c : Call Operand} {standard : Designator} {q : Request}
    (h : c.request standard = some (.ok q)) : c.AsksFor q.mnemonic := by
  cases c with
  | binary op x y size =>
    obtain ⟨d, -, rfl⟩ := exists_of_map_eq_ok (Option.some.inj h)
    rfl
  | unary op x size =>
    obtain ⟨d, -, rfl⟩ := exists_of_map_eq_ok (Option.some.inj h)
    rfl
  | eval name x y size =>
    obtain ⟨m, hm, h⟩ := exists_of_bind_eq_ok (Option.some.inj h)
    obtain ⟨d, -, rfl⟩ := exists_of_map_eq_ok h
    exact Mnemonic.parse_eq_ok_iff.mp hm
  | apply m x y d =>
    cases h
    rfl
  | highByte x => cases h
  | format x mode => cases h

namespace Request

theorem second_of_fields {q : Request} {as : List UInt64} (hq : q.mnemonic.isUnary = false) (h : q.fields = .ok as) :
    ∃ y, q.second = some y ∧ y.read q.slots.second = .ok (as.getD 1 0) := by
  obtain ⟨m, x, y, d⟩ := q
  cases m with
  | unary op => cases hq
  | binary op =>
    obtain ⟨a, -, h⟩ := exists_of_bind_eq_ok h
    obtain ⟨z, hz, h⟩ := exists_of_bind_eq_ok h
    obtain ⟨b, hb, h⟩ := exists_of_bind_eq_ok h
    cases h
    cases y with
    | none => cases hz
    | some y =>
      obtain rfl := Except.ok.inj hz
      exact ⟨y, rfl, hb⟩

end Request

namespace Evaluator

variable {e f : Evaluator} {c : Call Operand}

theorem computed_binary_congr {op : BinaryOp} {d : Designator} {a b : UInt64}
    (h : op.apply a b d.destination e.policy = op.apply a b d.destination f.policy) :
    e.computed (.binary op) d a b = f.computed (.binary op) d a b := by
  rw [computed, computed, h]

theorem perform_congr {q : Request} (h : ∀ as, q.fields = .ok as → e.computed q.mnemonic q.slots (as.getD 0 0)
    (as.getD 1 0) = f.computed q.mnemonic q.slots (as.getD 0 0) (as.getD 1 0)) : e.perform q = f.perform q := by
  rw [perform_eq_map_fields, perform_eq_map_fields]
  cases hq : q.fields with
  | ok as => exact congrArg Except.ok (h as hq)
  | error g => rfl

theorem perform_eq_error {q : Request} {g : Error} (h : e.perform q = .error g) : f.perform q = .error g := by
  rw [perform_eq_map_fields] at h ⊢
  cases hq : q.fields with
  | ok as =>
    rw [hq] at h
    cases h
  | error g' =>
    rw [hq] at h
    exact h

theorem perform_of_policy (hp : e.policy = f.policy) (q : Request) : e.perform q = f.perform q := by
  apply perform_congr
  intro as _
  cases q.mnemonic with
  | unary op => rfl
  | binary op => exact computed_binary_congr (by rw [hp])

theorem perform_of_unshifted {q : Request} (hl : q.mnemonic ≠ .binary .shl) (hr : q.mnemonic ≠ .binary .shr) :
    e.perform q = f.perform q := by
  apply perform_congr
  intro as _
  cases hm : q.mnemonic with
  | unary op => rfl
  | binary op =>
    rw [hm] at hl hr
    apply computed_binary_congr
    exact op.apply_policy (fun h => hl (congrArg _ h)) (fun h => hr (congrArg _ h)) _ _ _ _ _

theorem perform_of_count_lt {q : Request} {y : Operand} {n : UInt64} (hy : q.second = some y)
    (hread : y.read q.slots.second = .ok n) (hn : n.toNat < q.slots.destination.bits) : e.perform q = f.perform q := by
  apply perform_congr
  intro as has
  cases hm : q.mnemonic with
  | unary op => rfl
  | binary op =>
    obtain ⟨z, hz, hb⟩ := Request.second_of_fields (by rw [hm]; rfl) has
    obtain rfl := Option.some.inj (hy.symm.trans hz)
    obtain rfl := Except.ok.inj (hread.symm.trans hb)
    exact computed_binary_congr (op.apply_policy_of_lt _ hn _ _)

theorem answer_of_performs (hr : c.request e.standard = c.request f.standard)
    (h : ∀ q, c.request e.standard = some (.ok q) → e.perform q = f.perform q) : e.answer c = f.answer c := by
  cases hq : c.request e.standard with
  | none =>
    cases c with
    | highByte x => rfl
    | format x mode => rfl
    | binary | unary | eval | apply => cases hq
  | some q =>
    rw [answer_eq_settle hq, answer_eq_settle (hr ▸ hq)]
    cases q with
    | error g => rfl
    | ok q => exact congrArg Reply.settle (h q hq)

theorem answer_of_unshifted (hs : e.standard = f.standard) (hl : ¬ c.AsksFor (.binary .shl))
    (hr : ¬ c.AsksFor (.binary .shr)) : e.answer c = f.answer c := by
  apply answer_of_performs (by rw [hs])
  intro q hq
  have hm := Call.asksFor_of_request hq
  exact perform_of_unshifted (fun h => hl (h ▸ hm)) (fun h => hr (h ▸ hm))

theorem answer_of_error (hs : e.standard = f.standard) {g : Error} (h : (e.answer c).result = .error g) :
    e.answer c = f.answer c := by
  apply answer_of_performs (by rw [hs])
  intro q hq
  rw [answer_eq_settle hq, Reply.settle_result_eq_error_iff] at h
  exact h.trans (perform_eq_error h).symm

theorem answer_of_count_lt (hs : e.standard = f.standard) {q : Request} {y : Operand} {n : UInt64}
    (hq : c.request e.standard = some (.ok q)) (hy : q.second = some y) (hread : y.read q.slots.second = .ok n)
    (hn : n.toNat < q.slots.destination.bits) : e.answer c = f.answer c := by
  apply answer_of_performs (by rw [hs])
  intro q' hq'
  obtain rfl := Except.ok.inj (Option.some.inj (hq.symm.trans hq'))
  exact perform_of_count_lt hy hread hn

theorem answer_of_namesSize (hp : e.policy = f.policy) (hc : c.NamesSize) : e.answer c = f.answer c :=
  answer_of_performs (Call.request_of_namesSize hc _ _) fun q _ => perform_of_policy hp q

/-- Two evaluators of one standard size can be told apart only by a shift that succeeds with a count of the width or
more, two of one policy only by a call that leaves its size open, and none by a call that computes nothing. -/
theorem answer_sees_of_configuration (e f : Evaluator) :
    (e.standard = f.standard →
      (∀ c, ¬ Call.AsksFor (.binary .shl) c → ¬ Call.AsksFor (.binary .shr) c → e.answer c = f.answer c) ∧
      (∀ (w : Width) (x n : UInt64), BinaryOp.rol.apply x n w e.policy = BinaryOp.rol.apply x n w f.policy ∧
        BinaryOp.ror.apply x n w e.policy = BinaryOp.ror.apply x n w f.policy) ∧
      (∀ c g, (e.answer c).result = .error g → e.answer c = f.answer c) ∧
      ∀ c q y n, c.request e.standard = some (.ok q) → q.second = some y → y.read q.slots.second = .ok n →
        n.toNat < q.slots.destination.bits → e.answer c = f.answer c) ∧
    (e.policy = f.policy → ∀ c, Call.NamesSize c → e.answer c = f.answer c) ∧
    (∀ x, e.answer (.highByte x) = f.answer (.highByte x)) ∧
    ∀ x mode, e.answer (.format x mode) = f.answer (.format x mode) := by
  refine ⟨fun hs => ⟨?_, ?_, ?_, ?_⟩, ?_, fun _ => rfl, fun _ _ => rfl⟩
  · exact fun c => answer_of_unshifted hs
  · intro w x n
    exact ⟨BinaryOp.rol.apply_policy (by decide) (by decide) x n w _ _,
      BinaryOp.ror.apply_policy (by decide) (by decide) x n w _ _⟩
  · exact fun c g => answer_of_error hs
  · exact fun c q y n => answer_of_count_lt hs
  · exact fun hp c => answer_of_namesSize hp

theorem answer_sees_of_configuration_short_shift :
    let e : Evaluator := ⟨.hardware, ⟨.dword, .low⟩⟩
    let f : Evaluator := ⟨.unbounded, ⟨.dword, .low⟩⟩
    let g : Evaluator := ⟨.hardware, .standard⟩
    let turn : Call Operand := .eval "RoL" (.ofInt 0x81) (some (.ofInt (-3))) (some "lq")
    let faulty : Call Operand := .binary .shr (.literal "0x") (.ofInt 99) .omitted
    let short : Call Operand := .binary .shl (.ofInt 3) (.ofInt 0x11F) .omitted
    let sized : Call Operand := .unary .inc (.ofInt 0xFF) (.given (.slot .low))
    (¬ turn.AsksFor (.binary .shl) ∧ ¬ turn.AsksFor (.binary .shr) ∧ e.answer turn = f.answer turn) ∧
    ((e.answer faulty).result = .error (.literal "0x" .noDigits) ∧ e.answer faulty = f.answer faulty) ∧
    ((Operand.ofInt 0x11F).read .low = .ok 31 ∧ e.answer short = f.answer short) ∧
    sized.NamesSize ∧ e.answer sized = g.answer sized := by
  intro e f g turn faulty short sized
  have policies := (answer_sees_of_configuration e f).1 rfl
  have sizes := (answer_sees_of_configuration e g).2.1 rfl
  have left : ¬ turn.AsksFor (.binary .shl) := fun h => absurd (Mnemonic.spelled_iff.mp h) (by decide)
  have right : ¬ turn.AsksFor (.binary .shr) := fun h => absurd (Mnemonic.spelled_iff.mp h) (by decide)
  have refused : (e.answer faulty).result = .error (.literal "0x" .noDigits) := by rfl
  have count : (Operand.ofInt 0x11F).read .low = .ok 31 := by rfl
  have named : sized.NamesSize := nofun
  exact ⟨⟨left, right, policies.1 turn left right⟩, ⟨refused, policies.2.2.1 faulty _ refused⟩,
    ⟨count, policies.2.2.2 short _ _ _ rfl rfl count (by decide)⟩, named, sizes sized named⟩

example : (Evaluator.answer ⟨.hardware, .standard⟩ (.binary .shl (.ofInt 1) (.ofInt 33) .omitted)).result = .ok 2 ∧
    (Evaluator.answer ⟨.unbounded, .standard⟩ (.binary .shl (.ofInt 1) (.ofInt 33) .omitted)).result = .ok 0 :=
  ⟨by rfl, by rfl⟩

end Evaluator

end Subregister
