import Subregister.Proofs.Evaluation
import Subregister.Proofs.Residue
import Subregister.Proofs.Transcript

namespace Subregister

namespace Evaluator

def supply (s : Slot) (printed : String) : Reply Operand :=
  match s with
  | .high => do return .ofWord (← highByte (.literal printed))
  | _ => return .literal printed

def replay (e : Evaluator) (w : Words) (d : Designator) : Reply UInt64 := do
  let x ← supply d.first w.first
  let y ← w.second.mapM (supply d.second)
  e.eval w.name x y (some w.size)

def replayText? (e : Evaluator) (line : String) : Option (Reply UInt64) := do
  let w ← Words.ofText? line
  let d ← (Designator.parse w.size).toOption
  return e.replay w d

theorem exists_supply (s : Slot) (u : UInt64) : ∃ z w, supply s (Trace.number (s.read u)) = pure z ∧
    z.value = .ok w ∧ s.read w = s.read u := by
  by_cases hs : s = .high
  · subst hs
    refine ⟨.ofWord (Slot.raise (Slot.high.read u)), _, ?_, Operand.value_ofWord _, Slot.read_raise_read u⟩
    rw [supply, highByte, Operand.value, Trace.parse_number]
    rfl
  · refine ⟨.literal (Trace.number (s.read u)), s.read u, ?_, Trace.parse_number _, Slot.read_read hs u⟩
    cases s
    case high => exact absurd rfl hs
    all_goals rfl

theorem eval_name_text (e : Evaluator) (m : Mnemonic) (x : Operand) (y : Option Operand) (d : Designator) :
    e.eval m.name x y (some d.text) = e.apply m x y d := by
  rw [e.eval_spelled m.spelled_name]
  change (e.resolve (.text d.text) >>= fun d => e.apply m x y d) = _
  rw [resolve, Size.resolve, Designator.parse_text]
  rfl

theorem replay_of_supply (e : Evaluator) {w : Words} {d : Designator} {x : Operand} {y : Option Operand}
    (hx : supply d.first w.first = pure x) (hy : w.second.mapM (supply d.second) = pure y) :
    e.replay w d = e.eval w.name x y (some w.size) := by
  rw [replay, hx, hy, pure_bind, pure_bind]

theorem replay_words_computed (e : Evaluator) (m : Mnemonic) (d : Designator) (u v : UInt64) :
    e.replay (e.computed m d (d.first.read u) (d.second.read v)).words d =
      Reply.settle (.ok (e.computed m d (d.first.read u) (d.second.read v))) := by
  obtain ⟨x, u', hx, hu, hfirst⟩ := exists_supply d.first u
  obtain ⟨y, v', hy, hv, hsecond⟩ := exists_supply d.second v
  have again {z : Option Operand} (hz : Operand.Valued m x z u' v') : e.eval m.name x z (some d.text) =
      Reply.settle (.ok (e.computed m d (d.first.read u) (d.second.read v))) := by
    rw [eval_name_text, apply_eq_settle, e.trace_of_valued d hz, hfirst, hsecond]
  generalize d.first.read u = a at hx again ⊢
  generalize d.second.read v = b at hy again ⊢
  cases m with
  | unary op =>
    have none_supplied : (none : Option String).mapM (supply d.second) = pure none := rfl
    rw [e.replay_of_supply (w := (e.computed (.unary op) d a b).words) hx none_supplied]
    exact again ⟨hu, fun h => nomatch h⟩
  | binary op =>
    have supplied : (some (Trace.number b)).mapM (supply d.second) = pure (some y) := by
      rw [Option.mapM_some, hy, map_pure]
    rw [e.replay_of_supply (w := (e.computed (.binary op) d a b).words) hx supplied]
    exact again ⟨hu, fun _ => ⟨y, rfl, hv⟩⟩

theorem replayText?_text_computed (e : Evaluator) (m : Mnemonic) (d : Designator) (u v : UInt64) :
    e.replayText? (e.computed m d (d.first.read u) (d.second.read v)).text =
      some (Reply.settle (.ok (e.computed m d (d.first.read u) (d.second.read v)))) := by
  have hd : (Designator.parse (e.computed m d (d.first.read u) (d.second.read v)).words.size).toOption = some d := by
    have hs : (e.computed m d (d.first.read u) (d.second.read v)).words.size = d.text := by cases m <;> rfl
    rw [hs, Designator.parse_text]
    rfl
  rw [replayText?, Trace.ofText?_text, ← e.replay_words_computed]
  change ((Designator.parse _).toOption.bind _) = _
  rw [hd]
  rfl

theorem fields_of_valued (e : Evaluator) {q : Request} {u v : UInt64}
    (h : Operand.Valued q.mnemonic q.first q.second u v) :
    q.fields = .ok (e.computed q.mnemonic q.slots (q.slots.first.read u) (q.slots.second.read v)).fields := by
  obtain ⟨m, x, y, d⟩ := q
  have hx := h.read_first d.first
  cases m with
  | unary op =>
    simp only [Request.fields, hx]
    rfl
  | binary op =>
    obtain ⟨z, hz, hy⟩ := h.read_second rfl d.second
    obtain rfl : y = some z := hz
    simp only [Request.fields, hx, requiredOperand]
    change (z.read d.second >>= _) = _
    rw [hy]
    rfl

theorem answer_replays (e : Evaluator) (c : Call Operand) (r : UInt64) (hc : c.request e.standard ≠ none)
    (hr : (e.answer c).result = .ok r) : ∃ q fields record,
      c.request e.standard = some (.ok q) ∧ q.fields = .ok fields ∧
      fields.length = (if q.mnemonic.isUnary then 1 else 2) ∧
      (e.answer c).log = [record] ∧ record.level = "TRACE" ∧
      Reading.ofText? record.text = some ⟨q.mnemonic, fields, q.slots, r⟩ ∧
      e.replayText? record.text = some (e.answer c) := by
  obtain ⟨q, u, v, hq, hv, ha⟩ := exists_computed_of_result hc hr
  rw [ha] at hr ⊢
  refine ⟨q, _, _, hq, e.fields_of_valued hv, ?_, rfl, rfl, ?_, e.replayText?_text_computed ..⟩
  · cases q.mnemonic <;> rfl
  · rw [Record.text, Trace.ofText?_text_reading, ← Except.ok.inj hr]
    cases q.mnemonic <;> rfl

theorem answer_replays_high_bytes :
    ∃ q fields record, Call.request .standard (.eval "ROR" (.literal "0A1F3h") (some (.ofInt 0x30A)) (some "hH")) =
        some (.ok q) ∧ q.fields = .ok fields ∧ fields.length = (if q.mnemonic.isUnary then 1 else 2) ∧
      (Evaluator.answer .new (.eval "ROR" (.literal "0A1F3h") (some (.ofInt 0x30A)) (some "hH"))).log = [record] ∧
      record.level = "TRACE" ∧ Reading.ofText? record.text = some ⟨q.mnemonic, fields, q.slots, 0x34⟩ ∧
      Evaluator.replayText? .new record.text =
        some (Evaluator.answer .new (.eval "ROR" (.literal "0A1F3h") (some (.ofInt 0x30A)) (some "hH"))) :=
  answer_replays .new (.eval "ROR" (.literal "0A1F3h") (some (.ofInt 0x30A)) (some "hH")) 0x34
    (by intro h; cases h) (by rfl)

end Evaluator

end Subregister
