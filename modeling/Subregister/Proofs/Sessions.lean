import Mathlib.Data.List.GetD
import Subregister.Session

/-!
Sessions. What an evaluator is at any moment follows from the last setting of each kind, and a call is answered as by a
fresh evaluator with these settings, so that calls may come and go and settings change places without being noticed.
-/

namespace Subregister

namespace Source

def renumber (f : Nat → Nat) : Source → Source
  | given x => given x
  | earlier i => earlier (f i)

end Source

namespace Call

variable {α β γ : Type}

def operands : Call α → List α
  | binary _ x y _ => [x, y]
  | unary _ x _ | highByte x | format x _ => [x]
  | eval _ x y _ | apply _ x y _ => x :: y.toList

theorem map_map (f : α → β) (g : β → γ) (c : Call α) : (c.map f).map g = c.map (g ∘ f) := by
  cases c <;> simp [map]

theorem map_congr {f g : α → β} {c : Call α} (h : ∀ x ∈ c.operands, f x = g x) : c.map f = c.map g := by
  cases c with
  | eval name x y size | apply m x y d => cases y <;> simp_all [map, operands]
  | _ => simp_all [map, operands]

theorem map_id (c : Call α) : c.map id = c := by
  cases c <;> simp [map]

end Call

namespace Step

def policy? : Step → Option CountPolicy
  | call _ => none
  | configure policy _ => policy

def standard? : Step → Option Designator
  | call _ => none
  | configure _ standard => standard

def Uses (i : Nat) : Step → Prop
  | call c => .earlier i ∈ c.operands
  | configure _ _ => False

def renumber (f : Nat → Nat) : Step → Step
  | call c => call (c.map (Source.renumber f))
  | configure policy standard => configure policy standard

theorem renumber_renumber {f g : Nat → Nat} {step : Step} (h : ∀ i, step.Uses i → g (f i) = i) :
    (step.renumber f).renumber g = step := by
  cases step with
  | configure policy standard => rfl
  | call c =>
    have same : ∀ source ∈ c.operands, (Source.renumber g ∘ Source.renumber f) source = id source := by
      intro source hsource
      cases source with
      | given x => rfl
      | earlier i => exact congrArg Source.earlier (h i hsource)
    rw [renumber, renumber, Call.map_map, Call.map_congr same, Call.map_id]

end Step

def configured (steps : List Step) : Evaluator :=
  ⟨(steps.filterMap Step.policy?).getLastD .hardware, (steps.filterMap Step.standard?).getLastD ⟨.dword, .dword⟩⟩

namespace Session

theorem evaluator_next (s : Session) (step : Step) : (s.next step).evaluator =
    ⟨step.policy?.getD s.evaluator.policy, step.standard?.getD s.evaluator.standard⟩ := by
  cases step <;> rfl

theorem run_cons (s : Session) (step : Step) (steps : List Step) : s.run (step :: steps) =
    (s.answer step :: ((s.next step).run steps).1, ((s.next step).run steps).2) := rfl

theorem getLastD_filterMap_cons {α β : Type} (f : α → Option β) (a : α) (as : List α) (b : β) :
    ((a :: as).filterMap f).getLastD b = (as.filterMap f).getLastD ((f a).getD b) := by
  rw [List.filterMap_cons]
  cases f a with
  | none => rfl
  | some c => exact List.getLastD_cons ..

theorem evaluator_run (s : Session) (steps : List Step) : (s.run steps).2.evaluator =
    ⟨(steps.filterMap Step.policy?).getLastD s.evaluator.policy,
      (steps.filterMap Step.standard?).getLastD s.evaluator.standard⟩ := by
  induction steps generalizing s with
  | nil => rfl
  | cons step steps ih =>
    rw [run_cons, ih, evaluator_next, getLastD_filterMap_cons, getLastD_filterMap_cons]

theorem run_append (s : Session) (before after : List Step) : s.run (before ++ after) =
    ((s.run before).1 ++ ((s.run before).2.run after).1, ((s.run before).2.run after).2) := by
  induction before generalizing s with
  | nil => rfl
  | cons step before ih =>
    rw [List.cons_append, run_cons, run_cons, ih]
    rfl

theorem length_run (s : Session) (steps : List Step) : (s.run steps).1.length = steps.length := by
  induction steps generalizing s with
  | nil => rfl
  | cons step steps ih => exact congrArg (· + 1) (ih _)

theorem length_results_run (s : Session) (steps : List Step) :
    (s.run steps).2.results.length = s.results.length + steps.length := by
  induction steps generalizing s with
  | nil => rfl
  | cons step steps ih =>
    rw [run_cons, ih, next, List.length_append, List.length_singleton, List.length_cons]
    omega

theorem getElem?_run (s : Session) (steps : List Step) (n : Nat) :
    (s.run steps).1[n]? = steps[n]?.map (s.run (steps.take n)).2.answer := by
  induction steps generalizing s n with
  | nil => simp [run]
  | cons step steps ih =>
    cases n with
    | zero => rfl
    | succ n => exact ih (s.next step) n

def opened (start count i : Nat) : Nat :=
  if i < start then i else i + count

def closed (start count i : Nat) : Nat :=
  if i < start then i else i - count

theorem opened_closed {start count i : Nat} (h : i < start ∨ start + count ≤ i) :
    opened start count (closed start count i) = i := by
  rcases h with h | h
  · rw [closed, if_pos h, opened, if_pos h]
  · rw [closed, if_neg (by omega), opened, if_neg (by omega)]
    omega

/-- The second session has gone through more steps, the results of which stand from `start` on. -/
structure Widened (start : Nat) (extra : List UInt64) (s t : Session) : Prop where
  evaluator_eq : t.evaluator = s.evaluator
  results : ∃ front back, front.length = start ∧ s.results = front ++ back ∧ t.results = front ++ (extra ++ back)

namespace Widened

variable {start : Nat} {extra : List UInt64} {s t : Session}

theorem operand_eq (h : Widened start extra s t) (source : Source) :
    t.operand (source.renumber (opened start extra.length)) = s.operand source := by
  obtain ⟨front, back, rfl, hs, ht⟩ := h.results
  cases source with
  | given x => rfl
  | earlier i =>
    simp only [Source.renumber, opened, operand, hs, ht]
    by_cases hi : i < front.length
    · rw [if_pos hi, List.getD_append _ _ _ _ hi, List.getD_append _ _ _ _ hi]
    · rw [if_neg hi, List.getD_append_right _ _ _ _ (by omega), List.getD_append_right _ _ _ _ (by omega),
        List.getD_append_right _ _ _ _ (by omega)]
      congr 2
      omega

theorem answer_eq (h : Widened start extra s t) (step : Step) :
    t.answer (step.renumber (opened start extra.length)) = s.answer step := by
  cases step with
  | call c =>
    have operands : t.operand ∘ Source.renumber (opened start extra.length) = s.operand := funext h.operand_eq
    simp only [answer, Step.renumber, Call.map_map, operands, h.evaluator_eq]
  | configure policy standard => simp only [answer, Step.renumber, h.evaluator_eq]

theorem next (h : Widened start extra s t) (step : Step) :
    Widened start extra (s.next step) (t.next (step.renumber (opened start extra.length))) := by
  obtain ⟨front, back, hfront, hs, ht⟩ := h.results
  refine ⟨?_, front, back ++ [(s.answer step).result], hfront, ?_, ?_⟩
  · cases step <;> simp only [Session.next, evaluatorAfter, Step.renumber, h.evaluator_eq]
  · rw [Session.next, hs, List.append_assoc]
  · rw [Session.next, h.answer_eq, ht, List.append_assoc, List.append_assoc]

theorem run (h : Widened start extra s t) (steps : List Step) :
    (t.run (steps.map (Step.renumber (opened start extra.length)))).1 = (s.run steps).1 ∧
      Widened start extra (s.run steps).2 (t.run (steps.map (Step.renumber (opened start extra.length)))).2 := by
  induction steps generalizing s t with
  | nil => exact ⟨rfl, h⟩
  | cons step steps ih =>
    obtain ⟨answers, widened⟩ := ih (h.next step)
    refine ⟨?_, widened⟩
    rw [List.map_cons, run_cons, run_cons, h.answer_eq, answers]

end Widened

theorem run_calls (s : Session) (calls : List (Call Source)) :
    (s.run (calls.map .call)).2.evaluator = s.evaluator ∧
      ∃ extra, extra.length = calls.length ∧ (s.run (calls.map .call)).2.results = s.results ++ extra := by
  induction calls generalizing s with
  | nil => exact ⟨rfl, [], rfl, (List.append_nil _).symm⟩
  | cons c calls ih =>
    obtain ⟨he, extra, hlen, hr⟩ := ih (s.next (.call c))
    refine ⟨he, (s.answer (.call c)).result :: extra, congrArg (· + 1) hlen, ?_⟩
    rw [List.map_cons, run_cons, hr, next, List.append_assoc, List.singleton_append]

def spared {α : Type} (start count : Nat) (answers : List α) : List α :=
  answers.take start ++ answers.drop (start + count)

theorem spared_append {α : Type} {start count : Nat} {front mid back : List α} (hf : front.length = start)
    (hm : mid.length = count) : spared start count (front ++ (mid ++ back)) = front ++ back := by
  subst hf hm
  rw [spared, List.take_left, List.drop_length_add_append, List.drop_left]

def Spares (start count : Nat) (whole rest : List Answer × Session) : Prop :=
  rest.1 = spared start count whole.1 ∧ rest.2.evaluator = whole.2.evaluator

section

variable (e : Evaluator) (before after : List Step) (calls : List (Call Source))

theorem run_insert_calls : Spares before.length calls.length
    ((start e).run (before ++ (calls.map .call ++ after.map (Step.renumber (opened before.length calls.length)))))
    ((start e).run (before ++ after)) := by
  have hlen : ((start e).run before).2.results.length = before.length := by
    rw [length_results_run]
    exact Nat.zero_add _
  obtain ⟨he, extra, hextra, hr⟩ := ((start e).run before).2.run_calls calls
  -- After the calls, one session is the other with their results put in, and stays so.
  have widened : Widened before.length extra ((start e).run before).2
      (((start e).run before).2.run (calls.map .call)).2 :=
    ⟨he, _, [], hlen, (List.append_nil _).symm, by rw [hr, List.append_nil]⟩
  obtain ⟨answers, last⟩ := widened.run after
  rw [hextra] at answers last
  simp only [run_append]
  refine ⟨?_, last.evaluator_eq.symm⟩
  rw [spared_append (length_run _ _) ((length_run _ _).trans (List.length_map _)), answers]

theorem run_remove_calls
    (h : ∀ step ∈ after, ∀ i, step.Uses i → i < before.length ∨ before.length + calls.length ≤ i) :
    Spares before.length calls.length ((start e).run (before ++ (calls.map .call ++ after)))
      ((start e).run (before ++ after.map (Step.renumber (closed before.length calls.length)))) := by
  have back : (after.map (Step.renumber (closed before.length calls.length))).map
      (Step.renumber (opened before.length calls.length)) = after := by
    rw [List.map_map]
    apply Eq.trans _ (List.map_id after)
    apply List.map_congr_left
    intro step hstep
    exact Step.renumber_renumber fun i hi => opened_closed (h step hstep i hi)
  have inserted := run_insert_calls e before (after.map (Step.renumber (closed before.length calls.length))) calls
  rwa [back] at inserted

theorem run_swap_settings (policy : CountPolicy) (standard : Designator) :
    let first := (start e).run
      (before ++ .configure (some policy) none :: .configure none (some standard) :: after)
    let second := (start e).run
      (before ++ .configure none (some standard) :: .configure (some policy) none :: after)
    first.1.eraseIdx before.length = second.1.eraseIdx before.length ∧ first.2 = second.2 := by
  intro first second
  have hlen : before.length = ((start e).run before).1.length := (length_run _ _).symm
  simp only [first, second, run_append, run_cons]
  refine ⟨?_, rfl⟩
  rw [hlen, List.eraseIdx_append_of_length_le (Nat.le_refl _), List.eraseIdx_append_of_length_le (Nat.le_refl _),
    Nat.sub_self]
  rfl

end

theorem answers_follow_settings (e : Evaluator) (he : e = .new ∨ e = default) :
    (∀ (steps : List Step) (n : Nat), ((start e).run (steps.take n)).2.evaluator = configured (steps.take n)) ∧
    (∀ (steps : List Step) (n : Nat) (c : Call Source), steps[n]? = some (.call c) → ((start e).run steps).1[n]? =
      some (.reply ((configured (steps.take n)).answer (c.map ((start e).run (steps.take n)).2.operand)))) ∧
    (∀ (before after : List Step) (calls : List (Call Source)), Spares before.length calls.length
      ((start e).run (before ++ (calls.map .call ++ after.map (Step.renumber (opened before.length calls.length)))))
      ((start e).run (before ++ after))) ∧
    (∀ (before after : List Step) (calls : List (Call Source)),
      (∀ step ∈ after, ∀ i, step.Uses i → i < before.length ∨ before.length + calls.length ≤ i) →
      Spares before.length calls.length ((start e).run (before ++ (calls.map .call ++ after)))
        ((start e).run (before ++ after.map (Step.renumber (closed before.length calls.length))))) ∧
    ∀ (before after : List Step) (policy : CountPolicy) (standard : Designator),
      let first := (start e).run
        (before ++ .configure (some policy) none :: .configure none (some standard) :: after)
      let second := (start e).run
        (before ++ .configure none (some standard) :: .configure (some policy) none :: after)
      first.1.eraseIdx before.length = second.1.eraseIdx before.length ∧ first.2 = second.2 := by
  obtain rfl : e = .new := he.elim id fun h => h.trans Evaluator.default_eq_new
  have state (steps : List Step) : ((start .new).run steps).2.evaluator = configured steps := evaluator_run _ steps
  refine ⟨fun steps n => state _, ?_, run_insert_calls _, run_remove_calls _, run_swap_settings _⟩
  intro steps n c hc
  rw [getElem?_run, hc, ← state]
  rfl

theorem answers_follow_settings_around_refusal :
    let shift : Step := .call (.binary .shl (.given (.ofInt 1)) (.given (.ofInt 33)) .omitted)
    let refused : Call Source := .unary .inc (.given (.literal "0x")) .omitted
    let negate : Step := .call (.unary .neg (.earlier 1) .omitted)
    let before : List Step := [.configure (some .modulo) none, shift]
    let after : List Step := [.configure none (some ⟨.word, .qword⟩), negate]
    (before ++ (.call refused :: after))[4]? = some negate ∧
    ((start default).run (before ++ (.call refused :: after))).1[4]? =
      some (.reply (Evaluator.answer ⟨.modulo, ⟨.word, .qword⟩⟩ (.unary .neg (.ofWord 2) .omitted))) ∧
    (∀ step ∈ after, ∀ i, step.Uses i → i < 2 ∨ 2 + 1 ≤ i) ∧
    Spares 2 1 ((start default).run (before ++ (.call refused :: after))) ((start default).run (before ++ after)) := by
  intro shift refused negate before after
  have h := answers_follow_settings default (.inr rfl)
  have unused : ∀ step ∈ after, ∀ i, step.Uses i → i < 2 ∨ 2 + 1 ≤ i := by
    simp [after, negate, Step.Uses, Call.operands]
  exact ⟨rfl, h.2.1 (before ++ (.call refused :: after)) 4 _ rfl, unused, h.2.2.2.1 before after [refused] unused⟩

end Session

end Subregister
