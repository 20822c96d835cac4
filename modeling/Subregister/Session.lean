import Subregister.Evaluator

namespace Subregister

inductive Source
  | given (x : Operand)
  | earlier (position : Nat)

inductive Step
  | call (c : Call Source)
  | configure (policy : Option CountPolicy) (standard : Option Designator)

inductive Answer
  | reply (r : Reply UInt64)
  | configured (e : Evaluator)

def Answer.result : Answer → UInt64
  | reply ⟨.ok v, _⟩ => v
  | reply ⟨.error _, _⟩ => 0
  | configured _ => 0

namespace Evaluator

def configure (e : Evaluator) (policy : Option CountPolicy) (standard : Option Designator) : Evaluator :=
  ⟨policy.getD e.policy, standard.getD e.standard⟩

end Evaluator

structure Session where
  evaluator : Evaluator
  results : List UInt64

namespace Session

def start (e : Evaluator) : Session :=
  ⟨e, []⟩

def operand (s : Session) : Source → Operand
  | .given x => x
  | .earlier i => .ofWord (s.results.getD i 0)

def evaluatorAfter (s : Session) : Step → Evaluator
  | .call _ => s.evaluator
  | .configure policy standard => s.evaluator.configure policy standard

def answer (s : Session) : Step → Answer
  | .call c => .reply (s.evaluator.answer (c.map s.operand))
  | .configure policy standard => .configured (s.evaluator.configure policy standard)

def next (s : Session) (step : Step) : Session :=
  ⟨s.evaluatorAfter step, s.results ++ [(s.answer step).result]⟩

def run (s : Session) : List Step → List Answer × Session
  | [] => ([], s)
  | step :: steps =>
    let (answers, last) := (s.next step).run steps
    (s.answer step :: answers, last)

end Session

end Subregister
