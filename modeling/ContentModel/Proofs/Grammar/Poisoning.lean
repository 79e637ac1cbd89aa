import ContentModel.Proofs.Grammar.Calls
import ContentModel.Proofs.Grammar.Schema

/-!
# The error that is kept

A schema answers queries as long as no error was recorded, while it was declared
or afterwards. Main statement: `publish_poisoned`, every query fails with the
first of these errors, and none fails if there is none.
-/

namespace ContentModel

open Automaton

namespace Declarations

/-! ## Errors of declarations -/

namespace Call

open Classical in
/-- The error that the call records while automata may have this many
states. -/
noncomputable def failure (limit : Nat) : Call → Option GrammarError
  | declareElement atom content =>
    match content.isComplete with
    | false => some (.incomplete atom.name)
    | true =>
      if content.Exceeds limit then some (.tooLarge atom.name ⟨limit⟩)
      else none
  | recordError error => some error
  | setStateLimit _ | declareAttributes _ _ => none

/-- How many states automata may have after the call. -/
def limitAfter (limit : Nat) : Call → Nat
  | setStateLimit next => next
  | declareElement _ _ | declareAttributes _ _ | recordError _ => limit

variable {before after : Declarations} {call : Call} {content : Content}
  {limit : Nat}

theorem failure_of_exceeds (atom : Atom)
    (isComplete : content.isComplete = true)
    (exceeds : content.Exceeds limit) :
    (declareElement atom content).failure limit =
      some (.tooLarge atom.name ⟨limit⟩) := by
  simp only [failure, isComplete, if_pos exceeds]

theorem failure_of_fits (atom : Atom) (isComplete : content.isComplete = true)
    (fits : ¬ content.Exceeds limit) :
    (declareElement atom content).failure limit = none := by
  simp only [failure, isComplete, if_neg fits]

/-- A call keeps the error that there is. -/
theorem Results.error_eq (results : call.Results before after) :
    after.error =
      before.error.or (call.failure before.store.stateLimit) := by
  cases results with
  | setStateLimit =>
      exact Option.or_none.symm
  | incomplete isIncomplete =>
      rw [failure, isIncomplete]
      exact Option.orElse_eq_or
  | tooLarge isComplete exceeds _ _ =>
      rw [failure_of_exceeds _ isComplete exceeds]
      exact Option.orElse_eq_or
  | entered isComplete fits _ _ _ =>
      rw [failure_of_fits _ isComplete fits]
      exact Option.or_none.symm
  | declareAttributes =>
      exact Option.or_none.symm
  | recordError =>
      exact Option.orElse_eq_or

theorem Results.stateLimit_eq (results : call.Results before after) :
    after.store.stateLimit = call.limitAfter before.store.stateLimit := by
  cases results with
  | setStateLimit => rfl
  | incomplete _ => rfl
  | tooLarge _ _ _ sameLimit => exact sameLimit
  | entered _ _ _ sameLimit _ => exact sameLimit
  | declareAttributes => rfl
  | recordError => rfl

end Call

/-- The errors that the calls record, in order, when automata may have this many
states at first. -/
noncomputable def failures (limit : Nat) : List Call → List GrammarError
  | [] => []
  | call :: calls =>
    (call.failure limit).toList ++ failures (call.limitAfter limit) calls

variable {before after : Declarations} {calls : List Call}

/-- The first error is kept. -/
theorem Runs.error_eq (runs : Runs before calls after) :
    after.error =
      before.error.or (failures before.store.stateLimit calls).head? := by
  induction runs with
  | nil _ =>
      exact Option.or_none.symm
  | cons _ results _ inductionHypothesis =>
      rw [inductionHypothesis, results.error_eq, results.stateLimit_eq,
        failures, List.head?_append, Option.head?_toList, Option.or_assoc]

end Declarations

/-! ## Errors of schemas -/

namespace Schema

/-- The error with which a query fails, if it does. -/
def failureOf {α : Type} : Except Poisoned α → Option GrammarError
  | .ok _ => none
  | .error poisoned => some poisoned.cause

/-- The queries of a schema. -/
inductive Query where
  | check
  | findElement (name : String)
  | elements
  | size
  | isEmpty
  | automata

/-- The error with which the query fails, if it does. -/
def Query.failure (schema : Schema) : Query → Option GrammarError
  | check => failureOf schema.check
  | findElement name => failureOf (schema.findElement? name)
  | elements => failureOf schema.elements
  | size => failureOf schema.size
  | isEmpty => failureOf schema.isEmpty
  | automata => failureOf schema.automata

theorem failureOf_check_bind {α : Type} (schema : Schema)
    (answer : α) :
    failureOf (schema.check >>= fun _ => pure answer) = schema.error := by
  rw [check]
  cases schema.error with
  | none => rfl
  | some error => rfl

/-- All queries fail alike. -/
theorem Query.failure_eq (schema : Schema) (query : Query) :
    query.failure schema = schema.error := by
  cases query with
  | check =>
      rw [failure, Schema.check]
      cases schema.error with
      | none => rfl
      | some error => rfl
  | findElement name => exact failureOf_check_bind schema _
  | elements => exact failureOf_check_bind schema _
  | size => exact failureOf_check_bind schema _
  | isEmpty => exact failureOf_check_bind schema _
  | automata => exact failureOf_check_bind schema _

/-- A call of a schema. -/
inductive Call where
  | query (query : Query)
  | addElement (element : Element)
  | recordError (error : GrammarError)

namespace Call

/-- What the call changes. -/
def apply (schema : Schema) : Call → Schema
  | query _ => schema
  | addElement element => (schema.addElement element).2
  | recordError error => schema.recordError error

/-- The error that the call records. -/
def failure : Call → Option GrammarError
  | recordError error => some error
  | query _ | addElement _ => none

theorem error_apply (schema : Schema) (call : Call) :
    (call.apply schema).error = schema.error.or call.failure := by
  cases call with
  | query _ => exact Option.or_none.symm
  | addElement element => exact Option.or_none.symm
  | recordError error => exact Option.orElse_eq_or

theorem error_foldl (schema : Schema) (calls : List Call) :
    (calls.foldl apply schema).error =
      schema.error.or (calls.filterMap failure).head? := by
  induction calls generalizing schema with
  | nil =>
      exact Option.or_none.symm
  | cons call calls inductionHypothesis =>
      rw [List.foldl_cons, inductionHypothesis, error_apply,
        Option.or_assoc]
      congr 1
      cases isFailure : call.failure with
      | none =>
          rw [List.filterMap_cons_none isFailure, Option.none_or]
      | some error =>
          rw [List.filterMap_cons_some isFailure, Option.some_or]
          rfl

end Call

end Schema

/-! ## Errors of what is published -/

namespace Declarations

/-- Calls in any order do not fail, and neither do those of the schema that is
published. At any time a query fails exactly if an error was recorded before:
by a content that is not filled in, by one with more states than were allowed
when it was declared, or by a call that records it. Then every query fails with
the first of these errors. -/
theorem publish_poisoned {calls : List Call}
    (ordered : ∀ call ∈ calls, call.BoundsOrdered) :
    ∃ declarations, run calls = .ok declarations ∧
      ∀ (later : List Schema.Call) (query : Schema.Query),
        query.failure (later.foldl Schema.Call.apply declarations.publish) =
          (failures defaultStateLimit calls ++
            later.filterMap Schema.Call.failure).head? := by
  obtain ⟨declarations, isRun, runs⟩ := exists_run ordered
  refine ⟨declarations, isRun, ?_⟩
  intro later query
  have sameError : declarations.error =
      (failures defaultStateLimit calls).head? := by
    have isFirst := runs.error_eq
    rw [Option.none_or] at isFirst
    exact isFirst
  rw [Schema.Query.failure_eq, Schema.Call.error_foldl, error_publish,
    sameError, List.head?_append]

/-- A content with too many states is declared before another error and before
one that is recorded in the schema. -/
theorem publish_poisoned_tooLarge :
    ∃ declarations,
      run [.setStateLimit 0,
          .declareElement (.ofElement "a")
            (.children (.leaf (.ofElement "b"))),
          .declareElement (.ofElement "c") (.children (.unknown []))] =
        .ok declarations ∧
      ∀ query : Schema.Query,
        query.failure
            ([Schema.Call.query .size, .recordError (.parse "late")].foldl
              Schema.Call.apply declarations.publish) =
          some (.tooLarge "a" ⟨0⟩) := by
  have exceeds :
      Content.Exceeds (.children (.leaf (.ofElement "b"))) 0 :=
    ⟨_, rfl, Model.exceeds_zero _⟩
  have leafOrdered : (Model.leaf (.ofElement "b")).BoundsOrdered := by
    decide
  have unknownOrdered : (Model.unknown []).BoundsOrdered := by
    decide
  have ordered : ∀ call ∈ [Call.setStateLimit 0,
      .declareElement (.ofElement "a") (.children (.leaf (.ofElement "b"))),
      .declareElement (.ofElement "c") (.children (.unknown []))],
      call.BoundsOrdered := by
    simp only [List.forall_mem_cons, List.not_mem_nil, false_implies,
      implies_true, and_true]
    exact ⟨trivial, leafOrdered, unknownOrdered⟩
  obtain ⟨declarations, isRun, fails⟩ := publish_poisoned ordered
  refine ⟨declarations, isRun, fun query => ?_⟩
  have tooLarge := Call.failure_of_exceeds (.ofElement "a") rfl exceeds
  rw [fails, failures, failures, Call.limitAfter, tooLarge]
  rfl

end Declarations

end ContentModel
