import ContentModel.Proofs.Grammar.Poisoning
import ContentModel.Proofs.Grammar.References

/-!
# Calls that record no error

As long as no error is recorded a call has one outcome, so what the declarations
hold can be read off the calls: the content that was declared last for each
name, every attribute list in order, and the names of all contents, those of
replaced declarations among them.

The invariants are proved by induction on `Proceeding`. Main statement:
`exists_proceeding`.
-/

namespace ContentModel

open Automaton

namespace Declarations

variable {declarations before after : Declarations} {calls : List Call}

/-! ## Single calls -/

/-- What a call does that records no error. -/
inductive Call.Proceeds (before : Declarations) : Call → Declarations → Prop
  | setStateLimit {limit : Nat} :
      Proceeds before (.setStateLimit limit) (before.setStateLimit limit)
  | declareElement {atom : Atom} {content : Content} {start : Nat}
      {compiled store : Store} :
      content.BoundsOrdered →
      content.compile before.store = .ok (.ok start, compiled) →
      GivesUp compiled (before.elements.find? atom.name) store →
      Proceeds before (.declareElement atom content)
        { before.addReferences content.atoms with
          store
          elements := before.elements.insert atom.name
            { atom, content := content.kind, start, model := content.text } }
  | declareAttributes {element : String} {attributes : List Attribute} :
      Proceeds before (.declareAttributes element attributes)
        (before.declareAttributes element attributes)

theorem Tended.proceeds_declareElement (tended : Tended before) {atom : Atom}
    {content : Content} (ordered : content.BoundsOrdered)
    (isAfter : before.declareElement atom content = .ok after)
    (noError : after.error = none) :
    (Call.declareElement atom content).Proceeds before after := by
  cases complete : content.isComplete with
  | false =>
      rw [declareElement_of_incomplete complete] at isAfter
      cases isAfter
      exact absurd noError (error_recordError _ _)
  | true =>
      cases Content.compile_cases tended.sound tended.standard ordered with
      | inl fits =>
          obtain ⟨_, start, compiled, isCompiled, _⟩ := fits
          rw [declareElement_of_compiled complete isCompiled] at isAfter
          obtain ⟨store, givesUp, same⟩ := enter_eq_ok_iff.mp isAfter
          rw [same]
          exact .declareElement ordered isCompiled givesUp
      | inr exceeds =>
          obtain ⟨_, compiled, isCompiled, _⟩ := exceeds
          rw [declareElement_of_failure complete isCompiled] at isAfter
          cases isAfter
          exact absurd noError (error_recordError _ _)

theorem Tended.proceeds (tended : Tended before) {call : Call}
    (ordered : call.BoundsOrdered) (isAfter : call.apply before = .ok after)
    (noError : after.error = none) : call.Proceeds before after := by
  cases call with
  | setStateLimit limit =>
      cases isAfter
      exact .setStateLimit
  | declareElement atom content =>
      exact tended.proceeds_declareElement ordered isAfter noError
  | declareAttributes element attributes =>
      cases isAfter
      exact .declareAttributes
  | recordError error =>
      cases isAfter
      exact absurd noError (error_recordError _ _)

/-! ## Runs -/

/-- The declarations after calls that recorded no error. -/
inductive Proceeding : List Call → Declarations → Prop
  | new : Proceeding [] {}
  | call {calls : List Call} {before after : Declarations} {call : Call} :
      Proceeding calls before → call.Proceeds before after → Tended after →
      Proceeding (calls ++ [call]) after

theorem Proceeding.tended (proceeding : Proceeding calls declarations) :
    Tended declarations := by
  cases proceeding with
  | new => exact tended_new
  | call _ _ tended => exact tended

/-- The induction takes the calls from the end: no error is taken back. -/
theorem exists_proceeding (ordered : ∀ call ∈ calls, call.BoundsOrdered) :
    ∃ declarations, run calls = .ok declarations ∧ Tended declarations ∧
      (declarations.error = none → Proceeding calls declarations) := by
  induction calls using List.reverseRecOn with
  | nil =>
      exact ⟨{}, rfl, tended_new, fun _ => .new⟩
  | append_singleton calls call inductionHypothesis =>
      rw [List.forall_mem_append, List.forall_mem_singleton] at ordered
      obtain ⟨before, isBefore, tended, proceeding⟩ :=
        inductionHypothesis ordered.1
      obtain ⟨after, isAfter, results, afterTended⟩ :=
        tended.exists_apply ordered.2
      refine ⟨after, ?_, afterTended, ?_⟩
      · rw [run] at isBefore ⊢
        rw [List.foldlM_append, isBefore]
        simp only [ok_bind, List.foldlM_cons, isAfter, List.foldlM_nil]
        rfl
      · intro noError
        have noErrorBefore : before.error = none := by
          rw [results.error_eq, Option.or_eq_none_iff] at noError
          exact noError.1
        exact .call (proceeding noErrorBefore)
          (tended.proceeds ordered.2 isAfter noError) afterTended

/-! ## Elements -/

theorem lastContent_append (name : String) (calls : List Call) (call : Call) :
    lastContent name (calls ++ [call]) =
      (call.contentOf name).or (lastContent name calls) := by
  induction calls with
  | nil =>
      exact Option.none_or.trans Option.or_none.symm
  | cons first calls inductionHypothesis =>
      rw [List.cons_append, lastContent, lastContent, inductionHypothesis,
        Option.or_assoc]

/-- An element is entered as its content says, without attributes. -/
inductive EnteredAs (name : String) : Option Content → Option Element → Prop
  | missing : EnteredAs name none none
  | declared {atom : Atom} {content : Content} {start : Nat} :
      atom.name = name →
      EnteredAs name (some content)
        (some { atom, content := content.kind, start, model := content.text })

/-- The content that was declared last holds. -/
theorem Proceeding.enteredAs (proceeding : Proceeding calls declarations)
    (name : String) :
    EnteredAs name (lastContent name calls)
      (declarations.elements.find? name) := by
  induction proceeding with
  | new =>
      exact .missing
  | @call calls before after call _ proceeds _ inductionHypothesis =>
      rw [lastContent_append]
      cases proceeds with
      | setStateLimit =>
          exact inductionHypothesis
      | declareAttributes =>
          exact inductionHypothesis
      | @declareElement atom content start compiled store _ _ _ =>
          rw [Call.contentOf]
          let element : Element :=
            { atom, content := content.kind, start, model := content.text }
          change EnteredAs name _
            ((before.elements.insert atom.name element).find? name)
          rw [Register.find?_insert]
          by_cases same : name = atom.name
          · rw [if_pos same, if_pos same, Option.some_or]
            exact .declared same.symm
          · rw [if_neg same, if_neg same, Option.none_or]
            exact inductionHypothesis

/-! ## Attributes -/

/-- The attributes that the call declares for an element. -/
def Call.attributesOf (name : String) : Call → Option (List Attribute)
  | declareAttributes element attributes =>
    if name = element then some attributes else none
  | setStateLimit _ | declareElement _ _ | recordError _ => none

/-- The attribute lists that the calls declare for an element, in order. -/
def attributeLists (name : String) (calls : List Call) :
    List (List Attribute) :=
  calls.filterMap (Call.attributesOf name)

theorem attributeLists_append (name : String) (calls : List Call)
    (call : Call) :
    attributeLists name (calls ++ [call]) =
      attributeLists name calls ++ (call.attributesOf name).toList := by
  rw [attributeLists, List.filterMap_append, ← attributeLists]
  cases isLists : call.attributesOf name with
  | none =>
      rw [List.filterMap_cons_none isLists]
      rfl
  | some attributes =>
      rw [List.filterMap_cons_some isLists]
      rfl

/-- The attribute lists for an element are kept one behind the other. -/
theorem Proceeding.find?_attributes
    (proceeding : Proceeding calls declarations) (name : String) :
    declarations.attributes.find? name =
      if attributeLists name calls = [] then none
      else some (attributeLists name calls).flatten := by
  induction proceeding with
  | new =>
      rfl
  | @call calls before after call _ proceeds _ inductionHypothesis =>
      rw [attributeLists_append]
      cases proceeds with
      | setStateLimit =>
          rw [Call.attributesOf, Option.toList_none, List.append_nil]
          exact inductionHypothesis
      | declareElement _ _ _ =>
          rw [Call.attributesOf, Option.toList_none, List.append_nil]
          exact inductionHypothesis
      | @declareAttributes element attributes =>
          rw [declareAttributes, Register.find?_alter, Call.attributesOf]
          by_cases same : name = element
          · rw [if_pos same, if_pos same, ← same, inductionHypothesis,
              Option.toList_some,
              if_neg (List.append_ne_nil_of_right_ne_nil _
                (List.cons_ne_nil attributes [])),
              List.flatten_append, List.flatten_singleton]
            cases attributeLists name calls with
            | nil => rfl
            | cons first rest => rfl
          · rw [if_neg same, if_neg same, inductionHypothesis,
              Option.toList_none, List.append_nil]

/-! ## References -/

/-- The call declares a content that refers to the name. -/
def Call.RefersTo (name : String) : Call → Prop
  | declareElement _ content => name ∈ content.names
  | setStateLimit _ | declareAttributes _ _ | recordError _ => False

/-- Names stay collected when the content that refers to them is replaced. -/
theorem Proceeding.mem_referencedNames_iff
    (proceeding : Proceeding calls declarations) (name : String) :
    name ∈ declarations.referencedNames ↔
      ∃ call ∈ calls, call.RefersTo name := by
  induction proceeding with
  | new =>
      refine iff_of_false List.not_mem_nil ?_
      intro refers
      obtain ⟨call, impossible, _⟩ := refers
      exact absurd impossible List.not_mem_nil
  | @call calls before after call _ proceeds _ inductionHypothesis =>
      have isCollected : name ∈ after.referencedNames ↔
          name ∈ before.referencedNames ∨ call.RefersTo name := by
        cases proceeds with
        | setStateLimit =>
            exact (or_false _).to_iff.symm
        | @declareElement atom content start compiled store _ _ _ =>
            exact mem_referencedNames_addReferences before content name
        | declareAttributes =>
            exact (or_false _).to_iff.symm
      rw [isCollected, inductionHypothesis]
      simp only [List.mem_append, List.mem_singleton, or_and_right,
        exists_or, exists_eq_left]

end Declarations

end ContentModel
