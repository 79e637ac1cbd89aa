import ContentModel.Grammar.Declarations
import ContentModel.Proofs.Grammar.Content
import ContentModel.Proofs.Register
import Mathlib.Logic.Function.Basic

/-!
# Declarations in any order

Every declared element has an automaton with an area of its own. Declaring an
element again gives up the area of the earlier automaton and no other node, so
the other elements keep their automata whatever is declared in between.

The invariant is `Holds`. Main statement: calls in any order do not fail, and
what is declared last for a name is what holds for it (`run_holds`).
-/

namespace ContentModel

open Automaton

namespace Declarations

/-! ## Elements and their automata -/

/-- An element is entered as declared, with an automaton of its content. -/
structure Describes (store : Store) (content : Content) (element : Element)
    (area : Set Nat) : Prop where
  kind_eq : element.content = content.kind
  model_eq : element.model = content.text
  isDefined : element.isUndefined = false
  confined : store.Confined element.start area
  accepts : store.Accepts element.start content.language

theorem Describes.frame {before after : Store} {content : Content}
    {element : Element} {area : Set Nat} (sound : before.Sound)
    (afterSound : after.Sound)
    (describes : Describes before content element area)
    (kept : ∀ id, id ∈ area ∨ before.isShared id = true →
      ∀ node, before.node id = .ok node → after.node id = .ok node) :
    Describes after content element area := by
  obtain ⟨confined, sameWalk⟩ :=
    describes.confined.frame sound afterSound kept
  constructor
  · exact describes.kind_eq
  · exact describes.model_eq
  · exact describes.isDefined
  · exact confined
  · intro word
    rw [sameWalk]
    exact describes.accepts word

/-- The declared elements are those that have a content, and their automata
have areas that do not meet. -/
structure Holds (declarations : Declarations)
    (contents : String → Option Content) (area : String → Set Nat) :
    Prop where
  sound : declarations.store.Sound
  standard : declarations.store.Standard
  present : ∀ name element,
    declarations.elements.find? name = some element →
    element.name = name ∧ ∃ content, contents name = some content ∧
      Describes declarations.store content element (area name)
  declared : ∀ name content, contents name = some content →
    ∃ element, declarations.elements.find? name = some element
  absent : ∀ name, declarations.elements.find? name = none → area name = ∅
  apart : ∀ left right, left ≠ right → Disjoint (area left) (area right)

variable {declarations after : Declarations}
  {contents : String → Option Content} {area : String → Set Nat}

theorem holds_new : Holds {} (fun _ => none) fun _ => ∅ where
  sound := Store.sound_new
  standard := Store.standard_new
  present _ _ impossible := by
    cases impossible
  declared _ _ impossible := by
    cases impossible
  absent _ _ := rfl
  apart _ _ _ := Set.disjoint_empty _

/-- A fresh area in the place of another. -/
theorem disjoint_update {name : String} {fresh : Set Nat}
    (apart : ∀ left right, left ≠ right → Disjoint (area left) (area right))
    (isFresh : ∀ name, Disjoint fresh (area name)) (left right : String)
    (different : left ≠ right) :
    Disjoint (Function.update area name fresh left)
      (Function.update area name fresh right) := by
  by_cases isLeft : left = name
  · subst isLeft
    rw [Function.update_self, Function.update_of_ne (Ne.symm different)]
    exact isFresh right
  · rw [Function.update_of_ne isLeft]
    by_cases isRight : right = name
    · subst isRight
      rw [Function.update_self]
      exact (isFresh left).symm
    · rw [Function.update_of_ne isRight]
      exact apart left right different

namespace Holds

theorem live (holds : Holds declarations contents area) {name : String}
    {id : Nat} (member : id ∈ area name) :
    declarations.store.Live id ∧ declarations.store.isShared id = false := by
  cases found : declarations.elements.find? name with
  | none =>
      rw [holds.absent name found] at member
      exact absurd member (Set.notMem_empty id)
  | some element =>
      obtain ⟨_, content, _, describes⟩ := holds.present name element found
      obtain ⟨node, isNode, _⟩ := describes.confined.node id member
      exact ⟨⟨node, isNode⟩, describes.confined.notShared holds.sound member⟩

/-- What is declared stays declared while nodes in use stay. -/
theorem keeps (holds : Holds declarations contents area) {store : Store}
    (sound : store.Sound) (standard : store.Standard)
    (keeps : Store.Keeps declarations.store store) :
    Holds { declarations with store } contents area where
  sound := sound
  standard := standard
  present name element found := by
    obtain ⟨isName, content, isContent, describes⟩ :=
      holds.present name element found
    exact ⟨isName, content, isContent,
      describes.frame holds.sound sound fun id _ => keeps id⟩
  declared := holds.declared
  absent := holds.absent
  apart := holds.apart

/-- An element takes the place of the one of the same name, whose area is given
up. -/
theorem replace (holds : Holds declarations contents area)
    {element : Element} {content : Content} {fresh : Set Nat} {store : Store}
    (describes : Describes declarations.store content element fresh)
    (isFresh : ∀ name, Disjoint fresh (area name))
    (sound : store.Sound) (standard : store.Standard)
    (kept : ∀ id, id ∉ area element.name →
      ∀ node, declarations.store.node id = .ok node →
        store.node id = .ok node) :
    Holds
      { declarations with
        store
        elements := declarations.elements.insert element.name element }
      (Function.update contents element.name (some content))
      (Function.update area element.name fresh) := by
  -- Only the area that is given up may have changed.
  have keptIn : ∀ own, Disjoint own (area element.name) →
      ∀ id, id ∈ own ∨ declarations.store.isShared id = true →
        ∀ node, declarations.store.node id = .ok node →
          store.node id = .ok node := by
    intro own apart id isOwn
    apply kept id
    intro member
    cases isOwn with
    | inl inOwn => exact Set.disjoint_left.mp apart inOwn member
    | inr shared =>
        rw [(holds.live member).2] at shared
        cases shared
  constructor
  · exact sound
  · exact standard
  · intro name other found
    rw [Register.find?_insert] at found
    by_cases same : name = element.name
    · subst same
      rw [if_pos rfl] at found
      cases found
      rw [Function.update_self, Function.update_self]
      refine ⟨rfl, content, rfl, ?_⟩
      exact describes.frame holds.sound sound
        (keptIn fresh (isFresh element.name))
    · rw [if_neg same] at found
      rw [Function.update_of_ne same, Function.update_of_ne same]
      obtain ⟨isName, own, isOwn, describesOwn⟩ :=
        holds.present name other found
      refine ⟨isName, own, isOwn, ?_⟩
      exact describesOwn.frame holds.sound sound
        (keptIn (area name) (holds.apart name _ same))
  · intro name other isContent
    rw [Register.find?_insert]
    by_cases same : name = element.name
    · exact ⟨element, if_pos same⟩
    · rw [Function.update_of_ne same] at isContent
      obtain ⟨earlier, found⟩ := holds.declared name other isContent
      exact ⟨earlier, (if_neg same).trans found⟩
  · intro name missing
    rw [Register.find?_insert] at missing
    by_cases same : name = element.name
    · rw [if_pos same] at missing
      cases missing
    · rw [if_neg same] at missing
      rw [Function.update_of_ne same]
      exact holds.absent name missing
  · exact disjoint_update holds.apart isFresh

/-- Entering an element does not fail. -/
theorem enter (holds : Holds declarations contents area)
    {element : Element} {content : Content} {fresh : Set Nat}
    (describes : Describes declarations.store content element fresh)
    (isFresh : ∀ name, Disjoint fresh (area name)) :
    ∃ after, declarations.enter element = .ok after ∧
      after.error = declarations.error ∧
      Holds after (Function.update contents element.name (some content))
        (Function.update area element.name fresh) := by
  rw [Declarations.enter]
  cases found : declarations.elements.find? element.name with
  | none =>
      exact ⟨_, rfl, rfl, holds.replace describes isFresh holds.sound
        holds.standard fun _ _ _ isNode => isNode⟩
  | some previous =>
      obtain ⟨_, earlier, _, before⟩ :=
        holds.present element.name previous found
      obtain ⟨count, store, isReleased, sound, stays, kept⟩ :=
        before.confined.release holds.sound
      have standard := stays.standard holds.sound sound holds.standard
      refine ⟨_, ?_, ?_,
        holds.replace describes isFresh sound standard kept⟩
      · simp only [isReleased, ok_bind]
        rfl
      · rfl

end Holds

/-! ## Single calls -/

/-- A call went on: either with these contents, or with the earlier ones and an
error that was recorded. -/
def Continues (before : Declarations)
    (contents next : String → Option Content) (after : Declarations) : Prop :=
  (after.error = before.error ∧ ∃ area, Holds after next area) ∨
    (after.error ≠ none ∧ ∃ area, Holds after contents area)

theorem error_recordError (declarations : Declarations)
    (error : GrammarError) : (declarations.recordError error).error ≠ none := by
  rw [recordError]
  cases declarations.error with
  | none => exact Option.some_ne_none error
  | some first => exact Option.some_ne_none first

namespace Holds

/-- Only the store and the elements matter. -/
theorem congr (holds : Holds declarations contents area)
    (sameStore : after.store = declarations.store)
    (sameElements : after.elements = declarations.elements) :
    Holds after contents area := by
  obtain ⟨store, elements, attributes, referenced, error⟩ := after
  subst sameStore
  subst sameElements
  exact ⟨holds.sound, holds.standard, holds.present, holds.declared,
    holds.absent, holds.apart⟩

theorem continues_recordError (holds : Holds declarations contents area)
    (error : GrammarError) (next : String → Option Content) :
    Continues declarations contents next (declarations.recordError error) :=
  Or.inr ⟨error_recordError declarations error, area, holds.congr rfl rfl⟩

end Holds

section DeclareElement

variable {atom : Atom} {content : Content} {store : Store}

theorem declareElement_of_incomplete (incomplete : content.isComplete = false) :
    declarations.declareElement atom content =
      .ok (declarations.recordError (.incomplete atom.name)) := by
  rw [declareElement, incomplete]
  rfl

theorem declareElement_of_compiled {start : Nat}
    (complete : content.isComplete = true)
    (isCompiled : content.compile declarations.store =
      .ok (.ok start, store)) :
    declarations.declareElement atom content =
      { declarations.addReferences content.atoms with store }.enter
        { atom, content := content.kind, start, model := content.text } := by
  have isReferring :
      content.compile (declarations.addReferences content.atoms).store =
        .ok (.ok start, store) := isCompiled
  rw [declareElement, complete]
  simp only [Bool.not_true, Bool.false_eq_true, if_false, isReferring,
    ok_bind]

theorem declareElement_of_failure {failure : StateLimitExceeded}
    (complete : content.isComplete = true)
    (isCompiled : content.compile declarations.store =
      .ok (.error failure, store)) :
    declarations.declareElement atom content =
      .ok ({ declarations.addReferences content.atoms with
        store }.recordError (.tooLarge atom.name failure)) := by
  have isReferring :
      content.compile (declarations.addReferences content.atoms).store =
        .ok (.error failure, store) := isCompiled
  rw [declareElement, complete]
  simp only [Bool.not_true, Bool.false_eq_true, if_false, isReferring,
    ok_bind]
  rfl

/-- A declaration does not fail. The content holds from then on, unless an
error is recorded. -/
theorem Holds.continues_declareElement
    (holds : Holds declarations contents area) (atom : Atom)
    (lowers : content.Lowers) :
    ∃ after, declarations.declareElement atom content = .ok after ∧
      Continues declarations contents
        (Function.update contents atom.name (some content)) after := by
  cases complete : content.isComplete with
  | false =>
      exact ⟨_, declareElement_of_incomplete complete,
        holds.continues_recordError (.incomplete atom.name) _⟩
  | true =>
      have referring :
          Holds (declarations.addReferences content.atoms) contents area :=
        holds.congr rfl rfl
      cases Content.compile_outcome holds.sound holds.standard lowers with
      | inl succeeds =>
          obtain ⟨start, fresh, store, isCompiled, added⟩ := succeeds
          have kept := referring.keeps added.sound added.standard added.keeps
          have isFresh : ∀ name, Disjoint fresh (area name) := by
            intro name
            apply Set.disjoint_left.mpr
            intro id inFresh inArea
            exact added.isNew id inFresh (holds.live inArea).1
          have describes : Describes store content
              { atom, content := content.kind, start, model := content.text }
              fresh :=
            ⟨rfl, rfl, rfl, added.confined, added.accepts⟩
          obtain ⟨entered, isEntered, sameError, holdsEntered⟩ :=
            kept.enter describes isFresh
          rw [declareElement_of_compiled complete isCompiled]
          exact ⟨entered, isEntered, Or.inl ⟨sameError, _, holdsEntered⟩⟩
      | inr fails =>
          obtain ⟨store, isCompiled, grown⟩ := fails
          have kept := referring.keeps grown.sound
            (grown.standard holds.sound holds.standard) grown.keeps
          exact ⟨_, declareElement_of_failure complete isCompiled,
            Or.inr ⟨error_recordError _ _, area, kept.congr rfl rfl⟩⟩

end DeclareElement

/-! ## Runs of calls -/

/-- A call while a grammar is read. -/
inductive Call where
  | setStateLimit (limit : Nat)
  | declareElement (atom : Atom) (content : Content)
  | declareAttributes (element : String) (attributes : List Attribute)
  | recordError (error : GrammarError)

namespace Call

/-- What the call does. -/
def apply (declarations : Declarations) :
    Call → Except Fault Declarations
  | setStateLimit limit => .ok (declarations.setStateLimit limit)
  | declareElement atom content => declarations.declareElement atom content
  | declareAttributes element attributes =>
    .ok (declarations.declareAttributes element attributes)
  | recordError error => .ok (declarations.recordError error)

/-- The content that the call declares for a name. -/
def contentOf (name : String) : Call → Option Content
  | declareElement atom content =>
    if name = atom.name then some content else none
  | _ => none

/-- A declared content can be lowered. -/
def Lowers : Call → Prop
  | declareElement _ content => content.Lowers
  | _ => True

end Call

/-- The declarations after these calls. -/
def run (calls : List Call) : Except Fault Declarations :=
  calls.foldlM Call.apply {}

/-- The content that is declared last for a name. -/
def lastContent (name : String) : List Call → Option Content
  | [] => none
  | call :: calls => (lastContent name calls).or (call.contentOf name)

theorem Holds.continues_apply (holds : Holds declarations contents area)
    {call : Call} (lowers : call.Lowers) :
    ∃ after, call.apply declarations = .ok after ∧
      Continues declarations contents
        (fun name => (call.contentOf name).or (contents name)) after := by
  cases call with
  | setStateLimit limit =>
      have limited := holds.sound.setStateLimit limit
      have standard : Store.Standard
          { declarations.store with stateLimit := limit } :=
        ⟨holds.standard.any, holds.standard.empty⟩
      exact ⟨_, rfl, Or.inl ⟨rfl, area,
        holds.keeps limited standard fun _ _ found => found⟩⟩
  | declareElement atom content =>
      obtain ⟨after, isAfter, continues⟩ :=
        holds.continues_declareElement atom lowers
      have sameContents :
          Function.update contents atom.name (some content) = fun name =>
            ((Call.declareElement atom content).contentOf name).or
              (contents name) := by
        funext name
        rw [Call.contentOf]
        by_cases same : name = atom.name
        · rw [same, Function.update_self, if_pos rfl, Option.some_or]
        · rw [Function.update_of_ne same, if_neg same, Option.none_or]
      rw [sameContents] at continues
      exact ⟨after, isAfter, continues⟩
  | declareAttributes element attributes =>
      exact ⟨_, rfl, Or.inl ⟨rfl, area, holds.congr rfl rfl⟩⟩
  | recordError error =>
      exact ⟨_, rfl, holds.continues_recordError error _⟩

private theorem foldlM_holds {calls : List Call}
    (holds : Holds declarations contents area)
    (lowers : ∀ call ∈ calls, call.Lowers) :
    ∃ after contents' area',
      calls.foldlM Call.apply declarations = .ok after ∧
      Holds after contents' area' ∧
      (after.error = none → declarations.error = none ∧
        contents' = fun name =>
          (lastContent name calls).or (contents name)) := by
  induction calls generalizing declarations contents area with
  | nil =>
      exact ⟨declarations, contents, area, rfl, holds, fun noError =>
        ⟨noError, rfl⟩⟩
  | cons call calls inductionHypothesis =>
      obtain ⟨middle, isMiddle, continues⟩ :=
        holds.continues_apply (lowers call List.mem_cons_self)
      have later := fun other member =>
        lowers other (List.mem_cons_of_mem call member)
      rw [List.foldlM_cons, isMiddle]
      cases continues with
      | inl goesOn =>
          obtain ⟨sameError, _, holdsMiddle⟩ := goesOn
          obtain ⟨after, contents', area', isAfter, holdsAfter, last⟩ :=
            inductionHypothesis holdsMiddle later
          refine ⟨after, contents', area', isAfter, holdsAfter, ?_⟩
          intro noError
          obtain ⟨noneBefore, isLast⟩ := last noError
          rw [sameError] at noneBefore
          refine ⟨noneBefore, ?_⟩
          rw [isLast]
          funext name
          rw [lastContent, Option.or_assoc]
      | inr failed =>
          obtain ⟨hasError, _, holdsMiddle⟩ := failed
          obtain ⟨after, contents', area', isAfter, holdsAfter, last⟩ :=
            inductionHypothesis holdsMiddle later
          refine ⟨after, contents', area', isAfter, holdsAfter, ?_⟩
          intro noError
          exact absurd (last noError).1 hasError

/-- Calls in any order do not fail. If no error was recorded, what was declared
last for a name holds for it. -/
theorem run_holds {calls : List Call}
    (lowers : ∀ call ∈ calls, call.Lowers) :
    ∃ declarations contents area, run calls = .ok declarations ∧
      Holds declarations contents area ∧
      (declarations.error = none →
        contents = fun name => lastContent name calls) := by
  obtain ⟨after, contents, area, isAfter, holds, last⟩ :=
    foldlM_holds holds_new lowers
  refine ⟨after, contents, area, isAfter, holds, ?_⟩
  intro noError
  rw [(last noError).2]
  funext name
  rw [Option.or_none]

end Declarations

end ContentModel
