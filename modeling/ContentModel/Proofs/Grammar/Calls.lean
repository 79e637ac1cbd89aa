import ContentModel.Proofs.Automaton.Ownership
import ContentModel.Proofs.Grammar.Declarations

/-!
# What calls do to declarations

No call fails, whatever was declared before: the automata of different elements
have no node in common but shared ones (`Tended`), so the release of a replaced
element harms no other one (`Relieved`). What a call can come to is listed in
`Call.Results`.
-/

namespace ContentModel

open Automaton

/-! ## Contents -/

namespace Content

/-- The bounds of a declared model are in order. -/
def BoundsOrdered : Content → Prop
  | children model => model.BoundsOrdered
  | empty | any | mixed _ => True

theorem BoundsOrdered.elementModel {content : Content}
    (ordered : content.BoundsOrdered) {model : Model}
    (isModel : content.elementModel = some model) : model.BoundsOrdered := by
  cases content with
  | empty =>
      cases isModel
  | any =>
      cases isModel
  | mixed atoms =>
      cases isModel
      exact boundsOrdered_mixedModel atoms
  | children model =>
      cases isModel
      exact ordered

/-- The automaton of the content has more states than this. -/
def Exceeds (content : Content) (limit : Nat) : Prop :=
  ∃ model, content.elementModel = some model ∧ model.Exceeds limit

theorem exceeds_iff {content : Content} {model : Model}
    (isModel : content.elementModel = some model) (limit : Nat) :
    content.Exceeds limit ↔ model.Exceeds limit := by
  rw [Exceeds, isModel]
  simp only [Option.some.injEq, exists_eq_left']

section Compile

variable {store : Store} {content : Content}

theorem compile_eq {model : Model}
    (isModel : content.elementModel = some model) (store : Store) :
    content.compile store = store.compileModel model := by
  cases content with
  | empty => cases isModel
  | any => cases isModel
  | mixed atoms =>
      cases isModel
      rfl
  | children model =>
      cases isModel
      rfl

/-- A content without a model has a shared node. -/
theorem exists_compile_shared (sound : store.Sound) (standard : store.Standard)
    (noModel : content.elementModel = none) :
    ∃ start after, content.compile store = .ok (.ok start, after) ∧
      store.Returns (.ok start) after := by
  cases content with
  | empty =>
      exact ⟨_, _, rfl, Store.emptyNode_returns sound standard⟩
  | any =>
      exact ⟨_, _, rfl, Store.anyNode_returns sound standard⟩
  | mixed atoms =>
      cases noModel
  | children model =>
      cases noModel

/-- A compilation does not fail. It gives up if the content has more states
than the store allows, and returns its automaton if not. -/
theorem compile_cases (sound : store.Sound) (standard : store.Standard)
    (ordered : content.BoundsOrdered) :
    (¬ content.Exceeds store.stateLimit ∧ ∃ start after,
      content.compile store = .ok (.ok start, after) ∧
      store.Returns (.ok start) after) ∨
    (content.Exceeds store.stateLimit ∧ ∃ after,
      content.compile store = .ok (.error ⟨store.stateLimit⟩, after) ∧
      store.Grown [] after) := by
  cases isModel : content.elementModel with
  | none =>
      refine Or.inl ⟨?_, exists_compile_shared sound standard isModel⟩
      intro exceeds
      obtain ⟨model, impossible, _⟩ := exceeds
      rw [isModel] at impossible
      cases impossible
  | some model =>
      rw [exceeds_iff isModel, compile_eq isModel]
      exact Store.compileModel_cases sound standard
        (ordered.elementModel isModel)

end Compile

end Content

namespace Declarations

variable {declarations before after : Declarations} {store : Store}
  {element : Element}

/-! ## Elements that are given up -/

/-- The automaton of an element that is replaced is given up. -/
inductive GivesUp (store : Store) : Option Element → Store → Prop
  | nothing : GivesUp store none store
  | release {previous : Element} {count : Nat} {after : Store} :
      store.release previous.start = .ok (count, after) →
      GivesUp store (some previous) after

theorem enter_eq_ok_iff :
    declarations.enter element = .ok after ↔
      ∃ store,
        GivesUp declarations.store
          (declarations.elements.find? element.name) store ∧
        after = { declarations with
          store
          elements := declarations.elements.insert element.name element } := by
  rw [enter]
  constructor
  · intro isAfter
    cases found : declarations.elements.find? element.name with
    | none =>
        rw [found] at isAfter
        cases isAfter
        exact ⟨_, .nothing, rfl⟩
    | some previous =>
        rw [found] at isAfter
        simp only [bind_eq_ok_iff] at isAfter
        obtain ⟨⟨count, store⟩, isReleased, same⟩ := isAfter
        cases same
        exact ⟨store, .release isReleased, rfl⟩
  · intro entered
    obtain ⟨store, givesUp, same⟩ := entered
    rw [same]
    generalize declarations.elements.find? element.name = earlier at givesUp ⊢
    cases givesUp with
    | nothing =>
        rfl
    | release isReleased =>
        simp only [isReleased, ok_bind]
        rfl

theorem GivesUp.stateLimit_eq {before after : Store}
    {earlier : Option Element} (givesUp : GivesUp before earlier after) :
    after.stateLimit = before.stateLimit := by
  cases givesUp with
  | nothing => rfl
  | release isReleased => exact Store.stateLimit_release isReleased

/-- The nodes that are given up with an earlier element. -/
def givenUp (store : Store) (earlier : Option Element) : Set Nat :=
  {id | ∃ previous, earlier = some previous ∧
    id ∈ store.ownNodes previous.start}

/-- What happens to a store when an earlier element is given up. -/
structure Relieved (before : Store) (earlier : Option Element)
    (after : Store) : Prop where
  sound : after.Sound
  standard : after.Standard
  live_iff : ∀ id,
    after.Live id ↔ before.Live id ∧ id ∉ givenUp before earlier
  kept : ∀ id, id ∉ givenUp before earlier → ∀ node,
    before.node id = .ok node → after.node id = .ok node

/-- An earlier element can be given up. -/
theorem exists_givesUp {before : Store} {earlier : Option Element}
    (sound : before.Sound) (standard : before.Standard)
    (intact : ∀ previous, earlier = some previous →
      before.Intact previous.start) :
    ∃ after, GivesUp before earlier after := by
  cases earlier with
  | none =>
      exact ⟨before, .nothing⟩
  | some previous =>
      obtain ⟨count, after, isReleased, _⟩ :=
        (intact previous rfl).release sound standard
      exact ⟨after, .release isReleased⟩

theorem GivesUp.relieved {before after : Store} {earlier : Option Element}
    (givesUp : GivesUp before earlier after) (sound : before.Sound)
    (standard : before.Standard)
    (intact : ∀ previous, earlier = some previous →
      before.Intact previous.start) :
    Relieved before earlier after := by
  cases givesUp with
  | nothing =>
      have nothing : ∀ id, id ∉ givenUp before none := by
        intro id given
        obtain ⟨previous, impossible, _⟩ := given
        cases impossible
      exact ⟨sound, standard, fun id => (and_iff_left (nothing id)).symm,
        fun _ _ _ found => found⟩
  | @release previous count _ isReleased =>
      obtain ⟨_, store, result, afterSound, afterStandard, live_iff, kept⟩ :=
        (intact previous rfl).release sound standard
      rw [isReleased] at result
      cases result
      have given_iff : ∀ id, id ∈ givenUp before (some previous) ↔
          id ∈ before.ownNodes previous.start := by
        intro id
        simp only [givenUp, Option.some.injEq, exists_eq_left',
          Set.mem_ofPred_eq]
      refine ⟨afterSound, afterStandard, ?_, ?_⟩
      · intro id
        rw [given_iff]
        exact live_iff id
      · intro id notGiven
        rw [given_iff] at notGiven
        exact kept id notGiven

namespace Relieved

variable {before after : Store} {earlier : Option Element} {start : Nat}
  (relieved : Relieved before earlier after)

include relieved

theorem keeps : Store.Keeps after before := by
  intro id node isNode
  obtain ⟨⟨other, wasNode⟩, notGiven⟩ := (relieved.live_iff id).mp
    ⟨node, isNode⟩
  have stays := relieved.kept id notGiven other wasNode
  rw [isNode] at stays
  cases stays
  exact wasNode

/-- Nothing that is apart from the automaton that is given up leads into it. -/
theorem kept_of_apart
    (apart : ∀ previous, earlier = some previous →
      Disjoint (before.ownNodes start) (before.ownNodes previous.start)) :
    ∀ id, before.Reaches start id → ∀ node,
      before.node id = .ok node → after.node id = .ok node := by
  intro id reaches
  apply relieved.kept id
  intro given
  obtain ⟨previous, isPrevious, own⟩ := given
  exact Store.not_own_of_reaches (apart previous isPrevious) reaches own

theorem ownNodes_eq (sound : before.Sound) (intact : before.Intact start)
    (apart : ∀ previous, earlier = some previous →
      Disjoint (before.ownNodes start) (before.ownNodes previous.start)) :
    after.ownNodes start = before.ownNodes start :=
  intact.ownNodes_eq (relieved.kept_of_apart apart) sound relieved.sound

end Relieved

/-! ## Separate automata -/

/-- Each element bears the name under which it is found, its automaton is in
use, and it owns no node of another element. -/
structure Tended (declarations : Declarations) : Prop where
  sound : declarations.store.Sound
  standard : declarations.store.Standard
  named : ∀ name element,
    declarations.elements.find? name = some element → element.name = name
  intact : ∀ name element,
    declarations.elements.find? name = some element →
    declarations.store.Intact element.start
  apart : ∀ left right leftElement rightElement, left ≠ right →
    declarations.elements.find? left = some leftElement →
    declarations.elements.find? right = some rightElement →
    Disjoint (declarations.store.ownNodes leftElement.start)
      (declarations.store.ownNodes rightElement.start)

theorem tended_new : Tended {} where
  sound := Store.sound_new
  standard := Store.standard_new
  named _ _ impossible := by
    cases impossible
  intact _ _ impossible := by
    cases impossible
  apart _ _ _ _ _ impossible := by
    cases impossible

namespace Tended

/-- Only the store and the elements matter. -/
theorem congr (tended : Tended declarations)
    (sameStore : after.store = declarations.store)
    (sameElements : after.elements = declarations.elements) :
    Tended after := by
  obtain ⟨store, elements, attributes, referenced, error⟩ := after
  subst sameStore
  subst sameElements
  exact ⟨tended.sound, tended.standard, tended.named, tended.intact,
    tended.apart⟩

/-- An automaton the nodes of which stay is in use and owns what it owned. -/
theorem stays (tended : Tended declarations) (sound : store.Sound)
    {name : String} (found : declarations.elements.find? name = some element)
    (kept : ∀ id, declarations.store.Reaches element.start id → ∀ node,
      declarations.store.node id = .ok node → store.node id = .ok node) :
    store.Intact element.start ∧
      store.ownNodes element.start =
        declarations.store.ownNodes element.start := by
  have intact := tended.intact name element found
  exact ⟨intact.frame kept, intact.ownNodes_eq kept tended.sound sound⟩

/-- What is declared stays declared while nodes in use stay. -/
theorem keeps (tended : Tended declarations) (sound : store.Sound)
    (standard : store.Standard)
    (keeps : Store.Keeps declarations.store store) :
    Tended { declarations with store } where
  sound := sound
  standard := standard
  named := tended.named
  intact name element found :=
    (tended.stays sound found fun id _ => keeps id).1
  apart left right leftElement rightElement different isLeft isRight := by
    have disjoint := tended.apart left right leftElement rightElement
      different isLeft isRight
    rw [← (tended.stays sound isLeft fun id _ => keeps id).2,
      ← (tended.stays sound isRight fun id _ => keeps id).2] at disjoint
    exact disjoint

theorem grow {created : List Nat} (tended : Tended declarations)
    (grown : declarations.store.Grown created store) :
    Tended { declarations with store } :=
  tended.keeps grown.sound (grown.standard tended.sound tended.standard)
    grown.keeps

/-- An element takes the place of the one of the same name. The automata of the
other elements stay. -/
theorem insert (tended : Tended declarations) (sound : store.Sound)
    (standard : store.Standard) (intact : store.Intact element.start)
    (kept : ∀ name other, name ≠ element.name →
      declarations.elements.find? name = some other →
      ∀ id, declarations.store.Reaches other.start id → ∀ node,
        declarations.store.node id = .ok node → store.node id = .ok node)
    (isFresh : ∀ name other, name ≠ element.name →
      declarations.elements.find? name = some other →
      Disjoint (store.ownNodes element.start)
        (declarations.store.ownNodes other.start)) :
    Tended
      { declarations with
        store
        elements := declarations.elements.insert element.name element } := by
  -- An entry is the new one, or one of another name that stays.
  have entry : ∀ name other,
      (declarations.elements.insert element.name element).find? name =
        some other →
      (name = element.name ∧ other = element) ∨
        (name ≠ element.name ∧ other.name = name ∧
          store.Intact other.start ∧
          Disjoint (store.ownNodes element.start)
            (store.ownNodes other.start) ∧
          declarations.elements.find? name = some other ∧
          store.ownNodes other.start =
            declarations.store.ownNodes other.start) := by
    intro name other found
    rw [Register.find?_insert] at found
    split at found
    · rename_i same
      exact Or.inl ⟨same, (Option.some.inj found).symm⟩
    · rename_i different
      obtain ⟨stillIntact, sameOwn⟩ :=
        tended.stays sound found (kept name other different found)
      refine Or.inr ⟨different, tended.named name other found, stillIntact,
        ?_, found, sameOwn⟩
      rw [sameOwn]
      exact isFresh name other different found
  constructor
  · exact sound
  · exact standard
  · intro name other found
    rcases entry name other found with ⟨same, isNew⟩ | ⟨_, isName, _⟩
    · rw [isNew, same]
    · exact isName
  · intro name other found
    rcases entry name other found with ⟨_, isNew⟩ | ⟨_, _, stillIntact, _⟩
    · rw [isNew]
      exact intact
    · exact stillIntact
  · intro left right leftElement rightElement different isLeft isRight
    rcases entry left leftElement isLeft with
      ⟨leftName, leftNew⟩ | ⟨leftOther, _, _, leftFresh, leftFound, leftOwn⟩
    · rcases entry right rightElement isRight with
        ⟨rightName, _⟩ | ⟨_, _, _, rightFresh, _⟩
      · exact absurd (leftName.trans rightName.symm) different
      · rw [leftNew]
        exact rightFresh
    · rcases entry right rightElement isRight with
        ⟨_, rightNew⟩ | ⟨_, _, _, _, rightFound, rightOwn⟩
      · rw [rightNew]
        exact leftFresh.symm
      · have disjoint := tended.apart left right leftElement rightElement
          different leftFound rightFound
        rw [← leftOwn, ← rightOwn] at disjoint
        exact disjoint

theorem relieved (tended : Tended declarations) {name : String}
    (givesUp : GivesUp declarations.store
      (declarations.elements.find? name) store) :
    Relieved declarations.store (declarations.elements.find? name) store :=
  givesUp.relieved tended.sound tended.standard
    fun previous => tended.intact name previous

/-- Entering an element does not fail. Only the automaton of the earlier
element of the same name is released. -/
theorem enter (tended : Tended declarations)
    (intact : declarations.store.Intact element.start)
    (isFresh : ∀ name other,
      declarations.elements.find? name = some other →
      Disjoint (declarations.store.ownNodes element.start)
        (declarations.store.ownNodes other.start)) :
    ∃ store, declarations.enter element =
        .ok { declarations with
          store
          elements := declarations.elements.insert element.name element } ∧
      store.stateLimit = declarations.store.stateLimit ∧
      Store.Keeps store declarations.store ∧
      Tended
        { declarations with
          store
          elements := declarations.elements.insert element.name element } := by
  obtain ⟨store, givesUp⟩ := exists_givesUp tended.sound tended.standard
    fun previous => tended.intact element.name previous
  have relieved := tended.relieved givesUp
  have apart := isFresh element.name
  refine ⟨store, enter_eq_ok_iff.mpr ⟨store, givesUp, rfl⟩,
    givesUp.stateLimit_eq, relieved.keeps, ?_⟩
  apply tended.insert relieved.sound relieved.standard
    (intact.frame (relieved.kept_of_apart apart))
  · intro name other different found
    apply relieved.kept_of_apart
    intro previous
    exact tended.apart name element.name other previous different found
  · intro name other _ found
    rw [relieved.ownNodes_eq tended.sound intact apart]
    exact isFresh name other found

end Tended

/-! ## Single calls -/

/-- The bounds of a declared model are in order. -/
def Call.BoundsOrdered : Call → Prop
  | declareElement _ content => content.BoundsOrdered
  | setStateLimit _ | declareAttributes _ _ | recordError _ => True

/-- What a call can come to. A declaration of an element records an error if its
content is not filled in or has too many states, and enters the element if
not. -/
inductive Call.Results (before : Declarations) : Call → Declarations → Prop
  | setStateLimit {limit : Nat} :
      Results before (.setStateLimit limit) (before.setStateLimit limit)
  | incomplete {atom : Atom} {content : Content} :
      content.isComplete = false →
      Results before (.declareElement atom content)
        (before.recordError (.incomplete atom.name))
  | tooLarge {atom : Atom} {content : Content} {store : Store} :
      content.isComplete = true →
      content.Exceeds before.store.stateLimit →
      content.compile before.store =
        .ok (.error ⟨before.store.stateLimit⟩, store) →
      store.stateLimit = before.store.stateLimit →
      Results before (.declareElement atom content)
        ({ before.addReferences content.atoms with store }.recordError
          (.tooLarge atom.name ⟨before.store.stateLimit⟩))
  | entered {atom : Atom} {content : Content} {start : Nat}
      {compiled store : Store} :
      content.isComplete = true →
      ¬ content.Exceeds before.store.stateLimit →
      content.compile before.store = .ok (.ok start, compiled) →
      store.stateLimit = before.store.stateLimit →
      Store.Keeps store compiled →
      Results before (.declareElement atom content)
        { before.addReferences content.atoms with
          store
          elements := before.elements.insert atom.name
            { atom, content := content.kind, start, model := content.text } }
  | declareAttributes {element : String} {attributes : List Attribute} :
      Results before (.declareAttributes element attributes)
        (before.declareAttributes element attributes)
  | recordError {error : GrammarError} :
      Results before (.recordError error) (before.recordError error)

namespace Tended

/-- The automaton of a new content owns no node of those that there were. -/
theorem disjoint_of_returns {start : Nat} (tended : Tended before)
    (returns : before.store.Returns (.ok start) store) {name : String}
    {other : Element} (found : before.elements.find? name = some other) :
    Disjoint (store.ownNodes start) (store.ownNodes other.start) := by
  cases returns with
  | automaton grown intact own_iff =>
      rw [(tended.stays grown.sound found fun id _ => grown.keeps id).2]
      apply Set.disjoint_left.mpr
      intro id isNew isOld
      exact grown.isNew id ((own_iff id).mp isNew)
        (tended.intact name other found id isOld.1)

theorem exists_declareElement (tended : Tended before) (atom : Atom)
    {content : Content} (ordered : content.BoundsOrdered) :
    ∃ after, before.declareElement atom content = .ok after ∧
      (Call.declareElement atom content).Results before after ∧
      Tended after := by
  cases complete : content.isComplete with
  | false =>
      exact ⟨_, declareElement_of_incomplete complete, .incomplete complete,
        tended.congr rfl rfl⟩
  | true =>
      have referring : Tended (before.addReferences content.atoms) :=
        tended.congr rfl rfl
      cases Content.compile_cases tended.sound tended.standard ordered with
      | inl fits =>
          obtain ⟨notTooLarge, start, compiled, isCompiled, returns⟩ := fits
          let element : Element :=
            { atom, content := content.kind, start, model := content.text }
          have apart : ∀ name other,
              before.elements.find? name = some other →
              Disjoint (compiled.ownNodes element.start)
                (compiled.ownNodes other.start) :=
            fun _ _ found => tended.disjoint_of_returns returns found
          cases returns with
          | automaton grown intact own_iff =>
              have grows := referring.grow grown
              have isIntact : compiled.Intact element.start := intact
              obtain ⟨store, isEntered, sameLimit, keeps, entered⟩ :=
                grows.enter isIntact apart
              rw [declareElement_of_compiled complete isCompiled]
              exact ⟨_, isEntered, .entered complete notTooLarge isCompiled
                (sameLimit.trans grown.stateLimit_eq) keeps, entered⟩
      | inr exceeds =>
          obtain ⟨isTooLarge, store, isCompiled, grown⟩ := exceeds
          exact ⟨_, declareElement_of_failure complete isCompiled,
            .tooLarge complete isTooLarge isCompiled grown.stateLimit_eq,
            (referring.grow grown).congr rfl rfl⟩

/-- No call fails. -/
theorem exists_apply (tended : Tended before) {call : Call}
    (ordered : call.BoundsOrdered) :
    ∃ after, call.apply before = .ok after ∧ call.Results before after ∧
      Tended after := by
  cases call with
  | setStateLimit limit =>
      exact ⟨_, rfl, .setStateLimit,
        tended.keeps (tended.sound.setStateLimit limit)
          ⟨tended.standard.any, tended.standard.empty⟩
          fun _ _ found => found⟩
  | declareElement atom content =>
      exact tended.exists_declareElement atom ordered
  | declareAttributes element attributes =>
      exact ⟨_, rfl, .declareAttributes, tended.congr rfl rfl⟩
  | recordError error =>
      exact ⟨_, rfl, .recordError, tended.congr rfl rfl⟩

end Tended

/-! ## Runs of calls -/

/-- Calls one after the other, with what each of them came to. -/
inductive Runs : Declarations → List Call → Declarations → Prop
  | nil {declarations : Declarations} :
      Tended declarations → Runs declarations [] declarations
  | cons {before middle after : Declarations} {call : Call}
      {calls : List Call} :
      Tended before → call.Results before middle →
      Runs middle calls after → Runs before (call :: calls) after

theorem Runs.tended {calls : List Call} (runs : Runs before calls after) :
    Tended after := by
  induction runs with
  | nil tended => exact tended
  | cons _ _ _ inductionHypothesis => exact inductionHypothesis

theorem Tended.exists_foldlM (tended : Tended before) {calls : List Call}
    (ordered : ∀ call ∈ calls, call.BoundsOrdered) :
    ∃ after, calls.foldlM Call.apply before = .ok after ∧
      Runs before calls after := by
  induction calls generalizing before with
  | nil =>
      exact ⟨before, rfl, .nil tended⟩
  | cons call calls inductionHypothesis =>
      obtain ⟨middle, isMiddle, results, middleTended⟩ :=
        tended.exists_apply (ordered call List.mem_cons_self)
      obtain ⟨after, isAfter, runs⟩ := inductionHypothesis middleTended
        fun other member => ordered other (List.mem_cons_of_mem call member)
      refine ⟨after, ?_, .cons tended results runs⟩
      rw [List.foldlM_cons, isMiddle]
      exact isAfter

/-- Calls in any order do not fail. -/
theorem exists_run {calls : List Call}
    (ordered : ∀ call ∈ calls, call.BoundsOrdered) :
    ∃ declarations, run calls = .ok declarations ∧
      Runs {} calls declarations :=
  tended_new.exists_foldlM ordered

end Declarations

end ContentModel
