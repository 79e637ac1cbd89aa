import ContentModel.Proofs.Automaton.Seclusion
import ContentModel.Proofs.Grammar.Publishing

/-!
# No node is left behind

Every node in use is shared or belongs to an element: a compilation makes the
nodes that its automaton owns, and an element that is replaced gives up the
nodes that it owned. The invariant is `Tidy`, with one lemma for each way in
which declarations change.

Main statements: `Proceeding.tidy` and `Proceeding.shares`, which shared nodes
there are can be read off the calls.
-/

namespace ContentModel

open Automaton

/-! ## Starts -/

namespace Automaton.Store

variable {store before after : Store} {start : Nat} {kind : ContentKind}

/-- The node is one at which a content of this kind starts. -/
def StartsAt (store : Store) (kind : ContentKind) (start : Nat) : Prop :=
  match kind with
  | .any => store.sharedAny = some start
  | .empty => store.sharedEmpty = some start
  | .mixed | .children => store.Secluded start

theorem Intact.startsAt (intact : before.Intact start)
    (kept : ∀ id, before.Reaches start id → ∀ node,
      before.node id = .ok node → after.node id = .ok node)
    (sound : before.Sound) (afterSound : after.Sound)
    (startsAt : before.StartsAt kind start) : after.StartsAt kind start := by
  obtain ⟨node, found⟩ := intact start (before.reaches_start start)
  have stays := kept start (before.reaches_start start) node found
  cases kind with
  | any =>
      have isAny := (sound.any_iff start node found).mpr startsAt
      exact (afterSound.any_iff start node stays).mp isAny
  | empty =>
      have isEmpty := (sound.empty_iff start node found).mpr startsAt
      exact (afterSound.empty_iff start node stays).mp isEmpty
  | mixed =>
      exact intact.secluded kept sound afterSound startsAt
  | children =>
      exact intact.secluded kept sound afterSound startsAt

end Automaton.Store

/-! ## Contents -/

namespace Content

variable {base after : Store} {content : Content} {start : Nat}

theorem eq_of_compile_empty
    (isCompiled : empty.compile base = .ok (.ok start, after)) :
    start = base.emptyNode.1 ∧ after = base.emptyNode.2 := by
  cases isCompiled
  exact ⟨rfl, rfl⟩

theorem eq_of_compile_any
    (isCompiled : any.compile base = .ok (.ok start, after)) :
    start = base.anyNode.1 ∧ after = base.anyNode.2 := by
  cases isCompiled
  exact ⟨rfl, rfl⟩

/-- The automaton starts as its kind says. A compilation asks for the shared
node of its content and for no other one. -/
theorem compile_shares (sound : base.Sound) (standard : base.Standard)
    (ordered : content.BoundsOrdered)
    (isCompiled : content.compile base = .ok (.ok start, after)) :
    after.StartsAt content.kind start ∧
      after.sharedAny.isSome =
        (base.sharedAny.isSome || content.kind == .any) ∧
      after.sharedEmpty.isSome =
        (base.sharedEmpty.isSome || content.kind == .empty) := by
  have modelled : ∀ model, content.elementModel = some model →
      after.Secluded start ∧ after.sharedAny = base.sharedAny ∧
        after.sharedEmpty = base.sharedEmpty := by
    intro model isModel
    have modelOrdered := ordered.elementModel isModel
    rw [compile_eq isModel] at isCompiled
    obtain ⟨result, store, isResult, returns⟩ :=
      Store.compileModel_returns sound standard modelOrdered
    rw [isCompiled] at isResult
    cases isResult
    cases returns with
    | automaton grown _ _ =>
        exact ⟨Store.compileModel_secluded sound modelOrdered isCompiled,
          Store.sharedNodes_compileModel sound grown isCompiled⟩
  cases content with
  | empty =>
      have shared := Store.sharedEmpty_emptyNode base
      obtain ⟨isStart, isAfter⟩ := eq_of_compile_empty isCompiled
      rw [← isStart, ← isAfter] at shared
      refine ⟨shared, ?_, ?_⟩
      · rw [isAfter, Store.sharedAny_emptyNode]
        exact (Bool.or_false _).symm
      · rw [shared]
        exact (Bool.or_true _).symm
  | any =>
      have shared := Store.sharedAny_anyNode base
      obtain ⟨isStart, isAfter⟩ := eq_of_compile_any isCompiled
      rw [← isStart, ← isAfter] at shared
      refine ⟨shared, ?_, ?_⟩
      · rw [shared]
        exact (Bool.or_true _).symm
      · rw [isAfter, Store.sharedEmpty_anyNode]
        exact (Bool.or_false _).symm
  | mixed atoms =>
      obtain ⟨secluded, sameAny, sameEmpty⟩ := modelled _ rfl
      rw [sameAny, sameEmpty]
      exact ⟨secluded, (Bool.or_false _).symm, (Bool.or_false _).symm⟩
  | children model =>
      obtain ⟨secluded, sameAny, sameEmpty⟩ := modelled _ rfl
      rw [sameAny, sameEmpty]
      exact ⟨secluded, (Bool.or_false _).symm, (Bool.or_false _).symm⟩

theorem compile_returns (sound : base.Sound) (standard : base.Standard)
    (ordered : content.BoundsOrdered)
    (isCompiled : content.compile base = .ok (.ok start, after)) :
    base.Returns (.ok start) after := by
  cases compile_cases sound standard ordered with
  | inl fits =>
      obtain ⟨_, _, _, isResult, returns⟩ := fits
      rw [isCompiled] at isResult
      cases isResult
      exact returns
  | inr exceeds =>
      obtain ⟨_, _, isResult, _⟩ := exceeds
      rw [isCompiled] at isResult
      cases isResult

end Content

namespace Declarations

variable {declarations before after : Declarations} {element : Element}
  {store : Store}

/-! ## What stays when an element is given up -/

namespace Relieved

variable {before after : Store} {earlier : Option Element} {start : Nat}
  (relieved : Relieved before earlier after) (sound : before.Sound)

include relieved sound

/-- Shared nodes are not given up. -/
theorem kept_shared {id : Nat} (shared : before.isShared id = true) :
    ∃ node, before.node id = .ok node ∧ after.node id = .ok node := by
  obtain ⟨node, found⟩ := sound.shared_live shared
  refine ⟨node, found, relieved.kept id ?_ node found⟩
  intro given
  obtain ⟨previous, _, own⟩ := given
  exact Bool.noConfusion (own.2.symm.trans shared)

theorem isShared_of_shared {id : Nat} (shared : before.isShared id = true) :
    after.isShared id = true := by
  obtain ⟨node, found, stays⟩ := relieved.kept_shared sound shared
  rw [sound.isShared_congr relieved.sound found stays]
  exact shared

theorem sharedNodes_eq :
    after.sharedAny = before.sharedAny ∧
      after.sharedEmpty = before.sharedEmpty := by
  apply sound.sharedNodes_eq relieved.sound
  intro id shared
  cases shared with
  | inl wasShared =>
      exact relieved.kept_shared sound wasShared
  | inr isShared =>
      obtain ⟨node, found⟩ := relieved.sound.shared_live isShared
      exact ⟨node, relieved.keeps id node found, found⟩

theorem startsAt (intact : before.Intact start)
    (apart : ∀ previous, earlier = some previous →
      Disjoint (before.ownNodes start) (before.ownNodes previous.start))
    {kind : ContentKind} (startsAt : before.StartsAt kind start) :
    after.StartsAt kind start :=
  intact.startsAt (relieved.kept_of_apart apart) sound relieved.sound startsAt

end Relieved

/-! ## Tidy declarations -/

/-- Each element starts as its kind says, and every node in use is shared or
belongs to an element. -/
structure Tidy (declarations : Declarations) : Prop
    extends Tended declarations where
  startsAt : ∀ name element,
    declarations.elements.find? name = some element →
    declarations.store.StartsAt element.content element.start
  owned : ∀ id, declarations.store.Live id →
    declarations.store.isShared id = true ∨
      ∃ name element, declarations.elements.find? name = some element ∧
        id ∈ declarations.store.ownNodes element.start

theorem tidy_new : Tidy {} where
  toTended := tended_new
  startsAt _ _ impossible := by
    cases impossible
  owned id live := absurd live.lt_size (Nat.not_lt_zero id)

namespace Tidy

/-- Only the store and the elements matter. -/
theorem congr (tidy : Tidy declarations)
    (sameStore : after.store = declarations.store)
    (sameElements : after.elements = declarations.elements) : Tidy after := by
  refine ⟨tidy.toTended.congr sameStore sameElements, ?_, ?_⟩
  · rw [sameStore, sameElements]
    exact tidy.startsAt
  · rw [sameStore, sameElements]
    exact tidy.owned

theorem setStateLimit (tidy : Tidy declarations) (limit : Nat) :
    Tidy (declarations.setStateLimit limit) := by
  have tended : Tended (declarations.setStateLimit limit) :=
    tidy.toTended.keeps (tidy.sound.setStateLimit limit)
      ⟨tidy.standard.any, tidy.standard.empty⟩ fun _ _ found => found
  refine ⟨tended, ?_, tidy.owned⟩
  intro name element found
  exact (tidy.intact name element found).startsAt
    (fun _ _ _ isNode => isNode) tidy.sound
    (tidy.sound.setStateLimit limit) (tidy.startsAt name element found)

section Grown

variable {created : List Nat} (tidy : Tidy declarations)
  (grown : declarations.store.Grown created store)

include tidy grown

theorem startsAt_of_grown {name : String}
    (found : declarations.elements.find? name = some element) :
    store.StartsAt element.content element.start :=
  (tidy.intact name element found).startsAt (fun id _ => grown.keeps id)
    tidy.sound grown.sound (tidy.startsAt name element found)

/-- A node in use was added, or else it is shared or belongs to an element. -/
theorem owned_of_grown {id : Nat} (live : store.Live id) :
    id ∈ created ∨ store.isShared id = true ∨
      ∃ name element, declarations.elements.find? name = some element ∧
        id ∈ store.ownNodes element.start := by
  rcases grown.live id live with wasLive | isNew | shared
  · obtain ⟨node, isNode⟩ := wasLive
    cases tidy.owned id ⟨node, isNode⟩ with
    | inl shared =>
        rw [← tidy.sound.isShared_congr grown.sound isNode
          (grown.keeps id node isNode)] at shared
        exact Or.inr (Or.inl shared)
    | inr belongs =>
        obtain ⟨name, element, found, own⟩ := belongs
        have sameOwn := (tidy.toTended.stays grown.sound found
          fun id _ => grown.keeps id).2
        rw [← sameOwn] at own
        exact Or.inr (Or.inr ⟨name, element, found, own⟩)
  · exact Or.inl isNew
  · exact Or.inr (Or.inl shared)

end Grown

end Tidy

/-- An element takes the place of the one of the same name. -/
theorem tidy_insert (declarations : Declarations) (element : Element)
    (tended : Tended
      { declarations with
        store
        elements := declarations.elements.insert element.name element })
    (startsAt : store.StartsAt element.content element.start)
    (others : ∀ name other, name ≠ element.name →
      declarations.elements.find? name = some other →
      store.StartsAt other.content other.start)
    (owned : ∀ id, store.Live id →
      store.isShared id = true ∨ id ∈ store.ownNodes element.start ∨
        ∃ name other, name ≠ element.name ∧
          declarations.elements.find? name = some other ∧
          id ∈ store.ownNodes other.start) :
    Tidy
      { declarations with
        store
        elements := declarations.elements.insert element.name element } := by
  have find?_eq :=
    Register.find?_insert declarations.elements element.name element
  refine ⟨tended, ?_, ?_⟩
  · intro name other found
    have found := (find?_eq name).symm.trans found
    split at found
    · cases found
      exact startsAt
    · rename_i different
      exact others name other different found
  · intro id live
    rcases owned id live with shared | own | ⟨name, other, different, found, own⟩
    · exact Or.inl shared
    · exact Or.inr ⟨element.name, element,
        (find?_eq element.name).trans (if_pos rfl), own⟩
    · exact Or.inr ⟨name, other,
        (find?_eq name).trans ((if_neg different).trans found), own⟩

/-! ### Declared elements -/

theorem Tidy.declareElement (tidy : Tidy before) {atom : Atom}
    {content : Content} {start : Nat} {compiled : Store}
    (ordered : content.BoundsOrdered)
    (isCompiled : content.compile before.store = .ok (.ok start, compiled))
    (givesUp : GivesUp compiled (before.elements.find? atom.name) store)
    (tended : Tended
      { before.addReferences content.atoms with
        store
        elements := before.elements.insert atom.name
          { atom, content := content.kind, start, model := content.text } }) :
    Tidy
      { before.addReferences content.atoms with
        store
        elements := before.elements.insert atom.name
          { atom, content := content.kind, start, model := content.text } } := by
  have returns := Content.compile_returns tidy.sound tidy.standard ordered
    isCompiled
  have startsAt := (Content.compile_shares tidy.sound tidy.standard ordered
    isCompiled).1
  have apart : ∀ previous, before.elements.find? atom.name = some previous →
      Disjoint (compiled.ownNodes start) (compiled.ownNodes previous.start) :=
    fun _ found => tidy.toTended.disjoint_of_returns returns found
  cases returns with
  | @automaton _ created _ grown intact own_iff =>
      have middle := tidy.toTended.grow grown
      have relieved :
          Relieved compiled (before.elements.find? atom.name) store :=
        middle.relieved givesUp
      have othersApart : ∀ name other, name ≠ atom.name →
          before.elements.find? name = some other →
          ∀ previous, before.elements.find? atom.name = some previous →
            Disjoint (compiled.ownNodes other.start)
              (compiled.ownNodes previous.start) :=
        fun name other different found previous =>
          middle.apart name atom.name other previous different found
      refine tidy_insert (before.addReferences content.atoms)
        { atom, content := content.kind, start, model := content.text } tended
        (relieved.startsAt grown.sound intact apart startsAt) ?_ ?_
      · intro name other different found
        exact relieved.startsAt grown.sound (middle.intact name other found)
          (othersApart name other different found)
          (tidy.startsAt_of_grown grown found)
      · intro id live
        obtain ⟨wasLive, notGiven⟩ := (relieved.live_iff id).mp live
        rcases tidy.owned_of_grown grown wasLive with
          isNew | shared | ⟨name, other, found, own⟩
        · refine Or.inr (Or.inl ?_)
          have sameOwn := relieved.ownNodes_eq grown.sound intact apart
          rw [sameOwn]
          exact (own_iff id).mpr isNew
        · exact Or.inl (relieved.isShared_of_shared grown.sound shared)
        · have different : name ≠ atom.name := by
            intro same
            rw [same] at found
            exact notGiven ⟨other, found, own⟩
          rw [← relieved.ownNodes_eq grown.sound
            (middle.intact name other found)
            (othersApart name other different found)] at own
          exact Or.inr (Or.inr ⟨name, other, different, found, own⟩)

/-! ### Calls -/

variable {calls : List Call}

theorem Proceeding.tidy (proceeding : Proceeding calls declarations) :
    Tidy declarations := by
  induction proceeding with
  | new =>
      exact tidy_new
  | call _ proceeds tended inductionHypothesis =>
      cases proceeds with
      | setStateLimit =>
          exact inductionHypothesis.setStateLimit _
      | declareElement ordered isCompiled givesUp =>
          exact inductionHypothesis.declareElement ordered isCompiled givesUp
            tended
      | declareAttributes =>
          exact inductionHypothesis.congr rfl rfl

/-- The call declares an element with a content of this kind. -/
def Call.declares (kind : ContentKind) : Call → Bool
  | declareElement _ content => content.kind == kind
  | setStateLimit _ | declareAttributes _ _ | recordError _ => false

/-- A shared node is there from the first content that asks for it. -/
theorem Proceeding.shares (proceeding : Proceeding calls declarations) :
    declarations.store.sharedAny.isSome = calls.any (Call.declares .any) ∧
      declarations.store.sharedEmpty.isSome =
        calls.any (Call.declares .empty) := by
  induction proceeding with
  | new =>
      exact ⟨rfl, rfl⟩
  | @call calls before after call earlier proceeds _ inductionHypothesis =>
      obtain ⟨isAny, isEmpty⟩ := inductionHypothesis
      simp only [List.any_append, List.any_cons, List.any_nil, Bool.or_false,
        ← isAny, ← isEmpty]
      cases proceeds with
      | setStateLimit =>
          exact ⟨(Bool.or_false _).symm, (Bool.or_false _).symm⟩
      | @declareElement atom content start compiled store ordered isCompiled
          givesUp =>
          have tended := earlier.tended
          have returns := Content.compile_returns tended.sound
            tended.standard ordered isCompiled
          obtain ⟨_, nowAny, nowEmpty⟩ := Content.compile_shares tended.sound
            tended.standard ordered isCompiled
          cases returns with
          | automaton grown _ _ =>
              have relieved :
                  Relieved compiled (before.elements.find? atom.name) store :=
                (tended.grow grown).relieved givesUp
              obtain ⟨sameAny, sameEmpty⟩ :=
                relieved.sharedNodes_eq grown.sound
              rw [← sameAny] at nowAny
              rw [← sameEmpty] at nowEmpty
              exact ⟨nowAny, nowEmpty⟩
      | declareAttributes =>
          exact ⟨(Bool.or_false _).symm, (Bool.or_false _).symm⟩

/-! ### Publishing -/

theorem Tidy.addUndefined (tidy : Tidy declarations) (atom : Atom) :
    Tidy (declarations.addUndefined atom) := by
  have tended := tidy.toTended.addUndefined atom
  rw [Declarations.addUndefined] at tended ⊢
  split
  · exact tidy
  · rename_i missing
    rw [if_neg missing] at tended
    have grown := (Store.grown_start tidy.sound).anyNode
    refine tidy_insert declarations
      (.undefined atom declarations.store.anyNode.1) tended
      (Store.sharedAny_anyNode declarations.store) ?_ ?_
    · intro name other _ found
      exact tidy.startsAt_of_grown grown found
    · intro id live
      rcases tidy.owned_of_grown grown live with
        impossible | shared | ⟨name, other, found, own⟩
      · exact absurd impossible List.not_mem_nil
      · exact Or.inl shared
      · have different : name ≠ atom.name := by
          intro same
          rw [← same, Register.contains, found] at missing
          exact missing rfl
        exact Or.inr (Or.inr ⟨name, other, different, found, own⟩)

/-- Attributes of an element may be changed. -/
private theorem Tidy.attributed (tidy : Tidy declarations) {name : String}
    (attributes : List Attribute)
    (found : declarations.elements.find? name = some element) :
    Tidy
      { declarations with
        elements :=
          declarations.elements.insert name { element with attributes } } := by
  have tended := tidy.toTended.attributed attributes found
  have isName := tidy.named name element found
  subst isName
  refine tidy_insert declarations { element with attributes } tended
    (tidy.startsAt element.name element found)
    (fun name other _ => tidy.startsAt name other) ?_
  intro id live
  cases tidy.owned id live with
  | inl shared =>
      exact Or.inl shared
  | inr belongs =>
      obtain ⟨name, other, isOther, own⟩ := belongs
      by_cases same : name = element.name
      · rw [same, found] at isOther
        cases isOther
        exact Or.inr (Or.inl own)
      · exact Or.inr (Or.inr ⟨name, other, same, isOther, own⟩)

theorem Tidy.attach (tidy : Tidy declarations)
    (entry : String × List Attribute) : Tidy (declarations.attach entry) := by
  have defined := tidy.addUndefined (.ofElement entry.1)
  cases attach_cases declarations entry rfl with
  | inl same =>
      rw [same]
      exact defined
  | inr attributed =>
      obtain ⟨element, attributes, found, same⟩ := attributed
      rw [same]
      exact defined.attributed attributes found

/-- Which shared nodes there are when further elements were added: the one that
accepts everything also if one of them is undefined. -/
structure SharesAfter (before after : Declarations) : Prop where
  any_iff : after.store.sharedAny.isSome = true ↔
    before.store.sharedAny.isSome = true ∨
      ∃ name element, after.elements.find? name = some element ∧
        element.isUndefined = true
  empty_eq : after.store.sharedEmpty = before.store.sharedEmpty

namespace SharesAfter

theorem addUndefined (shares : SharesAfter before after) (atom : Atom) :
    SharesAfter before (after.addUndefined atom) := by
  rw [Declarations.addUndefined]
  split
  · exact shares
  · have isAny := Store.sharedAny_anyNode after.store
    constructor
    · refine iff_of_true ?_ (Or.inr ?_)
      · exact Option.isSome_iff_exists.mpr ⟨_, isAny⟩
      · exact ⟨atom.name, _,
          (Register.find?_insert _ _ _ atom.name).trans (if_pos rfl), rfl⟩
    · exact (Store.sharedEmpty_anyNode after.store).trans shares.empty_eq

theorem attach (shares : SharesAfter before after)
    (entry : String × List Attribute) :
    SharesAfter before (after.attach entry) := by
  have defined := shares.addUndefined (.ofElement entry.1)
  cases attach_cases after entry rfl with
  | inl same =>
      rw [same]
      exact defined
  | inr attributed =>
      obtain ⟨element, attributes, found, same⟩ := attributed
      have find?_eq := Register.find?_insert
        (after.addUndefined (.ofElement entry.1)).elements entry.1
        { element with attributes }
      rw [same]
      refine ⟨defined.any_iff.trans (or_congr_right ?_), defined.empty_eq⟩
      constructor
      · intro someUndefined
        obtain ⟨name, other, isOther, isUndefined⟩ := someUndefined
        by_cases sameName : name = entry.1
        · rw [sameName, found] at isOther
          cases isOther
          exact ⟨name, _, (find?_eq name).trans (if_pos sameName),
            isUndefined⟩
        · exact ⟨name, other,
            (find?_eq name).trans ((if_neg sameName).trans isOther),
            isUndefined⟩
      · intro someUndefined
        obtain ⟨name, other, isOther, isUndefined⟩ := someUndefined
        have isOther := (find?_eq name).symm.trans isOther
        split at isOther
        · cases isOther
          exact ⟨entry.1, element, found, isUndefined⟩
        · exact ⟨name, other, isOther, isUndefined⟩

theorem any_eq (shares : SharesAfter before after) :
    after.store.sharedAny.isSome =
      (before.store.sharedAny.isSome ||
        after.elements.values.any Element.isUndefined) := by
  rw [Bool.eq_iff_iff, shares.any_iff, Bool.or_eq_true]
  apply or_congr_right
  simp only [List.any_eq_true, Register.mem_values_iff, ← exists_and_right]
  exact exists_comm

end SharesAfter

end Declarations

end ContentModel
