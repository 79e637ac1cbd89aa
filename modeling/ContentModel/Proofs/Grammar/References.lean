import ContentModel.Proofs.Automaton.Offers
import ContentModel.Proofs.Grammar.Calls
import ContentModel.Proofs.Grammar.Schema
import ContentModel.Proofs.Model.Names

/-!
# What automata refer to

The names that a content refers to are collected when it is declared, and its
automaton is made from the same model in another way. Main statement:
`publish_closed`, every atom that is read off an automaton of a schema is the
name of an element that the schema finds.
-/

namespace ContentModel

open Automaton

/-! ## Contents -/

namespace Content

/-- None but leaves of a declared model hold atoms. -/
def AtomsInLeaves : Content → Prop
  | children model => model.atomsInLeaves = true
  | empty | any | mixed _ => True

/-- The names that the content refers to. -/
def names (content : Content) : Set String :=
  { name | name ∈ content.atoms.map Atom.name }

theorem atomsInLeaves_mixedModel (atoms : List Atom) :
    (mixedModel atoms).atomsInLeaves = true := by
  change (true && Model.allAtomsInLeaves (atoms.map Model.leaf)) = true
  rw [Bool.true_and, Model.allAtomsInLeaves_eq_all, List.all_map,
    List.all_eq_true]
  intro atom _
  rfl

/-- The nodes of a content offer no names but those to which it refers. -/
theorem compile_offers {base after : Store} (sound : base.Sound)
    (standard : base.Standard) {content : Content}
    (ordered : content.BoundsOrdered) (inLeaves : content.AtomsInLeaves)
    {result : Except StateLimitExceeded Nat}
    (isResult : content.compile base = .ok (result, after)) {id : Nat}
    {node : Node} (found : after.node id = .ok node) :
    base.node id = .ok node ∨ node.OffersWithin content.names := by
  cases content with
  | empty =>
      cases isResult
      exact (Store.grown_start sound).emptyNode.offers sound standard
        (fun _ impossible => absurd impossible List.not_mem_nil) found
  | any =>
      cases isResult
      exact (Store.grown_start sound).anyNode.offers sound standard
        (fun _ impossible => absurd impossible List.not_mem_nil) found
  | mixed atoms =>
      exact Store.compileModel_offers sound standard
        (boundsOrdered_mixedModel atoms) (atomsInLeaves_mixedModel atoms)
        isResult found
  | children model =>
      exact Store.compileModel_offers sound standard ordered inLeaves
        isResult found

end Content

/-! ## Positions -/

namespace Automaton

/-- A step from one position to another, by a name or as it is listed. -/
def Position.Leads (position next : Position) : Prop :=
  (∃ name, position.advance name = some next) ∨
    ∃ atom, (atom, next) ∈ position.follows

namespace Store

variable {store : Store} {start id : Nat} {next : Position}

/-- A step between positions is one between nodes. -/
theorem Intact.reaches_of_leads (intact : store.Intact start)
    (reaches : store.Reaches start id)
    (leads : Position.Leads ⟨store.freeze, id⟩ next) :
    ∃ nextId, next = ⟨store.freeze, nextId⟩ ∧
      store.Reaches start nextId := by
  obtain ⟨node, found, closed⟩ := intact.closed id reaches
  cases leads with
  | inl byName =>
      obtain ⟨name, isNext⟩ := byName
      rw [advance_position found, Option.map_eq_some_iff] at isNext
      obtain ⟨nextId, advance, same⟩ := isNext
      exact ⟨nextId, same.symm, closed name nextId advance⟩
  | inr isListed =>
      obtain ⟨atom, isListed⟩ := isListed
      rw [Position.follows, transitions_position found, List.mem_map] at isListed
      obtain ⟨entry, member, same⟩ := isListed
      cases same
      exact ⟨entry.2, rfl,
        reaches.next ⟨node, found, List.mem_map_of_mem member⟩⟩

/-- The induction is over the steps: all positions are nodes that are
reached. -/
theorem Intact.exists_reached_of_leads (intact : store.Intact start)
    (reached :
      Relation.ReflTransGen Position.Leads ⟨store.freeze, start⟩ next) :
    ∃ id, next = ⟨store.freeze, id⟩ ∧ store.Reaches start id := by
  induction reached with
  | refl =>
      exact ⟨start, rfl, store.reaches_start start⟩
  | tail _ leads inductionHypothesis =>
      obtain ⟨id, same, reaches⟩ := inductionHypothesis
      rw [same] at leads
      exact intact.reaches_of_leads reaches leads

theorem Intact.exists_node_of_leads (intact : store.Intact start)
    (reached :
      Relation.ReflTransGen Position.Leads ⟨store.freeze, start⟩ next) :
    ∃ id node, next = ⟨store.freeze, id⟩ ∧ store.node id = .ok node := by
  obtain ⟨id, same, reaches⟩ := intact.exists_reached_of_leads reached
  obtain ⟨node, found⟩ := intact id reaches
  exact ⟨id, node, same, found⟩

end Store

end Automaton

namespace Declarations

variable {declarations before after : Declarations}

/-! ## Collected references -/

/-- The names to which contents refer. -/
def referencedNames (declarations : Declarations) : Set String :=
  { name | name ∈ declarations.referenced.map Atom.name }

theorem mem_referencedNames_addReferences (declarations : Declarations)
    (content : Content) (name : String) :
    name ∈ (declarations.addReferences content.atoms).referencedNames ↔
      name ∈ declarations.referencedNames ∨ name ∈ content.names :=
  Atom.mem_names_foldl_addDistinct declarations.referenced content.atoms name

/-- Every name that a node in use offers is collected. -/
def Referring (declarations : Declarations) : Prop :=
  ∀ id node, declarations.store.node id = .ok node →
    node.OffersWithin declarations.referencedNames

theorem referring_new : Referring {} := by
  intro id node found
  exact absurd (Store.Live.lt_size ⟨node, found⟩) (Nat.not_lt_zero id)

/-- None but leaves of a declared model hold atoms. -/
def Call.AtomsInLeaves : Call → Prop
  | declareElement _ content => content.AtomsInLeaves
  | setStateLimit _ | declareAttributes _ _ | recordError _ => True

/-- A content is compiled, and its names are collected. -/
theorem Referring.compile (referring : Referring before)
    (tended : Tended before) {content : Content}
    (ordered : content.BoundsOrdered) (inLeaves : content.AtomsInLeaves)
    {store : Store} {result : Except StateLimitExceeded Nat}
    (isResult : content.compile before.store = .ok (result, store)) {id : Nat}
    {node : Node} (found : store.node id = .ok node) :
    node.OffersWithin
      (before.addReferences content.atoms).referencedNames := by
  have collected :=
    mem_referencedNames_addReferences before content
  cases Content.compile_offers tended.sound tended.standard ordered inLeaves
      isResult found with
  | inl wasFound =>
      exact (referring id node wasFound).mono
        fun name isOld => (collected name).mpr (Or.inl isOld)
  | inr isNew =>
      exact isNew.mono fun name isName => (collected name).mpr (Or.inr isName)

theorem Referring.results (referring : Referring before)
    (tended : Tended before) {call : Call} (ordered : call.BoundsOrdered)
    (inLeaves : call.AtomsInLeaves) (results : call.Results before after) :
    Referring after := by
  cases results with
  | setStateLimit =>
      exact referring
  | incomplete _ =>
      exact referring
  | tooLarge _ _ isCompiled _ =>
      intro id node found
      exact referring.compile tended ordered inLeaves isCompiled found
  | entered _ _ isCompiled _ keeps =>
      intro id node found
      exact referring.compile tended ordered inLeaves isCompiled
        (keeps id node found)
  | declareAttributes =>
      exact referring
  | recordError =>
      exact referring

theorem Runs.referring {calls : List Call} (runs : Runs before calls after)
    (isReferring : Referring before)
    (ordered : ∀ call ∈ calls, call.BoundsOrdered)
    (inLeaves : ∀ call ∈ calls, call.AtomsInLeaves) : Referring after := by
  induction runs with
  | nil _ =>
      exact isReferring
  | @cons before middle after call calls tended results _
      inductionHypothesis =>
      have first := isReferring.results tended
        (ordered call List.mem_cons_self) (inLeaves call List.mem_cons_self)
        results
      exact inductionHypothesis first
        (fun other member => ordered other (List.mem_cons_of_mem call member))
        fun other member => inLeaves other (List.mem_cons_of_mem call member)

/-! ## Publishing -/

theorem contains_addUndefined_iff (declarations : Declarations) (atom : Atom)
    (name : String) :
    (declarations.addUndefined atom).elements.contains name = true ↔
      name = atom.name ∨ declarations.elements.contains name = true := by
  rw [addUndefined]
  split
  · rename_i isThere
    constructor
    · exact Or.inr
    · intro either
      cases either with
      | inl same =>
          rw [same]
          exact isThere
      | inr contained =>
          exact contained
  · exact Register.contains_insert_iff declarations.elements atom.name
      (.undefined atom declarations.store.anyNode.1) name

/-- Every name that is referred to becomes the name of an element. -/
theorem contains_foldl_addUndefined (declarations : Declarations)
    (atoms : List Atom) {name : String}
    (either : declarations.elements.contains name = true ∨
      name ∈ atoms.map Atom.name) :
    (atoms.foldl addUndefined declarations).elements.contains name =
      true := by
  induction atoms generalizing declarations with
  | nil =>
      exact either.resolve_right List.not_mem_nil
  | cons first rest inductionHypothesis =>
      apply inductionHypothesis
      rw [contains_addUndefined_iff]
      cases either with
      | inl contained =>
          exact Or.inl (Or.inr contained)
      | inr listed =>
          rw [List.map_cons, List.mem_cons] at listed
          exact listed.imp Or.inl id

theorem contains_attach {entry : String × List Attribute} {name : String}
    (contained : declarations.elements.contains name = true) :
    (declarations.attach entry).elements.contains name = true := by
  have defined :=
    (contains_addUndefined_iff declarations (.ofElement entry.1) name).mpr
      (Or.inr contained)
  cases attach_cases declarations entry rfl with
  | inl same =>
      rw [same]
      exact defined
  | inr attributed =>
      obtain ⟨element, attributes, _, same⟩ := attributed
      rw [same]
      exact (Register.contains_insert_iff _ entry.1
        { element with attributes } name).mpr (Or.inr defined)

theorem contains_complete {name : String}
    (isReferenced : name ∈ declarations.referencedNames) :
    declarations.complete.elements.contains name = true :=
  List.foldlRecOn
    (motive := fun final : Declarations =>
      final.elements.contains name = true)
    declarations.attributes.entries _
    (contains_foldl_addUndefined declarations declarations.referenced
      (Or.inr isReferenced))
    fun _ contained _ _ => contains_attach contained

/-- An undefined element starts at a shared node, which belongs to no
element. -/
theorem Tended.addUndefined (tended : Tended declarations) (atom : Atom) :
    Tended (declarations.addUndefined atom) := by
  rw [Declarations.addUndefined]
  split
  · exact tended
  · have grown := (Store.grown_start tended.sound).anyNode
    have standard := grown.standard tended.sound tended.standard
    have shared : declarations.store.anyNode.2.isShared
        declarations.store.anyNode.1 = true :=
      (Store.isShared_iff _ _).mpr
        (Or.inl (Store.sharedAny_anyNode declarations.store))
    have isIntact : declarations.store.anyNode.2.Intact
        (Element.undefined atom declarations.store.anyNode.1).start :=
      standard.intact grown.sound shared
    refine tended.insert grown.sound standard isIntact
      (fun _ _ _ _ id _ => grown.keeps id) ?_
    intro name other _ _
    change Disjoint (declarations.store.anyNode.2.ownNodes
      declarations.store.anyNode.1) _
    rw [standard.ownNodes_eq_empty shared]
    exact Set.empty_disjoint _

/-- Attributes of an element may be changed. -/
theorem Tended.attributed (tended : Tended declarations) {name : String}
    {element : Element} (attributes : List Attribute)
    (found : declarations.elements.find? name = some element) :
    Tended
      { declarations with
        elements :=
          declarations.elements.insert name { element with attributes } } := by
  have isName := tended.named name element found
  subst isName
  have isIntact : declarations.store.Intact
      ({ element with attributes } : Element).start :=
    tended.intact element.name element found
  refine tended.insert tended.sound tended.standard isIntact
    (fun _ _ _ _ _ _ _ isNode => isNode) ?_
  intro name other different isOther
  exact tended.apart element.name name element other (Ne.symm different) found
    isOther

theorem Tended.attach (tended : Tended declarations)
    (entry : String × List Attribute) :
    Tended (declarations.attach entry) := by
  have defined := tended.addUndefined (.ofElement entry.1)
  cases attach_cases declarations entry rfl with
  | inl same =>
      rw [same]
      exact defined
  | inr attributed =>
      obtain ⟨element, attributes, found, same⟩ := attributed
      rw [same]
      exact defined.attributed attributes found

theorem Referring.addUndefined (referring : Referring declarations)
    (tended : Tended declarations) (atom : Atom) :
    Referring (declarations.addUndefined atom) := by
  rw [Declarations.addUndefined]
  split
  · exact referring
  · intro id node found
    have grown := (Store.grown_start tended.sound).anyNode
    cases grown.offers tended.sound tended.standard
        (fun _ impossible => absurd impossible List.not_mem_nil) found with
    | inl wasFound => exact referring id node wasFound
    | inr isNew => exact isNew

theorem Referring.attach (referring : Referring declarations)
    (tended : Tended declarations) (entry : String × List Attribute) :
    Referring (declarations.attach entry) := by
  have defined := referring.addUndefined tended (.ofElement entry.1)
  cases attach_cases declarations entry rfl with
  | inl same =>
      rw [same]
      exact defined
  | inr attributed =>
      obtain ⟨_, _, _, same⟩ := attributed
      rw [same]
      exact defined

/-- Calls in any order do not fail. If none but leaves of the declared models
hold atoms and no error was recorded, each element of the schema has a start,
and every atom that is read off a position to which steps lead from there is the
name of an element that the schema finds. -/
theorem publish_closed {calls : List Call}
    (ordered : ∀ call ∈ calls, call.BoundsOrdered)
    (inLeaves : ∀ call ∈ calls, call.AtomsInLeaves) :
    ∃ declarations, run calls = .ok declarations ∧
      (declarations.error = none →
        ∃ elements, declarations.publish.elements = .ok elements ∧
          ∀ element ∈ elements, ∃ position,
            declarations.publish.start element = .ok position ∧
            ∀ next, Relation.ReflTransGen Position.Leads position next →
              ∀ atom ∈ next.accepts, ∃ found,
                declarations.publish.findElement? atom.name =
                  .ok (some found)) := by
  obtain ⟨declarations, isRun, runs⟩ := exists_run ordered
  refine ⟨declarations, isRun, ?_⟩
  intro noError
  obtain ⟨tended, referring⟩ := complete_keeps declarations
    (motive := fun later => Tended later ∧ Referring later)
    ⟨runs.tended, runs.referring referring_new ordered inLeaves⟩
    (fun _ atom holds =>
      ⟨holds.1.addUndefined atom, holds.2.addUndefined holds.1 atom⟩)
    fun _ entry holds =>
      ⟨holds.1.attach entry, holds.2.attach holds.1 entry⟩
  have isPublished := publish_eq tended.named
  have answers : declarations.publish.error = none :=
    (error_publish declarations).trans noError
  have sameStore :
      declarations.publish.store = declarations.complete.store.freeze := by
    rw [isPublished]
  refine ⟨_, Schema.elements_eq answers, ?_⟩
  intro element member
  rw [Schema.mem_sorted_iff, isPublished] at member
  obtain ⟨name, isElement⟩ := (Register.mem_values_iff _ element).mp member
  have intact := tended.intact name element isElement
  obtain ⟨node, isStart⟩ := intact element.start (Store.reaches_start _ _)
  refine ⟨⟨declarations.complete.store.freeze, element.start⟩, ?_, ?_⟩
  · rw [Schema.start, sameStore]
    exact Store.position_freeze isStart
  intro next reached atom isOffered
  obtain ⟨id, node, same, isNode⟩ := intact.exists_node_of_leads reached
  rw [same, Position.accepts, Store.transitions_position isNode] at isOffered
  obtain ⟨target, isTarget⟩ :=
    AtomMap.exists_find?_of_mem_atoms isOffered
  have isReferenced := referring id node isNode atom.name target isTarget
  rw [referencedNames, referenced_complete] at isReferenced
  have registered := contains_complete isReferenced
  rw [Register.contains, Option.isSome_iff_exists] at registered
  obtain ⟨found, isFound⟩ := registered
  refine ⟨found, ?_⟩
  rw [Schema.findElement?_eq answers, isPublished, isFound]

/-- An element refers to two that are not declared. -/
def undeclaredMembers : List Call :=
  [.declareElement (.ofElement "a")
    (.children (.sequence [.leaf (.ofElement "b"), .leaf (.ofElement "c")]))]

/-- The start of the element offers the one, and the position behind it the
other. The schema finds both. -/
theorem publish_closed_undeclared :
    ∃ declarations elements element position next,
      run undeclaredMembers = .ok declarations ∧
      declarations.publish.elements = .ok elements ∧
      element ∈ elements ∧
      declarations.publish.start element = .ok position ∧
      position.advance "b" = some next ∧
      position.accepts = [.ofElement "b"] ∧
      next.accepts = [.ofElement "c"] ∧
      (∃ found,
        declarations.publish.findElement? "b" = .ok (some found)) ∧
      ∃ found, declarations.publish.findElement? "c" = .ok (some found) := by
  have sequenceOrdered : (Model.sequence
      [.leaf (.ofElement "b"), .leaf (.ofElement "c")]).BoundsOrdered := by
    decide
  have ordered : ∀ call ∈ undeclaredMembers, call.BoundsOrdered :=
    List.forall_mem_singleton.mpr sequenceOrdered
  have inLeaves : ∀ call ∈ undeclaredMembers, call.AtomsInLeaves :=
    List.forall_mem_singleton.mpr rfl
  obtain ⟨declarations, isRun, published⟩ := publish_closed ordered inLeaves
  cases isRun
  obtain ⟨elements, isElements, closed⟩ := published rfl
  cases isElements
  obtain ⟨position, isStart, offers⟩ := closed _
    ((Schema.mem_sorted_iff _ _).mpr List.mem_cons_self)
  cases isStart
  refine ⟨_, _, _, _, _, rfl, rfl,
    (Schema.mem_sorted_iff _ _).mpr List.mem_cons_self, rfl, rfl, rfl, rfl,
    ?_, ?_⟩
  · exact offers _ .refl (.ofElement "b") List.mem_cons_self
  · exact offers _ (.single (Or.inl ⟨"b", rfl⟩)) (.ofElement "c")
      List.mem_cons_self

end Declarations

end ContentModel
