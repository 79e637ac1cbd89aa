import ContentModel.Proofs.Automaton.Frozen
import ContentModel.Proofs.Grammar.Declarations

/-!
# Published schemas

Publishing adds elements and attributes, and the automata stay as they are.

Main statement: in the schema of any calls, every declared element reads what
its last declaration allows, and every undefined element reads everything
(`publish_reads`).
-/

namespace ContentModel

open Automaton

/-! ## Answers -/

namespace Schema

variable {schema : Schema}

theorem sorted_perm (schema : Schema) :
    schema.sorted.Perm schema.registered.values :=
  List.mergeSort_perm _ _

theorem mem_sorted_iff (schema : Schema) (element : Element) :
    element ∈ schema.sorted ↔ element ∈ schema.registered.values :=
  schema.sorted_perm.mem_iff

/-- Each element bears the name under which it is registered, so no two of them
bear the same one. -/
theorem sorted_ascending
    (named : ∀ name element,
      schema.registered.find? name = some element → element.name = name) :
    schema.sorted.Pairwise fun left right => left.name < right.name := by
  have transitive : ∀ first second third : Element,
      decide (first.name ≤ second.name) = true →
      decide (second.name ≤ third.name) = true →
      decide (first.name ≤ third.name) = true := by
    simp only [decide_eq_true_eq]
    exact fun _ _ _ below above => String.le_trans below above
  have total : ∀ first second : Element,
      (decide (first.name ≤ second.name) ||
        decide (second.name ≤ first.name)) = true := by
    simp only [Bool.or_eq_true, decide_eq_true_eq]
    exact fun first second => String.le_total first.name second.name
  have inOrder : schema.sorted.Pairwise fun left right =>
      left.name ≤ right.name :=
    (List.pairwise_mergeSort transitive total
      schema.registered.values).imp of_decide_eq_true
  have distinct : schema.registered.values.Pairwise fun left right =>
      left.name ≠ right.name := by
    have isNamed : ∀ entry ∈ schema.registered.entries,
        entry.2.name = entry.1 := fun entry member =>
      named entry.1 entry.2
        ((Register.find?_eq_some_iff _ entry.1 entry.2).mpr member)
    rw [Register.values, List.pairwise_map]
    apply schema.registered.distinct.imp_of_mem
    intro left right isLeft isRight different
    rw [isNamed left isLeft, isNamed right isRight]
    exact different
  have stillDistinct : schema.sorted.Pairwise fun left right =>
      left.name ≠ right.name :=
    schema.sorted_perm.symm.pairwise distinct fun different =>
      Ne.symm different
  apply (inOrder.and stillDistinct).imp
  intro left right both
  exact String.not_le.mp fun above =>
    both.2 (String.le_antisymm both.1 above)

section Answers

variable (noError : schema.error = none)

include noError

theorem elements_eq : schema.elements = .ok schema.sorted := by
  rw [elements, check, noError]
  rfl

theorem findElement?_eq (name : String) :
    schema.findElement? name = .ok (schema.registered.find? name) := by
  rw [findElement?, check, noError]
  rfl

end Answers

end Schema

/-! ## What elements read -/

/-- The automaton of an element can be entered. Its walks come to nodes in use
alone, and accept the words of the language. -/
def Schema.Reads (schema : Schema) (element : Element)
    (language : Language String) : Prop :=
  ∃ position, schema.start element = .ok position ∧
    ∀ word,
      (∀ visited ∈ (position.walk word).1,
        visited.store = schema.store ∧ schema.store.Live visited.id) ∧
      ((position.walk word).2 = true ↔ word ∈ language)

namespace Element

/-- Attributes change nothing else. -/
theorem foldl_addAttribute (attributes : List Attribute)
    (element : Element) :
    ∃ attached, attributes.foldl addAttribute element =
      { element with attributes := attached } := by
  induction attributes generalizing element with
  | nil =>
      exact ⟨element.attributes, rfl⟩
  | cons first rest inductionHypothesis =>
      rw [List.foldl_cons, addAttribute]
      split
      · exact inductionHypothesis element
      · obtain ⟨attached, same⟩ := inductionHypothesis
          { element with attributes := element.attributes ++ [first] }
        exact ⟨attached, same⟩

end Element

namespace Declarations

variable {declarations : Declarations} {contents : String → Option Content}
  {area : String → Set Nat}

/-- Attributes are given to the element of the name, which is there. -/
theorem attach_cases (declarations : Declarations)
    (entry : String × List Attribute) {defined : Declarations}
    (isDefined : declarations.addUndefined (.ofElement entry.1) = defined) :
    declarations.attach entry = defined ∨
      ∃ element attributes,
        defined.elements.find? entry.1 = some element ∧
        declarations.attach entry =
          { defined with
            elements :=
              defined.elements.insert entry.1 { element with attributes } } := by
  rw [attach, isDefined]
  cases found : defined.elements.find? entry.1 with
  | none =>
      exact Or.inl rfl
  | some element =>
      obtain ⟨attributes, isAttached⟩ :=
        Element.foldl_addAttribute entry.2 element
      refine Or.inr ⟨element, attributes, rfl, ?_⟩
      simp only [isAttached]

/-- Each element bears its name. The declared ones accept what they are
declared to, and the undefined ones accept everything. -/
structure Presents (declarations : Declarations)
    (contents : String → Option Content) : Prop where
  sound : declarations.store.Sound
  standard : declarations.store.Standard
  named : ∀ name element,
    declarations.elements.find? name = some element → element.name = name
  declared : ∀ name content, contents name = some content →
    ∃ element, declarations.elements.find? name = some element ∧
      element.content = content.kind ∧ element.model = content.text ∧
      element.isUndefined = false ∧
      declarations.store.Accepts element.start content.language
  undefined : ∀ name element,
    declarations.elements.find? name = some element →
    element.isUndefined = true →
    declarations.store.Accepts element.start Set.univ

theorem Holds.presents (holds : Holds declarations contents area) :
    Presents declarations contents := by
  constructor
  · exact holds.sound
  · exact holds.standard
  · intro name element found
    exact (holds.present name element found).1
  · intro name content isContent
    obtain ⟨element, found⟩ := holds.declared name content isContent
    obtain ⟨_, other, isOther, describes⟩ :=
      holds.present name element found
    rw [isContent] at isOther
    cases isOther
    exact ⟨element, found, describes.kind_eq, describes.model_eq,
      describes.isDefined, describes.accepts⟩
  · intro name element found isUndefined
    obtain ⟨_, _, _, describes⟩ := holds.present name element found
    rw [describes.isDefined] at isUndefined
    cases isUndefined

namespace Presents

theorem addUndefined (presents : Presents declarations contents)
    (atom : Atom) : Presents (declarations.addUndefined atom) contents := by
  rw [Declarations.addUndefined]
  split
  · exact presents
  · rename_i missing
    have grown := (Store.grown_start presents.sound).anyNode
    have standard := grown.standard presents.sound presents.standard
    have isAny := standard.any _
      (Store.sharedAny_anyNode declarations.store)
    have find?_iff := Register.find?_insert declarations.elements atom.name
      (.undefined atom declarations.store.anyNode.1)
    constructor
    · exact grown.sound
    · exact standard
    · intro name element found
      have found := (find?_iff name).symm.trans found
      split at found
      · rename_i same
        cases found
        exact same.symm
      · exact presents.named name element found
    · intro name content isContent
      obtain ⟨element, found, kind_eq, model_eq, isDefined, accepts⟩ :=
        presents.declared name content isContent
      have different : name ≠ atom.name := by
        intro same
        rw [← same, Register.contains, found] at missing
        exact missing rfl
      refine ⟨element, ?_, kind_eq, model_eq, isDefined,
        grown.keeps.accepts accepts⟩
      exact (find?_iff name).trans ((if_neg different).trans found)
    · intro name element found isUndefined
      have found := (find?_iff name).symm.trans found
      split at found
      · cases found
        exact Content.accepts_freshAny isAny
      · exact grown.keeps.accepts
          (presents.undefined name element found isUndefined)

/-- Attributes of an element may be changed. -/
private theorem attributed (presents : Presents declarations contents)
    {name : String} {element : Element} (attributes : List Attribute)
    (found : declarations.elements.find? name = some element) :
    Presents
      { declarations with
        elements :=
          declarations.elements.insert name { element with attributes } }
      contents := by
  have find?_iff := Register.find?_insert declarations.elements name
    { element with attributes }
  constructor
  · exact presents.sound
  · exact presents.standard
  · intro other changed isChanged
    have isChanged := (find?_iff other).symm.trans isChanged
    split at isChanged
    · rename_i same
      cases isChanged
      rw [same]
      exact presents.named name element found
    · exact presents.named other changed isChanged
  · intro other content isContent
    obtain ⟨own, isOwn, facts⟩ := presents.declared other content isContent
    by_cases same : other = name
    · rw [same, found] at isOwn
      cases isOwn
      exact ⟨_, (find?_iff other).trans (if_pos same), facts⟩
    · exact ⟨own, (find?_iff other).trans ((if_neg same).trans isOwn),
        facts⟩
  · intro other changed isChanged isUndefined
    have isChanged := (find?_iff other).symm.trans isChanged
    split at isChanged
    · cases isChanged
      exact presents.undefined name element found isUndefined
    · exact presents.undefined other changed isChanged isUndefined

theorem attach (presents : Presents declarations contents)
    (entry : String × List Attribute) :
    Presents (declarations.attach entry) contents := by
  have defined := presents.addUndefined (.ofElement entry.1)
  cases attach_cases declarations entry rfl with
  | inl same =>
      rw [same]
      exact defined
  | inr attributed =>
      obtain ⟨element, attributes, found, same⟩ := attributed
      rw [same]
      exact defined.attributed attributes found

end Presents

/-! ## Publishing -/

/-- An element is listed where it is found. -/
theorem listed_iff {elements : Register Element}
    (named : ∀ name element,
      elements.find? name = some element → element.name = name)
    (name : String) (element : Element) :
    element ∈ elements.values ∧ element.name = name ↔
      elements.find? name = some element := by
  rw [Register.mem_values_iff]
  constructor
  · intro listed
    obtain ⟨⟨other, found⟩, isName⟩ := listed
    rw [← isName, named other element found]
    exact found
  · intro found
    exact ⟨⟨name, found⟩, named name element found⟩

theorem Presents.listed_iff (presents : Presents declarations contents)
    (name : String) (element : Element) :
    element ∈ declarations.elements.values ∧ element.name = name ↔
      declarations.elements.find? name = some element :=
  Declarations.listed_iff presents.named name element

/-- An undefined element changes the store and the elements alone. -/
theorem addUndefined_eq (declarations : Declarations) (atom : Atom) :
    ∃ store elements,
      declarations.addUndefined atom =
        { declarations with store, elements } := by
  rw [addUndefined]
  split
  · exact ⟨_, _, rfl⟩
  · exact ⟨_, _, rfl⟩

theorem attach_eq (declarations : Declarations)
    (entry : String × List Attribute) :
    ∃ store elements,
      declarations.attach entry = { declarations with store, elements } := by
  obtain ⟨store, elements, defined⟩ :=
    addUndefined_eq declarations (.ofElement entry.1)
  cases attach_cases declarations entry rfl with
  | inl same =>
      exact ⟨store, elements, same.trans defined⟩
  | inr attributed =>
      obtain ⟨_, _, _, same⟩ := attributed
      rw [defined] at same
      exact ⟨store, _, same⟩

/-- What is kept by adding undefined elements and attributes holds when all of
them were added. -/
theorem complete_keeps (declarations : Declarations)
    {motive : Declarations → Prop} (initial : motive declarations)
    (undefined : ∀ earlier atom, motive earlier →
      motive (earlier.addUndefined atom))
    (attached : ∀ earlier entry, motive earlier →
      motive (earlier.attach entry)) : motive declarations.complete := by
  refine List.foldlRecOn declarations.attributes.entries _ ?_
    fun earlier holds entry _ => attached earlier entry holds
  exact List.foldlRecOn declarations.referenced _ initial
    fun earlier holds atom _ => undefined earlier atom holds

/-- The store and the elements alone are completed. -/
theorem complete_eq (declarations : Declarations) :
    ∃ store elements,
      declarations.complete = { declarations with store, elements } := by
  refine complete_keeps declarations
    (motive := fun later => ∃ store elements,
      later = { declarations with store, elements })
    ⟨_, _, rfl⟩ ?_ ?_
  · intro earlier atom changed
    obtain ⟨_, _, same⟩ := changed
    obtain ⟨store, elements, sameThen⟩ := addUndefined_eq earlier atom
    rw [same] at sameThen
    exact ⟨store, elements, same ▸ sameThen⟩
  · intro earlier entry changed
    obtain ⟨_, _, same⟩ := changed
    obtain ⟨store, elements, sameThen⟩ := attach_eq earlier entry
    rw [same] at sameThen
    exact ⟨store, elements, same ▸ sameThen⟩

theorem foldl_addElement (elements : List Element) (schema : Schema) :
    elements.foldl (fun schema element => (schema.addElement element).2)
        schema =
      { schema with
        registered := elements.foldl
          (fun registered element => registered.insert element.name element)
          schema.registered } := by
  induction elements generalizing schema with
  | nil =>
      rfl
  | cons element elements inductionHypothesis =>
      rw [List.foldl_cons, inductionHypothesis]
      rfl

/-- The elements are registered one by one, and an error is recorded after
them. -/
theorem publish_eq_addElement (declarations : Declarations) :
    declarations.publish =
      { registered := declarations.complete.elements.values.foldl
          (fun registered element => registered.insert element.name element) ∅
        store := declarations.complete.store.freeze
        error := declarations.error } := by
  have sameError : declarations.complete.error = declarations.error := by
    obtain ⟨store, elements, same⟩ := complete_eq declarations
    rw [same]
  rw [publish, foldl_addElement, sameError]
  cases declarations.error with
  | none => rfl
  | some error => rfl

theorem error_publish (declarations : Declarations) :
    declarations.publish.error = declarations.error := by
  rw [publish_eq_addElement]

/-- Elements that bear the names under which they are entered are registered as
they are. -/
theorem publish_eq
    (named : ∀ name element,
      declarations.complete.elements.find? name = some element →
      element.name = name) :
    declarations.publish =
      { registered := declarations.complete.elements
        store := declarations.complete.store.freeze
        error := declarations.error } := by
  have sameNames : ∀ (registered : Register Element),
      ∀ entry ∈ declarations.complete.elements.entries,
      registered.insert entry.2.name entry.2 =
        registered.insert entry.1 entry.2 := by
    intro registered entry member
    rw [named entry.1 entry.2
      ((Register.find?_eq_some_iff _ entry.1 entry.2).mpr member)]
  rw [publish_eq_addElement, Register.values, List.foldl_map,
    List.foldl_ext _ _ _ sameNames, Register.foldl_insert_entries]

theorem referenced_complete (declarations : Declarations) :
    declarations.complete.referenced = declarations.referenced := by
  obtain ⟨store, elements, same⟩ := complete_eq declarations
  rw [same]

private theorem reads_of_accepts {store : Store} {schema : Schema}
    {element : Element} {language : Language String}
    (isStore : schema.store = store.freeze)
    (accepts : store.Accepts element.start language) :
    schema.Reads element language := by
  obtain ⟨isPosition, walks⟩ := accepts.position
  refine ⟨⟨store.freeze, element.start⟩, ?_, ?_⟩
  · rw [Schema.start, isStore]
    exact isPosition
  · rw [isStore]
    exact walks

/-- Calls in any order do not fail. If no error was recorded, the schema lists
its elements by name, each once. Every declared element is found, has the form
and the text of its last declaration and reads what that allows. Every
undefined element reads everything. -/
theorem publish_reads {calls : List Call}
    (lowers : ∀ call ∈ calls, call.Lowers) :
    ∃ declarations, run calls = .ok declarations ∧
      (declarations.error = none →
        ∃ elements, declarations.publish.elements = .ok elements ∧
          elements.Pairwise (fun left right => left.name < right.name) ∧
          (∀ name element,
            declarations.publish.findElement? name = .ok (some element) ↔
              element ∈ elements ∧ element.name = name) ∧
          (∀ name content, lastContent name calls = some content →
            ∃ element,
              declarations.publish.findElement? name =
                .ok (some element) ∧
              element.content = content.kind ∧
              element.model = content.text ∧
              element.isUndefined = false ∧
              declarations.publish.Reads element content.language) ∧
          ∀ element ∈ elements, element.isUndefined = true →
            declarations.publish.Reads element Set.univ) := by
  obtain ⟨declarations, contents, area, isRun, holds, last⟩ :=
    run_holds lowers
  refine ⟨declarations, isRun, ?_⟩
  intro noError
  have presents : Presents declarations.complete contents :=
    complete_keeps declarations
      (motive := fun later => Presents later contents) holds.presents
      (fun _ atom earlier => earlier.addUndefined atom)
      fun _ entry earlier => earlier.attach entry
  have isPublished := publish_eq presents.named
  have answers : declarations.publish.error = none :=
    (error_publish declarations).trans noError
  have isLast := last noError
  have found_iff : ∀ name element,
      element ∈ declarations.publish.sorted ∧ element.name = name ↔
        declarations.complete.elements.find? name = some element := by
    intro name element
    rw [Schema.mem_sorted_iff, isPublished]
    exact presents.listed_iff name element
  have ascending : declarations.publish.sorted.Pairwise fun left right =>
      left.name < right.name := by
    apply Schema.sorted_ascending
    rw [isPublished]
    exact presents.named
  have finds : ∀ name, declarations.publish.findElement? name =
      .ok (declarations.complete.elements.find? name) := by
    intro name
    rw [Schema.findElement?_eq answers, isPublished]
  refine ⟨_, Schema.elements_eq answers, ascending, ?_, ?_, ?_⟩
  · intro name element
    rw [finds, found_iff, Except.ok.injEq]
  · intro name content isContent
    rw [isLast] at presents
    obtain ⟨element, found, kind_eq, model_eq, isDefined, accepts⟩ :=
      presents.declared name content isContent
    refine ⟨element, ?_, kind_eq, model_eq, isDefined, ?_⟩
    · rw [finds, found]
    · rw [isPublished]
      exact reads_of_accepts rfl accepts
  · intro element member isUndefined
    have found := (found_iff element.name element).mp ⟨member, rfl⟩
    rw [isPublished]
    exact reads_of_accepts rfl
      (presents.undefined element.name element found isUndefined)

/-- An element is declared twice and refers to one that is not declared. -/
theorem publish_reads_redeclared :
    ∃ declarations,
      run [.declareElement (.ofElement "a")
            (.children (.withOccurs .oneOrMore (.leaf (.ofElement "b")))),
          .setStateLimit 2,
          .declareElement (.ofElement "a") (.mixed [.ofElement "c"])] =
        .ok declarations ∧
      declarations.error = none ∧
      ∃ element,
        declarations.publish.findElement? "a" = .ok (some element) ∧
        element.content = .mixed ∧
        declarations.publish.Reads element
          (Content.mixed [.ofElement "c"]).language := by
  have lowersFirst : Content.Lowers
      (.children (.withOccurs .oneOrMore (.leaf (.ofElement "b")))) := by
    constructor
    · intro model same
      cases same
      decide
    · intro model same
      cases same
      decide
  have lowersSecond : Content.Lowers (.mixed [.ofElement "c"]) := by
    constructor
    · intro model impossible
      cases impossible
    · intro model same
      cases same
      decide
  have lowers : ∀ call ∈ [Call.declareElement (.ofElement "a")
            (.children (.withOccurs .oneOrMore (.leaf (.ofElement "b")))),
          .setStateLimit 2,
          .declareElement (.ofElement "a") (.mixed [.ofElement "c"])],
      call.Lowers := by
    simp only [List.forall_mem_cons, List.not_mem_nil, false_implies,
      implies_true, and_true]
    exact ⟨lowersFirst, trivial, lowersSecond⟩
  obtain ⟨declarations, isRun, published⟩ := publish_reads lowers
  have noError : declarations.error = none := by
    cases isRun
    rfl
  obtain ⟨elements, _, _, _, declared, _⟩ := published noError
  obtain ⟨element, found, kind_eq, _, _, reads⟩ := declared "a" _ rfl
  exact ⟨declarations, isRun, noError, element, found, kind_eq, reads⟩

end Declarations

end ContentModel
