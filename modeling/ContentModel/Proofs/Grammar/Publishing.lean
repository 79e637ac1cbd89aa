import ContentModel.Proofs.Grammar.Proceeding

/-!
# What a schema finds

Publishing adds an undefined element under every name that contents refer to or
attributes are declared for, where none is declared, and gives the elements
their attributes.

Main statements: `publish_finds`, what the schema of any calls finds under a
name can be read off the calls, and `publish_undefined`.
-/

namespace ContentModel

open Automaton

/-! ## First attributes -/

/-- Whether two attributes bear the same name. -/
def Attribute.sameName (left right : Attribute) : Bool :=
  left.atom.name == right.atom.name

namespace Element

theorem isSome_findAttribute?_eq (element : Element) (declared : Attribute) :
    (element.findAttribute? declared.atom.name).isSome =
      element.attributes.any declared.sameName := by
  rw [findAttribute?, List.isSome_find?]
  congr 1
  funext other
  exact BEq.comm

/-- An attribute is added where none of its name was there or stands before
it. -/
theorem attributes_foldl_addAttribute (attributes : List Attribute)
    (element : Element) :
    (attributes.foldl addAttribute element).attributes =
      element.attributes ++
        (attributes.filter fun declared =>
          !element.attributes.any declared.sameName).eraseDupsBy
            Attribute.sameName := by
  induction attributes generalizing element with
  | nil =>
      exact (List.append_nil _).symm
  | cons first rest inductionHypothesis =>
      rw [List.foldl_cons, inductionHypothesis, addAttribute,
        isSome_findAttribute?_eq]
      cases isThere : element.attributes.any first.sameName with
      | true =>
          rw [if_pos rfl, List.filter_cons_of_neg]
          simp only [isThere, Bool.not_true, Bool.false_eq_true,
            not_false_eq_true]
      | false =>
          rw [if_neg Bool.false_ne_true, List.filter_cons_of_pos,
            List.eraseDupsBy_cons, List.append_assoc, List.singleton_append,
            List.filter_filter]
          · congr 3
            apply List.filter_congr
            intro other _
            rw [List.any_append, List.any_cons, List.any_nil, Bool.or_false,
              Bool.not_or, Bool.decide_eq_false, Bool.and_comm]
          · rw [isThere]
            rfl

/-- An element without attributes gets the first ones of each name. -/
theorem foldl_addAttribute_eq (attributes : List Attribute)
    {element : Element} (fresh : element.attributes = []) :
    attributes.foldl addAttribute element =
      { element with
        attributes := attributes.eraseDupsBy Attribute.sameName } := by
  obtain ⟨attached, same⟩ := foldl_addAttribute attributes element
  have isAttached := attributes_foldl_addAttribute attributes element
  simp only [same, fresh, List.nil_append, List.any_nil, Bool.not_false,
    List.filter_true] at isAttached
  rw [same, ← isAttached]

end Element

namespace Declarations

variable {declarations : Declarations} {calls : List Call}

/-! ## Undefined elements -/

/-- A missing element is made up for by an undefined one if it is mentioned. -/
inductive Completed (name : String) (mentioned : Prop) :
    Option Element → Option Element → Prop
  | kept {element : Element} :
      Completed name mentioned (some element) (some element)
  | undefined {atom : Atom} {any : Nat} :
      mentioned → atom.name = name →
      Completed name mentioned none (some (.undefined atom any))
  | missing : ¬ mentioned → Completed name mentioned none none

theorem Completed.congr {name : String} {mentioned other : Prop}
    {earlier later : Option Element} (same : mentioned ↔ other)
    (completed : Completed name mentioned earlier later) :
    Completed name other earlier later := by
  rw [← same]
  exact completed

theorem Completed.eq_of_some {name : String} {mentioned : Prop}
    {element : Element} {later : Option Element}
    (completed : Completed name mentioned (some element) later) :
    later = some element := by
  cases completed with
  | kept => rfl

/-- Where something mentions the name, an undefined element may come later. -/
theorem Completed.getD {name : String} {mentioned other : Prop}
    {earlier later : Option Element}
    (completed : Completed name mentioned earlier later) (isMentioned : other)
    {atom : Atom} (isName : atom.name = name) (any : Nat) :
    Completed name other earlier
      (some (later.getD (.undefined atom any))) := by
  cases completed with
  | kept => exact .kept
  | undefined _ same => exact .undefined isMentioned same
  | missing _ => exact .undefined isMentioned isName

theorem find?_addUndefined (declarations : Declarations) (atom : Atom)
    (name : String) :
    (declarations.addUndefined atom).elements.find? name =
      if name = atom.name then
        some ((declarations.elements.find? name).getD
          (.undefined atom declarations.store.anyNode.1))
      else declarations.elements.find? name := by
  rw [addUndefined]
  split
  · rename_i isThere
    split
    · rename_i same
      rw [Register.contains, ← same, Option.isSome_iff_exists] at isThere
      obtain ⟨element, found⟩ := isThere
      rw [found]
      rfl
    · rfl
  · rename_i notThere
    rw [Register.contains, Bool.not_eq_true,
      Option.isSome_eq_false_iff, Option.isNone_iff_eq_none] at notThere
    refine (Register.find?_insert _ _ _ name).trans ?_
    split
    · rename_i same
      rw [same, notThere]
      rfl
    · rfl

/-- The induction is over the atoms: the first one of a name makes up for it. -/
theorem completed_foldl_addUndefined (declarations : Declarations)
    (atoms : List Atom) (name : String) :
    Completed name (name ∈ atoms.map Atom.name)
      (declarations.elements.find? name)
      ((atoms.foldl addUndefined declarations).elements.find? name) := by
  induction atoms generalizing declarations with
  | nil =>
      rw [List.foldl_nil]
      cases declarations.elements.find? name with
      | none => exact .missing List.not_mem_nil
      | some element => exact .kept
  | cons first rest inductionHypothesis =>
      have completed := inductionHypothesis (declarations.addUndefined first)
      rw [find?_addUndefined] at completed
      rw [List.foldl_cons]
      by_cases same : name = first.name
      · rw [if_pos same] at completed
        have isMentioned : name ∈ (first :: rest).map Atom.name := by
          rw [same]
          exact List.mem_cons_self
        rw [completed.eq_of_some]
        cases declarations.elements.find? name with
        | none => exact .undefined isMentioned same.symm
        | some element => exact .kept
      · rw [if_neg same] at completed
        apply completed.congr
        rw [List.map_cons, List.mem_cons]
        exact (or_iff_right same).symm

/-! ## Attributes -/

/-- The element of the name, or an undefined one, gets the attributes. -/
theorem find?_attach (declarations : Declarations)
    (entry : String × List Attribute) (name : String) :
    (declarations.attach entry).elements.find? name =
      if name = entry.1 then
        some (entry.2.foldl Element.addAttribute
          ((declarations.elements.find? name).getD
            (.undefined (.ofElement entry.1) declarations.store.anyNode.1)))
      else declarations.elements.find? name := by
  have isThere := find?_addUndefined declarations (.ofElement entry.1)
  have found := (isThere entry.1).trans (if_pos rfl)
  rw [attach]
  simp only [found]
  rw [Register.find?_insert, isThere]
  by_cases same : name = entry.1
  · rw [if_pos same, if_pos same, same]
  · rw [if_neg same, if_neg same]
    exact if_neg same

theorem find?_foldl_attach_of_absent (declarations : Declarations)
    {entries : List (String × List Attribute)} {name : String}
    (absent : ∀ entry ∈ entries, name ≠ entry.1) :
    (entries.foldl attach declarations).elements.find? name =
      declarations.elements.find? name := by
  induction entries generalizing declarations with
  | nil =>
      rfl
  | cons first rest inductionHypothesis =>
      rw [List.foldl_cons, inductionHypothesis (declarations.attach first)
        fun entry member => absent entry (List.mem_cons_of_mem first member),
        find?_attach, if_neg (absent first List.mem_cons_self)]

/-- Each name has one list of attributes. -/
theorem find?_foldl_attach_of_mem (declarations : Declarations)
    {entries : List (String × List Attribute)}
    (distinct : entries.Pairwise fun left right => left.1 ≠ right.1)
    {entry : String × List Attribute} (member : entry ∈ entries) :
    ∃ any, (entries.foldl attach declarations).elements.find? entry.1 =
      some (entry.2.foldl Element.addAttribute
        ((declarations.elements.find? entry.1).getD
          (.undefined (.ofElement entry.1) any))) := by
  induction entries generalizing declarations with
  | nil =>
      exact absurd member List.not_mem_nil
  | cons first rest inductionHypothesis =>
      obtain ⟨firstDiffers, restDistinct⟩ := List.pairwise_cons.mp distinct
      rw [List.foldl_cons]
      cases List.mem_cons.mp member with
      | inl isFirst =>
          have absent : ∀ other ∈ rest, entry.1 ≠ other.1 := by
            rw [isFirst]
            exact firstDiffers
          refine ⟨declarations.store.anyNode.1, ?_⟩
          rw [find?_foldl_attach_of_absent _ absent, ← isFirst, find?_attach,
            if_pos rfl]
      | inr later =>
          have different : entry.1 ≠ first.1 :=
            Ne.symm (firstDiffers entry later)
          obtain ⟨any, found⟩ := inductionHypothesis
            (declarations.attach first) restDistinct later
          rw [find?_attach, if_neg different] at found
          exact ⟨any, found⟩

/-! ## Publishing -/

theorem Tended.complete (tended : Tended declarations) :
    Tended declarations.complete :=
  complete_keeps declarations tended
    (fun _ atom holds => holds.addUndefined atom)
    fun _ entry holds => holds.attach entry

theorem Tended.registered_publish (tended : Tended declarations) :
    declarations.publish.registered = declarations.complete.elements := by
  rw [publish_eq tended.complete.named]

/-- What is published under a name is what was entered under it, or else an
undefined element if the name is mentioned, with its attributes. -/
theorem exists_origin (declarations : Declarations) (name : String) :
    ∃ origin,
      Completed name
        (name ∈ declarations.referencedNames ∨
          (declarations.attributes.find? name).isSome)
        (declarations.elements.find? name) origin ∧
      declarations.complete.elements.find? name =
        origin.map fun element =>
          ((declarations.attributes.find? name).getD []).foldl
            Element.addAttribute element := by
  have completed :=
    completed_foldl_addUndefined declarations declarations.referenced name
  cases isAttributes : declarations.attributes.find? name with
  | none =>
      have absent : ∀ entry ∈ declarations.attributes.entries,
          name ≠ entry.1 := by
        intro entry member same
        have found :=
          (Register.find?_eq_some_iff _ entry.1 entry.2).mpr member
        rw [← same, isAttributes] at found
        cases found
      refine ⟨_, completed.congr ?_, ?_⟩
      · exact (or_iff_left Bool.false_ne_true).symm
      · exact (find?_foldl_attach_of_absent _ absent).trans
          Option.map_id'.symm
  | some attributes =>
      have member :=
        (Register.find?_eq_some_iff _ name attributes).mp isAttributes
      obtain ⟨any, found⟩ := find?_foldl_attach_of_mem
        (declarations.referenced.foldl addUndefined declarations)
        declarations.attributes.distinct member
      have isName : (Atom.ofElement name).name = name := rfl
      exact ⟨_, completed.getD (Or.inr rfl) isName any, found⟩

/-! ## Schemas of calls -/

/-- Attributes are declared for the name, or a content that was declared at some
time refers to it. -/
def Mentioned (name : String) (calls : List Call) : Prop :=
  attributeLists name calls ≠ [] ∨ ∃ call ∈ calls, call.RefersTo name

/-- The attributes of an element: of each name the first one that the calls
declare for it. -/
def firstAttributes (name : String) (calls : List Call) : List Attribute :=
  (attributeLists name calls).flatten.eraseDupsBy Attribute.sameName

/-- What the schema of the calls finds under a name. -/
inductive Finds (calls : List Call) (name : String) : Option Element → Prop
  | declared {element : Element} {content : Content} :
      lastContent name calls = some content →
      element.content = content.kind → element.isUndefined = false →
      element.attributes = firstAttributes name calls →
      Finds calls name (some element)
  | undefined {element : Element} :
      lastContent name calls = none → Mentioned name calls →
      element.content = .any → element.isUndefined = true →
      element.attributes = firstAttributes name calls →
      Finds calls name (some element)
  | missing :
      lastContent name calls = none → ¬ Mentioned name calls →
      Finds calls name none

theorem Proceeding.finds (proceeding : Proceeding calls declarations)
    (name : String) :
    Finds calls name (declarations.publish.registered.find? name) := by
  obtain ⟨origin, completed, published⟩ :=
    exists_origin declarations name
  have entered := proceeding.enteredAs name
  have isAttributes := proceeding.find?_attributes name
  have allAttributes : (declarations.attributes.find? name).getD [] =
      (attributeLists name calls).flatten := by
    rw [isAttributes]
    split
    · rename_i noLists
      rw [noLists]
      rfl
    · rfl
  have isMentioned : (name ∈ declarations.referencedNames ∨
      (declarations.attributes.find? name).isSome = true) ↔
        Mentioned name calls := by
    rw [proceeding.mem_referencedNames_iff, isAttributes, or_comm, Mentioned]
    apply or_congr_left
    split
    · rename_i noLists
      exact iff_of_false Bool.false_ne_true fun someList => someList noLists
    · rename_i someList
      exact iff_of_true rfl someList
  rw [proceeding.tended.registered_publish, published, allAttributes]
  generalize declarations.elements.find? name = earlier at completed entered
  generalize isContent : lastContent name calls = last at entered
  cases entered with
  | missing =>
      cases completed with
      | undefined mentioned isName =>
          rw [Option.map_some, Element.foldl_addAttribute_eq _ rfl]
          exact .undefined isContent (isMentioned.mp mentioned) rfl rfl rfl
      | missing notMentioned =>
          exact .missing isContent (isMentioned.not.mp notMentioned)
  | declared isName =>
      cases completed with
      | kept =>
          rw [Option.map_some, Element.foldl_addAttribute_eq _ rfl]
          exact .declared isContent rfl rfl rfl

/-- Calls in any order do not fail. If no error was recorded, what the schema
finds can be read off the calls. -/
theorem publish_finds (ordered : ∀ call ∈ calls, call.BoundsOrdered) :
    ∃ declarations, run calls = .ok declarations ∧
      (declarations.error = none → ∀ name, ∃ found,
        declarations.publish.findElement? name = .ok found ∧
          Finds calls name found) := by
  obtain ⟨declarations, isRun, _, proceeding⟩ := exists_proceeding ordered
  refine ⟨declarations, isRun, ?_⟩
  intro noError name
  have answers : declarations.publish.error = none :=
    (error_publish declarations).trans noError
  exact ⟨_, Schema.findElement?_eq answers name,
    (proceeding noError).finds name⟩

/-! ### Undefined elements -/

/-- Calls in any order do not fail. If no error was recorded, the undefined
elements of the schema are those that are not declared and are mentioned: they
have attributes, or a content refers to them, be it one that was replaced. -/
theorem publish_undefined (ordered : ∀ call ∈ calls, call.BoundsOrdered) :
    ∃ declarations, run calls = .ok declarations ∧
      (declarations.error = none →
        ∃ elements, declarations.publish.elements = .ok elements ∧
          ∀ name,
            (∃ element ∈ elements,
              element.name = name ∧ element.isUndefined = true) ↔
            lastContent name calls = none ∧ Mentioned name calls) := by
  obtain ⟨declarations, isRun, tended, proceeding⟩ := exists_proceeding ordered
  refine ⟨declarations, isRun, ?_⟩
  intro noError
  have answers : declarations.publish.error = none :=
    (error_publish declarations).trans noError
  refine ⟨_, Schema.elements_eq answers, ?_⟩
  intro name
  have found_iff := listed_iff tended.complete.named name
  rw [← tended.registered_publish] at found_iff
  simp only [Schema.mem_sorted_iff, ← and_assoc, found_iff]
  have finds := (proceeding noError).finds name
  generalize declarations.publish.registered.find? name = found at finds ⊢
  cases finds with
  | @declared element content isContent _ isDefined _ =>
      apply iff_of_false
      · intro isFound
        obtain ⟨other, same, isUndefined⟩ := isFound
        cases same
        rw [isDefined] at isUndefined
        cases isUndefined
      · intro noContent
        rw [isContent] at noContent
        cases noContent.1
  | @undefined element noContent mentioned _ isUndefined _ =>
      exact iff_of_true ⟨element, rfl, isUndefined⟩ ⟨noContent, mentioned⟩
  | missing noContent notMentioned =>
      apply iff_of_false
      · intro isFound
        obtain ⟨other, impossible, _⟩ := isFound
        cases impossible
      · intro isMentioned
        exact notMentioned isMentioned.2

/-- Attributes are declared for an element that is not declared. -/
theorem publish_undefined_attributed :
    ∃ declarations elements,
      run [.declareAttributes "a" []] = .ok declarations ∧
      declarations.publish.elements = .ok elements ∧
      ∃ element ∈ elements,
        element.name = "a" ∧ element.isUndefined = true := by
  have ordered : ∀ call ∈ [Call.declareAttributes "a" []],
      call.BoundsOrdered :=
    List.forall_mem_singleton.mpr trivial
  obtain ⟨declarations, isRun, published⟩ := publish_undefined ordered
  have noError : declarations.error = none := by
    cases isRun
    rfl
  obtain ⟨elements, isElements, undefined_iff⟩ := published noError
  have mentioned : Mentioned "a" [.declareAttributes "a" []] :=
    Or.inl (List.cons_ne_nil [] [])
  exact ⟨declarations, elements, isRun, isElements,
    (undefined_iff "a").mpr ⟨rfl, mentioned⟩⟩

/-- An element is declared twice. Its first content refers to another one. -/
def replacedReference : List Call :=
  [.declareElement (.ofElement "a") (.children (.leaf (.ofElement "b"))),
    .declareElement (.ofElement "a") .empty]

/-- The name to which a replaced content refers is that of an undefined element,
though no attributes are declared for it and no content that was declared last
refers to it. -/
theorem undefined_of_replaced_content :
    ∃ declarations elements,
      run replacedReference = .ok declarations ∧ declarations.error = none ∧
      declarations.publish.elements = .ok elements ∧
      (∃ element ∈ elements,
        element.name = "b" ∧ element.isUndefined = true) ∧
      attributeLists "b" replacedReference = [] ∧
      ∀ name content, lastContent name replacedReference = some content →
        "b" ∉ content.names := by
  have lastEmpty : ∀ name content,
      lastContent name replacedReference = some content →
      content = .empty := by
    intro name content isLast
    change ((none : Option Content).or
      (if name = "a" then some .empty else none)).or
        (if name = "a" then some (.children (.leaf (.ofElement "b")))
          else none) = some content at isLast
    split at isLast
    · exact (Option.some.inj isLast).symm
    · cases isLast
  refine ⟨_, _, rfl, rfl, rfl, ?_, rfl, ?_⟩
  · simp only [Schema.mem_sorted_iff]
    exact ⟨_, List.mem_cons_of_mem _ List.mem_cons_self, rfl, rfl⟩
  · intro name content isLast
    rw [lastEmpty name content isLast]
    exact List.not_mem_nil

end Declarations

end ContentModel
