import ContentModel.Proofs.Automaton.OfFragment
import ContentModel.Proofs.Automaton.Reached
import ContentModel.Proofs.Fragment.OfModel

/-!
# Automata of content models

Main statements: the automaton of a content model accepts the sequences of
names that the model allows (`compileModel_accepts`), and a walk comes to a
node exactly as long as what was read can be completed
(`compileModel_arrives`).
-/

namespace ContentModel

open FragmentGraph

/-- The number of points of the fragment of a model. -/
def Model.pointCount (model : Model) : Nat :=
  match model.fragment {} with
  | .ok (_, graph) => graph.size
  | .error _ => 0

/-- The fragment of a model that is compiled; a model without a fragment is
compiled like one that reads nothing. -/
def Model.lowered (model : Model) :
    Except Fault (Fragment × FragmentGraph) := do
  match ← model.fragment {} with
  | (some fragment, graph) => return (fragment, graph)
  | (none, graph) => return graph.nothing

namespace Automaton.Store

/-- What is compiled depends on the model alone. -/
theorem compileModel_eq (store : Store) (model : Model) :
    store.compileModel model =
      model.lowered >>= fun (fragment, graph) =>
        store.compile graph fragment := by
  rw [compileModel, Model.lowered]
  cases model.fragment {} with
  | error fault =>
      rfl
  | ok result =>
      obtain ⟨fragment, graph⟩ := result
      cases fragment with
      | none => rfl
      | some fragment => rfl

variable {base after : Store} {language : Language String} {start : Nat}
  {created : List Nat}

/-! ## The nodes of a compilation -/

/-- The automaton of a language was added: its nodes are new and lead to each
other alone, the walks from its start accept the language, and they come to a
node as long as what was read can be completed. -/
structure Compiled (base : Store) (language : Language String) (start : Nat)
    (created : List Nat) (after : Store) : Prop where
  grown : base.Grown created after
  start_mem : start ∈ created
  leads : ∀ id ∈ created, ∀ node, after.node id = .ok node →
    ∀ name next, node.transitions.find? name = some next → next ∈ created
  accepts : after.Accepts start language
  arrives : ∀ word, ∃ reached, after.reader.arrive start word = .ok reached ∧
    ((∃ id, reached = some id) ↔ ∃ rest, word ++ rest ∈ language) ∧
    ∀ id, reached = some id → ∃ node, after.node id = .ok node ∧
      ∀ name, node.transitions.contains name = true ↔
        ∃ rest, word ++ name :: rest ∈ language

section Keys

variable {κ : Type} {spec : κ → SubsetStep κ} {first : κ} {keys : List κ}
  {nodeOf : κ → Nat}
  (built : Built base spec first keys nodeOf after)
  (allExpand : ∀ key, Met spec first key → (spec key).IsExpand)

include built allExpand

private theorem Built.nodeOf_mem {key : κ} (met : Met spec first key) :
    nodeOf key ∈ keys.map nodeOf :=
  List.mem_map_of_mem
    ((built.mem_keys_iff key).mpr ⟨met, allExpand key met⟩)

/-- The nodes of the keys lead to each other alone. -/
private theorem Built.leads_mem {id next : Nat} {node : Node} {name : String}
    (member : id ∈ keys.map nodeOf) (found : after.node id = .ok node)
    (leads : node.transitions.find? name = some next) :
    next ∈ keys.map nodeOf := by
  obtain ⟨key, isKey, rfl⟩ := List.mem_map.mp member
  obtain ⟨met, accepting, edges, isStep⟩ :=
    (built.mem_keys_iff key).mp isKey
  obtain ⟨other, isOther, _, _, table⟩ :=
    built.expand key accepting edges met isStep
  rw [found] at isOther
  cases isOther
  rw [table] at leads
  obtain ⟨nextKey, last, rfl⟩ := Option.map_eq_some_iff.mp leads
  obtain ⟨atom, isEdge, _⟩ := exists_of_lastKey last
  exact Built.nodeOf_mem built allExpand (met.next isStep isEdge)

/-- The names in the table of a node are those with which what was read can
still be completed. -/
private theorem Built.contains_iff {languages : κ → Language String}
    (solves : Solves spec first languages)
    (productive : ∀ key, Met spec first key → ∃ word, word ∈ languages key)
    {word : List String} {last : κ}
    (arrives : Automaton.arrive spec first word = some last) :
    ∃ node, after.node (nodeOf last) = .ok node ∧
      ∀ name, node.transitions.contains name = true ↔
        ∃ rest, word ++ name :: rest ∈ languages first := by
  have firstMet := met_start spec first
  have met := firstMet.arrive arrives
  obtain ⟨accepting, edges, isStep⟩ := allExpand last met
  obtain ⟨node, found, _, _, table⟩ :=
    built.expand last accepting edges met isStep
  refine ⟨node, found, ?_⟩
  intro name
  have longer : (∃ rest, word ++ name :: rest ∈ languages first) ↔
      ∃ rest, (word ++ [name]) ++ rest ∈ languages first := by
    refine exists_congr fun rest => ?_
    rw [List.append_assoc]
    exact Iff.rfl
  rw [longer, ← solves.arrive_iff productive firstMet, arrive_concat, arrives,
    AtomMap.contains_eq_isSome_find?, table, Option.isSome_map,
    Option.isSome_iff_exists, Option.bind_some, isStep]
  exact Iff.rfl

private theorem Built.compiled {languages : κ → Language String}
    (solves : Solves spec first languages)
    (accepts : ∀ key accepting edges, Met spec first key →
      spec key = .expand accepting edges →
      (accepting = true ↔ [] ∈ languages key))
    (productive : ∀ key, Met spec first key → ∃ word, word ∈ languages key) :
    Compiled base (languages first) (nodeOf first) (keys.map nodeOf)
      after := by
  have firstMet := met_start spec first
  constructor
  · exact built.grown
  · exact Built.nodeOf_mem built allExpand firstMet
  · intro id member node found name next leads
    exact Built.leads_mem built allExpand member found leads
  · exact built.walk_of_steps allExpand solves accepts
  · intro word
    refine ⟨_, built.arrive firstMet word, ?_, ?_⟩
    · rw [← solves.arrive_iff productive firstMet]
      simp
    · intro id isId
      obtain ⟨last, arrives, rfl⟩ := Option.map_eq_some_iff.mp isId
      exact Built.contains_iff built allExpand solves productive arrives

end Keys

/-- A fragment with a region is compiled. -/
private theorem compile_region (sound : base.Sound) {graph : FragmentGraph}
    {fragment : Fragment} {region : Set Nat}
    (whole : Region True graph fragment region)
    (numbered : graph.size ≤ pastExit) :
    (∃ start created after,
      base.compile graph fragment = .ok (.ok start, after) ∧
      Compiled base (graph.language fragment) start created after) ∨
    (∃ after, base.compile graph fragment =
        .ok (.error ⟨base.stateLimit⟩, after) ∧
      Grown base [] after) := by
  have within := whole.within numbered
  have entryMem : fragment.entry ∈ insert pastExit region :=
    Set.mem_insert_of_mem pastExit whole.entry_mem
  have inside : ∀ id ∈ [fragment.entry], id ∈ insert pastExit region :=
    List.forall_mem_singleton.mpr entryMem
  rcases compile_outcome sound within.toStays entryMem with
    ⟨keys, nodeOf, after, result, _, built⟩ |
      ⟨keys, after, result, _, _, _, grown⟩
  · have compiled := Built.compiled built
      (fun key met => met_isExpand within.toStays inside met)
      (solves_wordsFrom within inside)
      (fun key accepting edges met isStep =>
        setSpec_accepting within inside met isStep)
      (fun key met => productive_wordsFrom within inside
        (whole.finishes_runs numbered) (List.cons_ne_nil _ _) met)
    rw [wordsFrom_closureOf within inside, whole.wordsFrom_entry numbered]
      at compiled
    exact Or.inl ⟨_, _, after, result, compiled⟩
  · exact Or.inr ⟨after, result, grown⟩

/-- The fragment that is compiled reads what the model allows. -/
theorem lowered_region {model : Model} (ordered : model.BoundsOrdered) :
    ∃ (fragment : Fragment) (graph : FragmentGraph) (region : Set Nat),
      model.lowered = .ok (fragment, graph) ∧
      Region True graph fragment region ∧
      graph.language fragment = model.language ∧
      (model.pointCount < pastExit → graph.size ≤ pastExit) := by
  have becomes := Model.fragment_becomes ordered {}
  rw [Model.pointCount, Model.lowered]
  generalize model.language = language at becomes ⊢
  generalize model.fragment {} = result at becomes ⊢
  cases becomes with
  | none silent =>
      obtain ⟨whole, graph, isNothing, placed, _⟩ := builds_nothing {}
      obtain ⟨region, _, hasRegion⟩ := placed.region
      have isPair := Except.ok.inj isNothing
      have sizeEq : 1 = graph.size :=
        congrArg (fun pair : Fragment × FragmentGraph => pair.2.size) isPair
      refine ⟨whole, graph, region, ?_, hasRegion,
        placed.language.trans silent.symm, ?_⟩
      · simp only [ok_bind, isPair]
        rfl
      · intro _
        rw [← sizeEq]
        decide
  | @some whole graph placed _ =>
      obtain ⟨region, _, hasRegion⟩ := placed.region
      exact ⟨whole, graph, region, rfl, hasRegion, placed.language,
        Nat.le_of_lt⟩

/-- A model is compiled like a fragment that reads what the model allows,
whatever the store is. -/
theorem exists_compile_of_model {model : Model}
    (ordered : model.BoundsOrdered) :
    ∃ (graph : FragmentGraph) (fragment : Fragment) (region : Set Nat),
      Region True graph fragment region ∧
      graph.language fragment = model.language ∧
      (model.pointCount < pastExit → graph.size ≤ pastExit) ∧
      ∀ store : Store, store.compileModel model =
        store.compile graph fragment := by
  obtain ⟨fragment, graph, region, isLowered, whole, sameLanguage, few⟩ :=
    lowered_region ordered
  refine ⟨graph, fragment, region, whole, sameLanguage, few, ?_⟩
  intro store
  rw [compileModel_eq, isLowered]
  rfl

/-- A compilation does not fail: it adds the automaton of the model, or gives
up with no node of its own. -/
theorem compileModel_outcome (sound : base.Sound) {model : Model}
    (ordered : model.BoundsOrdered)
    (numbered : model.pointCount < pastExit) :
    (∃ start created after,
      base.compileModel model = .ok (.ok start, after) ∧
      Compiled base model.language start created after) ∨
    (∃ after, base.compileModel model =
        .ok (.error ⟨base.stateLimit⟩, after) ∧
      Grown base [] after) := by
  obtain ⟨graph, fragment, region, whole, sameLanguage, few, isCompile⟩ :=
    exists_compile_of_model ordered
  rw [isCompile base, ← sameLanguage]
  exact compile_region sound whole (few numbered)

theorem compiled_of_result {model : Model} (reached : base.Reached)
    (ordered : model.BoundsOrdered) (numbered : model.pointCount < pastExit)
    (result : base.compileModel model = .ok (.ok start, after)) :
    ∃ created, Compiled base model.language start created after := by
  rcases compileModel_outcome reached.sound ordered numbered with
    ⟨other, created, store, isOther, compiled⟩ | ⟨store, isOther, _⟩
  · rw [result] at isOther
    cases isOther
    exact ⟨created, compiled⟩
  · rw [result] at isOther
    cases isOther

/-! ## What the automaton of a model accepts -/

/-- Whatever was done with the store before, the automaton of a model accepts
what the model allows. -/
theorem compileModel_accepts (reached : base.Reached) {model : Model}
    (ordered : model.BoundsOrdered) (numbered : model.pointCount < pastExit)
    (result : base.compileModel model = .ok (.ok start, after))
    (word : List String) :
    ∃ walk, after.walk start word = .ok walk ∧
      (walk.accepted = true ↔ word ∈ model.language) := by
  obtain ⟨created, compiled⟩ :=
    compiled_of_result reached ordered numbered result
  exact compiled.accepts word

theorem compileModel_accepts_repeated_choice :
    ∃ model start after,
      model = Model.withOccurs .oneOrMore
        (.choice [.leaf (.ofElement "a"), .unknown []]) ∧
      ({} : Store).compileModel model = .ok (.ok start, after) ∧
      ∃ walk, after.walk start ["a", "a"] = .ok walk ∧
        (walk.accepted = true ↔ ["a", "a"] ∈ model.language) :=
  ⟨_, _, _, rfl, rfl,
    compileModel_accepts .new (by decide) (by decide) rfl ["a", "a"]⟩

/-- There are no dead ends: a word arrives at a node exactly if it can be
completed to one that the model allows, and the names in the table of that node
are those with which it can still be completed. -/
theorem compileModel_arrives (reached : base.Reached) {model : Model}
    (ordered : model.BoundsOrdered) (numbered : model.pointCount < pastExit)
    (result : base.compileModel model = .ok (.ok start, after))
    (word : List String) :
    ∃ arrival, after.reader.arrive start word = .ok arrival ∧
      ((∃ id, arrival = some id) ↔ ∃ rest, word ++ rest ∈ model.language) ∧
      ∀ id, arrival = some id → ∃ node, after.node id = .ok node ∧
        ∀ name, node.transitions.contains name = true ↔
          ∃ rest, word ++ name :: rest ∈ model.language := by
  obtain ⟨created, compiled⟩ :=
    compiled_of_result reached ordered numbered result
  exact compiled.arrives word

theorem compileModel_arrives_optional_sequence :
    ∃ model start after,
      model = Model.withOccurs .optional
        (.sequence [.leaf (.ofElement "a"), .leaf (.ofElement "b")]) ∧
      ({} : Store).compileModel model = .ok (.ok start, after) ∧
      ∃ arrival, after.reader.arrive start ["a"] = .ok arrival ∧
        ((∃ id, arrival = some id) ↔
          ∃ rest, ["a"] ++ rest ∈ model.language) ∧
        ∀ id, arrival = some id → ∃ node, after.node id = .ok node ∧
          ∀ name, node.transitions.contains name = true ↔
            ∃ rest, ["a"] ++ name :: rest ∈ model.language :=
  ⟨_, _, _, rfl, rfl,
    compileModel_arrives .new (by decide) (by decide) rfl ["a"]⟩

end Automaton.Store

end ContentModel
