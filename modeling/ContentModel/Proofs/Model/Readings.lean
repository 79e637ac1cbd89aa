import ContentModel.Proofs.Automaton.States
import ContentModel.Proofs.Model.Looks

/-!
# What readings give

Every traversal gives for a node what the definition by recursion gives for the
model that the node shows, and reads the children of the nodes that its walk
goes through. Main statement: `Look.read_eq`, for all readings.
-/

namespace ContentModel

open Workbench

namespace Model

/-- Without members a particle is written like any other that is no group. -/
theorem text_eq_of_noGroup {particle : Particle} (members : List Model)
    (noGroup : Walk.groups.enters particle = false) :
    (node particle members).text = particleText particle [] := by
  obtain ⟨kind, occurs, atom⟩ := particle
  rw [text]
  cases kind with
  | unknown => rfl
  | leaf =>
      cases atom with
      | none => rfl
      | some atom => rfl
  | choice => cases noGroup
  | sequence => cases noGroup

theorem heights_cons_le {model : Model} {models : List Model} {room : Nat}
    (fits : heights (model :: models) ≤ room) :
    model.height ≤ room ∧ heights models ≤ room := by
  rw [heights] at fits
  exact Nat.max_le.mp fits

/-! ## Members one after the other -/

/-- Adds the fragment of a part to those that were made. -/
def addPart (made : List Fragment × FragmentGraph) (part : Model) :
    Except Fault (List Fragment × FragmentGraph) := do
  let (first, graph) ← part.fragment made.2
  return (made.1 ++ first.toList, graph)

/-- Adds the fragment of a branch to those that were made. -/
def addBranch (made : List Fragment × FragmentGraph) (branch : Model) :
    Except Fault (List Fragment × FragmentGraph) := do
  match ← branch.fragment made.2 with
  | (some first, graph) => return (made.1 ++ [first], graph)
  | (none, graph) =>
    let (first, graph) := graph.nothing
    return (made.1 ++ [first], graph)

theorem foldlM_addPart {models : List Model} {graph after : FragmentGraph}
    {parts : List Fragment} (made : List Fragment)
    (isParts : fragmentsOfParts models graph = .ok (parts, after)) :
    models.foldlM addPart (made, graph) = .ok (made ++ parts, after) := by
  induction models generalizing made graph parts with
  | nil =>
      cases isParts
      rw [List.append_nil]
      rfl
  | cons part rest inductionHypothesis =>
      rw [fragmentsOfParts, bind_eq_ok_iff] at isParts
      obtain ⟨⟨first, middle⟩, isFirst, isParts⟩ := isParts
      obtain ⟨⟨others, last⟩, isRest, same⟩ := bind_eq_ok_iff.mp isParts
      cases same
      rw [List.foldlM_cons, addPart, isFirst]
      refine (inductionHypothesis (made ++ first.toList) isRest).trans ?_
      rw [List.append_assoc]

theorem foldlM_addBranch {models : List Model} {graph after : FragmentGraph}
    {branches : List Fragment} (made : List Fragment)
    (isBranches : fragmentsOfBranches models graph = .ok (branches, after)) :
    models.foldlM addBranch (made, graph) = .ok (made ++ branches, after) := by
  induction models generalizing made graph branches with
  | nil =>
      cases isBranches
      rw [List.append_nil]
      rfl
  | cons branch rest inductionHypothesis =>
      rw [fragmentsOfBranches, bind_eq_ok_iff] at isBranches
      obtain ⟨⟨first, middle⟩, isFirst, isBranches⟩ := isBranches
      obtain ⟨⟨others, last⟩, isRest, same⟩ := bind_eq_ok_iff.mp isBranches
      cases same
      rw [List.foldlM_cons, addBranch, isFirst]
      cases first with
      | none =>
          refine (inductionHypothesis (made ++ [_]) isRest).trans ?_
          rw [List.append_assoc]
          rfl
      | some first =>
          refine (inductionHypothesis (made ++ [first]) isRest).trans ?_
          rw [List.append_assoc]
          rfl

/-- The atoms of the members are collected one member after the other. -/
theorem foldlM_heldAtoms (models : List Model) (found : List Atom) :
    models.foldlM (fun found model =>
        (.ok (model.heldAtoms.foldl Atom.addDistinct found) :
          Except Fault (List Atom))) found =
      .ok ((allHeldAtoms models).foldl Atom.addDistinct found) := by
  induction models generalizing found with
  | nil =>
      rfl
  | cons model models inductionHypothesis =>
      rw [List.foldlM_cons, ok_bind, inductionHypothesis, allHeldAtoms,
        List.foldl_append]

end Model

namespace Look

variable {α β : Type} {bench between after : Workbench} {id : Nat}
  {walk : Walk} {room : Nat}

/-! ## Runs -/

theorem bind_run {look : Look α} {next : α → Look β} {value : α}
    (ran : look bench = .ok (value, between)) :
    (look >>= next) bench = next value between := by
  show StateT.bind look next bench = _
  rw [StateT.bind, ran]
  rfl

theorem lift_run {result : Except Fault α} {value : α}
    (isResult : result = .ok value) (bench : Workbench) :
    (liftM result : Look α) bench = .ok (value, bench) := by
  rw [isResult]
  rfl

theorem particle_run {node : DraftNode}
    (found : bench.nodes[id]? = some node) :
    particle id bench = .ok (node.particle, bench) := by
  rw [← Workbench.node_eq found]
  rfl

theorem children_run {node : DraftNode}
    (found : bench.nodes[id]? = some node) :
    children id bench =
      .ok (node.children, bench.change id DraftNode.freeze) := by
  have isRead : (bench.change id DraftNode.freeze).node id = node.freeze := by
    apply Workbench.node_eq
    rw [Workbench.getElem?_change, if_pos rfl, found]
    rfl
  have run : children id bench =
      .ok (((bench.change id DraftNode.freeze).node id).children,
        bench.change id DraftNode.freeze) := rfl
  rw [run, isRead, DraftNode.children_freeze]

/-! ## Traversals -/

/-- For a node that shows a model the look gives what it should, and it reads
the children of the nodes that the walk goes through. -/
def Follows (walk : Walk) (room : Nat) (look : Nat → Look α)
    (gives : Model → α → Prop) : Prop :=
  ∀ (bench : Workbench) (id : Nat) (model : Model) (value : α),
    bench.Shows id model → model.height ≤ room → gives model value →
    ∃ after, look id bench = .ok (value, after) ∧
      bench.Settles (walk.Looks bench id) after

/-- The members of a model that nests no deeper than there is room, once the
children of its node were read. -/
theorem shows_members {node : DraftNode} {members : List Model}
    (below : List.Forall₂ bench.Shows node.children members) :
    List.Forall₂ (bench.change id DraftNode.freeze).Shows node.children
      members :=
  below.imp fun _ _ shows => (bench.settles_change id).alike.shows shows

theorem height_members_le {particle : Particle} {members : List Model}
    (fits : (Model.node particle members).height ≤ room + 1) :
    Model.heights members ≤ room :=
  Nat.le_of_succ_le_succ fits

section Members

variable {look : Nat → Look α} {ids : List Nat} {models : List Model}

theorem Follows.mapM {result : Model → α}
    (follows : Follows walk room look fun model value => value = result model)
    (passes : ∀ model, walk.passes model = true)
    (shows : List.Forall₂ bench.Shows ids models)
    (fits : Model.heights models ≤ room) :
    ∃ after, ids.mapM look bench = .ok (models.map result, after) ∧
      bench.Settles (walk.Below bench ids) after := by
  induction ids generalizing bench models with
  | nil =>
      cases shows
      exact ⟨bench, rfl, .nil bench⟩
  | cons id ids inductionHypothesis =>
      cases shows with
      | @cons _ model _ models isShown shows =>
          obtain ⟨firstFits, fits⟩ := Model.heights_cons_le fits
          obtain ⟨between, isFirst, first⟩ :=
            follows bench id model _ isShown firstFits rfl
          obtain ⟨after, isRest, rest⟩ := inductionHypothesis
            (shows.imp fun _ _ shows => first.alike.shows shows) fits
          refine ⟨after, ?_, first.cons isShown (passes model) rest⟩
          rw [List.mapM_cons, bind_run isFirst, bind_run isRest]
          rfl

/-- The look at the members ends with the first incomplete one. -/
theorem Follows.allM {look : Nat → Look Bool}
    (follows : Follows .completeness room look fun model value =>
      value = model.isComplete)
    (shows : List.Forall₂ bench.Shows ids models)
    (fits : Model.heights models ≤ room) :
    ∃ after, ids.allM look bench = .ok (Model.allComplete models, after) ∧
      bench.Settles (Walk.completeness.Below bench ids) after := by
  induction ids generalizing bench models with
  | nil =>
      cases shows
      exact ⟨bench, rfl, .nil bench⟩
  | cons id ids inductionHypothesis =>
      cases shows with
      | @cons _ model _ models isShown shows =>
          obtain ⟨firstFits, fits⟩ := Model.heights_cons_le fits
          obtain ⟨between, isFirst, first⟩ :=
            follows bench id model _ isShown firstFits rfl
          rw [List.allM, bind_run isFirst, Model.allComplete]
          cases complete : model.isComplete with
          | false =>
              exact ⟨between, rfl, first.last isShown complete⟩
          | true =>
              obtain ⟨after, isRest, rest⟩ := inductionHypothesis
                (shows.imp fun _ _ shows => first.alike.shows shows) fits
              exact ⟨after, isRest, first.cons isShown complete rest⟩

theorem Follows.foldlM {look : β → Nat → Look β}
    {advance : β → Model → Except Fault β}
    (follows : ∀ made, Follows walk room (look made) fun model next =>
      advance made model = .ok next)
    (passes : ∀ model, walk.passes model = true)
    (shows : List.Forall₂ bench.Shows ids models)
    (fits : Model.heights models ≤ room) {made result : β}
    (isResult : models.foldlM advance made = .ok result) :
    ∃ after, ids.foldlM look made bench = .ok (result, after) ∧
      bench.Settles (walk.Below bench ids) after := by
  induction ids generalizing bench models made with
  | nil =>
      cases shows
      cases isResult
      exact ⟨bench, rfl, .nil bench⟩
  | cons id ids inductionHypothesis =>
      cases shows with
      | @cons _ model _ models isShown shows =>
          obtain ⟨firstFits, fits⟩ := Model.heights_cons_le fits
          rw [List.foldlM_cons, bind_eq_ok_iff] at isResult
          obtain ⟨next, isNext, isResult⟩ := isResult
          obtain ⟨between, isFirst, first⟩ :=
            follows made bench id model next isShown firstFits isNext
          obtain ⟨after, isRest, rest⟩ := inductionHypothesis
            (shows.imp fun _ _ shows => first.alike.shows shows) fits isResult
          refine ⟨after, ?_, first.cons isShown (passes model) rest⟩
          rw [List.foldlM_cons, bind_run isFirst, isRest]

end Members

/-! ## Single levels -/

theorem follows_textStep {inner : Nat → Look String}
    (follows : Follows .groups room inner fun model text =>
      text = model.text) :
    Follows .groups (room + 1) (textStep inner) fun model text =>
      text = model.text := by
  intro bench id model text shows fits isText
  cases shows with
  | @node _ node members found below =>
      have ofGroup (group : Walk.groups.enters node.particle = true) :
          ∃ after, (do
              let members ← (← children id).mapM inner
              return Model.particleText node.particle members :
                Look String) bench = .ok (text, after) ∧
            bench.Settles (Walk.groups.Looks bench id) after := by
        obtain ⟨after, isTexts, settles⟩ := follows.mapM (fun _ => rfl)
          (shows_members below) (height_members_le fits)
        refine ⟨after, ?_, .enter found group settles⟩
        rw [bind_run (children_run found), bind_run isTexts, isText,
          Model.text, Model.texts_eq_map]
        rfl
      have ofOther (noGroup : Walk.groups.enters node.particle = false) :
          ∃ after, (pure (Model.particleText node.particle []) :
              Look String) bench = .ok (text, after) ∧
            bench.Settles (Walk.groups.Looks bench id) after := by
        refine ⟨bench, ?_, .leave found noGroup⟩
        rw [isText, Model.text_eq_of_noGroup members noGroup]
        rfl
      rw [textStep, bind_run (particle_run found)]
      cases kind : node.particle.kind with
      | unknown => exact ofOther (by simp [Walk.groups, kind])
      | leaf => exact ofOther (by simp [Walk.groups, kind])
      | choice => exact ofGroup (by simp [Walk.groups, kind])
      | sequence => exact ofGroup (by simp [Walk.groups, kind])

theorem follows_completeStep {inner : Nat → Look Bool}
    (follows : Follows .completeness room inner fun model complete =>
      complete = model.isComplete) :
    Follows .completeness (room + 1) (completeStep inner)
      fun model complete => complete = model.isComplete := by
  intro bench id model complete shows fits isComplete
  cases shows with
  | @node _ node members found below =>
      have ofGroup (group : Walk.completeness.enters node.particle = true)
          (same : complete = Model.allComplete members) :
          ∃ after, (do (← children id).allM inner : Look Bool) bench =
              .ok (complete, after) ∧
            bench.Settles (Walk.completeness.Looks bench id) after := by
        obtain ⟨after, allComplete, settles⟩ := follows.allM
          (shows_members below) (height_members_le fits)
        refine ⟨after, ?_, .enter found group settles⟩
        rw [bind_run (children_run found), allComplete, same]
      rw [Model.isComplete] at isComplete
      rw [completeStep, bind_run (particle_run found)]
      cases kind : node.particle.kind with
      | unknown =>
          rw [kind] at isComplete
          rw [isComplete]
          exact ⟨bench, rfl, .leave found (by simp [Walk.completeness, kind])⟩
      | leaf =>
          rw [kind] at isComplete
          rw [isComplete]
          exact ⟨bench, rfl, .leave found (by simp [Walk.completeness, kind])⟩
      | choice =>
          rw [kind] at isComplete
          exact ofGroup (by simp [Walk.completeness, kind]) isComplete
      | sequence =>
          rw [kind] at isComplete
          exact ofGroup (by simp [Walk.completeness, kind]) isComplete

theorem follows_collectStep {inner : Nat → List Atom → Look (List Atom)}
    (follows : ∀ found, Follows .atoms room (fun id => inner id found)
      fun model atoms => atoms = model.heldAtoms.foldl Atom.addDistinct found)
    (found : List Atom) :
    Follows .atoms (room + 1) (fun id => collectStep inner id found)
      fun model atoms =>
        atoms = model.heldAtoms.foldl Atom.addDistinct found := by
  intro bench id model atoms shows fits isAtoms
  cases shows with
  | @node _ node members isNode below =>
      beta_reduce
      rw [Model.heldAtoms] at isAtoms
      rw [collectStep, bind_run (particle_run isNode)]
      cases holds : node.particle.atom with
      | some atom =>
          rw [holds] at isAtoms
          rw [isAtoms]
          exact ⟨bench, rfl, .leave isNode (by simp [Walk.atoms, holds])⟩
      | none =>
          rw [holds] at isAtoms
          have each (found : List Atom) :
              Follows .atoms room (fun id => inner id found)
                fun model next => (.ok
                    (model.heldAtoms.foldl Atom.addDistinct found) :
                  Except Fault (List Atom)) = .ok next := by
            intro bench id model next shows fits isNext
            cases isNext
            exact follows found bench id model _ shows fits rfl
          obtain ⟨after, isFold, settles⟩ := Follows.foldlM each (fun _ => rfl)
            (shows_members below) (height_members_le fits)
            (Model.foldlM_heldAtoms members found)
          refine ⟨after, ?_,
            .enter isNode (by simp [Walk.atoms, holds]) settles⟩
          rw [isAtoms]
          exact (bind_run (children_run isNode)).trans isFold

theorem follows_addPart
    {inner : Nat → FragmentGraph → Look (Option Fragment × FragmentGraph)}
    (follows : ∀ graph, Follows .groups room (fun id => inner id graph)
      fun model lowered => model.fragment graph = .ok lowered)
    (made : List Fragment × FragmentGraph) :
    Follows .groups room (addPart inner made) fun model next =>
      Model.addPart made model = .ok next := by
  intro bench id model next shows fits isNext
  rw [Model.addPart, bind_eq_ok_iff] at isNext
  obtain ⟨first, isFirst, same⟩ := isNext
  obtain ⟨after, isRun, settles⟩ :=
    follows made.2 bench id model first shows fits isFirst
  refine ⟨after, ?_, settles⟩
  cases same
  exact bind_run isRun

theorem follows_addBranch
    {inner : Nat → FragmentGraph → Look (Option Fragment × FragmentGraph)}
    (follows : ∀ graph, Follows .groups room (fun id => inner id graph)
      fun model lowered => model.fragment graph = .ok lowered)
    (made : List Fragment × FragmentGraph) :
    Follows .groups room (addBranch inner made) fun model next =>
      Model.addBranch made model = .ok next := by
  intro bench id model next shows fits isNext
  rw [Model.addBranch, bind_eq_ok_iff] at isNext
  obtain ⟨⟨first, graph⟩, isFirst, same⟩ := isNext
  obtain ⟨after, isRun, settles⟩ :=
    follows made.2 bench id model (first, graph) shows fits isFirst
  refine ⟨after, ?_, settles⟩
  rw [addBranch, bind_run isRun]
  cases first with
  | none =>
      cases same
      rfl
  | some first =>
      cases same
      rfl

/-- The members of a group are taken one after the other, and then joined. -/
theorem group_run {node : DraftNode} {members : List Model}
    (isNode : bench.nodes[id]? = some node)
    (below : List.Forall₂ bench.Shows node.children members)
    (fits : (Model.node node.particle members).height ≤ room + 1)
    (isGroup : Walk.groups.enters node.particle = true)
    {add : List Fragment × FragmentGraph → Nat →
      Look (List Fragment × FragmentGraph)}
    {advance : List Fragment × FragmentGraph → Model →
      Except Fault (List Fragment × FragmentGraph)}
    (follows : ∀ made, Follows .groups room (add made) fun model next =>
      advance made model = .ok next)
    {first made : List Fragment × FragmentGraph}
    (isMade : members.foldlM advance first = .ok made)
    {join : List Fragment × FragmentGraph → Except Fault β} {result : β}
    (isResult : join made = .ok result) :
    ∃ after,
      (do join (← (← children id).foldlM add first) : Look β) bench =
        .ok (result, after) ∧
      bench.Settles (Walk.groups.Looks bench id) after := by
  obtain ⟨after, isFold, settles⟩ := Follows.foldlM follows (fun _ => rfl)
    (shows_members below) (height_members_le fits) isMade
  refine ⟨after, ?_, .enter isNode isGroup settles⟩
  rw [bind_run (children_run isNode), bind_run isFold]
  exact lift_run isResult after

theorem follows_fragmentStep
    {inner : Nat → FragmentGraph → Look (Option Fragment × FragmentGraph)}
    (follows : ∀ graph, Follows .groups room (fun id => inner id graph)
      fun model lowered => model.fragment graph = .ok lowered)
    (graph : FragmentGraph) :
    Follows .groups (room + 1) (fun id => fragmentStep inner id graph)
      fun model lowered => model.fragment graph = .ok lowered := by
  intro bench id model lowered shows fits isLowered
  cases shows with
  | @node _ node members isNode below =>
      beta_reduce
      rw [Model.fragment] at isLowered
      rw [fragmentStep, bind_run (particle_run isNode)]
      cases kind : node.particle.kind with
      | unknown =>
          rw [kind] at isLowered
          cases isLowered
          exact ⟨bench, rfl, .leave isNode (by simp [Walk.groups, kind])⟩
      | leaf =>
          have leaves : Walk.groups.enters node.particle = false := by
            simp [Walk.groups, kind]
          rw [kind] at isLowered
          refine ⟨bench, ?_, .leave isNode leaves⟩
          cases holds : node.particle.atom with
          | none =>
              rw [holds] at isLowered
              cases isLowered
              rfl
          | some atom =>
              rw [holds] at isLowered
              obtain ⟨whole, isWhole, same⟩ := bind_eq_ok_iff.mp isLowered
              cases same
              exact bind_run (lift_run isWhole bench)
      | sequence =>
          rw [kind] at isLowered
          obtain ⟨⟨parts, middle⟩, isParts, isLowered⟩ :=
            bind_eq_ok_iff.mp isLowered
          exact group_run isNode below fits (by simp [Walk.groups, kind])
            (follows_addPart follows) (Model.foldlM_addPart [] isParts)
            isLowered
      | choice =>
          rw [kind] at isLowered
          obtain ⟨⟨branches, middle⟩, isBranches, isLowered⟩ :=
            bind_eq_ok_iff.mp isLowered
          exact group_run isNode below fits (by simp [Walk.groups, kind])
            (follows_addBranch follows) (Model.foldlM_addBranch [] isBranches)
            isLowered

/-! ## All levels -/

theorem follows_zero (look : Nat → Look α) (gives : Model → α → Prop) :
    Follows walk 0 look gives := by
  intro bench id model value _ fits
  obtain ⟨particle, members⟩ := model
  rw [Model.height] at fits
  exact absurd fits (Nat.not_succ_le_zero _)

variable {model : Model}

/-- There is room for every node that shows a model. -/
theorem run_of_follows {look : Nat → Nat → Look α} {gives : Model → α → Prop}
    (follows : ∀ room, Follows walk room (look room) gives)
    (shows : bench.Shows id model) {value : α} (isValue : gives model value) :
    ∃ after, (do look (← Look.room) id : Look α) bench = .ok (value, after) ∧
      bench.Settles (walk.Looks bench id) after :=
  follows bench.size bench id model value shows shows.height_le isValue

theorem follows_text (room : Nat) :
    Follows .groups room (descend endless textStep room) fun model text =>
      text = model.text := by
  induction room with
  | zero => exact follows_zero _ _
  | succ room inductionHypothesis => exact follows_textStep inductionHypothesis

theorem text_run (shows : bench.Shows id model) :
    ∃ after, text id bench = .ok (model.text, after) ∧
      bench.Settles (Walk.groups.Looks bench id) after :=
  run_of_follows follows_text shows rfl

theorem follows_isComplete (room : Nat) :
    Follows .completeness room (descend endless completeStep room)
      fun model complete => complete = model.isComplete := by
  induction room with
  | zero => exact follows_zero _ _
  | succ room inductionHypothesis =>
      exact follows_completeStep inductionHypothesis

theorem isComplete_run (shows : bench.Shows id model) :
    ∃ after, isComplete id bench = .ok (model.isComplete, after) ∧
      bench.Settles (Walk.completeness.Looks bench id) after :=
  run_of_follows follows_isComplete shows rfl

theorem follows_atoms (room : Nat) (found : List Atom) :
    Follows .atoms room
      (fun id => descend (fun id _ => endless id) collectStep room id found)
      fun model atoms =>
        atoms = model.heldAtoms.foldl Atom.addDistinct found := by
  induction room generalizing found with
  | zero => exact follows_zero _ _
  | succ room inductionHypothesis =>
      exact follows_collectStep inductionHypothesis found

theorem atoms_run (shows : bench.Shows id model) :
    ∃ after, atoms id bench = .ok (model.atoms, after) ∧
      bench.Settles (Walk.atoms.Looks bench id) after :=
  run_of_follows (fun room => follows_atoms room []) shows rfl

theorem follows_fragment (room : Nat) (graph : FragmentGraph) :
    Follows .groups room
      (fun id => descend (fun id _ => endless id) fragmentStep room id graph)
      fun model lowered => model.fragment graph = .ok lowered := by
  induction room generalizing graph with
  | zero => exact follows_zero _ _
  | succ room inductionHypothesis =>
      exact follows_fragmentStep inductionHypothesis graph

theorem fragment_run (shows : bench.Shows id model) {graph : FragmentGraph}
    {lowered : Option Fragment × FragmentGraph}
    (isLowered : model.fragment graph = .ok lowered) :
    ∃ after, fragment id graph bench = .ok (lowered, after) ∧
      bench.Settles (Walk.groups.Looks bench id) after :=
  run_of_follows (fun room => follows_fragment room graph) shows isLowered

theorem automaton_run (shows : bench.Shows id model) {store : Automaton.Store}
    {compiled : Except Automaton.StateLimitExceeded Nat × Automaton.Store}
    (isCompiled : store.compileModel model = .ok compiled) :
    ∃ after, automaton id store bench = .ok (compiled, after) ∧
      bench.Settles (Walk.groups.Looks bench id) after := by
  rw [Automaton.Store.compileModel, bind_eq_ok_iff] at isCompiled
  obtain ⟨⟨lowered, graph⟩, isLowered, isCompiled⟩ := isCompiled
  obtain ⟨after, isRun, settles⟩ := fragment_run shows isLowered
  refine ⟨after, ?_, settles⟩
  rw [automaton, bind_run isRun]
  cases lowered with
  | none => exact lift_run isCompiled after
  | some fragment => exact lift_run isCompiled after

end Look

/-! ## Readings -/

/-- A reading of a node, with what it adds to. -/
inductive Reading where
  | children
  | text
  | completeness
  | atoms
  | fragment (graph : FragmentGraph)
  | automaton (store : Automaton.Store)
  | copy

/-- What a reading gives. -/
inductive Answer where
  | children (ids : List Nat)
  | text (text : String)
  | completeness (complete : Bool)
  | atoms (atoms : List Atom)
  | fragment (lowered : Option Fragment × FragmentGraph)
  | automaton
      (compiled : Except Automaton.StateLimitExceeded Nat × Automaton.Store)
  | copy (copied : Nat)

/-- The nodes that come to be by a reading. -/
def Answer.copies : Answer → List Nat
  | copy copied => [copied]
  | children _ | text _ | completeness _ | atoms _ | fragment _
  | automaton _ => []

/-- Reads a node. -/
def Look.read (id : Nat) : Reading → Look Answer
  | .children => return .children (← children id)
  | .text => return .text (← text id)
  | .completeness => return .completeness (← isComplete id)
  | .atoms => return .atoms (← atoms id)
  | .fragment graph => return .fragment (← fragment id graph)
  | .automaton store => return .automaton (← automaton id store)
  | .copy => return .copy (← copy id)

namespace Reading

/-- The reading of the first node reads the children of the second one. -/
def Looks (reading : Reading) (bench : Workbench) (id looked : Nat) : Prop :=
  match reading with
  | children | copy => looked = id
  | text | fragment _ | automaton _ => Walk.groups.Looks bench id looked
  | completeness => Walk.completeness.Looks bench id looked
  | atoms => Walk.atoms.Looks bench id looked

/-- The answer for a node that shows a model. -/
def answer (reading : Reading) (bench : Workbench) (id : Nat) (model : Model) :
    Except Fault Answer :=
  match reading with
  | children => .ok (.children (bench.node id).children)
  | text => .ok (.text model.text)
  | completeness => .ok (.completeness model.isComplete)
  | atoms => .ok (.atoms model.atoms)
  | fragment graph => return .fragment (← model.fragment graph)
  | automaton store => return .automaton (← store.compileModel model)
  | copy => .ok (.copy bench.size)

/-- The automaton is added to a store that came to be by calls. -/
def Fits : Reading → Prop
  | automaton store => store.Reached
  | children | text | completeness | atoms | fragment _ | copy => True

/-- What a reading leaves behind: the children that it looked at are read, and a
copy stands behind the other nodes. -/
inductive Leaves (reading : Reading) (bench : Workbench) (id : Nat) :
    Answer → Workbench → Prop
  | plain {answer : Answer} {after : Workbench} :
      answer.copies = [] → bench.Settles (reading.Looks bench id) after →
      Leaves reading bench id answer after
  | copy {node : DraftNode} {settled : Workbench} :
      bench.nodes[id]? = some node →
      bench.Settles (reading.Looks bench id) settled →
      Leaves reading bench id (.copy bench.size)
        (settled.put
          { particle := node.particle, frozen := some node.children }).2

variable {bench after : Workbench} {id : Nat} {model : Model}

/-- Every reading of a model has an answer. -/
theorem exists_answer {reading : Reading} (fits : reading.Fits)
    (ordered : model.BoundsOrdered) (bench : Workbench) (id : Nat) :
    ∃ answer, reading.answer bench id model = .ok answer := by
  cases reading with
  | children => exact ⟨_, rfl⟩
  | text => exact ⟨_, rfl⟩
  | completeness => exact ⟨_, rfl⟩
  | atoms => exact ⟨_, rfl⟩
  | copy => exact ⟨_, rfl⟩
  | fragment graph =>
      have becomes := Model.fragment_becomes ordered graph
      rw [answer]
      generalize model.fragment graph = made at becomes ⊢
      cases becomes with
      | none _ => exact ⟨_, rfl⟩
      | some _ _ => exact ⟨_, rfl⟩
  | automaton store =>
      rw [answer]
      cases Automaton.Store.compileModel_states fits.sound ordered with
      | inl succeeds =>
          obtain ⟨states, nodeOf, after, isCompiled, _⟩ := succeeds
          rw [isCompiled]
          exact ⟨_, rfl⟩
      | inr givesUp =>
          obtain ⟨after, isCompiled, _⟩ := givesUp
          rw [isCompiled]
          exact ⟨_, rfl⟩

end Reading

namespace Look

variable {bench : Workbench} {id : Nat} {model : Model}

theorem copy_run {node : DraftNode} (found : bench.nodes[id]? = some node) :
    ∃ settled, bench.Settles (· = id) settled ∧
      copy id bench = .ok (settled.put
        { particle := node.particle, frozen := some node.children }) := by
  have settles := bench.settles_change id
  have isRead :
      (bench.change id DraftNode.freeze).nodes[id]? = some node.freeze := by
    rw [settles.read id rfl, found]
    rfl
  refine ⟨_, settles, ?_⟩
  rw [copy, bind_run (children_run found), bind_run (particle_run isRead),
    node.particle_freeze]
  rfl

/-- A reading gives the answer for the model that the node shows, and leaves
behind what it says. -/
theorem read_eq (shows : bench.Shows id model) {reading : Reading}
    {answer : Answer} (isAnswer : reading.answer bench id model = .ok answer) :
    ∃ after, read id reading bench = .ok (answer, after) ∧
      reading.Leaves bench id answer after := by
  cases reading with
  | children =>
      cases isAnswer
      cases shows with
      | @node _ node members found _ =>
          refine ⟨bench.change id DraftNode.freeze, ?_,
            .plain rfl (bench.settles_change id)⟩
          rw [Workbench.node_eq found]
          exact bind_run (children_run found)
  | text =>
      cases isAnswer
      obtain ⟨after, isText, settles⟩ := text_run shows
      exact ⟨after, bind_run isText, .plain rfl settles⟩
  | completeness =>
      cases isAnswer
      obtain ⟨after, isComplete, settles⟩ := isComplete_run shows
      exact ⟨after, bind_run isComplete, .plain rfl settles⟩
  | atoms =>
      cases isAnswer
      obtain ⟨after, isAtoms, settles⟩ := atoms_run shows
      exact ⟨after, bind_run isAtoms, .plain rfl settles⟩
  | fragment graph =>
      obtain ⟨lowered, isLowered, same⟩ := bind_eq_ok_iff.mp isAnswer
      cases same
      obtain ⟨after, isFragment, settles⟩ := fragment_run shows isLowered
      exact ⟨after, bind_run isFragment, .plain rfl settles⟩
  | automaton store =>
      obtain ⟨compiled, isCompiled, same⟩ := bind_eq_ok_iff.mp isAnswer
      cases same
      obtain ⟨after, isAutomaton, settles⟩ := automaton_run shows isCompiled
      exact ⟨after, bind_run isAutomaton, .plain rfl settles⟩
  | copy =>
      cases isAnswer
      cases shows with
      | @node _ node members found _ =>
          obtain ⟨settled, settles, isCopy⟩ := copy_run found
          refine ⟨_, bind_run ?_, .copy found settles⟩
          rw [isCopy, ← settles.size_eq]
          rfl

end Look

end ContentModel
