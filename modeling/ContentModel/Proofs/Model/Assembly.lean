import ContentModel.Proofs.Automaton.Offers
import ContentModel.Proofs.Automaton.Seclusion
import ContentModel.Proofs.Model.Drafting

/-!
# Names of models that are put together

The atoms of a node are looked for where atoms are held, and its automaton is
made from what the kinds of the particles say, so the two need not agree: a node
that is made a leaf and then a group still holds its atom, and the atoms of its
members are not collected (`not_covers_regrouped`).

Main statement: `Attained.covers`, an automaton offers the names that are read
by kind, and these are collected if no node that holds an atom is made another
thing than a leaf.
-/

namespace ContentModel

open Automaton

namespace Model

theorem throughout_iff_atomsInLeaves (model : Model) :
    (model.Throughout fun particle =>
      particle.atom = none ∨ particle.kind = .leaf) ↔
      model.atomsInLeaves = true := by
  induction model using inductionOnMembers with
  | node particle children inductionHypothesis =>
      rw [atomsInLeaves, Bool.and_eq_true, Bool.or_eq_true,
        Option.isNone_iff_eq_none, beq_iff_eq, allAtomsInLeaves_eq_all,
        List.all_eq_true]
      constructor
      · intro throughout
        obtain ⟨own, below⟩ := throughout
        exact ⟨own, fun child member =>
          (inductionHypothesis child member).mp (below child member)⟩
      · intro inLeaves
        obtain ⟨own, below⟩ := inLeaves
        exact .node own fun child member =>
          (inductionHypothesis child member).mpr (below child member)

theorem Throughout.and {sort other : Particle → Prop} {model : Model}
    (throughout : model.Throughout sort) (also : model.Throughout other) :
    model.Throughout fun particle => sort particle ∧ other particle := by
  induction throughout with
  | node own _ inductionHypothesis =>
      obtain ⟨otherOwn, otherBelow⟩ := also
      exact .node ⟨own, otherOwn⟩ fun child member =>
        inductionHypothesis child member (otherBelow child member)

end Model

namespace Drafting

variable {allowed : Drafting → Action → Prop} {drafting : Drafting}

/-- No node that holds an atom is given another kind than that of a leaf, and
none is placed that is of another kind. -/
def KeepsLeaves (before : Drafting) : Action → Prop
  | .place model => model.atomsInLeaves = true
  | .setKind id kind =>
    (before.bench.node id).particle.atom = none ∨ kind = .leaf
  | .setOccurs _ _ _ | .setLeaf _ _ | .addChild _ _ | .read _ _ => True

/-- The particle may stand in a model all of whose names are collected. -/
def Collected (particle : Particle) : Prop :=
  particle.occurs.Ordered ∧ (particle.atom = none ∨ particle.kind = .leaf)

theorem Acts.keeps_collected {before after : Drafting} {action : Action}
    (acts : Acts before action after)
    (keepsLeaves : KeepsLeaves before action) :
    action.Keeps Collected before.bench := by
  cases acts with
  | @place model ordered =>
      exact ordered.throughout.and
        ((Model.throughout_iff_atomsInLeaves model).mpr keepsLeaves)
  | setKind _ _ => exact fun collected => ⟨collected.1, keepsLeaves⟩
  | setOccurs _ _ => exact fun _ ordered collected => ⟨ordered, collected.2⟩
  | setLeaf _ _ => exact fun collected => ⟨collected.1, Or.inr rfl⟩
  | addChild _ _ _ _ => exact trivial
  | read _ _ _ => exact trivial

theorem Attained.atomsInLeaves (attained : drafting.Attained allowed)
    (keepsLeaves : ∀ before action, allowed before action →
      KeepsLeaves before action) {id : Nat} {model : Model}
    (shows : drafting.bench.Shows id model) : model.atomsInLeaves = true := by
  have sound : drafting.Sound Collected :=
    attained.sound_of_keeps (fun _ collected => collected.1)
      fun before action _ isAllowed acts =>
        acts.keeps_collected (keepsLeaves before action isAllowed)
  rw [← Model.throughout_iff_atomsInLeaves]
  exact (shows.throughout sound.each).mono fun _ collected => collected.2

/-- The automaton of a node, whatever calls put it together, offers the names of
the leaves alone. They are all collected if no node that held an atom was made
another thing than a leaf. -/
theorem Attained.covers (attained : drafting.Attained allowed) {id : Nat}
    (inside : id < drafting.bench.size) {base : Store}
    (reached : base.Reached) :
    ∃ model found result after bench other,
      drafting.bench.Shows id model ∧
      Look.atoms id drafting.bench = .ok (found, bench) ∧
      Look.automaton id base drafting.bench = .ok ((result, after), other) ∧
      ∀ start, result = .ok start → ∀ place, after.Reaches start place →
        ∃ node, after.node place = .ok node ∧
          node.OffersWithin { name | name ∈ model.readNames } ∧
          ((∀ before action, allowed before action →
              KeepsLeaves before action) →
            node.OffersWithin { name | name ∈ found.map Atom.name }) := by
  obtain ⟨model, shows, throughout⟩ := attained.sound.exists_model inside
  have ordered := throughout.boundsOrdered
  obtain ⟨bench, isFound, _⟩ := Look.atoms_run shows
  cases Store.compileModel_states reached.sound ordered with
  | inl succeeds =>
      obtain ⟨states, nodeOf, after, isCompiled, _, built⟩ := succeeds
      obtain ⟨other, isRead, _⟩ := Look.automaton_run shows isCompiled
      refine ⟨model, model.atoms, _, after, bench, other, shows, isFound,
        isRead, ?_⟩
      intro start isStart place reaches
      cases isStart
      obtain ⟨set, isState, same⟩ := built.exists_key_of_expands
        (fun _ met => Store.isExpand_of_mem_states ordered met) reaches
      obtain ⟨node, found, offers⟩ := Store.offersWithin_of_built ordered
        (Model.namesWithin_readNames model) built isState
      rw [same]
      refine ⟨node, found, offers, ?_⟩
      intro keepsLeaves
      exact offers.mono fun _ isRead => Model.mem_names_of_mem_readNames
        (attained.atomsInLeaves keepsLeaves shows) isRead
  | inr givesUp =>
      obtain ⟨after, isCompiled, _⟩ := givesUp
      obtain ⟨other, isRead, _⟩ := Look.automaton_run shows isCompiled
      refine ⟨model, model.atoms, _, after, bench, other, shows, isFound,
        isRead, ?_⟩
      intro start impossible
      cases impossible

/-- A sequence that nothing was put below, and what is left of the atom that it
held. -/
def group (atom : Option Atom) : DraftNode where
  particle := { kind := .sequence, atom }

/-- A leaf. -/
def named (name : String) : DraftNode where
  particle := { kind := .leaf, atom := some (.ofElement name) }

/-- The leaf `b` below a sequence. -/
def memberBelow (atom : Option Atom) : Drafting where
  bench := ⟨#[{ group atom with pending := [1] }, named "b"]⟩
  held := [0]

/-- A leaf is placed and put below the sequence. -/
theorem attained_memberBelow {atom : Option Atom}
    (attained : Attained allowed ⟨⟨#[group atom]⟩, [0]⟩)
    (places : ∀ before, allowed before (.place (.leaf (.ofElement "b"))))
    (adds : ∀ before, allowed before (.addChild 0 1)) :
    Attained allowed (memberBelow atom) := by
  have placed : Acts ⟨⟨#[group atom]⟩, [0]⟩
      (.place (.leaf (.ofElement "b")))
      ⟨⟨#[group atom, named "b"]⟩, [1, 0]⟩ :=
    .place _ (by decide)
  have added : Acts ⟨⟨#[group atom, named "b"]⟩, [1, 0]⟩ (.addChild 0 1)
      (memberBelow atom) :=
    .addChild (by simp) (by simp) (by decide) rfl
  exact (attained.act (places _) placed).act (adds _) added

/-- A sequence with one leaf, in a new store. -/
theorem Attained.covers_memberBelow :
    Attained KeepsLeaves (memberBelow none) ∧
      0 < (memberBelow none).bench.size ∧ ({} : Store).Reached ∧
      ∃ bench after other,
        Look.atoms 0 (memberBelow none).bench =
          .ok ([.ofElement "b"], bench) ∧
        Look.automaton 0 {} (memberBelow none).bench =
          .ok ((.ok 0, after), other) ∧
        ∀ place, after.Reaches 0 place →
          ∃ node, after.node place = .ok node ∧
            node.OffersWithin { name | name ∈ ["b"] } := by
  have placed : Acts {} (.place (.sequence [])) ⟨⟨#[group none]⟩, [0]⟩ :=
    .place {} (by decide)
  have attained : Attained KeepsLeaves (memberBelow none) :=
    attained_memberBelow (Attained.new.act (by exact rfl) placed)
      (fun _ => by exact rfl) fun _ => trivial
  refine ⟨attained, by decide, .new, ?_⟩
  obtain ⟨model, found, result, after, bench, other, _, isFound, isRead,
    offers⟩ := attained.covers (by decide : 0 < 2) .new
  have isStart : result = .ok 0 := by
    cases isRead
    rfl
  subst isStart
  have isMember : found = [.ofElement "b"] := by
    cases isFound
    rfl
  subst isMember
  refine ⟨bench, after, other, isFound, isRead, ?_⟩
  intro place reaches
  obtain ⟨node, isNode, _, within⟩ := offers 0 rfl place reaches
  exact ⟨node, isNode, within fun _ _ keeps => keeps⟩

/-- A leaf is made a sequence and gets another leaf as its member. It is
complete and its automaton reads a name that is not collected, because the node
above still holds the atom that it had as a leaf. -/
theorem not_covers_regrouped :
    Attained (fun _ _ => True) (memberBelow (some (.ofElement "a"))) ∧
      ∃ complete collected compiled after node,
        Look.isComplete 0 (memberBelow (some (.ofElement "a"))).bench =
          .ok (true, complete) ∧
        Look.atoms 0 (memberBelow (some (.ofElement "a"))).bench =
          .ok ([.ofElement "a"], collected) ∧
        Look.automaton 0 {} (memberBelow (some (.ofElement "a"))).bench =
          .ok ((.ok 0, after), compiled) ∧
        after.node 0 = .ok node ∧ node.transitions.find? "b" = some 1 := by
  have placed : Acts {} (.place (.leaf (.ofElement "a")))
      ⟨⟨#[named "a"]⟩, [0]⟩ :=
    .place {} (by decide)
  have regrouped : Acts ⟨⟨#[named "a"]⟩, [0]⟩ (.setKind 0 .sequence)
      ⟨⟨#[group (some (.ofElement "a"))]⟩, [0]⟩ :=
    .setKind .sequence (by decide)
  have attained : Attained (fun _ _ => True)
      (memberBelow (some (.ofElement "a"))) :=
    attained_memberBelow
      ((Attained.new.act trivial placed).act trivial regrouped)
      (fun _ => trivial) fun _ => trivial
  exact ⟨attained, _, _, _, _, _, rfl, rfl, rfl, rfl, rfl⟩

end Drafting

end ContentModel
