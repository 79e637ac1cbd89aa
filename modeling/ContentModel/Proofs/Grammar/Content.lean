import ContentModel.Grammar.Content
import ContentModel.Proofs.Automaton.Confined
import ContentModel.Proofs.Automaton.OfModel

/-!
# Automata of contents

Main statement: the automaton of a content accepts the sequences of names that
the content allows, and has an area of its own (`Content.compile_outcome`).
-/

open scoped Computability

namespace ContentModel

/-! ## Languages -/

namespace Content

/-- The sequences of names that a content allows. -/
def language : Content → Language String
  | empty => {[]}
  | any => Set.univ
  | mixed atoms => { word | ∀ name ∈ word, ∃ atom ∈ atoms, atom.name = name }
  | children model => model.language

theorem mem_language_mixed_iff (atoms : List Atom) (word : List String) :
    word ∈ (mixed atoms).language ↔
      ∀ name ∈ word, ∃ atom ∈ atoms, atom.name = name :=
  Iff.rfl

/-- The bounds of the content are in order, and the points of its fragment can
be numbered. -/
structure Lowers (content : Content) : Prop where
  ordered : ∀ model, content = children model → model.BoundsOrdered
  numbered : ∀ model, content.elementModel = some model →
    model.pointCount < pastExit

theorem mem_language_leaf_iff (atom : Atom) (word : List String) :
    word ∈ (Model.leaf atom).language ↔ word = [atom.name] := by
  rw [Model.leaf, Model.language]
  simp only [Occurs.mem_repeats_iff]
  constructor
  · intro repeated
    obtain ⟨count, ⟨needed, few⟩, member⟩ := repeated
    have atMost : count ≤ 1 := few 1 rfl
    have once : count = 1 := Nat.le_antisymm atMost needed
    rw [once, pow_one] at member
    exact member
  · intro single
    refine ⟨1, ⟨Nat.le_refl 1, ?_⟩, ?_⟩
    · intro max isMax
      cases isMax
      exact Nat.le_refl 1
    · rw [pow_one]
      exact single

theorem boundsOrdered_mixedModel (atoms : List Atom) :
    (mixedModel atoms).BoundsOrdered := by
  apply Model.BoundsOrdered.node
  · intro max impossible
    cases impossible
  · intro child member
    obtain ⟨atom, _, same⟩ := List.mem_map.mp member
    cases same
    apply Model.BoundsOrdered.node
    · intro max isMax
      cases isMax
      exact Nat.le_refl 1
    · intro grandchild impossible
      cases impossible

/-- A sequence of listed names is a repeated choice between them. -/
theorem language_mixedModel (atoms : List Atom) :
    (mixedModel atoms).language = (mixed atoms).language := by
  have choice_mem_iff : ∀ word : List String,
      word ∈ ((atoms.map Model.leaf).map Model.language).sum ↔
        ∃ atom ∈ atoms, word = [atom.name] := by
    intro word
    rw [List.map_map, FragmentGraph.mem_sum_map_iff]
    simp only [Function.comp_apply, mem_language_leaf_iff]
  have repeated : Occurs.zeroOrMore.repeats
      ((atoms.map Model.leaf).map Model.language).sum =
        (mixed atoms).language := by
    rw [Occurs.zeroOrMore, Occurs.repeats_open, pow_zero, one_mul]
    ext word
    rw [Language.mem_kstar]
    simp only [choice_mem_iff]
    constructor
    · intro split
      obtain ⟨parts, joined, single⟩ := split
      rw [joined]
      intro name member
      obtain ⟨part, isPart, inPart⟩ := List.mem_flatten.mp member
      obtain ⟨atom, listed, same⟩ := single part isPart
      rw [same] at inPart
      exact ⟨atom, listed, (List.mem_singleton.mp inPart).symm⟩
    · intro allListed
      refine ⟨word.map fun name => [name], ?_, ?_⟩
      · rw [← List.flatMap_def, List.flatMap_singleton']
      · intro part isPart
        obtain ⟨name, member, same⟩ := List.mem_map.mp isPart
        obtain ⟨atom, listed, isName⟩ := allListed name member
        exact ⟨atom, listed, by rw [← same, isName]⟩
  change (Model.node ⟨.choice, .zeroOrMore, none⟩
    (atoms.map Model.leaf)).language = _
  rw [Model.language_choice, repeated]
  cases atoms with
  | nil =>
      ext word
      cases word with
      | nil => simp [mem_language_mixed_iff]
      | cons name word =>
          apply iff_of_false
          · exact List.cons_ne_nil name word
          · intro allListed
            obtain ⟨atom, impossible, _⟩ :=
              allListed name List.mem_cons_self
            cases impossible
  | cons first rest =>
      rfl

/-! ## Automata -/

open Automaton Automaton.Store

variable {base after : Store} {start : Nat} {content : Content}

/-- The automaton of a content was added: it has an area of its own and accepts
what the content allows. -/
structure Added (base : Store) (content : Content) (start : Nat)
    (area : Set Nat) (after : Store) : Prop where
  keeps : Keeps base after
  sound : after.Sound
  standard : after.Standard
  confined : Confined after start area
  isNew : ∀ id ∈ area, ¬ base.Live id
  accepts : after.Accepts start content.language

private theorem added_shared (sound : base.Sound) (standard : base.Standard)
    (grown : base.Grown [] after) (shared : after.isShared start = true)
    (accepts : after.Accepts start content.language) :
    Added base content start ∅ after where
  keeps := grown.keeps
  sound := grown.sound
  standard := grown.standard sound standard
  confined :=
    ⟨Or.inr shared, fun _ member => absurd member (Set.notMem_empty _)⟩
  isNew _ member := absurd member (Set.notMem_empty _)
  accepts := accepts

private theorem added_of_compiled {created : List Nat} {model : Model}
    (sound : base.Sound) (standard : base.Standard)
    (compiled : Compiled base model.language start created after)
    (same : model.language = content.language) :
    Added base content start { id | id ∈ created } after := by
  have grown := compiled.grown
  constructor
  · exact grown.keeps
  · exact grown.sound
  · exact grown.standard sound standard
  · constructor
    · exact Or.inl compiled.start_mem
    · intro id member
      obtain ⟨node, found, ordinary⟩ := grown.ordinary id member
      exact ⟨node, found, ordinary, compiled.leads id member node found⟩
  · exact grown.isNew
  · rw [← same]
    exact compiled.accepts

private theorem compileModel_added (sound : base.Sound)
    (standard : base.Standard) {model : Model}
    (ordered : model.BoundsOrdered) (numbered : model.pointCount < pastExit)
    (same : model.language = content.language) :
    (∃ start area after, base.compileModel model = .ok (.ok start, after) ∧
      Added base content start area after) ∨
    (∃ after, base.compileModel model =
        .ok (.error ⟨base.stateLimit⟩, after) ∧
      Grown base [] after) := by
  cases compileModel_outcome sound ordered numbered with
  | inl succeeds =>
      obtain ⟨start, created, after, result, compiled⟩ := succeeds
      exact Or.inl ⟨start, _, after, result,
        added_of_compiled sound standard compiled same⟩
  | inr fails =>
      exact Or.inr fails

/-- From the node that accepts everything as it was first made. -/
theorem accepts_freshAny (found : base.node start = .ok freshAny) :
    base.Accepts start Set.univ := by
  have isRead : base.reader.read start = .ok freshAny := found
  intro word
  induction word with
  | nil =>
      exact ⟨_, Reader.walk_nil isRead, iff_of_true rfl trivial⟩
  | cons name word inductionHypothesis =>
      obtain ⟨walk, isWalk, accepted⟩ := inductionHypothesis
      have leads : freshAny.advance start name = some start := rfl
      refine ⟨⟨start :: walk.path, walk.accepted⟩, ?_, ?_⟩
      · rw [Store.walk, Reader.walk_cons_some isRead leads]
        rw [Store.walk] at isWalk
        rw [isWalk]
        rfl
      · exact iff_of_true (accepted.mpr trivial) trivial

/-- From the node that accepts the empty word as it was first made. -/
theorem accepts_freshEmpty (found : base.node start = .ok freshEmpty) :
    base.Accepts start {[]} := by
  have isRead : base.reader.read start = .ok freshEmpty := found
  intro word
  cases word with
  | nil =>
      exact ⟨_, Reader.walk_nil isRead, iff_of_true rfl rfl⟩
  | cons name word =>
      have leads : freshEmpty.advance start name = none := rfl
      refine ⟨_, Reader.walk_cons_none isRead leads word, ?_⟩
      apply iff_of_false
      · exact Bool.false_ne_true
      · exact List.cons_ne_nil name word

/-- A content is compiled without failing: its automaton is added, or the
compilation gives up with no node of its own. -/
theorem compile_outcome (sound : base.Sound) (standard : base.Standard)
    (lowers : content.Lowers) :
    (∃ start area after, content.compile base = .ok (.ok start, after) ∧
      Added base content start area after) ∨
    (∃ after, content.compile base =
        .ok (.error ⟨base.stateLimit⟩, after) ∧
      Grown base [] after) := by
  cases content with
  | empty =>
      have shared := sharedEmpty_emptyNode base
      have grown := (grown_start sound).emptyNode
      have isStandard := grown.standard sound standard
      exact Or.inl ⟨_, ∅, _, rfl, added_shared sound standard grown
        ((isShared_iff ..).mpr (Or.inr shared))
        (accepts_freshEmpty (isStandard.empty _ shared))⟩
  | any =>
      have shared := sharedAny_anyNode base
      have grown := (grown_start sound).anyNode
      have isStandard := grown.standard sound standard
      exact Or.inl ⟨_, ∅, _, rfl, added_shared sound standard grown
        ((isShared_iff ..).mpr (Or.inl shared))
        (accepts_freshAny (isStandard.any _ shared))⟩
  | mixed atoms =>
      exact compileModel_added sound standard
        (boundsOrdered_mixedModel atoms) (lowers.numbered _ rfl)
        (language_mixedModel atoms)
  | children model =>
      exact compileModel_added sound standard (lowers.ordered model rfl)
        (lowers.numbered _ rfl) rfl

end Content

end ContentModel
