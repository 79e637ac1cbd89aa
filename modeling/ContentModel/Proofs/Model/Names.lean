import ContentModel.Proofs.Model.Language

/-!
# The names of a model

The atoms of a model are collected from every particle that holds one, while
only those of leaves are read. Main statement: `namesWithin_language`, if none
but leaves hold atoms, then no word that the model allows has a name that its
atoms do not have.
-/

namespace ContentModel

/-! ## Distinct atoms -/

namespace Atom

theorem mem_names_addDistinct (atoms : List Atom) (atom : Atom)
    (name : String) :
    name ∈ (addDistinct atoms atom).map Atom.name ↔
      name ∈ atoms.map Atom.name ∨ name = atom.name := by
  rw [addDistinct]
  split
  · rename_i listed
    obtain ⟨other, member, same⟩ := List.any_eq_true.mp listed
    constructor
    · exact Or.inl
    · intro either
      cases either with
      | inl isListed =>
          exact isListed
      | inr isName =>
          rw [isName, ← beq_iff_eq.mp same]
          exact List.mem_map_of_mem member
  · rw [List.map_append, List.mem_append, List.map_singleton,
      List.mem_singleton]

/-- An atom is left out only where its name is listed already. -/
theorem mem_names_foldl_addDistinct (found atoms : List Atom)
    (name : String) :
    name ∈ (atoms.foldl addDistinct found).map Atom.name ↔
      name ∈ found.map Atom.name ∨ name ∈ atoms.map Atom.name := by
  induction atoms generalizing found with
  | nil =>
      simp
  | cons first rest inductionHypothesis =>
      rw [List.foldl_cons, inductionHypothesis, mem_names_addDistinct,
        List.map_cons, List.mem_cons, or_assoc]

theorem mem_names_distinct (atoms : List Atom) (name : String) :
    name ∈ (distinct atoms).map Atom.name ↔ name ∈ atoms.map Atom.name := by
  rw [distinct, mem_names_foldl_addDistinct]
  simp

end Atom

/-! ## Names within a set -/

/-- No word of the language has a name outside of the set. -/
def NamesWithin (names : Set String) (language : Language String) : Prop :=
  ∀ word ∈ language, ∀ name ∈ word, name ∈ names

namespace NamesWithin

variable {names : Set String} {left right language : Language String}

theorem one (names : Set String) : NamesWithin names 1 := by
  intro word isEmpty name member
  rw [Language.mem_one] at isEmpty
  rw [isEmpty] at member
  exact absurd member List.not_mem_nil

theorem mul (leftWithin : NamesWithin names left)
    (rightWithin : NamesWithin names right) :
    NamesWithin names (left * right) := by
  intro word isJoined name member
  obtain ⟨first, isFirst, rest, isRest, same⟩ :=
    Language.mem_mul.mp isJoined
  rw [← same] at member
  cases List.mem_append.mp member with
  | inl inFirst => exact leftWithin first isFirst name inFirst
  | inr inRest => exact rightWithin rest isRest name inRest

theorem pow (within : NamesWithin names language) (count : Nat) :
    NamesWithin names (language ^ count) := by
  induction count with
  | zero =>
      rw [pow_zero]
      exact one names
  | succ count inductionHypothesis =>
      rw [pow_succ]
      exact inductionHypothesis.mul within

theorem repeats (occurs : Occurs) (within : NamesWithin names language) :
    NamesWithin names (occurs.repeats language) := by
  intro word member
  obtain ⟨count, _, isPower⟩ := member
  exact within.pow count word isPower

theorem prod {languages : List (Language String)}
    (each : ∀ language ∈ languages, NamesWithin names language) :
    NamesWithin names languages.prod := by
  induction languages with
  | nil =>
      exact one names
  | cons first rest inductionHypothesis =>
      rw [List.prod_cons]
      apply (each first List.mem_cons_self).mul
      exact inductionHypothesis fun language member =>
        each language (List.mem_cons_of_mem first member)

theorem sum {languages : List (Language String)}
    (each : ∀ language ∈ languages, NamesWithin names language) :
    NamesWithin names languages.sum := by
  induction languages with
  | nil =>
      intro word impossible
      exact absurd impossible (Language.notMem_zero word)
  | cons first rest inductionHypothesis =>
      have restWithin := inductionHypothesis fun language member =>
        each language (List.mem_cons_of_mem first member)
      intro word member
      rw [List.sum_cons, Language.mem_add] at member
      cases member with
      | inl inFirst => exact each first List.mem_cons_self word inFirst
      | inr inRest => exact restWithin word inRest

end NamesWithin

/-! ## The names of a model -/

namespace Model

mutual

/-- Whether every particle that holds an atom is a leaf. -/
def atomsInLeaves : Model → Bool
  | node particle children =>
    (particle.atom.isNone || particle.kind == .leaf) &&
      allAtomsInLeaves children

def allAtomsInLeaves : List Model → Bool
  | [] => true
  | model :: models => model.atomsInLeaves && allAtomsInLeaves models

end

theorem allAtomsInLeaves_eq_all (models : List Model) :
    allAtomsInLeaves models = models.all atomsInLeaves := by
  induction models with
  | nil =>
      rfl
  | cons head tail inductionHypothesis =>
      simp only [allAtomsInLeaves, List.all_cons, inductionHypothesis]

/-- The names of the atoms of a model. -/
def names (model : Model) : Set String :=
  { name | name ∈ model.atoms.map Atom.name }

theorem mem_names_iff (model : Model) (name : String) :
    name ∈ model.names ↔ name ∈ model.heldAtoms.map Atom.name :=
  Atom.mem_names_distinct model.heldAtoms name

/-- A group that holds no atom has the names of its members. -/
theorem names_child_subset {particle : Particle} {children : List Model}
    (isGroup : particle.atom = none) {child : Model}
    (member : child ∈ children) :
    child.names ⊆ (node particle children).names := by
  intro name isName
  rw [mem_names_iff] at isName ⊢
  rw [heldAtoms, isGroup, allHeldAtoms_eq_flatMap]
  obtain ⟨atom, held, same⟩ := List.mem_map.mp isName
  exact List.mem_map.mpr
    ⟨atom, List.mem_flatMap.mpr ⟨child, member, held⟩, same⟩

private theorem namesWithin_of_members {names : Set String}
    {particle : Particle} {children : List Model}
    (isGroup : particle.kind ≠ .leaf)
    (each : ∀ child ∈ children, NamesWithin names child.language) :
    NamesWithin names (node particle children).language := by
  have allWithin : ∀ language ∈ languages children,
      NamesWithin names language := by
    rw [languages_eq_map]
    exact List.forall_mem_map.mpr each
  rw [language]
  split
  · exact NamesWithin.one names
  · exact NamesWithin.one names
  · rename_i isLeaf _
    exact absurd isLeaf isGroup
  · split
    · exact NamesWithin.one names
    · exact (NamesWithin.prod allWithin).repeats _
  · split
    · exact NamesWithin.one names
    · exact (NamesWithin.sum allWithin).repeats _

/-! ## The names that are read -/

mutual

/-- The names of the leaves from the left. Whatever else a particle holds than
its kind makes use of is passed over. -/
def readNames : Model → List String
  | node particle children =>
    match particle.kind with
    | .unknown => []
    | .leaf => particle.atom.toList.map Atom.name
    | .choice | .sequence => allReadNames children

def allReadNames : List Model → List String
  | [] => []
  | model :: models => model.readNames ++ allReadNames models

end

theorem allReadNames_eq_flatMap (models : List Model) :
    allReadNames models = models.flatMap readNames := by
  induction models with
  | nil =>
      rfl
  | cons head tail inductionHypothesis =>
      simp only [allReadNames, List.flatMap_cons, inductionHypothesis]

private theorem ne_leaf_of_group {particle : Particle}
    (isGroup : particle.kind = .choice ∨ particle.kind = .sequence) :
    particle.kind ≠ .leaf := by
  intro isLeaf
  rw [isLeaf] at isGroup
  exact isGroup.elim ParticleKind.noConfusion ParticleKind.noConfusion

/-- A group reads what its members read. -/
theorem mem_readNames_group_iff {particle : Particle}
    (isGroup : particle.kind = .choice ∨ particle.kind = .sequence)
    (children : List Model) (name : String) :
    name ∈ (node particle children).readNames ↔
      ∃ child ∈ children, name ∈ child.readNames := by
  rw [← List.mem_flatMap, ← allReadNames_eq_flatMap, readNames]
  cases isGroup with
  | inl isChoice => rw [isChoice]
  | inr isSequence => rw [isSequence]

/-- The induction is over the model: a leaf allows its own name alone, and a
group the names of its members. -/
theorem namesWithin_readNames (model : Model) :
    NamesWithin { name | name ∈ model.readNames } model.language := by
  induction model using inductionOnMembers with
  | node particle children inductionHypothesis =>
      have group : particle.kind = .choice ∨ particle.kind = .sequence →
          NamesWithin { name | name ∈ (node particle children).readNames }
            (node particle children).language := by
        intro isGroup
        apply namesWithin_of_members (ne_leaf_of_group isGroup)
        intro child member word isWord name inWord
        exact (mem_readNames_group_iff isGroup children name).mpr
          ⟨child, member,
            inductionHypothesis child member word isWord name inWord⟩
      cases isKind : particle.kind with
      | unknown =>
          rw [language, isKind]
          exact NamesWithin.one _
      | choice =>
          exact group (Or.inl isKind)
      | sequence =>
          exact group (Or.inr isKind)
      | leaf =>
          cases isAtom : particle.atom with
          | none =>
              rw [language, isKind, isAtom]
              exact NamesWithin.one _
          | some atom =>
              rw [language, readNames, isKind, isAtom]
              apply NamesWithin.repeats
              intro word isWord name member
              rw [Set.mem_singleton_iff.mp isWord] at member
              exact member

/-- What is read is collected where none but leaves hold atoms. -/
theorem mem_names_of_mem_readNames {model : Model}
    (inLeaves : model.atomsInLeaves = true) {name : String}
    (isRead : name ∈ model.readNames) : name ∈ model.names := by
  induction model using inductionOnMembers with
  | node particle children inductionHypothesis =>
      rw [atomsInLeaves, Bool.and_eq_true, allAtomsInLeaves_eq_all,
        List.all_eq_true] at inLeaves
      obtain ⟨own, below⟩ := inLeaves
      have group : particle.kind = .choice ∨ particle.kind = .sequence →
          name ∈ (node particle children).names := by
        intro isGroup
        rw [beq_eq_false_iff_ne.mpr (ne_leaf_of_group isGroup),
          Bool.or_false, Option.isNone_iff_eq_none] at own
        obtain ⟨child, member, isChild⟩ :=
          (mem_readNames_group_iff isGroup children name).mp isRead
        exact names_child_subset own member
          (inductionHypothesis child member (below child member) isChild)
      cases isKind : particle.kind with
      | unknown =>
          rw [readNames, isKind] at isRead
          exact absurd isRead List.not_mem_nil
      | choice =>
          exact group (Or.inl isKind)
      | sequence =>
          exact group (Or.inr isKind)
      | leaf =>
          rw [readNames, isKind] at isRead
          obtain ⟨atom, isAtom, same⟩ := List.mem_map.mp isRead
          rw [mem_names_iff, heldAtoms, Option.mem_toList.mp isAtom, ← same]
          exact List.mem_singleton_self _

/-- What a model allows is spelled with its names. -/
theorem namesWithin_language {model : Model}
    (inLeaves : model.atomsInLeaves = true) :
    NamesWithin model.names model.language :=
  fun word isWord name inWord =>
    mem_names_of_mem_readNames inLeaves
      (namesWithin_readNames model word isWord name inWord)

end Model

end ContentModel
