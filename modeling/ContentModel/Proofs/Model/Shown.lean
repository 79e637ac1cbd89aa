import Mathlib.Data.List.Forall2
import Mathlib.Data.List.Perm.Subperm
import Mathlib.Data.Set.Basic
import ContentModel.Model.Draft
import ContentModel.Proofs.Model.Language

/-!
# Models that nodes show

A node shows a model if it has the particle of the model and its children show
the members. It shows one model at most, and it goes on showing it as long as
the particles and the children of the nodes below it stay (`Shows.frame`). No
model is shown that nests deeper than there are nodes (`Shows.height_le`).
-/

namespace ContentModel

universe u v

/-- A relation that goes over to another one for the members of two lists. -/
theorem forall₂_imp_of_mem {α : Type u} {β : Type v} {left right : α → β → Prop}
    {items : List α} {others : List β} (all : List.Forall₂ left items others)
    (each : ∀ item ∈ items, ∀ other ∈ others, left item other →
      right item other) :
    List.Forall₂ right items others := by
  induction all with
  | nil =>
      exact .nil
  | @cons item other items others related _ inductionHypothesis =>
      refine .cons (each item List.mem_cons_self other List.mem_cons_self
        related) (inductionHypothesis ?_)
      intro item member other isOther
      exact each item (List.mem_cons_of_mem _ member) other
        (List.mem_cons_of_mem _ isOther)

/-- Each member of one of two related lists is related to one of the other. -/
theorem exists_of_forall₂ {α : Type u} {β : Type v} {related : α → β → Prop}
    {items : List α} {others : List β}
    (all : List.Forall₂ related items others) :
    (∀ item ∈ items, ∃ other ∈ others, related item other) ∧
    ∀ other ∈ others, ∃ item ∈ items, related item other := by
  induction all with
  | nil =>
      simp
  | @cons item other items others isRelated _ inductionHypothesis =>
      obtain ⟨onward, back⟩ := inductionHypothesis
      constructor
      · refine List.forall_mem_cons.mpr
          ⟨⟨other, List.mem_cons_self, isRelated⟩, ?_⟩
        intro item member
        obtain ⟨other, isOther, isRelated⟩ := onward item member
        exact ⟨other, List.mem_cons_of_mem _ isOther, isRelated⟩
      · refine List.forall_mem_cons.mpr
          ⟨⟨item, List.mem_cons_self, isRelated⟩, ?_⟩
        intro other member
        obtain ⟨item, isItem, isRelated⟩ := back other member
        exact ⟨item, List.mem_cons_of_mem _ isItem, isRelated⟩

namespace Model

/-- Every particle of the model is of this sort. -/
inductive Throughout (sort : Particle → Prop) : Model → Prop
  | node {particle : Particle} {children : List Model} :
      sort particle → (∀ child ∈ children, Throughout sort child) →
      Throughout sort (node particle children)

theorem Throughout.mono {sort wider : Particle → Prop} {model : Model}
    (throughout : model.Throughout sort)
    (within : ∀ particle, sort particle → wider particle) :
    model.Throughout wider := by
  induction throughout with
  | node own _ inductionHypothesis =>
      exact .node (within _ own) inductionHypothesis

theorem Throughout.boundsOrdered {model : Model}
    (throughout : model.Throughout (·.occurs.Ordered)) :
    model.BoundsOrdered := by
  induction throughout with
  | node ordered _ inductionHypothesis =>
      exact .node ordered inductionHypothesis

theorem BoundsOrdered.throughout {model : Model}
    (ordered : model.BoundsOrdered) :
    model.Throughout (·.occurs.Ordered) := by
  induction ordered with
  | node ordered _ inductionHypothesis =>
      exact .node ordered inductionHypothesis

theorem throughout_of_forall {sort : Particle → Prop}
    (all : ∀ particle, sort particle) (model : Model) :
    model.Throughout sort := by
  induction model using inductionOnMembers with
  | node particle children inductionHypothesis =>
      exact .node (all particle) inductionHypothesis

mutual

/-- How many particles stand below each other, at most. -/
def height : Model → Nat
  | node _ children => heights children + 1

def heights : List Model → Nat
  | [] => 0
  | model :: models => max model.height (heights models)

end

/-- Some member nests as deep as all of them together. -/
theorem exists_height_eq {models : List Model} (occupied : models ≠ []) :
    ∃ model ∈ models, model.height = heights models := by
  induction models with
  | nil =>
      exact absurd rfl occupied
  | cons head tail inductionHypothesis =>
      rw [heights]
      by_cases deeper : heights tail ≤ head.height
      · exact ⟨head, List.mem_cons_self, (Nat.max_eq_left deeper).symm⟩
      · have tailOccupied : tail ≠ [] := by
          intro isEmpty
          rw [isEmpty] at deeper
          exact deeper (Nat.zero_le _)
        obtain ⟨model, member, same⟩ := inductionHypothesis tailOccupied
        refine ⟨model, List.mem_cons_of_mem head member, ?_⟩
        rw [same, Nat.max_eq_right (Nat.le_of_not_le deeper)]

end Model

namespace Workbench

/-- The node has the particle of the model, and its children show the
members. -/
inductive Shows (bench : Workbench) : Nat → Model → Prop
  | node {id : Nat} {node : DraftNode} {members : List Model} :
      bench.nodes[id]? = some node →
      List.Forall₂ (Shows bench) node.children members →
      Shows bench id (.node node.particle members)

variable {bench before after : Workbench} {id : Nat} {model : Model}

theorem shows_iff {particle : Particle} {members : List Model} :
    bench.Shows id (.node particle members) ↔
      ∃ node, bench.nodes[id]? = some node ∧ node.particle = particle ∧
        List.Forall₂ bench.Shows node.children members := by
  constructor
  · intro shows
    cases shows with
    | node found below =>
        exact ⟨_, found, rfl, below⟩
  · intro isNode
    obtain ⟨node, found, same, below⟩ := isNode
    rw [← same]
    exact .node found below

theorem Shows.lt_size (shows : bench.Shows id model) : id < bench.size := by
  cases shows with
  | node found _ =>
      exact (Array.getElem?_eq_some_iff.mp found).1

theorem Shows.throughout {sort : Particle → Prop}
    (each : ∀ (id : Nat) (node : DraftNode), bench.nodes[id]? = some node →
      sort node.particle)
    (shows : bench.Shows id model) : model.Throughout sort := by
  induction model using Model.inductionOnMembers generalizing id with
  | node particle children inductionHypothesis =>
      obtain ⟨node, found, same, below⟩ := shows_iff.mp shows
      refine .node (same ▸ each id node found) ?_
      intro child isMember
      obtain ⟨below, _, shows⟩ := (exists_of_forall₂ below).2 child isMember
      exact inductionHypothesis child isMember shows

/-! ## One model at most -/

private theorem members_unique {members others : List Model} {ids : List Nat}
    (each : ∀ model ∈ members, ∀ id other, bench.Shows id model →
      bench.Shows id other → model = other)
    (below : List.Forall₂ bench.Shows ids members)
    (otherBelow : List.Forall₂ bench.Shows ids others) :
    members = others := by
  induction below generalizing others with
  | nil =>
      cases otherBelow
      rfl
  | cons shows _ inductionHypothesis =>
      cases otherBelow with
      | cons showsOther otherBelow =>
          obtain ⟨headUnique, tailUnique⟩ := List.forall_mem_cons.mp each
          rw [headUnique _ _ shows showsOther,
            inductionHypothesis tailUnique otherBelow]

/-- A node shows one model at most. -/
theorem Shows.unique {other : Model} (shows : bench.Shows id model)
    (showsOther : bench.Shows id other) : model = other := by
  induction model using Model.inductionOnMembers generalizing id other with
  | node particle children inductionHypothesis =>
      obtain ⟨node, found, same, below⟩ := shows_iff.mp shows
      cases showsOther with
      | node otherFound otherBelow =>
          rw [found] at otherFound
          cases otherFound
          rw [← same]
          congr 1
          refine members_unique ?_ below otherBelow
          intro child member id other
          exact inductionHypothesis child member

/-! ## What a node shows stays -/

/-- A node is the same to whoever reads it. -/
def Kept (before after : Workbench) (id : Nat) : Prop :=
  ∀ node, before.nodes[id]? = some node → ∃ later,
    after.nodes[id]? = some later ∧ later.particle = node.particle ∧
      later.children = node.children

/-- A node goes on showing a model as long as it and the nodes below it are
kept. -/
theorem Shows.frame {stays : Set Nat} (shows : before.Shows id model)
    (isStaying : id ∈ stays)
    (kept : ∀ id ∈ stays, Kept before after id)
    (closed : ∀ id ∈ stays, ∀ node, before.nodes[id]? = some node →
      ∀ child ∈ node.children, child ∈ stays) :
    after.Shows id model := by
  induction model using Model.inductionOnMembers generalizing id with
  | node particle children inductionHypothesis =>
      obtain ⟨node, found, same, below⟩ := shows_iff.mp shows
      obtain ⟨later, isLater, sameParticle, sameChildren⟩ :=
        kept id isStaying node found
      refine shows_iff.mpr ⟨later, isLater, sameParticle.trans same, ?_⟩
      rw [sameChildren]
      refine forall₂_imp_of_mem below ?_
      intro child isChild model isMember shows
      exact inductionHypothesis model isMember shows
        (closed id isStaying node found child isChild)

/-! ## How deep models nest -/

/-- A chain of nodes below each other, as long as the model nests. -/
private theorem Shows.exists_chain (shows : bench.Shows id model) :
    ∃ chain : List Nat, chain.length = model.height ∧ chain.Nodup ∧
      ∀ id ∈ chain, ∃ shown, bench.Shows id shown ∧
        shown.height ≤ model.height := by
  induction model using Model.inductionOnMembers generalizing id with
  | node particle children inductionHypothesis =>
      by_cases occupied : children = []
      · refine ⟨[id], ?_, by simp, ?_⟩
        · rw [occupied]
          rfl
        · intro other isOther
          rw [List.mem_singleton.mp isOther]
          exact ⟨_, shows, Nat.le_refl _⟩
      · obtain ⟨node, found, same, below⟩ := shows_iff.mp shows
        obtain ⟨deepest, isMember, isDeepest⟩ :=
          Model.exists_height_eq occupied
        obtain ⟨child, _, childShows⟩ := (exists_of_forall₂ below).2 _ isMember
        obtain ⟨chain, isLong, nodup, each⟩ :=
          inductionHypothesis deepest isMember childShows
        have lower : ∀ id ∈ chain, ∃ shown, bench.Shows id shown ∧
            shown.height ≤ Model.heights children := by
          rw [← isDeepest]
          exact each
        refine ⟨id :: chain, ?_, List.nodup_cons.mpr ⟨?_, nodup⟩,
          List.forall_mem_cons.mpr ⟨⟨_, shows, Nat.le_refl _⟩, ?_⟩⟩
        · rw [List.length_cons, isLong, isDeepest]
          rfl
        · intro isBelow
          obtain ⟨shown, showsAgain, isLower⟩ := lower id isBelow
          rw [← shows.unique showsAgain, Model.height] at isLower
          exact Nat.not_succ_le_self _ isLower
        · intro other isBelow
          obtain ⟨shown, otherShows, isLower⟩ := lower other isBelow
          exact ⟨shown, otherShows, isLower.trans (Nat.le_succ _)⟩

/-- A model does not nest deeper than there are nodes. -/
theorem Shows.height_le (shows : bench.Shows id model) :
    model.height ≤ bench.size := by
  obtain ⟨chain, isLong, nodup, each⟩ := shows.exists_chain
  have inside : chain ⊆ List.range bench.size := by
    intro id isLink
    obtain ⟨shown, showsLink, _⟩ := each id isLink
    exact List.mem_range.mpr showsLink.lt_size
  have short := (List.subperm_of_subset nodup inside).length_le
  rw [isLong, List.length_range] at short
  exact short

end Workbench

end ContentModel
