import ContentModel.Model
import Mathlib.Algebra.BigOperators.Group.List.Basic
import Mathlib.Computability.Language

/-!
# The language of a content model

A content model stands for the sequences of names that it allows. What is not
filled in and what is an empty group allows the empty sequence alone, whatever
its bounds are.
-/

open scoped Computability

namespace ContentModel

/-! ## Occurrences -/

namespace Occurs

/-- No more occurrences are needed than are allowed. -/
def Ordered (occurs : Occurs) : Prop :=
  ∀ max ∈ occurs.max, occurs.min ≤ max

instance (occurs : Occurs) : Decidable occurs.Ordered :=
  inferInstanceAs (Decidable (∀ max ∈ occurs.max, occurs.min ≤ max))

/-- As many words of a language as the bounds admit, one after the other. -/
def repeats (occurs : Occurs) (language : Language String) :
    Language String :=
  { word | ∃ count, occurs.Admits count ∧ word ∈ language ^ count }

theorem mem_repeats_iff (occurs : Occurs) (language : Language String)
    (word : List String) :
    word ∈ occurs.repeats language ↔
      ∃ count, occurs.Admits count ∧ word ∈ language ^ count :=
  Iff.rfl

theorem admits_min {occurs : Occurs} (ordered : occurs.Ordered) :
    occurs.Admits occurs.min :=
  ⟨Nat.le_refl occurs.min, ordered⟩

/-- Nothing remains nothing, however often it occurs. -/
theorem repeats_one {occurs : Occurs} (ordered : occurs.Ordered) :
    occurs.repeats 1 = 1 := by
  ext word
  rw [mem_repeats_iff]
  constructor
  · rintro ⟨count, _, member⟩
    rwa [one_pow] at member
  · intro member
    refine ⟨occurs.min, admits_min ordered, ?_⟩
    rwa [one_pow]

theorem repeats_open (min : Nat) (language : Language String) :
    repeats ⟨min, none⟩ language = language ^ min * language∗ := by
  ext word
  rw [mem_repeats_iff, Language.kstar_eq_iSup_pow, Language.mul_iSup,
    Language.mem_iSup]
  simp only [← pow_add, Admits, Option.not_mem_none, false_implies,
    implies_true, and_true]
  constructor
  · rintro ⟨count, needed, member⟩
    refine ⟨count - min, ?_⟩
    rwa [Nat.add_sub_cancel' needed]
  · rintro ⟨further, member⟩
    exact ⟨min + further, Nat.le_add_right min further, member⟩

/-- At most so many words, each but the first only after another. -/
def upTo (language : Language String) (count : Nat) : Language String :=
  (fun rest => 1 + language * rest)^[count] 1

theorem upTo_succ (language : Language String) (count : Nat) :
    upTo language (count + 1) = 1 + language * upTo language count :=
  Function.iterate_succ_apply' ..

theorem mem_upTo_iff (language : Language String) (count : Nat)
    (word : List String) :
    word ∈ upTo language count ↔
      ∃ times ≤ count, word ∈ language ^ times := by
  induction count generalizing word with
  | zero =>
      simp [upTo]
  | succ count inductionHypothesis =>
      rw [upTo_succ, Language.mem_add, Language.mem_mul]
      constructor
      · rintro (nothing | ⟨first, firstMember, rest, restMember, rfl⟩)
        · exact ⟨0, Nat.zero_le _, nothing⟩
        · obtain ⟨times, few, member⟩ :=
            (inductionHypothesis rest).mp restMember
          refine ⟨times + 1, Nat.succ_le_succ few, ?_⟩
          rw [pow_succ']
          exact Language.append_mem_mul firstMember member
      · rintro ⟨times, few, member⟩
        cases times with
        | zero =>
            exact Or.inl member
        | succ times =>
            rw [pow_succ', Language.mem_mul] at member
            obtain ⟨first, firstMember, rest, restMember, joined⟩ := member
            refine Or.inr ⟨first, firstMember, rest, ?_, joined⟩
            exact (inductionHypothesis rest).mpr
              ⟨times, Nat.le_of_succ_le_succ few, restMember⟩

theorem repeats_closed {min max : Nat} (ordered : min ≤ max)
    (language : Language String) :
    repeats ⟨min, some max⟩ language =
      language ^ min * upTo language (max - min) := by
  ext word
  rw [mem_repeats_iff, Language.mem_mul]
  simp only [Admits, Option.mem_some_iff, forall_eq', mem_upTo_iff]
  constructor
  · rintro ⟨count, ⟨needed, few⟩, member⟩
    rw [← Nat.add_sub_cancel' needed, pow_add, Language.mem_mul] at member
    obtain ⟨first, firstMember, rest, restMember, joined⟩ := member
    exact ⟨first, firstMember, rest,
      ⟨count - min, Nat.sub_le_sub_right few min, restMember⟩, joined⟩
  · rintro ⟨first, firstMember, rest, ⟨times, few, restMember⟩, rfl⟩
    refine ⟨min + times, ⟨Nat.le_add_right min times, by omega⟩, ?_⟩
    rw [pow_add]
    exact Language.append_mem_mul firstMember restMember

end Occurs

/-! ## Models -/

namespace Model

mutual

/-- The sequences of names that a model allows. -/
def language : Model → Language String
  | node particle children =>
    match particle.kind, particle.atom with
    | .unknown, _ => 1
    | .leaf, none => 1
    | .leaf, some atom => particle.occurs.repeats {[atom.name]}
    | .sequence, _ =>
      if children.isEmpty then 1
      else particle.occurs.repeats (languages children).prod
    | .choice, _ =>
      if children.isEmpty then 1
      else particle.occurs.repeats (languages children).sum

/-- The languages of several models. -/
def languages : List Model → List (Language String)
  | [] => []
  | model :: models => model.language :: languages models

end

theorem languages_eq_map (models : List Model) :
    languages models = models.map language := by
  induction models with
  | nil =>
      rfl
  | cons head tail inductionHypothesis =>
      simp only [languages, List.map_cons, inductionHypothesis]

/-- Without parts nothing is repeated, which needs no case of its own. -/
theorem language_sequence {occurs : Occurs} (ordered : occurs.Ordered)
    (atom : Option Atom) (children : List Model) :
    language (node ⟨.sequence, occurs, atom⟩ children) =
      occurs.repeats (children.map language).prod := by
  rw [language, ← languages_eq_map]
  cases children with
  | nil =>
      exact (Occurs.repeats_one ordered).symm
  | cons first rest =>
      rfl

theorem language_choice (occurs : Occurs) (atom : Option Atom)
    (children : List Model) :
    language (node ⟨.choice, occurs, atom⟩ children) =
      if children.isEmpty then 1
      else occurs.repeats (children.map language).sum := by
  rw [language, ← languages_eq_map]

/-- At no particle more occurrences are needed than are allowed. -/
inductive BoundsOrdered : Model → Prop
  | node {particle : Particle} {children : List Model} :
      particle.occurs.Ordered →
      (∀ child ∈ children, BoundsOrdered child) →
      BoundsOrdered (node particle children)

theorem boundsOrdered_node_iff (particle : Particle)
    (children : List Model) :
    (node particle children).BoundsOrdered ↔
      particle.occurs.Ordered ∧ ∀ child ∈ children, child.BoundsOrdered := by
  constructor
  · intro ordered
    cases ordered with
    | node own below => exact ⟨own, below⟩
  · intro ordered
    exact .node ordered.1 ordered.2

mutual

/-- Whether the bounds are in order can be computed. -/
def decideBoundsOrdered : (model : Model) → Decidable model.BoundsOrdered
  | node particle children =>
    haveI := decideAllBoundsOrdered children
    decidable_of_iff _ (boundsOrdered_node_iff particle children).symm

/-- The same for every member of a group. -/
def decideAllBoundsOrdered :
    (members : List Model) →
      Decidable (∀ member ∈ members, member.BoundsOrdered)
  | [] => isTrue fun _ member => absurd member List.not_mem_nil
  | first :: rest =>
    haveI := decideBoundsOrdered first
    haveI := decideAllBoundsOrdered rest
    decidable_of_iff _ List.forall_mem_cons.symm

end

instance : DecidablePred BoundsOrdered :=
  decideBoundsOrdered

end Model

end ContentModel
