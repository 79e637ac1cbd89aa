import Mathlib.Data.List.Sort
import Mathlib.Data.Set.Card
import ContentModel.Proofs.Automaton.OfFragment
import ContentModel.Proofs.Automaton.Reached

/-!
# The sets of a fragment

The states of the automaton of a fragment are sets of points. They are written
in ascending order, so there are finitely many of them, and how many are met
depends on the fragment alone. Main statement: `compilesTo_of_region`, every
store makes so many nodes of a fragment and accepts what the fragment reads, or
gives up if it does not allow so many.
-/

namespace ContentModel

open Automaton

/-- A list without repetitions has as many elements as places. -/
theorem encard_mem_list {κ : Type*} {keys : List κ} (nodup : keys.Nodup) :
    {key | key ∈ keys}.encard = keys.length := by
  classical
  rw [← List.coe_toFinset, Set.encard_coe_eq_coe_finsetCard,
    List.toFinset_card_of_nodup nodup]

namespace FragmentGraph

/-! ## Ascending sets -/

section Ascending

variable {graph : FragmentGraph} {exit : Nat} {starts : List Nat}

theorem lt_pastExit_of_readsAt (numbered : graph.size ≤ pastExit) {id : Nat}
    (reads : graph.readsAt id = true) : id < pastExit := by
  refine Nat.lt_of_lt_of_le ?_ numbered
  by_contra missing
  rw [readsAt, Array.getElem?_eq_none (Nat.le_of_not_lt missing)] at reads
  cases reads

/-- No member of a set is above the mark. -/
theorem le_pastExit_of_mem_closure {set : List Nat}
    (isSet : graph.closure exit starts = .ok set)
    (numbered : graph.size ≤ pastExit) : ∀ id ∈ set, id ≤ pastExit := by
  obtain ⟨_, _, _, member_iff⟩ := exists_met_of_closure isSet
  intro id member
  obtain ⟨other, _, held⟩ := (member_iff id).mp member
  rcases (memberAt_eq_some_iff graph exit other id).mp held with
    reading | done
  · exact Nat.le_of_lt (lt_pastExit_of_readsAt numbered reading.2.1)
  · exact Nat.le_of_eq done.1

theorem closureOf_ascending (exit : Nat) (starts : List Nat)
    (numbered : graph.size ≤ pastExit) :
    (graph.closureOf exit starts).Pairwise (· < ·) ∧
      ∀ id ∈ graph.closureOf exit starts, id ≤ pastExit := by
  refine ⟨pairwise_closureOf graph exit starts, ?_⟩
  rw [closureOf]
  cases isSet : graph.closure exit starts with
  | error fault =>
      exact fun id member => absurd member List.not_mem_nil
  | ok set =>
      exact le_pastExit_of_mem_closure isSet numbered

end Ascending

/-! ## The sets that are met -/

/-- The sets that are met when the fragment is compiled. -/
def stateSets (graph : FragmentGraph) (fragment : Fragment) :
    Set (List Nat) :=
  { set | Met (graph.setSpec fragment.exit)
    (graph.closureOf fragment.exit [fragment.entry]) set }

/-- A compilation makes a node for each set that is met, or gives up if the
store does not allow so many. -/
theorem compile_stateSets {base : Store} (sound : base.Sound)
    {graph : FragmentGraph} {fragment : Fragment} {area : Set Nat}
    (stays : Stays graph fragment.exit area)
    (member : fragment.entry ∈ area) :
    (∃ (keys : List (List Nat)) (nodeOf : List Nat → Nat) (after : Store),
      base.compile graph fragment =
        .ok (.ok (nodeOf (graph.closureOf fragment.exit [fragment.entry])),
          after) ∧
      (graph.stateSets fragment).encard ≤ base.stateLimit ∧
      Built base (graph.setSpec fragment.exit)
        (graph.closureOf fragment.exit [fragment.entry]) keys nodeOf after) ∨
    (∃ after, base.compile graph fragment =
        .ok (.error ⟨base.stateLimit⟩, after) ∧
      base.stateLimit < (graph.stateSets fragment).encard ∧
      Store.Grown base [] after) := by
  have inside : ∀ id ∈ [fragment.entry], id ∈ area :=
    List.forall_mem_singleton.mpr member
  cases Store.compile_outcome sound stays member with
  | inl succeeds =>
      obtain ⟨keys, nodeOf, after, result, few, built⟩ := succeeds
      refine Or.inl ⟨keys, nodeOf, after, result, ?_, built⟩
      have allKeys : graph.stateSets fragment = {key | key ∈ keys} := by
        ext key
        rw [Set.mem_ofPred_eq, built.mem_keys_iff]
        exact ⟨fun met => ⟨met, met_isExpand stays inside met⟩, And.left⟩
      rw [allKeys, encard_mem_list built.keysNodup]
      exact_mod_cast few
  | inr givesUp =>
      obtain ⟨keys, after, result, many, nodup, met, grown⟩ := givesUp
      refine Or.inr ⟨after, result, ?_, grown⟩
      have someKeys : {key | key ∈ keys} ⊆ graph.stateSets fragment :=
        fun key isKey => (met key isKey).1
      refine lt_of_lt_of_le ?_ (Set.encard_le_encard someKeys)
      rw [encard_mem_list nodup]
      exact_mod_cast many

/-! ## How many sets there are -/

/-- The number of nodes of the automaton of the fragment. -/
noncomputable def stateCount (graph : FragmentGraph) (fragment : Fragment) :
    Nat :=
  (graph.stateSets fragment).ncard

section Counting

variable {graph : FragmentGraph} {fragment : Fragment} {area : Set Nat}
  (within : Within graph fragment.exit area)
  (member : fragment.entry ∈ area)

include within member

theorem stateSets_ascending {set : List Nat}
    (isState : set ∈ graph.stateSets fragment) :
    set.Pairwise (· < ·) ∧ ∀ id ∈ set, id ≤ pastExit :=
  (met_set within.toStays (List.forall_mem_singleton.mpr member)
    (motive := fun set => set.Pairwise (· < ·) ∧ ∀ id ∈ set, id ≤ pastExit)
    isState (closureOf_ascending _ _ within.numbered)
    fun _ _ _ next _ _ _ _ => closureOf_ascending _ next within.numbered).2

/-- An ascending list is known by its members. -/
theorem finite_stateSets : (graph.stateSets fragment).Finite := by
  classical
  refine Set.Finite.of_injOn (f := List.toFinset) ?_ ?_
    (Finset.finite_toSet (Finset.range (pastExit + 1)).powerset)
  · intro set isState
    refine Finset.mem_powerset.mpr fun id isPoint => ?_
    exact Finset.mem_range_succ_iff.mpr
      ((stateSets_ascending within member isState).2 id
        (List.mem_toFinset.mp isPoint))
  · intro left isLeft right isRight same
    refine (stateSets_ascending within member isLeft).1.eq_of_mem_iff
      (stateSets_ascending within member isRight).1 fun id => ?_
    rw [← List.mem_toFinset, same, List.mem_toFinset]

end Counting

/-! ## Compilation -/

/-- Every store makes so many nodes for the fragment and then accepts the
language from the first of them, or gives up if it does not allow so many. -/
def CompilesTo (graph : FragmentGraph) (fragment : Fragment) (states : Nat)
    (language : Language String) : Prop :=
  ∀ store : Store, store.Reached →
    (states ≤ store.stateLimit ∧ ∃ start after,
      store.compile graph fragment = .ok (.ok start, after) ∧
      after.Accepts start language) ∨
    (store.stateLimit < states ∧ ∃ after,
      store.compile graph fragment = .ok (.error ⟨store.stateLimit⟩, after))

variable {thorough : Prop} {graph : FragmentGraph} {fragment : Fragment}

theorem compilesTo_of_within {area : Set Nat}
    (within : Within graph fragment.exit area)
    (member : fragment.entry ∈ area) :
    graph.CompilesTo fragment (graph.stateCount fragment)
      (graph.wordsFrom fragment.exit [fragment.entry]) := by
  intro store reached
  have inside : ∀ id ∈ [fragment.entry], id ∈ area :=
    List.forall_mem_singleton.mpr member
  have counted := (finite_stateSets within member).cast_ncard_eq
  rcases compile_stateSets reached.sound within.toStays member with
    ⟨keys, nodeOf, after, result, few, built⟩ | ⟨after, result, many, _⟩
  · rw [← counted] at few
    refine Or.inl ⟨by exact_mod_cast few, _, after, result, ?_⟩
    rw [← wordsFrom_closureOf within inside]
    exact built.walk_of_steps
      (fun key met => met_isExpand within.toStays inside met)
      (solves_wordsFrom within inside)
      (fun key accepting edges met isStep =>
        setSpec_accepting within inside met isStep)
  · rw [← counted] at many
    exact Or.inr ⟨by exact_mod_cast many, after, result⟩

/-- A fragment with a region is compiled to what is read on the way through
it. -/
theorem compilesTo_of_region {region : Set Nat}
    (whole : Region thorough graph fragment region)
    (numbered : graph.size ≤ pastExit) :
    graph.CompilesTo fragment (graph.stateCount fragment)
      (graph.language fragment) := by
  rw [← whole.wordsFrom_entry numbered]
  exact compilesTo_of_within (whole.within numbered)
    (Set.mem_insert_of_mem pastExit whole.entry_mem)

end FragmentGraph

end ContentModel
