import Mathlib.Data.List.Sort
import ContentModel.Proofs.Automaton.OfFragment

/-!
# Constructions that see the same

A construction asks about the keys that are met and about no others, and a
compilation looks at the points that walks come to before the exit and at no
others. So steps that agree there make the same construction
(`AgreesOn.determinize_eq`), and a fragment is compiled to the same automaton,
with the same numbers, after edges were added elsewhere or at its exit
(`Region.compile_extend`).
-/

namespace ContentModel

/-! ## Steps that agree -/

namespace Automaton.Construction

universe u

variable {κ : Type u} [Ord κ]

/-- The steps agree on some keys and lead from them to such keys again. -/
structure AgreesOn (step other : Store → κ → Except Fault (SubsetStep κ))
    (keys : Set κ) : Prop where
  same : ∀ store, ∀ key ∈ keys, step store key = other store key
  closed : ∀ store, ∀ key ∈ keys, ∀ accepting edges,
    step store key = .ok (.expand accepting edges) →
    ∀ edge ∈ edges, edge.2 ∈ keys

/-- Every edge that waits leads to one of the keys. -/
def Heads (keys : Set κ) (construction : Construction κ) : Prop :=
  ∀ source edge, construction.Waits source edge → edge.2 ∈ keys

variable {step other : Store → κ → Except Fault (SubsetStep κ)}
  {keys : Set κ} {before after : Construction κ}

namespace AgreesOn

variable (agrees : AgreesOn step other keys)

include agrees

theorem stateOf_eq {key : κ} (isKey : key ∈ keys) :
    before.stateOf step key = before.stateOf other key := by
  rw [stateOf, stateOf, agrees.same before.store key isKey]

theorem heads_found {key : κ} {id : Nat} (isKey : key ∈ keys)
    (heads : before.Heads keys) (finds : Finds step key before id after) :
    after.Heads keys := by
  intro source edge waits
  rcases finds.waits_or waits with
    earlier | ⟨accepting, edges, isExpand, member⟩
  · exact heads source edge earlier
  · exact agrees.closed before.store key isKey accepting edges isExpand edge
      member

theorem keptByEdges_heads : KeptByEdges step (Heads keys) := by
  intro before found key source target atom heads waits finds
  have foundHeads :=
    agrees.heads_found (heads source (atom, key) waits) heads finds
  exact foundHeads

theorem connect_eq {source : Nat} {edges : List (Atom × κ)}
    (heads : before.Heads keys)
    (waits : ∀ edge ∈ edges, before.Waits source edge) :
    before.connect step source edges = before.connect other source edges := by
  induction edges generalizing before with
  | nil =>
      rfl
  | cons edge edges inductionHypothesis =>
      obtain ⟨atom, key⟩ := edge
      have waitsFirst := waits (atom, key) List.mem_cons_self
      have same : before.stateOf step key = before.stateOf other key :=
        agrees.stateOf_eq (heads source (atom, key) waitsFirst)
      cases isFound : before.stateOf step key with
      | error fault =>
          rw [connect, connect, ← same, isFound]
      | ok found =>
          obtain ⟨target, found⟩ := found
          have finds := finds_of_stateOf isFound
          rw [connect_cons isFound, connect_cons (same ▸ isFound)]
          apply inductionHypothesis
          · exact agrees.keptByEdges_heads before found key source target atom
              heads waitsFirst finds
          · intro edge member
            exact finds.waits (waits edge (List.mem_cons_of_mem _ member))

/-- The induction is on the room, as in the definition. -/
theorem complete_eq {room position : Nat} (heads : before.Heads keys) :
    before.complete step room position =
      before.complete other room position := by
  induction room generalizing before position with
  | zero =>
      unfold complete
      cases found : before.states[position]? with
      | none =>
          rfl
      | some state =>
          obtain ⟨source, edges⟩ := state
          simp only [← agrees.connect_eq heads (waits_of_state found)]
          cases before.connect step source edges with
          | error fault =>
              rfl
          | ok next =>
              rfl
  | succ room inductionHypothesis =>
      unfold complete
      cases found : before.states[position]? with
      | none =>
          rfl
      | some state =>
          obtain ⟨source, edges⟩ := state
          have waits := waits_of_state found
          simp only [← agrees.connect_eq heads waits]
          cases connected : before.connect step source edges with
          | error fault =>
              rfl
          | ok next =>
              have further :=
                agrees.keptByEdges_heads.connect heads waits connected
              simp only [inductionHypothesis further]

/-- Steps that agree on the start and on what they lead to make the same
construction. -/
theorem determinize_eq {store : Store} {start : κ} (isKey : start ∈ keys) :
    store.determinize start step = store.determinize start other := by
  have same : stateOf step start ⟨store, ∅, #[]⟩ =
      stateOf other start ⟨store, ∅, #[]⟩ :=
    agrees.stateOf_eq isKey
  rw [Store.determinize, Store.determinize, ← same]
  cases isFirst : stateOf step start ⟨store, ∅, #[]⟩ with
  | error fault =>
      rfl
  | ok first =>
      obtain ⟨root, first⟩ := first
      have nothingWaits : Heads keys ⟨store, ∅, #[]⟩ := by
        intro source edge waits
        obtain ⟨_, impossible, _⟩ := waits
        exact absurd impossible (Array.not_mem_empty _)
      have heads := agrees.heads_found isKey nothingWaits
        (finds_of_stateOf isFirst)
      simp only [agrees.complete_eq heads]

end AgreesOn

end Automaton.Construction

/-! ## Graphs that agree -/

namespace FragmentGraph

open Automaton

section Extended

variable {thorough : Prop} {graph after : FragmentGraph} {fragment : Fragment}
  {region changed : Set Nat}
  (whole : Region thorough graph fragment region)
  (grows : Extends changed graph after)
  (apart : ∀ id ∈ region, id ∈ changed → id = fragment.exit)

include whole grows

theorem Region.atomAt_extend {id : Nat}
    (member : id ∈ insert pastExit region) (isPoint : id ≠ pastExit) :
    after.atomAt id = graph.atomAt id :=
  grows.atomAt id (whole.stays.lt_size member isPoint)

theorem Region.readsAt_extend {id : Nat}
    (member : id ∈ insert pastExit region) (isPoint : id ≠ pastExit) :
    after.readsAt id = graph.readsAt id := by
  rw [Bool.eq_iff_iff, readsAt_iff, readsAt_iff,
    whole.atomAt_extend grows member isPoint]

include apart

theorem Region.successors_extend {id : Nat}
    (member : id ∈ insert pastExit region) (isPoint : id ≠ pastExit)
    (notExit : id ≠ fragment.exit) :
    after.successors id = graph.successors id :=
  grows.successors id (whole.stays.lt_size member isPoint) fun isChanged =>
    notExit (apart id (member.resolve_left isPoint) isChanged)

theorem Region.silentSteps_extend {id : Nat}
    (member : id ∈ insert pastExit region) :
    after.silentSteps fragment.exit id =
      graph.silentSteps fragment.exit id := by
  rw [silentSteps_eq (whole.extend grows apart).stays member,
    silentSteps_eq whole.stays member]
  by_cases isMark : id = pastExit
  · rw [if_pos (Or.inl isMark), if_pos (Or.inl isMark)]
  · by_cases atExit : id = fragment.exit
    · rw [if_pos (Or.inr (Or.inl atExit)), if_pos (Or.inr (Or.inl atExit))]
    · rw [whole.readsAt_extend grows member isMark,
        whole.successors_extend grows apart member isMark atExit]

variable {starts : List Nat}
  (inside : ∀ id ∈ starts, id ∈ insert pastExit region)

include inside

theorem Region.drifts_extend_iff (id : Nat) :
    after.Drifts fragment.exit starts id ↔
      graph.Drifts fragment.exit starts id := by
  have stays := whole.stays
  have afterStays := (whole.extend grows apart).stays
  constructor
  · intro drifts
    refine (drifts.invariant (motive := fun id =>
      id ∈ insert pastExit region ∧ graph.Drifts fragment.exit starts id)
      ?_ ?_).2
    · exact fun start member =>
        ⟨inside start member, Search.reachable_start member⟩
    · intro id found holds answer next isNext
      rw [whole.silentSteps_extend grows apart holds.1] at answer
      have nextDrifts := Search.Reachable.next holds.2 answer isNext
      exact ⟨Drifts.mem stays inside nextDrifts, nextDrifts⟩
  · intro drifts
    refine (drifts.invariant (motive := fun id =>
      id ∈ insert pastExit region ∧ after.Drifts fragment.exit starts id)
      ?_ ?_).2
    · exact fun start member =>
        ⟨inside start member, Search.reachable_start member⟩
    · intro id found holds answer next isNext
      rw [← whole.silentSteps_extend grows apart holds.1] at answer
      have nextDrifts := Search.Reachable.next holds.2 answer isNext
      exact ⟨Drifts.mem afterStays inside nextDrifts, nextDrifts⟩

/-- Both searches meet the same points, so the sets that are written from them
in ascending order are the same. -/
theorem Region.closure_extend :
    after.closure fragment.exit starts =
      graph.closure fragment.exit starts := by
  obtain ⟨met, isMet, finished⟩ := exists_drifted whole.stays inside
  obtain ⟨afterMet, isAfterMet, afterFinished⟩ :=
    exists_drifted (whole.extend grows apart).stays inside
  have sameMet : afterMet.ascending = met.ascending := by
    refine (Search.ascending_pairwise afterMet).eq_of_mem_iff
      (Search.ascending_pairwise met) fun id => ?_
    rw [afterFinished.mem_ascending_iff, finished.mem_ascending_iff]
    exact whole.drifts_extend_iff grows apart inside id
  have sameMembers :
      met.ascending.filterMap (after.memberAt fragment.exit) =
        met.ascending.filterMap (graph.memberAt fragment.exit) := by
    refine List.filterMap_congr fun id member => ?_
    rw [memberAt, memberAt]
    by_cases isMark : id = pastExit
    · rw [if_pos isMark, if_pos isMark]
    · have drifts := (finished.mem_ascending_iff id).mp member
      rw [if_neg isMark, if_neg isMark,
        whole.readsAt_extend grows (Drifts.mem whole.stays inside drifts)
          isMark]
  simp only [closure, isMet, isAfterMet, ok_bind, sameMet, sameMembers]

omit inside

variable {set : List Nat}

theorem Region.readingSteps_extend
    (member : ∀ id ∈ set, id ∈ insert pastExit region)
    (table : AtomMap (List Nat)) :
    after.readingSteps fragment.exit set table =
      graph.readingSteps fragment.exit set table := by
  induction set generalizing table with
  | nil =>
      rfl
  | cons id rest inductionHypothesis =>
      have further := inductionHypothesis fun other isRest =>
        member other (List.mem_cons_of_mem id isRest)
      have isMember := member id List.mem_cons_self
      rw [readingSteps, readingSteps]
      by_cases isMark : id = pastExit
      · rw [if_pos isMark, if_pos isMark]
        exact further table
      · have afterStays := (whole.extend grows apart).stays
        rw [if_neg isMark, if_neg isMark,
          exists_point (afterStays.lt_size isMember isMark),
          exists_point (whole.stays.lt_size isMember isMark),
          whole.atomAt_extend grows isMember isMark]
        cases graph.atomAt id with
        | none =>
            exact further table
        | some atom =>
            by_cases atExit : id = fragment.exit
            · simp only [if_pos atExit]
              exact further _
            · simp only [if_neg atExit,
                whole.successors_extend grows apart isMember isMark atExit]
              exact further _

variable (attentive : graph.Attentive (insert pastExit region) set)

include attentive

theorem Region.setStep_extend :
    after.setStep fragment.exit set = graph.setStep fragment.exit set := by
  have afterAttentive : after.Attentive (insert pastExit region) set := by
    refine ⟨attentive.ascending, ?_⟩
    intro id member
    obtain ⟨inRegion, reads⟩ := attentive.mem id member
    refine ⟨inRegion, ?_⟩
    by_cases isMark : id = pastExit
    · exact Or.inl isMark
    · rw [whole.readsAt_extend grows inRegion isMark]
      exact reads
  obtain ⟨table, isTable, isStep, gathers⟩ := setStep_eq whole.stays attentive
  obtain ⟨afterTable, isAfterTable, isAfterStep, _⟩ :=
    setStep_eq (whole.extend grows apart).stays afterAttentive
  have member : ∀ id ∈ set, id ∈ insert pastExit region :=
    fun id isMember => (attentive.mem id isMember).1
  rw [whole.readingSteps_extend grows apart member, isTable] at isAfterTable
  cases isAfterTable
  have sameEntries : (table.map (after.closureOf fragment.exit)).entries =
      (table.map (graph.closureOf fragment.exit)).entries := by
    refine List.map_congr_left fun entry isEntry => ?_
    have found : table.find? entry.1.name = some entry.2 :=
      (table.find?_eq_some_iff _ _).mpr ⟨entry.1, isEntry, rfl⟩
    have inside := gathers.starts_mem whole.stays attentive found
    rw [closureOf, closureOf, whole.closure_extend grows apart inside]
  rw [isAfterStep, isStep, sameEntries]

omit attentive

/-- Edges that are added elsewhere or at the exit do not change what a fragment
is compiled to. -/
theorem Region.compile_extend (store : Store) :
    store.compile after fragment = store.compile graph fragment := by
  have inside : ∀ id ∈ [fragment.entry], id ∈ insert pastExit region :=
    List.forall_mem_singleton.mpr
      (Set.mem_insert_of_mem pastExit whole.entry_mem)
  have agrees : Construction.AgreesOn
      (fun _ set => graph.setStep fragment.exit set)
      (fun _ set => after.setStep fragment.exit set)
      { set | graph.Attentive (insert pastExit region) set } := by
    constructor
    · intro _ set attentive
      exact (whole.setStep_extend grows apart attentive).symm
    · intro _ set attentive accepting edges isExpand edge isEdge
      have isStep : graph.setSpec fragment.exit set =
          .expand accepting edges := by
        rw [setSpec, isExpand]
        rfl
      obtain ⟨table, next, gathers, found, isClosure⟩ :=
        exists_of_edge whole.stays attentive isStep isEdge
      rw [isClosure]
      exact attentive_closureOf whole.stays
        (gathers.starts_mem whole.stays attentive found)
  rw [Store.compile, Store.compile, whole.closure_extend grows apart inside,
    closure_eq whole.stays inside, ok_bind, ok_bind]
  exact (agrees.determinize_eq (attentive_closureOf whole.stays inside)).symm

end Extended

end FragmentGraph

end ContentModel
