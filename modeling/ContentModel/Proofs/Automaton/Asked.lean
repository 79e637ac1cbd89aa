import ContentModel.Proofs.Automaton.Subset

/-!
# What a construction asks for

A construction asks its step function about the keys that are met and about no
others, and so it shares no node that none of them asks for
(`asked_of_determinize`).
-/

namespace ContentModel.Automaton

universe u

variable {κ : Type u} [Ord κ]

/-- A node is shared only if it was before, or a key that is met is that
node. -/
structure Asked (base : Store) (spec : κ → SubsetStep κ) (start : κ)
    (store : Store) : Prop where
  any : ∀ id, store.sharedAny = some id →
    base.sharedAny = some id ∨ ∃ key, Met spec start key ∧ spec key = .any
  empty : ∀ id, store.sharedEmpty = some id →
    base.sharedEmpty = some id ∨ ∃ key, Met spec start key ∧ spec key = .empty

namespace Construction

open Store (Grown Keeps)

/-- What every construction keeps whose steps are given by the keys alone. -/
structure Inquires (base : Store) (spec : κ → SubsetStep κ) (start : κ)
    (construction : Construction κ) : Prop where
  grown : Grown base construction.created construction.store
  met : ∀ source edge, construction.Waits source edge →
    Met spec start edge.2
  asked : Asked base spec start construction.store

variable {base : Store} {spec : κ → SubsetStep κ} {start : κ}
  {step : Store → κ → Except Fault (SubsetStep κ)}
  {before after : Construction κ}

theorem inquires_start (sound : base.Sound) (spec : κ → SubsetStep κ)
    (start : κ) : Inquires base spec start ⟨base, ∅, #[]⟩ where
  grown := Store.grown_start sound
  met source edge waits := by
    obtain ⟨_, impossible, _⟩ := waits
    exact absurd impossible (Array.not_mem_empty _)
  asked := ⟨fun _ => Or.inl, fun _ => Or.inl⟩

theorem Finds.inquires {key : κ} {id : Nat}
    (finds : Finds step key before id after)
    (inquires : Inquires base spec start before)
    (answer : step before.store key = .ok (spec key))
    (isMet : Met spec start key) : Inquires base spec start after := by
  refine ⟨finds.grown inquires.grown, ?_, ?_⟩
  · intro source edge waits
    rcases finds.waits_or waits with
      earlier | ⟨accepting, edges, isExpand, member⟩
    · exact inquires.met source edge earlier
    · exact isMet.next (Except.ok.inj (answer.symm.trans isExpand)) member
  · obtain ⟨any, empty⟩ := inquires.asked
    cases finds with
    | known _ =>
        exact ⟨any, empty⟩
    | any _ isAny =>
        have isSpec := Except.ok.inj (answer.symm.trans isAny)
        refine ⟨fun _ _ => Or.inr ⟨key, isMet, isSpec⟩, ?_⟩
        rw [Store.sharedEmpty_anyNode]
        exact empty
    | empty _ isEmpty =>
        have isSpec := Except.ok.inj (answer.symm.trans isEmpty)
        refine ⟨?_, fun _ _ => Or.inr ⟨key, isMet, isSpec⟩⟩
        rw [Store.sharedAny_emptyNode]
        exact any
    | expand _ _ =>
        refine ⟨?_, ?_⟩
        · rw [← Store.sharedAny_alloc] at any
          exact any
        · rw [← Store.sharedEmpty_alloc] at empty
          exact empty

/-- Entering an edge to a key that was met keeps all this. -/
theorem keptByEdges_inquires
    (follows : ∀ store, Keeps base store → ∀ key, Met spec start key →
      step store key = .ok (spec key)) :
    KeptByEdges step (Inquires base spec start) := by
  intro before found key source target atom inquires waits finds
  have isMet := inquires.met source (atom, key) waits
  have answer := follows before.store inquires.grown.keeps key isMet
  obtain ⟨grown, met, asked⟩ := finds.inquires inquires answer isMet
  exact ⟨grown_enter grown (finds.waits waits).mem_created, met,
    ⟨asked.any, asked.empty⟩⟩

theorem asked_abandon (asked : Asked base spec start before.store) :
    Asked base spec start before.abandon := by
  rw [abandon, ← Array.foldl_toList]
  refine List.foldlRecOn before.states.toList _ asked ?_
  intro store found state _
  constructor
  · intro id shared
    exact found.any id (Store.ite_none_eq_some_iff.mp shared).2
  · intro id shared
    exact found.empty id (Store.ite_none_eq_some_iff.mp shared).2

end Construction

namespace Store

variable {base after : Store} {spec : κ → SubsetStep κ} {start : κ}
  {step : Store → κ → Except Fault (SubsetStep κ)}

/-- If the steps are given by the keys, as long as the nodes that were there
stay, a node is shared only where a key that is met asks for it. -/
theorem asked_of_determinize (sound : base.Sound)
    (follows : ∀ store, Keeps base store → ∀ key, Met spec start key →
      step store key = .ok (spec key))
    {result : Except StateLimitExceeded Nat}
    (isResult : base.determinize start step = .ok (result, after)) :
    Asked base spec start after := by
  have first : ∀ id found,
      Construction.Finds step start ⟨base, ∅, #[]⟩ id found →
      Construction.Inquires base spec start found := by
    intro id found finds
    exact finds.inquires (Construction.inquires_start sound spec start)
      (follows base (Keeps.refl base) start (met_start spec start))
      (met_start spec start)
  obtain ⟨construction, inquires, isAfter⟩ := exists_of_determinize first
    (Construction.keptByEdges_inquires follows) isResult
  cases isAfter with
  | inl stays =>
      exact stays.2 ▸ inquires.asked
  | inr givenBack =>
      exact givenBack.2 ▸ Construction.asked_abandon inquires.asked

end Store

end ContentModel.Automaton
