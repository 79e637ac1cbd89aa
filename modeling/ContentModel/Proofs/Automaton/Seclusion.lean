import ContentModel.Proofs.Automaton.History
import ContentModel.Proofs.Automaton.Ownership

/-!
# Secluded automata

A union may lead to the shared nodes. The automaton of a model does not: it
reaches what it owns and nothing else, and a compilation does not ask for the
shared nodes either.

Main statements: `compileModel_secluded` and `sharedNodes_compileModel`.
-/

namespace ContentModel.Automaton

universe u

namespace Store

variable {store before after : Store} {start : Nat}

/-- No shared node is reached. -/
def Secluded (store : Store) (start : Nat) : Prop :=
  ∀ id, store.Reaches start id → store.isShared id = false

theorem Secluded.ownNodes_eq (secluded : store.Secluded start) :
    store.ownNodes start = {id | store.Reaches start id} := by
  ext id
  constructor
  · exact And.left
  · intro reaches
    exact ⟨reaches, secluded id reaches⟩

/-- An automaton the nodes of which stay is as secluded as it was. -/
theorem Intact.secluded (intact : before.Intact start)
    (kept : ∀ id, before.Reaches start id → ∀ node,
      before.node id = .ok node → after.node id = .ok node)
    (sound : before.Sound) (afterSound : after.Sound)
    (secluded : before.Secluded start) : after.Secluded start := by
  intro id reaches
  rw [intact.reaches_iff kept] at reaches
  obtain ⟨node, found⟩ := intact id reaches
  rw [sound.isShared_congr afterSound found (kept id reaches node found)]
  exact secluded id reaches

end Store

/-! ## Constructions -/

namespace Built

variable {κ : Type u} {base after : Store} {spec : κ → SubsetStep κ}
  {start : κ} {keys : List κ} {nodeOf : κ → Nat}
  (built : Built base spec start keys nodeOf after)
  (expands : ∀ key, Met spec start key → (spec key).IsExpand)

include built expands

/-- Where every key has a node of its own, these are the nodes that are
reached. -/
theorem exists_key_of_expands {id : Nat}
    (reaches : after.Reaches (nodeOf start) id) :
    ∃ key ∈ keys, id = nodeOf key := by
  obtain ⟨key, met, same⟩ := built.exists_key_of_reaches
    (fun key met shares => absurd (expands key met) shares) reaches
  exact ⟨key, (built.mem_keys_iff key).mpr ⟨met, expands key met⟩, same⟩

theorem secluded : after.Secluded (nodeOf start) := by
  intro id reaches
  obtain ⟨key, isKey, same⟩ := built.exists_key_of_expands expands reaches
  apply built.grown.notShared
  rw [same]
  exact List.mem_map_of_mem isKey

end Built

/-! ## Compilations -/

namespace Store

variable {base after : Store} {start : Nat} {model : Model}

theorem compileModel_secluded (sound : base.Sound)
    (ordered : model.BoundsOrdered)
    (isResult : base.compileModel model = .ok (.ok start, after)) :
    after.Secluded start := by
  cases compileModel_states sound ordered with
  | inl succeeds =>
      obtain ⟨states, nodeOf, store, isCompiled, _, built⟩ := succeeds
      rw [isResult] at isCompiled
      cases isCompiled
      exact built.secluded fun _ met => isExpand_of_mem_states ordered met
  | inr givesUp =>
      obtain ⟨store, isCompiled, _⟩ := givesUp
      rw [isResult] at isCompiled
      cases isCompiled

/-- A shared node is neither made nor given up. -/
theorem sharedNodes_compileModel {created : List Nat}
    {result : Except StateLimitExceeded Nat} (sound : base.Sound)
    (grown : base.Grown created after)
    (isResult : base.compileModel model = .ok (result, after)) :
    after.sharedAny = base.sharedAny ∧
      after.sharedEmpty = base.sharedEmpty := by
  apply sound.sharedNodes_eq grown.sound
  intro id shared
  have wasShared : base.isShared id = true :=
    shared.elim (fun wasShared => wasShared)
      (isShared_of_compileModel isResult)
  obtain ⟨node, found⟩ := sound.shared_live wasShared
  exact ⟨node, found, grown.keeps id node found⟩

end Store

end ContentModel.Automaton
