import ContentModel.Proofs.Automaton.Confined
import ContentModel.Proofs.Automaton.Reached
import ContentModel.Proofs.Automaton.Subset
import Mathlib.Data.Set.Function

/-!
# The language of a key

A graph of keys accepts a word itself: the word arrives at a key where it may
end. Main statement: `determinize_nodes`, a construction that does not give up
makes the nodes of the keys that are met, and its root accepts what the keys
accept.
-/

namespace ContentModel.Automaton

universe u

variable {κ : Type u}

/-! ## Words that keys accept -/

/-- Whether a word may end at the key that has this step. -/
def SubsetStep.accepts : SubsetStep κ → Bool
  | .any | .empty => true
  | .expand accepting _ => accepting

/-- The words that arrive at a key where they may end. -/
def keyLanguage (spec : κ → SubsetStep κ) (start : κ) : Language String :=
  { word | ∃ last, arrive spec start word = some last ∧
    (spec last).accepts = true }

section Words

variable (spec : κ → SubsetStep κ) (key : κ)

theorem nil_mem_keyLanguage_iff :
    [] ∈ keyLanguage spec key ↔ (spec key).accepts = true := by
  constructor
  · intro member
    obtain ⟨last, arrives, accepts⟩ := member
    cases arrives
    exact accepts
  · intro accepts
    exact ⟨key, rfl, accepts⟩

theorem cons_mem_keyLanguage_iff (name : String) (word : List String) :
    name :: word ∈ keyLanguage spec key ↔
      ∃ next, (spec key).advance key name = some next ∧
        word ∈ keyLanguage spec next := by
  change (∃ last, arrive spec key (name :: word) = some last ∧ _) ↔ _
  rw [arrive]
  cases (spec key).advance key name with
  | none =>
      simp
  | some next =>
      simp only [Option.some.injEq, exists_eq_left']
      exact Iff.rfl

theorem solves_keyLanguage : Solves spec key (keyLanguage spec) :=
  fun other _ name word => cons_mem_keyLanguage_iff spec other name word

end Words

/-! ## The nodes of a construction -/

namespace Built

variable {base after : Store} {spec : κ → SubsetStep κ} {start key : κ}
  {keys : List κ} {nodeOf : κ → Nat}

theorem injOn (built : Built base spec start keys nodeOf after) :
    Set.InjOn nodeOf
      { key | Met spec start key ∧ (spec key).IsExpand } := by
  intro left leftOwn right rightOwn same
  exact List.inj_on_of_nodup_map built.grown.nodup
    ((built.mem_keys_iff left).mpr leftOwn)
    ((built.mem_keys_iff right).mpr rightOwn) same

/-- Where the shared nodes are as first made, a node accepts exactly if a word
may end at its key. -/
theorem accepting_iff (sound : base.Sound) (standard : base.Standard)
    (built : Built base spec start keys nodeOf after)
    (met : Met spec start key) {node : Node}
    (found : after.node (nodeOf key) = .ok node) :
    node.accepting = true ↔ (spec key).accepts = true := by
  have afterStandard := built.grown.standard sound standard
  cases isStep : spec key with
  | any =>
      have fresh := afterStandard.any _ (built.any key met isStep)
      rw [found] at fresh
      cases fresh
      exact Iff.rfl
  | empty =>
      have fresh := afterStandard.empty _ (built.empty key met isStep)
      rw [found] at fresh
      cases fresh
      exact Iff.rfl
  | expand accepting edges =>
      obtain ⟨other, isOther, isAccepting, _⟩ :=
        built.expand key accepting edges met isStep
      rw [found] at isOther
      cases isOther
      rw [isAccepting]
      exact Iff.rfl

end Built

namespace Store

variable [Ord κ] [Std.TransOrd κ] [Std.LawfulEqOrd κ]

/-- A construction whose steps are given by the keys alone, and that does not
give up, makes the graph of the keys that edges lead to. Keys of their own have
different nodes, the others the shared ones. The table of a node holds the names
of the edges and no others, and where edges repeat a name the last one counts.
So the root accepts what the keys accept. -/
theorem determinize_nodes {base after : Store} (reached : base.Reached)
    (standard : base.Standard) {spec : κ → SubsetStep κ} {start : κ}
    {root : Nat}
    (result : base.determinize start (fun _ key => .ok (spec key)) =
      .ok (.ok root, after)) :
    ∃ nodeOf : κ → Nat,
      nodeOf start = root ∧
      Set.InjOn nodeOf { key | Met spec start key ∧ (spec key).IsExpand } ∧
      (∀ key, Met spec start key → spec key = .any →
        after.sharedAny = some (nodeOf key)) ∧
      (∀ key, Met spec start key → spec key = .empty →
        after.sharedEmpty = some (nodeOf key)) ∧
      (∀ key accepting edges, Met spec start key →
        spec key = .expand accepting edges →
        ∃ node, after.node (nodeOf key) = .ok node ∧
          node.accepting = accepting ∧ node.role = .ordinary ∧
          ∀ name, node.transitions.find? name =
            (lastKey edges name).map nodeOf) ∧
      ∀ word, ∃ walk, after.walk root word = .ok walk ∧
        (walk.accepted = true ↔ word ∈ keyLanguage spec start) := by
  have sound := reached.sound
  have follows : ∀ store, Keeps base store → ∀ key, Met spec start key →
      (.ok (spec key) : Except Fault (SubsetStep κ)) = .ok (spec key) :=
    fun _ _ _ _ => rfl
  have outcome := determinize_outcome sound follows
  rw [result] at outcome
  cases outcome with
  | inl succeeds =>
      obtain ⟨keys, nodeOf, store, same, _, built⟩ := succeeds
      cases same
      refine ⟨nodeOf, rfl, built.injOn, built.any, built.empty, built.expand,
        ?_⟩
      apply built.walk (solves_keyLanguage spec start)
      · intro key met node found
        rw [nil_mem_keyLanguage_iff]
        exact built.accepting_iff sound standard met found
      · exact met_start spec start
  | inr givesUp =>
      obtain ⟨_, _, impossible, _⟩ := givesUp
      cases impossible

/-- A key with a loop, two keys that share a node, and a name that an edge
repeats. -/
theorem determinize_nodes_repeated_name :
    ∃ (spec : Nat → SubsetStep Nat) (base after : Store) (root : Nat),
      spec = (fun
        | 0 => .expand false
            [(.ofElement "a", 1), (.ofElement "b", 0), (.ofElement "a", 2),
              (.ofElement "c", 3)]
        | 1 => .any
        | _ => .empty) ∧
      base.Reached ∧ base.Standard ∧
      base.determinize 0 (fun _ key => .ok (spec key)) =
        .ok (.ok root, after) ∧
      ∃ nodeOf : Nat → Nat,
        nodeOf 0 = root ∧
        Set.InjOn nodeOf { key | Met spec 0 key ∧ (spec key).IsExpand } ∧
        (∀ key, Met spec 0 key → spec key = .any →
          after.sharedAny = some (nodeOf key)) ∧
        (∀ key, Met spec 0 key → spec key = .empty →
          after.sharedEmpty = some (nodeOf key)) ∧
        (∀ key accepting edges, Met spec 0 key →
          spec key = .expand accepting edges →
          ∃ node, after.node (nodeOf key) = .ok node ∧
            node.accepting = accepting ∧ node.role = .ordinary ∧
            ∀ name, node.transitions.find? name =
              (lastKey edges name).map nodeOf) ∧
        ∀ word, ∃ walk, after.walk root word = .ok walk ∧
          (walk.accepted = true ↔ word ∈ keyLanguage spec 0) :=
  ⟨_, {}, _, _, rfl, .new, standard_new, rfl,
    determinize_nodes .new standard_new rfl⟩

end Store

end ContentModel.Automaton
