import ContentModel.Automaton.Subset
import ContentModel.AtomMap.Lookup
import ContentModel.Proofs.Search
import Mathlib.Computability.Language

/-!
# Graphs of keys

The subset construction reads an automaton off its keys: a name leads on from a
key to at most one other. If a family of languages follows these steps, a word
is in the language of a key exactly if it arrives at a key where it may end.
-/

namespace ContentModel.Automaton

universe u

variable {κ : Type u}

/-- The key of the last edge on a name. -/
def lastKey (edges : List (Atom × κ)) (name : String) : Option κ :=
  (edges.reverse.find? (·.1.name == name)).map Prod.snd

theorem lastKey_concat (edges : List (Atom × κ)) (atom : Atom) (key : κ)
    (name : String) :
    lastKey (edges ++ [(atom, key)]) name =
      if name = atom.name then some key else lastKey edges name := by
  unfold lastKey
  rw [List.reverse_concat, List.find?_cons]
  by_cases same : atom.name = name
  · simp [same]
  · rw [beq_eq_false_iff_ne.mpr same, if_neg (Ne.symm same)]

theorem exists_of_lastKey {edges : List (Atom × κ)} {name : String} {key : κ}
    (found : lastKey edges name = some key) :
    ∃ atom, (atom, key) ∈ edges ∧ atom.name = name := by
  obtain ⟨⟨atom, other⟩, isFound, same⟩ := Option.map_eq_some_iff.mp found
  cases same
  have isMember := List.mem_of_find?_eq_some isFound
  have isNamed := List.find?_some isFound
  exact ⟨atom, List.mem_reverse.mp isMember, beq_iff_eq.mp isNamed⟩

/-- The edges as a table. -/
def tableOf (edges : List (Atom × κ)) : AtomMap κ :=
  edges.foldl (fun table edge => table.insert edge.1 edge.2) ∅

theorem find?_tableOf (edges : List (Atom × κ)) (name : String) :
    (tableOf edges).find? name = lastKey edges name := by
  induction edges using List.reverseRecOn with
  | nil =>
      rfl
  | append_singleton edges edge inductionHypothesis =>
      obtain ⟨atom, key⟩ := edge
      rw [tableOf] at inductionHypothesis ⊢
      rw [List.foldl_concat, AtomMap.find?_insert, lastKey_concat,
        inductionHypothesis]

/-- The edges of a table have one key for a name. -/
theorem lastKey_entries (table : AtomMap κ) (name : String) :
    lastKey table.entries name = table.find? name := by
  cases found : lastKey table.entries name with
  | some key =>
      obtain ⟨atom, member, same⟩ := exists_of_lastKey found
      exact ((table.find?_eq_some_iff name key).mpr ⟨atom, member, same⟩).symm
  | none =>
      cases listed : table.find? name with
      | none =>
          rfl
      | some key =>
          obtain ⟨atom, member, same⟩ :=
            (table.find?_eq_some_iff name key).mp listed
          rw [lastKey, Option.map_eq_none_iff, List.find?_eq_none] at found
          exact absurd (beq_iff_eq.mpr same)
            (found _ (List.mem_reverse.mpr member))

namespace SubsetStep

/-- The keys to which edges lead. -/
def successors : SubsetStep κ → List κ
  | .any | .empty => []
  | .expand _ edges => edges.map Prod.snd

/-- The key to which a name leads from the key that has this step. -/
def advance (step : SubsetStep κ) (key : κ) (name : String) : Option κ :=
  match step with
  | .any => some key
  | .empty => none
  | .expand _ edges => lastKey edges name

/-- Whether the key has a node of its own. -/
def IsExpand (step : SubsetStep κ) : Prop :=
  ∃ accepting edges, step = .expand accepting edges

end SubsetStep

/-! ## Keys that are met -/

/-- A key that edges lead to from the start. -/
def Met (spec : κ → SubsetStep κ) (start key : κ) : Prop :=
  Search.Reachable (ε := Empty) (fun key => .ok (spec key).successors)
    [start] key

section Keys

variable {spec : κ → SubsetStep κ} {start key : κ}

theorem met_start (spec : κ → SubsetStep κ) (start : κ) :
    Met spec start start :=
  Search.reachable_start (List.mem_singleton_self start)

theorem Met.next {accepting : Bool} {edges : List (Atom × κ)}
    {edge : Atom × κ} (met : Met spec start key)
    (isExpand : spec key = .expand accepting edges)
    (member : edge ∈ edges) : Met spec start edge.2 := by
  apply Search.Reachable.next met rfl
  rw [isExpand]
  exact List.mem_map_of_mem member

theorem Met.invariant {motive : κ → Prop} (met : Met spec start key)
    (initial : motive start)
    (step : ∀ key accepting edges, motive key →
      spec key = .expand accepting edges → ∀ edge ∈ edges, motive edge.2) :
    motive key := by
  refine Search.Reachable.invariant met ?_ ?_
  · intro first member
    rw [List.mem_singleton.mp member]
    exact initial
  · intro key found holds answer next isNext
    cases answer
    cases isStep : spec key with
    | any =>
        rw [isStep] at isNext
        exact absurd isNext List.not_mem_nil
    | empty =>
        rw [isStep] at isNext
        exact absurd isNext List.not_mem_nil
    | expand accepting edges =>
        rw [isStep] at isNext
        obtain ⟨edge, member, same⟩ := List.mem_map.mp isNext
        rw [← same]
        exact step key accepting edges holds isStep edge member

theorem Met.advance {name : String} {next : κ} (met : Met spec start key)
    (leads : (spec key).advance key name = some next) :
    Met spec start next := by
  cases isStep : spec key with
  | any =>
      rw [isStep] at leads
      cases leads
      exact met
  | empty =>
      rw [isStep] at leads
      cases leads
  | expand accepting edges =>
      rw [isStep] at leads
      obtain ⟨atom, member, _⟩ := exists_of_lastKey leads
      exact met.next isStep member

/-- Keys are met by steps that are the same where they are met. -/
theorem Met.of_agree {other : κ → SubsetStep κ}
    (agree : ∀ key, Met spec start key → other key = spec key)
    (met : Met other start key) : Met spec start key := by
  apply met.invariant (motive := Met spec start)
  · exact met_start spec start
  · intro key accepting edges isMet isExpand edge member
    rw [agree key isMet] at isExpand
    exact isMet.next isExpand member

end Keys

/-! ## Words -/

/-- The key at which a word arrives, unless a name leads nowhere. -/
def arrive (spec : κ → SubsetStep κ) : κ → List String → Option κ
  | key, [] => some key
  | key, name :: word =>
    match (spec key).advance key name with
    | none => none
    | some next => arrive spec next word

theorem arrive_concat (spec : κ → SubsetStep κ) (key : κ)
    (word : List String) (name : String) :
    arrive spec key (word ++ [name]) =
      (arrive spec key word).bind fun last =>
        (spec last).advance last name := by
  induction word generalizing key with
  | nil =>
      simp only [List.nil_append, arrive, Option.bind_some]
      cases (spec key).advance key name with
      | none => rfl
      | some next => rfl
  | cons first word inductionHypothesis =>
      simp only [List.cons_append, arrive]
      cases (spec key).advance key first with
      | none => rfl
      | some next => exact inductionHypothesis next

/-- The languages of the keys that are met follow the steps of the keys. -/
def Solves (spec : κ → SubsetStep κ) (start : κ)
    (languages : κ → Language String) : Prop :=
  ∀ key, Met spec start key → ∀ name word,
    (name :: word ∈ languages key ↔
      ∃ next, (spec key).advance key name = some next ∧
        word ∈ languages next)

section Words

variable {spec : κ → SubsetStep κ} {start key : κ}
  {languages : κ → Language String}

theorem Met.arrive {word : List String} {last : κ}
    (met : Met spec start key)
    (arrives : Automaton.arrive spec key word = some last) :
    Met spec start last := by
  induction word generalizing key with
  | nil =>
      cases arrives
      exact met
  | cons name word inductionHypothesis =>
      rw [Automaton.arrive] at arrives
      cases leads : (spec key).advance key name with
      | none =>
          rw [leads] at arrives
          cases arrives
      | some next =>
          rw [leads] at arrives
          exact inductionHypothesis (met.advance leads) arrives

/-- What is left of a word where its beginning arrives. -/
theorem Solves.append_mem_iff (solves : Solves spec start languages)
    (met : Met spec start key) (word rest : List String) :
    word ++ rest ∈ languages key ↔
      ∃ last, arrive spec key word = some last ∧ rest ∈ languages last := by
  induction word generalizing key with
  | nil =>
      simp [arrive]
  | cons name word inductionHypothesis =>
      rw [List.cons_append, solves key met, arrive]
      cases leads : (spec key).advance key name with
      | none =>
          simp
      | some next =>
          simp [inductionHypothesis (met.advance leads)]

theorem Solves.mem_iff (solves : Solves spec start languages)
    (met : Met spec start key) (word : List String) :
    word ∈ languages key ↔
      ∃ last, arrive spec key word = some last ∧ [] ∈ languages last := by
  have split := solves.append_mem_iff met word []
  rw [List.append_nil] at split
  exact split

/-- Where no language is empty, a word arrives exactly if it can be
completed. -/
theorem Solves.arrive_iff (solves : Solves spec start languages)
    (productive : ∀ key, Met spec start key → ∃ word, word ∈ languages key)
    (met : Met spec start key) (word : List String) :
    (∃ last, arrive spec key word = some last) ↔
      ∃ rest, word ++ rest ∈ languages key := by
  constructor
  · rintro ⟨last, arrives⟩
    obtain ⟨rest, member⟩ := productive last (met.arrive arrives)
    exact ⟨rest, (solves.append_mem_iff met word rest).mpr
      ⟨last, arrives, member⟩⟩
  · rintro ⟨rest, member⟩
    obtain ⟨last, arrives, _⟩ :=
      (solves.append_mem_iff met word rest).mp member
    exact ⟨last, arrives⟩

end Words

end ContentModel.Automaton
