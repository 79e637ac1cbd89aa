import ContentModel.Proofs.Automaton.Subset

/-!
# Walks

A walk from a node can only fail where it meets a node that is not in use. It
depends on the nodes that it can come to and on no others.

Main statement: the walks from the nodes that a construction built are those
through the keys (`Built.walk`).
-/

namespace ContentModel.Automaton

universe u

namespace Reader

variable {reader : Reader} {id : Nat}

/-- The node at which a word arrives, unless a name leads nowhere. -/
def arrive (reader : Reader) (id : Nat) :
    List String → Except Fault (Option Nat)
  | [] => do
    let _ ← reader.read id
    return some id
  | name :: word => do
    match ← reader.advance id name with
    | none => return none
    | some next => reader.arrive next word

theorem advance_eq {node : Node} (found : reader.read id = .ok node)
    (name : String) : reader.advance id name = .ok (node.advance id name) := by
  rw [Reader.advance, found]
  rfl

theorem arrive_cons_none {node : Node} {name : String}
    (found : reader.read id = .ok node)
    (leads : node.advance id name = none) (word : List String) :
    reader.arrive id (name :: word) = .ok none := by
  rw [arrive, advance_eq found, leads]
  rfl

theorem arrive_cons_some {node : Node} {name : String} {next : Nat}
    (found : reader.read id = .ok node)
    (leads : node.advance id name = some next) (word : List String) :
    reader.arrive id (name :: word) = reader.arrive next word := by
  rw [arrive, advance_eq found, leads]
  rfl

theorem walk_nil {node : Node} (found : reader.read id = .ok node) :
    reader.walk id [] = .ok ⟨[id], node.accepting⟩ := by
  rw [Reader.walk, found]
  rfl

theorem walk_cons_none {node : Node} {name : String}
    (found : reader.read id = .ok node)
    (leads : node.advance id name = none) (word : List String) :
    reader.walk id (name :: word) = .ok ⟨[id], false⟩ := by
  rw [Reader.walk, advance_eq found, leads]
  rfl

theorem walk_cons_some {node : Node} {name : String} {next : Nat}
    (found : reader.read id = .ok node)
    (leads : node.advance id name = some next) (word : List String) :
    reader.walk id (name :: word) =
      (reader.walk next word).map fun rest =>
        ⟨id :: rest.path, rest.accepted⟩ := by
  rw [Reader.walk, advance_eq found, leads]
  rfl

theorem exists_of_walk_nil {walk : Walk}
    (isWalk : reader.walk id [] = .ok walk) :
    ∃ node, reader.read id = .ok node ∧ walk = ⟨[id], node.accepting⟩ := by
  rw [Reader.walk, bind_eq_ok_iff] at isWalk
  obtain ⟨node, found, same⟩ := isWalk
  exact ⟨node, found, (Except.ok.inj same).symm⟩

/-- A walk stops at its first node, or it goes on from the next one. -/
theorem exists_of_walk_cons {name : String} {word : List String} {walk : Walk}
    (isWalk : reader.walk id (name :: word) = .ok walk) :
    ∃ node, reader.read id = .ok node ∧
      ((node.advance id name = none ∧ walk = ⟨[id], false⟩) ∨
        ∃ next rest, node.advance id name = some next ∧
          reader.walk next word = .ok rest ∧
          walk = ⟨id :: rest.path, rest.accepted⟩) := by
  cases found : reader.read id with
  | error fault =>
      rw [Reader.walk, Reader.advance, found] at isWalk
      cases isWalk
  | ok node =>
      refine ⟨node, rfl, ?_⟩
      cases leads : node.advance id name with
      | none =>
          rw [walk_cons_none found leads] at isWalk
          exact Or.inl ⟨rfl, (Except.ok.inj isWalk).symm⟩
      | some next =>
          rw [walk_cons_some found leads] at isWalk
          cases isRest : reader.walk next word with
          | error fault =>
              rw [isRest] at isWalk
              cases isWalk
          | ok rest =>
              rw [isRest] at isWalk
              exact Or.inr ⟨next, rest, rfl, isRest,
                (Except.ok.inj isWalk).symm⟩

/-- A walk accepts where its word arrives at an accepting node. -/
theorem walk_of_arrive {word : List String} {reached : Option Nat}
    (arrives : reader.arrive id word = .ok reached) :
    ∃ walk, reader.walk id word = .ok walk ∧
      (walk.accepted = true ↔
        ∃ last node, reached = some last ∧ reader.read last = .ok node ∧
          node.accepting = true) := by
  induction word generalizing id with
  | nil =>
      rw [arrive, bind_eq_ok_iff] at arrives
      obtain ⟨node, found, same⟩ := arrives
      cases same
      refine ⟨_, walk_nil found, ?_⟩
      constructor
      · intro accepts
        exact ⟨id, node, rfl, found, accepts⟩
      · rintro ⟨last, other, same, otherFound, accepts⟩
        cases same
        rw [found] at otherFound
        cases otherFound
        exact accepts
  | cons name word inductionHypothesis =>
      cases found : reader.read id with
      | error fault =>
          rw [arrive, Reader.advance, found] at arrives
          cases arrives
      | ok node =>
          cases leads : node.advance id name with
          | none =>
              rw [arrive_cons_none found leads] at arrives
              cases arrives
              refine ⟨_, walk_cons_none found leads word, ?_⟩
              simp
          | some next =>
              rw [arrive_cons_some found leads] at arrives
              obtain ⟨walk, isWalk, accepts⟩ := inductionHypothesis arrives
              refine ⟨⟨id :: walk.path, walk.accepted⟩, ?_, accepts⟩
              rw [walk_cons_some found leads, isWalk]
              rfl

/-! ## Nodes from which no walk fails -/

/-- No walk from the node meets one that is not in use. -/
def Safe (reader : Reader) (id : Nat) : Prop :=
  ∀ word, ∃ walk, reader.walk id word = .ok walk

theorem Safe.read (safe : reader.Safe id) :
    ∃ node, reader.read id = .ok node := by
  obtain ⟨walk, isWalk⟩ := safe []
  obtain ⟨node, found, _⟩ := exists_of_walk_nil isWalk
  exact ⟨node, found⟩

theorem Safe.advance {node : Node} {name : String} {next : Nat}
    (safe : reader.Safe id) (found : reader.read id = .ok node)
    (leads : node.advance id name = some next) : reader.Safe next := by
  intro word
  obtain ⟨walk, isWalk⟩ := safe (name :: word)
  obtain ⟨other, isOther, stops | goesOn⟩ := exists_of_walk_cons isWalk
  · rw [found] at isOther
    cases isOther
    rw [leads] at stops
    cases stops.1
  · obtain ⟨after, rest, otherLeads, isRest, _⟩ := goesOn
    rw [found] at isOther
    cases isOther
    rw [leads] at otherLeads
    cases otherLeads
    exact ⟨rest, isRest⟩

/-- Nodes in use from which names lead only to each other. -/
def Closed (reader : Reader) (nodes : Set Nat) : Prop :=
  ∀ id ∈ nodes, ∃ node, reader.read id = .ok node ∧
    ∀ name next, node.advance id name = some next → next ∈ nodes

theorem closed_safe (reader : Reader) :
    reader.Closed { id | reader.Safe id } := by
  intro id safe
  obtain ⟨node, found⟩ := Safe.read safe
  exact ⟨node, found, fun name next leads => Safe.advance safe found leads⟩

/-- Walks do not leave a closed set, so they stay the same while its nodes
do. -/
theorem Closed.walk_congr {before after : Reader} {nodes : Set Nat}
    (closed : before.Closed nodes)
    (same : ∀ id ∈ nodes, after.read id = before.read id)
    (member : id ∈ nodes) (word : List String) :
    after.walk id word = before.walk id word := by
  induction word generalizing id with
  | nil =>
      rw [Reader.walk, Reader.walk, same id member]
  | cons name word inductionHypothesis =>
      obtain ⟨node, found, stays⟩ := closed id member
      have afterFound := (same id member).trans found
      cases leads : node.advance id name with
      | none =>
          rw [walk_cons_none found leads, walk_cons_none afterFound leads]
      | some next =>
          rw [walk_cons_some found leads, walk_cons_some afterFound leads,
            inductionHypothesis (stays name next leads)]

theorem Closed.safe {nodes : Set Nat} (closed : reader.Closed nodes)
    (member : id ∈ nodes) : reader.Safe id := by
  intro word
  induction word generalizing id with
  | nil =>
      obtain ⟨node, found, _⟩ := closed id member
      exact ⟨_, walk_nil found⟩
  | cons name word inductionHypothesis =>
      obtain ⟨node, found, stays⟩ := closed id member
      cases leads : node.advance id name with
      | none =>
          exact ⟨_, walk_cons_none found leads word⟩
      | some next =>
          obtain ⟨walk, isWalk⟩ :=
            inductionHypothesis (stays name next leads)
          exact ⟨_, by rw [walk_cons_some found leads, isWalk]; rfl⟩

/-! ## Languages -/

/-- The words that are accepted from a node. -/
def language (reader : Reader) (id : Nat) : Language String :=
  { word | ∃ walk, reader.walk id word = .ok walk ∧ walk.accepted = true }

theorem mem_language_iff_of_walk {word : List String} {walk : Walk}
    (isWalk : reader.walk id word = .ok walk) :
    word ∈ reader.language id ↔ walk.accepted = true := by
  constructor
  · rintro ⟨other, isOther, accepts⟩
    rw [isWalk] at isOther
    cases isOther
    exact accepts
  · intro accepts
    exact ⟨walk, isWalk, accepts⟩

theorem nil_mem_language_iff {node : Node}
    (found : reader.read id = .ok node) :
    [] ∈ reader.language id ↔ node.accepting = true :=
  mem_language_iff_of_walk (walk_nil found)

theorem cons_mem_language_iff {node : Node}
    (found : reader.read id = .ok node) (name : String)
    (word : List String) :
    name :: word ∈ reader.language id ↔
      ∃ next, node.advance id name = some next ∧
        word ∈ reader.language next := by
  constructor
  · intro member
    obtain ⟨walk, isWalk, accepts⟩ := member
    obtain ⟨other, isOther, stops | goesOn⟩ := exists_of_walk_cons isWalk
    · rw [stops.2] at accepts
      cases accepts
    · obtain ⟨next, rest, leads, isRest, same⟩ := goesOn
      rw [found] at isOther
      cases isOther
      rw [same] at accepts
      exact ⟨next, leads, rest, isRest, accepts⟩
  · intro leadsOn
    obtain ⟨next, leads, rest, isRest, accepts⟩ := leadsOn
    refine ⟨⟨id :: rest.path, rest.accepted⟩, ?_, accepts⟩
    rw [walk_cons_some found leads, isRest]
    rfl

/-- A walk comes only to nodes in use. -/
theorem read_of_mem_path {word : List String} {walk : Walk}
    (isWalk : reader.walk id word = .ok walk) :
    ∀ visited ∈ walk.path, ∃ node, reader.read visited = .ok node := by
  induction word generalizing id walk with
  | nil =>
      obtain ⟨node, found, same⟩ := exists_of_walk_nil isWalk
      rw [same]
      intro visited member
      rw [List.mem_singleton.mp member]
      exact ⟨node, found⟩
  | cons name word inductionHypothesis =>
      obtain ⟨node, found, stops | goesOn⟩ := exists_of_walk_cons isWalk
      · rw [stops.2]
        intro visited member
        rw [List.mem_singleton.mp member]
        exact ⟨node, found⟩
      · obtain ⟨next, rest, _, isRest, same⟩ := goesOn
        rw [same]
        intro visited member
        cases member with
        | head => exact ⟨node, found⟩
        | tail _ later => exact inductionHypothesis isRest visited later

end Reader

/-- No walk from the node fails, and the words that are accepted are those of
the language. -/
def Store.Accepts (store : Store) (id : Nat) (language : Language String) :
    Prop :=
  ∀ word, ∃ walk, store.walk id word = .ok walk ∧
    (walk.accepted = true ↔ word ∈ language)

namespace Store.Keeps

variable {before after : Store} {id : Nat}

/-- A walk that meets nodes in use alone stays the same while these nodes
do. -/
theorem walk_eq (keeps : Keeps before after)
    (safe : before.reader.Safe id) (word : List String) :
    after.reader.walk id word = before.reader.walk id word := by
  apply (Reader.closed_safe before.reader).walk_congr _ safe
  intro other isSafe
  obtain ⟨node, found⟩ := Reader.Safe.read isSafe
  rw [found]
  exact keeps other node found

theorem safe (keeps : Keeps before after) (isSafe : before.reader.Safe id) :
    after.reader.Safe id := by
  intro word
  rw [keeps.walk_eq isSafe]
  exact isSafe word

theorem accepts {language : Language String} (keeps : Keeps before after)
    (isAccepting : before.Accepts id language) :
    after.Accepts id language := by
  have isSafe : before.reader.Safe id := by
    intro word
    obtain ⟨walk, isWalk, _⟩ := isAccepting word
    exact ⟨walk, isWalk⟩
  intro word
  rw [walk, keeps.walk_eq isSafe]
  exact isAccepting word

theorem language_eq (keeps : Keeps before after)
    (isSafe : before.reader.Safe id) :
    after.reader.language id = before.reader.language id := by
  ext word
  rw [Reader.language, Reader.language]
  simp only [keeps.walk_eq isSafe]

end Store.Keeps

/-! ## Walks through a construction -/

namespace Built

variable {κ : Type u} {base after : Store}
  {spec : κ → SubsetStep κ} {start key : κ} {keys : List κ}
  {nodeOf : κ → Nat}

/-- Where names lead from the node of a key. -/
theorem node (built : Built base spec start keys nodeOf after)
    (met : Met spec start key) :
    ∃ node, after.node (nodeOf key) = .ok node ∧
      ∀ name, node.advance (nodeOf key) name =
        ((spec key).advance key name).map nodeOf := by
  have sound := built.grown.sound
  cases isStep : spec key with
  | any =>
      have shared := built.any key met isStep
      obtain ⟨node, found⟩ := sound.anyLive _ shared
      have isAny := (sound.any_iff _ node found).mpr shared
      refine ⟨node, found, fun name => ?_⟩
      rw [Node.advance_eq, isAny]
      rfl
  | empty =>
      have shared := built.empty key met isStep
      obtain ⟨node, found⟩ := sound.emptyLive _ shared
      have isEmpty := (sound.empty_iff _ node found).mpr shared
      refine ⟨node, found, fun name => ?_⟩
      rw [Node.advance_eq, isEmpty]
      rfl
  | expand accepting edges =>
      obtain ⟨node, found, _, isOrdinary, table⟩ :=
        built.expand key accepting edges met isStep
      refine ⟨node, found, fun name => ?_⟩
      rw [Node.advance_eq, isOrdinary]
      exact table name

/-- A word arrives at the node of the key at which it arrives. -/
theorem arrive (built : Built base spec start keys nodeOf after)
    (met : Met spec start key) (word : List String) :
    after.reader.arrive (nodeOf key) word =
      .ok ((Automaton.arrive spec key word).map nodeOf) := by
  induction word generalizing key with
  | nil =>
      obtain ⟨node, found, _⟩ := built.node met
      rw [Reader.arrive]
      change (do
        let _ ← after.node (nodeOf key)
        return some (nodeOf key)) = _
      rw [found]
      rfl
  | cons name word inductionHypothesis =>
      obtain ⟨node, found, advance⟩ := built.node met
      have isRead : after.reader.read (nodeOf key) = .ok node := found
      rw [Automaton.arrive]
      cases leads : (spec key).advance key name with
      | none =>
          have isNone := advance name
          rw [leads] at isNone
          exact Reader.arrive_cons_none isRead isNone word
      | some next =>
          have isSome := advance name
          rw [leads] at isSome
          rw [Reader.arrive_cons_some isRead isSome]
          exact inductionHypothesis (met.advance leads)

/-- If the languages follow the steps and the nodes accept where the empty
word is in the language, the walks accept the languages. -/
theorem walk {languages : κ → Language String}
    (built : Built base spec start keys nodeOf after)
    (solves : Solves spec start languages)
    (accepts : ∀ key, Met spec start key → ∀ node,
      after.node (nodeOf key) = .ok node →
      (node.accepting = true ↔ [] ∈ languages key))
    (met : Met spec start key) (word : List String) :
    ∃ walk, after.walk (nodeOf key) word = .ok walk ∧
      (walk.accepted = true ↔ word ∈ languages key) := by
  obtain ⟨walk, isWalk, ends⟩ :=
    Reader.walk_of_arrive (built.arrive met word)
  refine ⟨walk, isWalk, ends.trans ?_⟩
  rw [solves.mem_iff met]
  constructor
  · rintro ⟨last, node, isLast, found, isAccepting⟩
    obtain ⟨key, arrives, same⟩ := Option.map_eq_some_iff.mp isLast
    cases same
    exact ⟨key, arrives,
      (accepts key (met.arrive arrives) node found).mp isAccepting⟩
  · rintro ⟨last, arrives, isEnd⟩
    have lastMet := met.arrive arrives
    obtain ⟨node, found, _⟩ := built.node lastMet
    refine ⟨nodeOf last, node, ?_, found,
      (accepts last lastMet node found).mpr isEnd⟩
    rw [arrives]
    rfl

/-- The same where every key has a node of its own: it is enough to look at the
steps of the keys. -/
theorem walk_of_steps {languages : κ → Language String}
    (built : Built base spec start keys nodeOf after)
    (allExpand : ∀ key, Met spec start key → (spec key).IsExpand)
    (solves : Solves spec start languages)
    (accepts : ∀ key accepting edges, Met spec start key →
      spec key = .expand accepting edges →
      (accepting = true ↔ [] ∈ languages key))
    (word : List String) :
    ∃ walk, after.walk (nodeOf start) word = .ok walk ∧
      (walk.accepted = true ↔ word ∈ languages start) := by
  apply built.walk solves _ (met_start spec start)
  intro key met node found
  obtain ⟨accepting, edges, isStep⟩ := allExpand key met
  obtain ⟨other, isOther, isAccepting, _⟩ :=
    built.expand key accepting edges met isStep
  rw [found] at isOther
  cases isOther
  rw [isAccepting]
  exact accepts key accepting edges met isStep

end Built

end ContentModel.Automaton
