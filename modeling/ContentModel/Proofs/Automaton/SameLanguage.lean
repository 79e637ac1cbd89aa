import Mathlib.Data.Fintype.EquivFin
import ContentModel.Proofs.Automaton.Frozen
import ContentModel.Proofs.Automaton.Ownership
import ContentModel.Proofs.Search.Order

/-!
# Comparing languages

The comparison walks two automata at once. A joint position at which the two
sides agree leads to further ones, so if all agree, so do the languages; and a
word leads to each joint position, so where two sides differ a word tells the
languages apart. A name that neither table has leads nowhere, unless a side
accepts everything.

Main statement: the comparison decides whether two languages are the same
(`sameLanguage_decides`).
-/

namespace ContentModel.Automaton

namespace Reader

variable {reader : Reader}

/-! ## One side -/

/-- The words that are accepted from a side; none where a word has left the
automaton. -/
def sideLanguage (reader : Reader) : Option Nat → Language String
  | none => 0
  | some id => reader.language id

/-- What is marked to accept everything accepts the empty word as well. -/
def AnyAccepts (reader : Reader) : Prop :=
  ∀ id node, reader.read id = .ok node → node.role = .any →
    node.accepting = true

/-- No walk from the side meets a node that is not in use. -/
def SafeSide (reader : Reader) (side : Option Nat) : Prop :=
  ∀ id ∈ side, reader.Safe id

theorem SafeSide.exists_readSide {side : Option Nat}
    (safe : reader.SafeSide side) :
    ∃ node, reader.readSide side = .ok node := by
  cases side with
  | none =>
      exact ⟨none, rfl⟩
  | some id =>
      obtain ⟨node, found⟩ := (safe id rfl).read
      exact ⟨some node, by rw [readSide, found]; rfl⟩

/-- What was read of a side: nothing, or its node. -/
theorem readSide_cases {side : Option Nat} {node : Option Node}
    (isRead : reader.readSide side = .ok node) :
    (side = none ∧ node = none) ∨
      ∃ id found, side = some id ∧ node = some found ∧
        reader.read id = .ok found := by
  cases side with
  | none =>
      cases isRead
      exact Or.inl ⟨rfl, rfl⟩
  | some id =>
      rw [readSide, bind_eq_ok_iff] at isRead
      obtain ⟨found, isFound, same⟩ := isRead
      cases same
      exact Or.inr ⟨id, found, rfl, rfl, isFound⟩

section Side

variable {side : Option Nat} {node : Option Node}
  (isRead : reader.readSide side = .ok node)

include isRead

theorem nil_mem_sideLanguage_iff :
    [] ∈ reader.sideLanguage side ↔ node.any (·.accepting) = true := by
  rcases readSide_cases isRead with ⟨rfl, rfl⟩ | ⟨id, found, rfl, rfl, isFound⟩
  · simp [sideLanguage]
  · exact nil_mem_language_iff isFound

theorem cons_mem_sideLanguage_iff (name : String) (word : List String) :
    name :: word ∈ reader.sideLanguage side ↔
      word ∈ reader.sideLanguage (advanceSide side node name) := by
  rcases readSide_cases isRead with ⟨rfl, rfl⟩ | ⟨id, found, rfl, rfl, isFound⟩
  · rfl
  · refine (cons_mem_language_iff isFound name word).trans ?_
    change _ ↔ word ∈ reader.sideLanguage (found.advance id name)
    cases found.advance id name with
    | none => simp [sideLanguage]
    | some next => simp [sideLanguage]

theorem SafeSide.advance (safe : reader.SafeSide side) (name : String) :
    reader.SafeSide (advanceSide side node name) := by
  rcases readSide_cases isRead with ⟨rfl, rfl⟩ | ⟨id, found, rfl, rfl, isFound⟩
  · exact safe
  · intro next leads
    exact (safe id rfl).advance isFound leads

/-- From a node that accepts everything every name leads back to it. -/
theorem advanceSide_of_any (isAny : node.any Node.isAny = true)
    (name : String) : advanceSide side node name = side := by
  rcases readSide_cases isRead with ⟨rfl, rfl⟩ | ⟨id, found, rfl, rfl, _⟩
  · rfl
  · have role : found.role = .any := Node.role_eq_any_iff.mpr isAny
    change found.advance id name = some id
    rw [Node.advance_eq, role]

/-- A name that is not in the table leads nowhere. -/
theorem advanceSide_of_not_named (notAny : node.any Node.isAny = false)
    {name : String}
    (notNamed : ∀ found ∈ node, ∀ atom ∈ found.transitions.atoms,
      atom.name ≠ name) :
    advanceSide side node name = none := by
  rcases readSide_cases isRead with ⟨rfl, rfl⟩ | ⟨id, found, rfl, rfl, _⟩
  · rfl
  · have role : found.role ≠ .any := by
      intro isAny
      rw [Option.any_some, Node.role_eq_any_iff.mp isAny] at notAny
      cases notAny
    change found.advance id name = none
    rw [Node.advance_eq]
    cases isRole : found.role with
    | any =>
        exact absurd isRole role
    | empty =>
        rfl
    | ordinary =>
        cases leads : found.transitions.find? name with
        | none =>
            rfl
        | some next =>
            obtain ⟨atom, member, isName⟩ :=
              (found.transitions.find?_eq_some_iff name next).mp leads
            exact absurd isName
              (notNamed found rfl atom (List.mem_map_of_mem member))

/-- Every word is accepted from a node that accepts everything. -/
theorem mem_sideLanguage_of_any (anyAccepts : reader.AnyAccepts)
    (isAny : node.any Node.isAny = true) (word : List String) :
    word ∈ reader.sideLanguage side := by
  induction word with
  | nil =>
      rw [nil_mem_sideLanguage_iff isRead]
      rcases readSide_cases isRead with ⟨_, rfl⟩ | ⟨id, found, _, rfl, isFound⟩
      · cases isAny
      · exact anyAccepts id found isFound (Node.role_eq_any_iff.mpr isAny)
  | cons name word inductionHypothesis =>
      rw [cons_mem_sideLanguage_iff isRead, advanceSide_of_any isRead isAny]
      exact inductionHypothesis

/-- Some word is not accepted where not everything is. -/
theorem exists_not_mem_sideLanguage (notAny : node.any Node.isAny = false) :
    ∃ word, word ∉ reader.sideLanguage side := by
  let names : List String := (node.map fun found =>
    found.transitions.atoms.map Atom.name).getD []
  obtain ⟨name, fresh⟩ := Infinite.exists_notMem_finset names.toFinset
  refine ⟨[name], ?_⟩
  rw [cons_mem_sideLanguage_iff isRead, advanceSide_of_not_named isRead notAny]
  · exact Set.notMem_empty []
  · intro found isFound atom member isName
    apply fresh
    rw [List.mem_toFinset]
    cases isFound
    exact isName ▸ List.mem_map_of_mem member

end Side

/-- A side that accepts everything and one that does not are told apart. -/
theorem exists_distinguishing_of_any (anyAccepts : reader.AnyAccepts)
    {left right : Option Nat} {leftNode rightNode : Option Node}
    (isLeft : reader.readSide left = .ok leftNode)
    (isRight : reader.readSide right = .ok rightNode)
    (different : leftNode.any Node.isAny ≠ rightNode.any Node.isAny) :
    ∃ word, ¬ (word ∈ reader.sideLanguage left ↔
      word ∈ reader.sideLanguage right) := by
  cases leftAny : leftNode.any Node.isAny with
  | true =>
      have rightNotAny : rightNode.any Node.isAny = false := by
        rw [leftAny] at different
        exact (Bool.eq_false_of_not_eq_true (Ne.symm different))
      obtain ⟨word, apart⟩ := exists_not_mem_sideLanguage isRight rightNotAny
      exact ⟨word, fun same => apart
        (same.mp (mem_sideLanguage_of_any isLeft anyAccepts leftAny word))⟩
  | false =>
      have rightAny : rightNode.any Node.isAny = true := by
        rw [leftAny] at different
        exact Bool.eq_true_of_not_eq_false (Ne.symm different)
      obtain ⟨word, apart⟩ := exists_not_mem_sideLanguage isLeft leftAny
      exact ⟨word, fun same => apart
        (same.mpr (mem_sideLanguage_of_any isRight anyAccepts rightAny word))⟩

/-! ## One joint position -/

/-- What the comparison asks of a joint position, the last name first. -/
def comparison (reader : Reader) (joint : Joint) :
    Except Verdict (List Joint) :=
  match reader.jointSteps joint with
  | .error cause => .error (.fault cause)
  | .ok (.error verdict) => .error verdict
  | .ok (.ok found) => .ok found.reverse

/-- What the comparison finds where these nodes are. -/
inductive Compares (joint : Joint) (left right : Option Node) :
    Except Verdict (List Joint) → Prop
  | unlike :
      (left.any (·.accepting) ≠ right.any (·.accepting) ∨
        left.any Node.isAny ≠ right.any Node.isAny) →
      Compares joint left right (.error .different)
  | everything :
      left.any (·.accepting) = right.any (·.accepting) →
      left.any Node.isAny = true → right.any Node.isAny = true →
      Compares joint left right (.ok [])
  | further :
      left.any (·.accepting) = right.any (·.accepting) →
      left.any Node.isAny = false → right.any Node.isAny = false →
      Compares joint left right (.ok <| List.reverse <|
        (jointNames left right).map fun name =>
          (advanceSide joint.1 left name, advanceSide joint.2 right name))

/-- A name on which neither node has a step is in neither table. -/
theorem not_named {left right : Option Node} {name : String}
    (notNamed : name ∉ jointNames left right) :
    (∀ found ∈ left, ∀ atom ∈ found.transitions.atoms, atom.name ≠ name) ∧
      ∀ found ∈ right, ∀ atom ∈ found.transitions.atoms,
        atom.name ≠ name := by
  rw [jointNames, Std.TreeSet.mem_toList, Std.TreeSet.mem_ofList,
    List.contains_iff_mem, List.mem_append, not_or] at notNamed
  constructor
  · intro found isFound atom member isName
    cases isFound
    exact notNamed.1 (isName ▸ List.mem_map_of_mem member)
  · intro found isFound atom member isName
    cases isFound
    exact notNamed.2 (isName ▸ List.mem_map_of_mem member)

theorem compares_comparison {joint : Joint} {left right : Option Node}
    (isLeft : reader.readSide joint.1 = .ok left)
    (isRight : reader.readSide joint.2 = .ok right) :
    Compares joint left right (reader.comparison joint) := by
  have steps : reader.jointSteps joint =
      if left.any (·.accepting) != right.any (·.accepting) then
        .ok (.error .different)
      else if left.any Node.isAny != right.any Node.isAny then
        .ok (.error .different)
      else if left.any Node.isAny then
        .ok (.ok [])
      else
        .ok <| .ok <| (jointNames left right).map fun name =>
          (advanceSide joint.1 left name,
            advanceSide joint.2 right name) := by
    rw [jointSteps, isLeft, isRight]
    rfl
  rw [comparison, steps]
  by_cases accepting : left.any (·.accepting) = right.any (·.accepting)
  · by_cases any : left.any Node.isAny = right.any Node.isAny
    · rw [if_neg (by simp [accepting]), if_neg (by simp [any])]
      cases isAny : left.any Node.isAny with
      | true =>
          exact Compares.everything accepting isAny (any ▸ isAny)
      | false =>
          exact Compares.further accepting isAny (any ▸ isAny)
    · rw [if_neg (by simp [accepting]), if_pos (by simpa using any)]
      exact Compares.unlike (Or.inr any)
  · rw [if_pos (by simpa using accepting)]
    exact Compares.unlike (Or.inl accepting)

/-! ## All joint positions -/

/-- A joint position to which the comparison can come. -/
def Meets (reader : Reader) (left right : Nat) (joint : Joint) : Prop :=
  Search.Reachable reader.comparison [(some left, some right)] joint

/-- A word leads to the joint position: its sides accept what may come after
that word. -/
structure Arrives (reader : Reader) (left right : Nat) (joint : Joint) :
    Prop where
  leftSafe : reader.SafeSide joint.1
  rightSafe : reader.SafeSide joint.2
  led : ∃ begun : List String, ∀ word,
    (begun ++ word ∈ reader.language left ↔
      word ∈ reader.sideLanguage joint.1) ∧
    (begun ++ word ∈ reader.language right ↔
      word ∈ reader.sideLanguage joint.2)

section Comparing

variable {left right : Nat}

theorem Arrives.exists_compares {joint : Joint}
    (arrives : reader.Arrives left right joint) :
    ∃ leftNode rightNode, reader.readSide joint.1 = .ok leftNode ∧
      reader.readSide joint.2 = .ok rightNode ∧
      Compares joint leftNode rightNode (reader.comparison joint) := by
  obtain ⟨leftNode, isLeft⟩ := arrives.leftSafe.exists_readSide
  obtain ⟨rightNode, isRight⟩ := arrives.rightSafe.exists_readSide
  exact ⟨leftNode, rightNode, isLeft, isRight,
    compares_comparison isLeft isRight⟩

theorem Arrives.advance {joint : Joint} {leftNode rightNode : Option Node}
    (arrives : reader.Arrives left right joint)
    (isLeft : reader.readSide joint.1 = .ok leftNode)
    (isRight : reader.readSide joint.2 = .ok rightNode) (name : String) :
    reader.Arrives left right
      (advanceSide joint.1 leftNode name,
        advanceSide joint.2 rightNode name) := by
  obtain ⟨begun, rest⟩ := arrives.led
  refine ⟨SafeSide.advance isLeft arrives.leftSafe name,
    SafeSide.advance isRight arrives.rightSafe name, begun ++ [name], ?_⟩
  intro word
  obtain ⟨leftRest, rightRest⟩ := rest (name :: word)
  rw [List.append_assoc, List.singleton_append,
    ← cons_mem_sideLanguage_iff isLeft, ← cons_mem_sideLanguage_iff isRight]
  exact ⟨leftRest, rightRest⟩

section Safe

variable (leftSafe : reader.Safe left) (rightSafe : reader.Safe right)

include leftSafe rightSafe

theorem arrives_start : reader.Arrives left right (some left, some right) where
  leftSafe _ same := Option.some.inj same ▸ leftSafe
  rightSafe _ same := Option.some.inj same ▸ rightSafe
  led := ⟨[], fun _ => ⟨Iff.rfl, Iff.rfl⟩⟩

theorem Meets.arrives {joint : Joint}
    (meets : reader.Meets left right joint) :
    reader.Arrives left right joint := by
  refine Search.Reachable.invariant meets ?_ ?_
  · intro start member
    rw [List.mem_singleton.mp member]
    exact arrives_start leftSafe rightSafe
  · intro joint found arrives answer next member
    obtain ⟨leftNode, rightNode, isLeft, isRight, compares⟩ :=
      arrives.exists_compares
    rw [answer] at compares
    cases compares with
    | everything _ _ _ =>
        exact absurd member List.not_mem_nil
    | further _ _ _ =>
        obtain ⟨name, _, rfl⟩ := List.mem_map.mp (List.mem_reverse.mp member)
        exact arrives.advance isLeft isRight name

/-- The comparison does not come by a fault. -/
theorem Meets.different {joint : Joint} {verdict : Verdict}
    (meets : reader.Meets left right joint)
    (isVerdict : reader.comparison joint = .error verdict) :
    verdict = .different := by
  obtain ⟨_, _, _, _, compares⟩ :=
    (meets.arrives leftSafe rightSafe).exists_compares
  rw [isVerdict] at compares
  cases compares with
  | unlike _ =>
      rfl

/-- Where the sides agree at every joint position, they accept the same words.
The induction is on the word, for all joint positions at once. -/
theorem Meets.mem_iff
    (agree : ∀ joint, reader.Meets left right joint →
      Search.Answers reader.comparison joint)
    {joint : Joint} (meets : reader.Meets left right joint)
    (word : List String) :
    word ∈ reader.sideLanguage joint.1 ↔
      word ∈ reader.sideLanguage joint.2 := by
  induction word generalizing joint with
  | nil =>
      obtain ⟨found, answer⟩ := agree joint meets
      obtain ⟨leftNode, rightNode, isLeft, isRight, compares⟩ :=
        (meets.arrives leftSafe rightSafe).exists_compares
      rw [nil_mem_sideLanguage_iff isLeft, nil_mem_sideLanguage_iff isRight]
      rw [answer] at compares
      cases compares with
      | everything accepting _ _ =>
          rw [accepting]
      | further accepting _ _ =>
          rw [accepting]
  | cons name word inductionHypothesis =>
      obtain ⟨found, answer⟩ := agree joint meets
      obtain ⟨leftNode, rightNode, isLeft, isRight, compares⟩ :=
        (meets.arrives leftSafe rightSafe).exists_compares
      rw [cons_mem_sideLanguage_iff isLeft, cons_mem_sideLanguage_iff isRight]
      rw [answer] at compares
      cases compares with
      | everything _ leftAny rightAny =>
          rw [advanceSide_of_any isLeft leftAny,
            advanceSide_of_any isRight rightAny]
          exact inductionHypothesis meets
      | further _ leftNotAny rightNotAny =>
          by_cases named : name ∈ jointNames leftNode rightNode
          · have nextMeets : reader.Meets left right
                (advanceSide joint.1 leftNode name,
                  advanceSide joint.2 rightNode name) := by
              apply Search.Reachable.next meets answer
              exact List.mem_reverse.mpr
                (List.mem_map.mpr ⟨name, named, rfl⟩)
            exact inductionHypothesis nextMeets
          · obtain ⟨leftNotNamed, rightNotNamed⟩ := not_named named
            rw [advanceSide_of_not_named isLeft leftNotAny leftNotNamed,
              advanceSide_of_not_named isRight rightNotAny rightNotNamed]

/-- Where two sides differ, a word tells the languages apart. -/
theorem Meets.exists_distinguishing (anyAccepts : reader.AnyAccepts)
    {joint : Joint} (meets : reader.Meets left right joint)
    (differs : reader.comparison joint = .error .different) :
    ∃ word, ¬ (word ∈ reader.language left ↔
      word ∈ reader.language right) := by
  have arrives := meets.arrives leftSafe rightSafe
  obtain ⟨leftNode, rightNode, isLeft, isRight, compares⟩ :=
    arrives.exists_compares
  have sides : ∃ word, ¬ (word ∈ reader.sideLanguage joint.1 ↔
      word ∈ reader.sideLanguage joint.2) := by
    rw [differs] at compares
    cases compares with
    | unlike unlike =>
        cases unlike with
        | inl accepting =>
            refine ⟨[], ?_⟩
            rw [nil_mem_sideLanguage_iff isLeft,
              nil_mem_sideLanguage_iff isRight, ← Bool.eq_iff_iff]
            exact accepting
        | inr any =>
            exact exists_distinguishing_of_any anyAccepts isLeft isRight any
  obtain ⟨begun, rest⟩ := arrives.led
  obtain ⟨word, apart⟩ := sides
  refine ⟨begun ++ word, ?_⟩
  rw [(rest word).1, (rest word).2]
  exact apart

end Safe

/-! ## The comparison -/

/-- All joint positions of numbers below the size. -/
def jointBound (size : Nat) : List Joint :=
  let sides := none :: (List.range size).map some
  sides.product sides

theorem length_jointBound (size : Nat) :
    (jointBound size).length = (size + 1) * (size + 1) := by
  refine (List.length_product ..).trans ?_
  rw [List.length_cons, List.length_map, List.length_range]

/-- Every number that can be read is below the size. -/
def Bounds (reader : Reader) : Prop :=
  ∀ id node, reader.read id = .ok node → id < reader.size

/-- The comparison ends because nothing is left to compare: more room would
change nothing. -/
def Settles (reader : Reader) (left right : Nat) : Prop :=
  ∀ more,
    Search.depthFirst ((reader.size + 1) * (reader.size + 1) + more)
        reader.comparison [(some left, some right)] =
      Search.depthFirst ((reader.size + 1) * (reader.size + 1))
        reader.comparison [(some left, some right)]

theorem SafeSide.mem_sides (bounds : reader.Bounds) {side : Option Nat}
    (safe : reader.SafeSide side) :
    side ∈ none :: (List.range reader.size).map some := by
  cases side with
  | none =>
      exact List.mem_cons_self
  | some id =>
      obtain ⟨node, found⟩ := (safe id rfl).read
      exact List.mem_cons_of_mem none
        (List.mem_map_of_mem (List.mem_range.mpr (bounds id node found)))

section Whole

variable (bounds : reader.Bounds) (leftSafe : reader.Safe left)
  (rightSafe : reader.Safe right)

include bounds leftSafe rightSafe

theorem Meets.mem_jointBound {joint : Joint}
    (meets : reader.Meets left right joint) :
    joint ∈ jointBound reader.size := by
  have arrives := meets.arrives leftSafe rightSafe
  exact List.mem_product.mpr
    ⟨arrives.leftSafe.mem_sides bounds, arrives.rightSafe.mem_sides bounds⟩

theorem comparison_settles : reader.Settles left right := by
  intro more
  apply Search.depthFirst_add_room
    (fun joint meets _ => Meets.mem_jointBound bounds leftSafe rightSafe meets)
  rw [length_jointBound]

theorem sameLanguage_iff (anyAccepts : reader.AnyAccepts) :
    ∃ answer, reader.sameLanguage left right = .ok answer ∧
      (answer = true ↔ ∀ word,
        word ∈ reader.language left ↔ word ∈ reader.language right) := by
  have bounded : ∀ joint, reader.Meets left right joint →
      Search.Answers reader.comparison joint →
      joint ∈ jointBound reader.size :=
    fun joint meets _ => Meets.mem_jointBound bounds leftSafe rightSafe meets
  have ends := Search.ends_depthFirst bounded
    (Nat.le_of_eq (length_jointBound reader.size))
  rw [sameLanguage]
  split
  · rename_i visited result
    have isVisited : Search.depthFirst _ reader.comparison _ = .ok visited :=
      result
    rw [isVisited] at ends
    have finished : Search.Finished reader.comparison
      [(some left, some right)] visited := ends
    refine ⟨true, rfl, iff_of_true rfl ?_⟩
    exact Meets.mem_iff leftSafe rightSafe finished.answers
      (Search.reachable_start (List.mem_singleton_self _))
  · rename_i result
    have isError : Search.depthFirst _ reader.comparison _ =
        .error .different := result
    rw [isError] at ends
    obtain ⟨joint, meets, isDifferent⟩ := ends
    obtain ⟨word, apart⟩ := Meets.exists_distinguishing leftSafe rightSafe
      anyAccepts meets isDifferent
    exact ⟨false, rfl, iff_of_false Bool.false_ne_true
      fun agree => apart (agree word)⟩
  · rename_i cause result
    have isError : Search.depthFirst _ reader.comparison _ =
        .error (.fault cause) := result
    rw [isError] at ends
    obtain ⟨joint, meets, isFault⟩ := ends
    have impossible := Meets.different leftSafe rightSafe meets isFault
    cases impossible

end Whole

end Comparing

end Reader

namespace Store

variable {store : Store} {left right : Nat}

theorem bounds_reader (store : Store) : store.reader.Bounds :=
  fun _ node found => Live.lt_size ⟨node, found⟩

/-! ## Published automata -/

theorem bounds_freeze (store : Store) : store.freeze.reader.Bounds :=
  fun id node found => by
    have inUse := (node_freeze_eq_ok_iff store id node).mp found
    have within : id < store.slots.size := Live.lt_size ⟨node, inUse⟩
    have sameSize : store.freeze.nodes.size = store.slots.size := by
      rw [freeze, List.size_toArray, List.length_map, Array.length_toList]
    exact within.trans_eq sameSize.symm

/-- Where no walk fails, freezing changes none of them. -/
theorem walk_freeze {id : Nat} (safe : store.reader.Safe id)
    (word : List String) :
    store.freeze.reader.walk id word = store.reader.walk id word := by
  apply (Reader.closed_safe store.reader).walk_congr _ safe
  intro other isSafe
  obtain ⟨node, found⟩ := Reader.Safe.read isSafe
  rw [found]
  exact node_freeze found

theorem safe_freeze {id : Nat} (safe : store.reader.Safe id) :
    store.freeze.reader.Safe id := by
  intro word
  rw [walk_freeze safe]
  exact safe word

theorem language_freeze {id : Nat} (safe : store.reader.Safe id) :
    store.freeze.reader.language id = store.reader.language id := by
  ext word
  rw [Reader.language, Reader.language]
  simp only [walk_freeze safe]

/-- A position accepts what the walks from its node accept. -/
theorem walk_position_iff {id : Nat} (safe : store.reader.Safe id)
    (word : List String) :
    (Position.walk ⟨store.freeze, id⟩ word).2 = true ↔
      word ∈ store.reader.language id := by
  obtain ⟨walk, isWalk⟩ := safe word
  rw [walk_position isWalk, Reader.mem_language_iff_of_walk isWalk]

/-! ## The comparison of two nodes -/

/-- If the shared node that accepts everything ends the empty word, as it does
when it is made, the comparison of two nodes from which only nodes in use are
reached comes to an end and tells whether they accept the same words, before
the automata are published and afterwards. -/
theorem sameLanguage_decides (reached : store.Reached)
    (anyAccepting : ∀ id node, store.sharedAny = some id →
      store.node id = .ok node → node.accepting = true)
    (leftIntact : store.Intact left) (rightIntact : store.Intact right) :
    (store.reader.Settles left right ∧
      ∃ answer, store.sameLanguage left right = .ok answer ∧
        (answer = true ↔ ∀ word,
          word ∈ store.reader.language left ↔
            word ∈ store.reader.language right)) ∧
    store.freeze.reader.Settles left right ∧
      ∃ answer, store.freeze.sameLanguage left right = .ok answer ∧
        (answer = true ↔ ∀ word,
          (Position.walk ⟨store.freeze, left⟩ word).2 =
            (Position.walk ⟨store.freeze, right⟩ word).2) := by
  have sound := reached.sound
  have leftSafe := leftIntact.safe
  have rightSafe := rightIntact.safe
  have anyAccepts : store.reader.AnyAccepts := by
    intro id node found isAny
    exact anyAccepting id node ((sound.any_iff id node found).mp isAny) found
  have frozenAccepts : store.freeze.reader.AnyAccepts :=
    fun id node found =>
      anyAccepts id node ((node_freeze_eq_ok_iff store id node).mp found)
  have leftFrozen := safe_freeze leftSafe
  have rightFrozen := safe_freeze rightSafe
  refine ⟨⟨?_, ?_⟩, ?_, ?_⟩
  · exact Reader.comparison_settles (bounds_reader store) leftSafe rightSafe
  · exact Reader.sameLanguage_iff (bounds_reader store) leftSafe rightSafe
      anyAccepts
  · exact Reader.comparison_settles (bounds_freeze store) leftFrozen
      rightFrozen
  · obtain ⟨answer, isAnswer, decides⟩ := Reader.sameLanguage_iff
      (bounds_freeze store) leftFrozen rightFrozen frozenAccepts
    refine ⟨answer, isAnswer, decides.trans (forall_congr' fun word => ?_)⟩
    rw [language_freeze leftSafe, language_freeze rightSafe,
      ← walk_position_iff leftSafe, ← walk_position_iff rightSafe,
      ← Bool.eq_iff_iff]

/-- The node that accepts everything, beside one that loops on a single name
and always accepts. -/
theorem sameLanguage_decides_any :
    ∃ store : Store, store.Reached ∧ store.Intact 0 ∧ store.Intact 1 ∧
      store.sharedAny = some 1 ∧
      store.sameLanguage 0 1 = .ok false ∧
      (∃ word, ¬ (word ∈ store.reader.language 0 ↔
        word ∈ store.reader.language 1)) ∧
      store.freeze.sameLanguage 0 1 = .ok false ∧
      ∃ word, (Position.walk ⟨store.freeze, 0⟩ word).2 ≠
        (Position.walk ⟨store.freeze, 1⟩ word).2 := by
  have looped : (alloc {}).2.setTransition 0 (.ofElement "a") 0 =
      .ok (none, _) := rfl
  have accepted := (Reached.new.alloc.setTransition looped).setAccepting
    (show Store.setAccepting _ 0 true = .ok _ from rfl)
  have reached := accepted.anyNode
  have loopIntact : Intact _ 0 := reached.intact rfl (by decide)
  have anyIntact : Intact _ 1 := reached.intact rfl (by decide)
  obtain ⟨⟨_, answer, isAnswer, decides⟩, _, frozen, isFrozen, frozenDecides⟩ :=
    sameLanguage_decides reached
      (by
        intro id node shared found
        cases shared
        cases found
        rfl)
      loopIntact anyIntact
  have isFalse : answer = false := by
    cases isAnswer
    rfl
  have frozenFalse : frozen = false := by
    cases isFrozen
    rfl
  rw [isFalse] at isAnswer decides
  rw [frozenFalse] at isFrozen frozenDecides
  exact ⟨_, reached, loopIntact, anyIntact, rfl, isAnswer,
    not_forall.mp (fun same => Bool.false_ne_true (decides.mpr same)),
    isFrozen,
    not_forall.mp (fun same => Bool.false_ne_true (frozenDecides.mpr same))⟩

end Store

end ContentModel.Automaton
