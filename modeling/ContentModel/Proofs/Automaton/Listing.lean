import ContentModel.AtomMap.Lookup
import ContentModel.Proofs.Automaton.Role
import ContentModel.Proofs.Fault
import ContentModel.Proofs.Search.Order

/-!
# Listings do not tell how nodes are numbered

A listing numbers nodes in the order in which they are reached. Main statement:
`exists_listing_mirrored`, if the nodes of two readers draw the same graph of
keys, their listings are equal.
-/

namespace ContentModel.Automaton

universe u

variable {κ : Type u}

/-- What a listing shows of the node of a key. -/
structure Outline (κ : Type u) where
  accepting : Bool
  role : Role
  table : AtomMap κ

namespace Reader

variable {reader left right : Reader} {outline : κ → Outline κ}
  {area : Set κ} {nodeOf leftOf rightOf : κ → Nat} {start : κ}

/-- Different keys of the area have different nodes, which look like the keys
and lead to the nodes of the keys to which these lead. -/
structure Draws (reader : Reader) (outline : κ → Outline κ) (area : Set κ)
    (nodeOf : κ → Nat) : Prop where
  injective : Set.InjOn nodeOf area
  closed : ∀ key ∈ area, ∀ name next,
    (outline key).table.find? name = some next → next ∈ area
  node : ∀ key ∈ area, ∃ node, reader.read (nodeOf key) = .ok node ∧
    node.accepting = (outline key).accepting ∧
    node.role = (outline key).role ∧
    ∀ name, node.transitions.find? name =
      ((outline key).table.find? name).map nodeOf
  lt_size : ∀ key ∈ area, nodeOf key < reader.size

/-! ## Reaching nodes -/

/-- The nodes to which the table of a node leads. -/
def targets (reader : Reader) (id : Nat) : Except Fault (List Nat) := do
  return (← reader.read id).targets

theorem reachable_eq (reader : Reader) (start : Nat) :
    reader.reachable start = do
      let visited ←
        Search.breadthFirst (reader.size + 1) reader.targets [start]
      return visited.inOrder :=
  rfl

namespace Draws

variable (draws : reader.Draws outline area nodeOf)

include draws

theorem pairs_eq {key : κ} {node : Node} (member : key ∈ area)
    (found : reader.read (nodeOf key) = .ok node) :
    node.transitions.pairs =
      (outline key).table.pairs.map fun pair => (pair.1, nodeOf pair.2) := by
  obtain ⟨other, isOther, _, _, table⟩ := draws.node key member
  rw [found] at isOther
  cases isOther
  rw [← AtomMap.pairs_map]
  apply AtomMap.pairs_eq_of_find?
  intro name
  rw [table, AtomMap.find?_map]

theorem mem_of_mem_pairs {key next : κ} {name : String} (member : key ∈ area)
    (listed : (name, next) ∈ (outline key).table.pairs) : next ∈ area :=
  draws.closed key member name next
    ((AtomMap.mem_pairs_iff _ name next).mp listed)

theorem mem_of_mem_values {key next : κ} (member : key ∈ area)
    (listed : next ∈ (outline key).table.values) : next ∈ area := by
  obtain ⟨name, found⟩ := (AtomMap.mem_values_iff _ next).mp listed
  exact draws.closed key member name next found

theorem targets_eq {key : κ} (member : key ∈ area) :
    reader.targets (nodeOf key) =
      .ok ((outline key).table.values.map nodeOf) := by
  obtain ⟨node, found, _⟩ := draws.node key member
  have sameTargets :
      node.targets = (outline key).table.values.map nodeOf := by
    rw [Node.targets, AtomMap.values_eq_pairs, draws.pairs_eq member found,
      AtomMap.values_eq_pairs, List.map_map, List.map_map]
    rfl
  rw [targets, found, ← sameTargets]
  rfl

theorem exists_key_of_reachable (member : start ∈ area) {id : Nat}
    (reachable : Search.Reachable reader.targets [nodeOf start] id) :
    ∃ key ∈ area, id = nodeOf key := by
  refine reachable.invariant
    (motive := fun id => ∃ key ∈ area, id = nodeOf key) ?_ ?_
  · intro first isFirst
    exact ⟨start, member, List.mem_singleton.mp isFirst⟩
  · intro id found isKey answer next isNext
    obtain ⟨key, keyMember, same⟩ := isKey
    rw [same, draws.targets_eq keyMember] at answer
    cases answer
    obtain ⟨nextKey, listed, isNextKey⟩ := List.mem_map.mp isNext
    exact ⟨nextKey, draws.mem_of_mem_values keyMember listed, isNextKey.symm⟩

/-- The room of a listing is enough, so more of it changes nothing. -/
theorem breadthFirst_add_room (member : start ∈ area) (more : Nat) :
    Search.breadthFirst (reader.size + 1 + more) reader.targets
        [nodeOf start] =
      Search.breadthFirst (reader.size + 1) reader.targets [nodeOf start] := by
  have bounded : ∀ id,
      Search.Reachable reader.targets [nodeOf start] id →
      Search.Answers reader.targets id → id ∈ List.range reader.size := by
    intro id reachable _
    obtain ⟨key, keyMember, same⟩ :=
      draws.exists_key_of_reachable member reachable
    rw [same]
    exact List.mem_range.mpr (draws.lt_size key keyMember)
  apply Search.breadthFirst_add_room bounded
  rw [List.length_range]
  exact Nat.le_succ reader.size

end Draws

section Mirrored

variable (leftDraws : left.Draws outline area leftOf)
  (rightDraws : right.Draws outline area rightOf)

include leftDraws rightDraws

theorem alike_of_draws :
    Search.Alike left.targets right.targets leftOf rightOf area where
  leftInjective := leftDraws.injective
  rightInjective := rightDraws.injective
  neighbours key member :=
    ⟨(outline key).table.values, leftDraws.targets_eq member,
      rightDraws.targets_eq member,
      fun _ listed => leftDraws.mem_of_mem_values member listed⟩

/-- Both readers reach the nodes of the same keys in the same order. -/
theorem exists_reachable_mirrored (member : start ∈ area) :
    ∃ order : List κ,
      left.reachable (leftOf start) = .ok (order.map leftOf) ∧
      right.reachable (rightOf start) = .ok (order.map rightOf) ∧
      ∀ key ∈ order, key ∈ area := by
  obtain ⟨order, leftAfter, rightAfter, isLeft, isRight, leftOrder,
    rightOrder, inside⟩ :=
    Search.exists_breadthFirst_mirrored
      (alike_of_draws leftDraws rightDraws)
      (left.size + 1 + (right.size + 1)) member
  rw [leftDraws.breadthFirst_add_room member] at isLeft
  rw [Nat.add_comm (left.size + 1),
    rightDraws.breadthFirst_add_room member] at isRight
  refine ⟨order, ?_, ?_, inside⟩
  · rw [reachable_eq, isLeft, ← leftOrder]
    rfl
  · rw [reachable_eq, isRight, ← rightOrder]
    rfl

end Mirrored

/-! ## Lines -/

/-- The line of a node when the nodes are reached in this order. -/
def lineAt (reader : Reader) (order : List Nat) (entry : Nat × Nat) :
    Except Fault String := do
  return lineText (← reader.read entry.1) entry.2 order.idxOf

theorem listing_eq (reader : Reader) (start : Nat) :
    reader.listing start = do
      let order ← reader.reachable start
      let lines ← order.zipIdx.mapM (reader.lineAt order)
      return String.join lines :=
  rfl

/-- The steps of a line tell names and lines alone. -/
theorem arrows_eq (node : Node) (lineOf : Nat → Nat) :
    (node.transitions.entries.map fun (atom, target) =>
      atom.name ++ " → D" ++ toString (lineOf target)) =
    (node.transitions.pairs.map fun pair => (pair.1, lineOf pair.2)).map
      fun pair => pair.1 ++ " → D" ++ toString pair.2 := by
  simp only [AtomMap.pairs, List.map_map]
  rfl

theorem isEmpty_eq (node : Node) (lineOf : Nat → Nat) :
    node.transitions.isEmpty =
      (node.transitions.pairs.map fun pair =>
        (pair.1, lineOf pair.2)).isEmpty := by
  simp only [AtomMap.isEmpty, AtomMap.pairs, List.isEmpty_map]

/-- A line depends on the flags of its node and on the lines to which its names
lead. -/
theorem lineText_congr {leftNode rightNode : Node} (line : Nat)
    {leftLine rightLine : Nat → Nat}
    (sameAccepting : leftNode.accepting = rightNode.accepting)
    (sameRole : leftNode.role = rightNode.role)
    (samePairs :
      (leftNode.transitions.pairs.map fun pair =>
        (pair.1, leftLine pair.2)) =
      rightNode.transitions.pairs.map fun pair =>
        (pair.1, rightLine pair.2)) :
    lineText leftNode line leftLine = lineText rightNode line rightLine := by
  simp only [lineText, nodeText_eq, sameAccepting, sameRole]
  rw [arrows_eq leftNode leftLine, arrows_eq rightNode rightLine,
    isEmpty_eq leftNode leftLine, isEmpty_eq rightNode rightLine, samePairs]

/-- Where keys have different nodes, the place of a key can be told from its
node. -/
theorem idxOf_mirrored (leftInjective : Set.InjOn leftOf area)
    (rightInjective : Set.InjOn rightOf area) {order : List κ}
    (inside : ∀ key ∈ order, key ∈ area) {key : κ} (member : key ∈ area) :
    (order.map leftOf).idxOf (leftOf key) =
      (order.map rightOf).idxOf (rightOf key) := by
  induction order with
  | nil =>
      rfl
  | cons first rest inductionHypothesis =>
      have firstInside := inside first List.mem_cons_self
      have further := inductionHypothesis fun other isOther =>
        inside other (List.mem_cons_of_mem first isOther)
      rw [List.map_cons, List.map_cons, List.idxOf_cons, List.idxOf_cons,
        further]
      have sameTest : (leftOf first == leftOf key) =
          (rightOf first == rightOf key) := by
        rw [Bool.eq_iff_iff, beq_iff_eq, beq_iff_eq,
          leftInjective.eq_iff firstInside member,
          rightInjective.eq_iff firstInside member]
      rw [sameTest]

theorem exists_lineAt_mirrored
    (leftDraws : left.Draws outline area leftOf)
    (rightDraws : right.Draws outline area rightOf) {order : List κ}
    (inside : ∀ key ∈ order, key ∈ area) {key : κ} (member : key ∈ area)
    (line : Nat) :
    ∃ text,
      left.lineAt (order.map leftOf) (leftOf key, line) = .ok text ∧
      right.lineAt (order.map rightOf) (rightOf key, line) = .ok text := by
  obtain ⟨leftNode, leftFound, leftAccepting, leftRole, _⟩ :=
    leftDraws.node key member
  obtain ⟨rightNode, rightFound, rightAccepting, rightRole, _⟩ :=
    rightDraws.node key member
  refine ⟨lineText leftNode line (order.map leftOf).idxOf, ?_, ?_⟩
  · rw [lineAt, leftFound]
    rfl
  · rw [lineAt, rightFound]
    refine congrArg Except.ok (lineText_congr line ?_ ?_ ?_)
    · rw [rightAccepting, leftAccepting]
    · rw [rightRole, leftRole]
    · rw [rightDraws.pairs_eq member rightFound,
        leftDraws.pairs_eq member leftFound, List.map_map, List.map_map]
      apply List.map_congr_left
      intro pair listed
      have isNext := leftDraws.mem_of_mem_pairs member listed
      exact congrArg (Prod.mk pair.1) <|
        (idxOf_mirrored leftDraws.injective rightDraws.injective inside
          isNext).symm

/-- Readers that draw the same graph have the same listing. -/
theorem exists_listing_mirrored
    (leftDraws : left.Draws outline area leftOf)
    (rightDraws : right.Draws outline area rightOf)
    (member : start ∈ area) :
    ∃ text, left.listing (leftOf start) = .ok text ∧
      right.listing (rightOf start) = .ok text := by
  obtain ⟨order, isLeft, isRight, inside⟩ :=
    exists_reachable_mirrored leftDraws rightDraws member
  have sameLine : ∀ entry ∈ order.zipIdx, ∃ text,
      left.lineAt (order.map leftOf) (Prod.map leftOf id entry) = .ok text ∧
      right.lineAt (order.map rightOf) (Prod.map rightOf id entry) =
        .ok text := by
    intro entry listed
    exact exists_lineAt_mirrored leftDraws rightDraws inside
      (inside entry.1 (List.fst_mem_of_mem_zipIdx listed)) entry.2
  obtain ⟨lines, leftLines, rightLines⟩ := exists_mapM_mirrored sameLine
  refine ⟨String.join lines, ?_, ?_⟩
  · rw [listing_eq, isLeft, ok_bind, List.zipIdx_map, leftLines]
    rfl
  · rw [listing_eq, isRight, ok_bind, List.zipIdx_map, rightLines]
    rfl

end Reader

end ContentModel.Automaton
