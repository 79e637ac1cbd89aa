import ContentModel.Proofs.Fragment.Copy

/-!
# Graphs that operations can make

No operation takes a point away or changes what is read at one, whatever
fragments it is given and whether they have regions or not
(`Reaches.grows`).
-/

namespace ContentModel

namespace FragmentGraph

/-- Points are added behind the others, and the others read what they read
before. -/
def Grows (before after : FragmentGraph) : Prop :=
  Extends Set.univ before after

namespace Grows

variable {before middle after : FragmentGraph}

theorem refl (graph : FragmentGraph) : graph.Grows graph :=
  Extends.refl Set.univ graph

theorem trans (first : before.Grows middle) (second : middle.Grows after) :
    before.Grows after :=
  Extends.trans first second fun id _ _ => Set.mem_univ id

theorem of_extends {changed : Set Nat}
    (grows : Extends changed before after) : before.Grows after :=
  Extends.mono grows fun id _ _ => Set.mem_univ id

/-- Points which only lead somewhere else are the same to a reader. -/
theorem of_points (sameSize : after.size = before.size)
    (sameAtom : ∀ id, after.atomAt id = before.atomAt id) :
    before.Grows after where
  size_le := Nat.le_of_eq sameSize.symm
  atomAt id _ := sameAtom id
  successors id _ impossible := absurd (Set.mem_univ id) impossible

end Grows

variable {graph after : FragmentGraph}

/-! ## Points and groups -/

theorem grows_addPoint (graph : FragmentGraph) (point : Point) :
    graph.Grows (graph.addPoint point).2 :=
  Grows.of_extends (extends_addPoint graph point)

theorem grows_fork (graph : FragmentGraph) : graph.Grows graph.fork.2 where
  size_le := by
    rw [size_fork]
    exact Nat.le_add_right graph.size 2
  atomAt id _ := atomAt_fork graph id
  successors id _ impossible := absurd (Set.mem_univ id) impossible

theorem grows_of_connectAll {source : Nat} {targets : List Nat}
    (result : graph.connectAll source targets = .ok after) :
    graph.Grows after := by
  rw [connectAll] at result
  split at result
  · rename_i present
    cases result
    exact Grows.of_extends (extends_lead targets present)
  · cases result

theorem grows_of_concat {first second whole : Fragment}
    (result : graph.concat first second = .ok (whole, after)) :
    graph.Grows after := by
  obtain ⟨joined, isJoined, same⟩ := bind_eq_ok_iff.mp result
  cases same
  exact grows_of_connectAll isJoined

theorem grows_of_concatAll {first whole : Fragment} {rest : List Fragment}
    (result : graph.concatAll first rest = .ok (whole, after)) :
    graph.Grows after := by
  induction rest generalizing graph first with
  | nil =>
      cases result
      exact Grows.refl _
  | cons second rest inductionHypothesis =>
      obtain ⟨⟨joined, middle⟩, isJoined, isRest⟩ := bind_eq_ok_iff.mp result
      exact (grows_of_concat isJoined).trans (inductionHypothesis isRest)

theorem grows_of_sequence {parts : List Fragment} {whole : Fragment}
    (result : graph.sequence parts = .ok (whole, after)) :
    graph.Grows after := by
  cases parts with
  | nil =>
      cases result
      exact grows_addPoint graph {}
  | cons first rest =>
      exact grows_of_concatAll result

theorem grows_of_joinAll {join : Nat} {members : List Fragment}
    (result : graph.joinAll join members = .ok after) :
    graph.Grows after := by
  induction members generalizing graph with
  | nil =>
      cases result
      exact Grows.refl _
  | cons member members inductionHypothesis =>
      obtain ⟨middle, isMiddle, isRest⟩ := bind_eq_ok_iff.mp result
      exact (grows_of_connectAll isMiddle).trans (inductionHypothesis isRest)

theorem grows_of_alternation {branches : List Fragment} {whole : Fragment}
    (result : graph.alternation branches = .ok (whole, after)) :
    graph.Grows after := by
  match branches, result with
  | [], result =>
      cases result
      exact grows_addPoint graph {}
  | [branch], result =>
      cases result
      exact Grows.refl _
  | first :: second :: rest, result =>
      obtain ⟨led, isLed, result⟩ := bind_eq_ok_iff.mp result
      obtain ⟨joined, isJoined, same⟩ := bind_eq_ok_iff.mp result
      cases same
      exact (grows_fork graph).trans <|
        (grows_of_connectAll isLed).trans (grows_of_joinAll isJoined)

/-! ## Repetition -/

/-- Two edges at a fork, whatever their ends are. -/
private theorem grows_of_two {source₁ source₂ : Nat}
    {targets₁ targets₂ : List Nat} {fragment whole : Fragment}
    (result : (do
      let graph ← graph.fork.2.connectAll source₁ targets₁
      let graph ← graph.connectAll source₂ targets₂
      return (fragment, graph)) = Except.ok (whole, after)) :
    graph.Grows after := by
  obtain ⟨first, isFirst, result⟩ := bind_eq_ok_iff.mp result
  obtain ⟨second, isSecond, same⟩ := bind_eq_ok_iff.mp result
  cases same
  exact (grows_fork graph).trans <|
    (grows_of_connectAll isFirst).trans (grows_of_connectAll isSecond)

theorem grows_of_optional {inner whole : Fragment}
    (result : graph.optional inner = .ok (whole, after)) :
    graph.Grows after :=
  grows_of_two result

theorem grows_of_zeroOrMore {inner whole : Fragment}
    (result : graph.zeroOrMore inner = .ok (whole, after)) :
    graph.Grows after :=
  grows_of_two result

theorem grows_of_oneOrMore {inner whole : Fragment}
    (result : graph.oneOrMore inner = .ok (whole, after)) :
    graph.Grows after :=
  grows_of_two result

end FragmentGraph

/-! ## Copies -/

namespace Copying

open FragmentGraph

variable {copying after : Copying}

theorem grows_of_meet {exit room : Nat} {waiting : List Nat}
    (result : Copying.meet exit room waiting copying = .ok after) :
    copying.graph.Grows after.graph := by
  induction room generalizing waiting copying with
  | zero =>
      unfold Copying.meet at result
      split at result
      · cases result
        exact Grows.refl _
      · split at result
        · cases result
        · cases result
          exact Grows.refl _
        · rename_i impossible
          cases impossible
  | succ room inductionHypothesis =>
      unfold Copying.meet at result
      split at result
      · cases result
        exact Grows.refl _
      · split at result
        · cases result
        · rename_i impossible
          cases impossible
        · rename_i sameRoom
          cases sameRoom
          exact (grows_addPoint copying.graph _).trans
            (inductionHypothesis result)

theorem grows_of_wire {exit : Nat} {order : List Nat}
    (result : Copying.wire exit order copying = .ok after) :
    copying.graph.Grows after.graph := by
  induction order generalizing copying with
  | nil =>
      cases result
      exact Grows.refl _
  | cons id rest inductionHypothesis =>
      rw [Copying.wire] at result
      split at result
      · exact inductionHypothesis result
      · obtain ⟨point, _, result⟩ := bind_eq_ok_iff.mp result
        obtain ⟨targets, _, result⟩ := bind_eq_ok_iff.mp result
        obtain ⟨copy, _, result⟩ := bind_eq_ok_iff.mp result
        refine Grows.trans ?_ (inductionHypothesis result)
        exact Grows.of_points Array.size_modify
          (atomAt_setSuccessors copying.graph copy targets)

end Copying

namespace FragmentGraph

variable {graph after : FragmentGraph}

theorem grows_of_duplicate {fragment copy : Fragment}
    (result : graph.duplicate fragment = .ok (copy, after)) :
    graph.Grows after := by
  obtain ⟨met, isMet, result⟩ := bind_eq_ok_iff.mp result
  obtain ⟨wired, isWired, result⟩ := bind_eq_ok_iff.mp result
  obtain ⟨entry, _, result⟩ := bind_eq_ok_iff.mp result
  obtain ⟨exit, _, same⟩ := bind_eq_ok_iff.mp result
  cases same
  exact (Copying.grows_of_meet isMet).trans (Copying.grows_of_wire isWired)

theorem grows_of_take {inner whole : Fragment} {used : Nat}
    (result : graph.take inner used = .ok (whole, after)) :
    graph.Grows after := by
  rw [take] at result
  split at result
  · cases result
    exact Grows.refl _
  · exact grows_of_duplicate result

theorem grows_of_takeMany {inner : Fragment} {count used : Nat}
    {parts : List Fragment}
    (result : graph.takeMany inner count used = .ok (parts, after)) :
    graph.Grows after := by
  induction count generalizing graph used parts with
  | zero =>
      cases result
      exact Grows.refl _
  | succ count inductionHypothesis =>
      obtain ⟨⟨first, taken⟩, isFirst, result⟩ := bind_eq_ok_iff.mp result
      obtain ⟨⟨rest, middle⟩, isRest, same⟩ := bind_eq_ok_iff.mp result
      cases same
      exact (grows_of_take isFirst).trans (inductionHypothesis isRest)

/-- What is done for one more optional occurrence. -/
theorem exists_of_nestOptional_succ {inner : Fragment} {count used : Nat}
    {tail nested : Option Fragment}
    (result : graph.nestOptional inner (count + 1) used tail =
      .ok (nested, after)) :
    ∃ copy taken body joined further next,
      graph.take inner used = .ok (copy, taken) ∧
      (match tail with
        | some rest => taken.concat copy rest
        | none => .ok (copy, taken)) = .ok (body, joined) ∧
      joined.optional body = .ok (further, next) ∧
      next.nestOptional inner count (used + 1) (some further) =
        .ok (nested, after) := by
  obtain ⟨⟨copy, taken⟩, isCopy, result⟩ := bind_eq_ok_iff.mp result
  cases tail with
  | none =>
      simp only [ok_bind] at result
      obtain ⟨⟨further, next⟩, isFurther, isRest⟩ := bind_eq_ok_iff.mp result
      exact ⟨copy, taken, copy, taken, further, next, isCopy, rfl, isFurther,
        isRest⟩
  | some rest =>
      obtain ⟨⟨body, joined⟩, isBody, result⟩ := bind_eq_ok_iff.mp result
      obtain ⟨⟨further, next⟩, isFurther, isRest⟩ := bind_eq_ok_iff.mp result
      exact ⟨copy, taken, body, joined, further, next, isCopy, isBody,
        isFurther, isRest⟩

theorem grows_of_nestOptional {inner : Fragment} {count used : Nat}
    {tail nested : Option Fragment}
    (result : graph.nestOptional inner count used tail =
      .ok (nested, after)) :
    graph.Grows after := by
  induction count generalizing graph used tail with
  | zero =>
      cases result
      exact Grows.refl _
  | succ count inductionHypothesis =>
      obtain ⟨copy, taken, body, joined, further, next, isCopy, isBody,
        isFurther, isRest⟩ := exists_of_nestOptional_succ result
      have joinedGrows : taken.Grows joined := by
        cases tail with
        | none =>
            cases isBody
            exact Grows.refl _
        | some rest =>
            exact grows_of_concat isBody
      exact (grows_of_take isCopy).trans <| joinedGrows.trans <|
        (grows_of_optional isFurther).trans (inductionHypothesis isRest)

theorem grows_of_bounded {inner whole : Fragment} {min : Nat}
    {max : Option Nat}
    (result : graph.bounded inner min max = .ok (whole, after)) :
    graph.Grows after := by
  rw [bounded] at result
  split at result
  · cases result
    exact grows_addPoint graph {}
  · obtain ⟨⟨needed, before⟩, isNeeded, result⟩ := bind_eq_ok_iff.mp result
    refine (grows_of_takeMany isNeeded).trans ?_
    cases max with
    | none =>
        obtain ⟨⟨copy, taken⟩, isCopy, result⟩ := bind_eq_ok_iff.mp result
        obtain ⟨⟨loop, looped⟩, isLoop, result⟩ := bind_eq_ok_iff.mp result
        exact (grows_of_take isCopy).trans <|
          (grows_of_zeroOrMore isLoop).trans (grows_of_sequence result)
    | some max =>
        obtain ⟨⟨tail, nested⟩, isTail, result⟩ := bind_eq_ok_iff.mp result
        exact (grows_of_nestOptional isTail).trans (grows_of_sequence result)

theorem grows_of_occurring {inner whole : Fragment} {occurs : Occurs}
    (result : graph.occurring inner occurs = .ok (whole, after)) :
    graph.Grows after := by
  rw [occurring] at result
  cases form : occurs.cardinality with
  | one =>
      rw [form] at result
      cases result
      exact Grows.refl _
  | optional =>
      rw [form] at result
      exact grows_of_optional result
  | zeroOrMore =>
      rw [form] at result
      exact grows_of_zeroOrMore result
  | oneOrMore =>
      rw [form] at result
      exact grows_of_oneOrMore result
  | never =>
      rw [form] at result
      cases result
      exact grows_addPoint graph {}
  | bounded min max =>
      rw [form] at result
      exact grows_of_bounded result

/-! ## Sequences of operations -/

/-- Operations that do not fail make one graph from another. -/
inductive Reaches (graph : FragmentGraph) : FragmentGraph → Prop
  | refl : Reaches graph graph
  | addPoint {before : FragmentGraph} (point : Point) :
      Reaches graph before → Reaches graph (before.addPoint point).2
  | connect {before after : FragmentGraph} {source target : Nat} :
      Reaches graph before → before.connect source target = .ok after →
      Reaches graph after
  | leaf {before : FragmentGraph} (atom : Atom) :
      Reaches graph before → Reaches graph (before.leaf atom).2
  | nothing {before : FragmentGraph} :
      Reaches graph before → Reaches graph before.nothing.2
  | concat {before after : FragmentGraph} {first second whole : Fragment} :
      Reaches graph before →
      before.concat first second = .ok (whole, after) → Reaches graph after
  | sequence {before after : FragmentGraph} {parts : List Fragment}
      {whole : Fragment} :
      Reaches graph before → before.sequence parts = .ok (whole, after) →
      Reaches graph after
  | alternation {before after : FragmentGraph} {branches : List Fragment}
      {whole : Fragment} :
      Reaches graph before →
      before.alternation branches = .ok (whole, after) → Reaches graph after
  | optional {before after : FragmentGraph} {inner whole : Fragment} :
      Reaches graph before → before.optional inner = .ok (whole, after) →
      Reaches graph after
  | zeroOrMore {before after : FragmentGraph} {inner whole : Fragment} :
      Reaches graph before → before.zeroOrMore inner = .ok (whole, after) →
      Reaches graph after
  | oneOrMore {before after : FragmentGraph} {inner whole : Fragment} :
      Reaches graph before → before.oneOrMore inner = .ok (whole, after) →
      Reaches graph after
  | bounded {before after : FragmentGraph} {inner whole : Fragment}
      {min : Nat} {max : Option Nat} :
      Reaches graph before →
      before.bounded inner min max = .ok (whole, after) →
      Reaches graph after
  | duplicate {before after : FragmentGraph} {fragment copy : Fragment} :
      Reaches graph before → before.duplicate fragment = .ok (copy, after) →
      Reaches graph after

theorem Reaches.grows (reaches : graph.Reaches after) :
    graph.Grows after := by
  induction reaches with
  | refl => exact Grows.refl graph
  | addPoint point _ before => exact before.trans (grows_addPoint _ point)
  | connect _ result before => exact before.trans (grows_of_connectAll result)
  | leaf atom _ before => exact before.trans (grows_addPoint _ _)
  | nothing _ before => exact before.trans (grows_addPoint _ _)
  | concat _ result before => exact before.trans (grows_of_concat result)
  | sequence _ result before => exact before.trans (grows_of_sequence result)
  | alternation _ result before =>
      exact before.trans (grows_of_alternation result)
  | optional _ result before => exact before.trans (grows_of_optional result)
  | zeroOrMore _ result before =>
      exact before.trans (grows_of_zeroOrMore result)
  | oneOrMore _ result before =>
      exact before.trans (grows_of_oneOrMore result)
  | bounded _ result before => exact before.trans (grows_of_bounded result)
  | duplicate _ result before =>
      exact before.trans (grows_of_duplicate result)

end FragmentGraph

end ContentModel
