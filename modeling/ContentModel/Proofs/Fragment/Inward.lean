import ContentModel.Proofs.Fragment.Operation

/-!
# Edges of new points lead to new points

An operator makes edges only at new points and at operands, and these lead to
new points and to the entries of operands. So, if the operands were made after
some point, all edges of the later points lead to later points. This holds of
all of them, also of those that were made and then left out of the fragment.
-/

namespace ContentModel

namespace FragmentGraph

/-- There are points up to `low`, and those from there on lead to each other
only. -/
structure Inward (low : Nat) (graph : FragmentGraph) : Prop where
  low_le : low ≤ graph.size
  leads : ∀ id, low ≤ id → ∀ next ∈ graph.successors id,
    next ∈ Set.Ico low graph.size

/-- A fragment is entered at one of the points from `low` on. -/
def EntersFrom (low : Nat) (graph : FragmentGraph) (fragment : Fragment) :
    Prop :=
  fragment.entry ∈ Set.Ico low graph.size

variable {low : Nat} {graph after : FragmentGraph} {inner whole : Fragment}

/-- Behind the last point there is none. -/
theorem inward_size (graph : FragmentGraph) : Inward graph.size graph where
  low_le := Nat.le_refl graph.size
  leads id behind next isNext := by
    rw [successors_of_size_le behind] at isNext
    exact absurd isNext List.not_mem_nil

theorem EntersFrom.mono (enters : EntersFrom low graph inner)
    (size_le : graph.size ≤ after.size) : EntersFrom low after inner :=
  ⟨enters.1, Nat.lt_of_lt_of_le enters.2 size_le⟩

theorem EntersFrom.keep (enters : EntersFrom low graph inner)
    (grows : graph.Grows after) : EntersFrom low after inner :=
  enters.mono grows.size_le

/-! ## Points and groups -/

theorem Inward.addPoint (inward : Inward low graph) (atom : Option Atom) :
    Inward low (graph.addPoint { atom }).2 where
  low_le := by
    rw [size_addPoint]
    exact Nat.le_succ_of_le inward.low_le
  leads id behind next isNext := by
    rw [successors_addPoint] at isNext
    split at isNext
    · exact absurd isNext List.not_mem_nil
    · have within := inward.leads id behind next isNext
      rw [size_addPoint]
      exact ⟨within.1, Nat.lt_succ_of_lt within.2⟩

theorem Inward.entersFrom_single (inward : Inward low graph)
    (atom : Option Atom) :
    EntersFrom low (graph.addPoint { atom }).2 (.single graph.size) := by
  refine ⟨inward.low_le, ?_⟩
  rw [size_addPoint]
  exact Nat.lt_succ_self graph.size

theorem size_of_connectAll {source : Nat} {targets : List Nat}
    (result : graph.connectAll source targets = .ok after) :
    after.size = graph.size := by
  rw [connectAll] at result
  split at result
  · cases result
    exact size_lead graph source targets
  · cases result

theorem Inward.connectAll {source : Nat} {targets : List Nat}
    (inward : Inward low graph)
    (within : ∀ target ∈ targets, target ∈ Set.Ico low graph.size)
    (result : graph.connectAll source targets = .ok after) :
    Inward low after := by
  have sameSize := size_of_connectAll result
  rw [FragmentGraph.connectAll] at result
  split at result
  · rename_i present
    cases result
    constructor
    · rw [sameSize]
      exact inward.low_le
    · intro id behind next isNext
      change next ∈ (graph.lead source targets).successors id at isNext
      rw [successors_lead targets present] at isNext
      rw [sameSize]
      split at isNext
      · rcases List.mem_append.mp isNext with old | new
        · exact inward.leads id behind next old
        · exact within next new
      · exact inward.leads id behind next isNext
  · cases result

theorem Inward.connect {source target : Nat} (inward : Inward low graph)
    (within : target ∈ Set.Ico low graph.size)
    (result : graph.connect source target = .ok after) :
    Inward low after := by
  refine inward.connectAll ?_ result
  intro other member
  rw [List.mem_singleton.mp member]
  exact within

theorem Inward.concat {first second : Fragment} (inward : Inward low graph)
    (enters : EntersFrom low graph second)
    (result : graph.concat first second = .ok (whole, after)) :
    Inward low after ∧ whole.entry = first.entry := by
  obtain ⟨joined, isJoined, same⟩ := bind_eq_ok_iff.mp result
  cases same
  exact ⟨inward.connect enters isJoined, rfl⟩

theorem Inward.concatAll {first : Fragment} {rest : List Fragment}
    (inward : Inward low graph)
    (enters : ∀ part ∈ rest, EntersFrom low graph part)
    (result : graph.concatAll first rest = .ok (whole, after)) :
    Inward low after ∧ whole.entry = first.entry := by
  induction rest generalizing graph first with
  | nil =>
      cases result
      exact ⟨inward, rfl⟩
  | cons second rest inductionHypothesis =>
      obtain ⟨⟨joined, middle⟩, isJoined, isRest⟩ := bind_eq_ok_iff.mp result
      obtain ⟨further, sameEntry⟩ :=
        inward.concat (enters second List.mem_cons_self) isJoined
      have entersLater : ∀ part ∈ rest, EntersFrom low middle part :=
        fun part member =>
          (enters part (List.mem_cons_of_mem second member)).keep
            (grows_of_concat isJoined)
      obtain ⟨inwardAfter, restEntry⟩ :=
        inductionHypothesis further entersLater isRest
      exact ⟨inwardAfter, restEntry.trans sameEntry⟩

theorem Inward.sequence {parts : List Fragment} (inward : Inward low graph)
    (enters : ∀ part ∈ parts, EntersFrom low graph part)
    (result : graph.sequence parts = .ok (whole, after)) :
    Inward low after ∧ EntersFrom low after whole := by
  cases parts with
  | nil =>
      cases result
      exact ⟨inward.addPoint none, inward.entersFrom_single none⟩
  | cons first rest =>
      obtain ⟨inwardAfter, sameEntry⟩ := inward.concatAll
        (fun part member => enters part (List.mem_cons_of_mem first member))
        result
      have entersFirst := (enters first List.mem_cons_self).keep
        (grows_of_sequence result)
      rw [EntersFrom, ← sameEntry] at entersFirst
      exact ⟨inwardAfter, entersFirst⟩

theorem Inward.joinAll {join : Nat} {members : List Fragment}
    (inward : Inward low graph) (within : join ∈ Set.Ico low graph.size)
    (result : graph.joinAll join members = .ok after) :
    Inward low after ∧ after.size = graph.size := by
  induction members generalizing graph with
  | nil =>
      cases result
      exact ⟨inward, rfl⟩
  | cons member members inductionHypothesis =>
      obtain ⟨middle, isMiddle, isRest⟩ := bind_eq_ok_iff.mp result
      have sameSize : middle.size = graph.size := size_of_connectAll isMiddle
      obtain ⟨inwardAfter, restSize⟩ := inductionHypothesis
        (inward.connect within isMiddle) (sameSize ▸ within) isRest
      exact ⟨inwardAfter, restSize.trans sameSize⟩

theorem Inward.fork (inward : Inward low graph) : Inward low graph.fork.2 :=
  (inward.addPoint none).addPoint none

/-- A point of a fork. -/
private theorem Inward.mem_fork (inward : Inward low graph) {id : Nat}
    (isPoint : id = graph.size ∨ id = graph.size + 1) :
    id ∈ Set.Ico low graph.fork.2.size := by
  have := inward.low_le
  rw [size_fork]
  exact ⟨by omega, by omega⟩

private theorem EntersFrom.mem_fork (enters : EntersFrom low graph inner) :
    inner.entry ∈ Set.Ico low graph.fork.2.size :=
  enters.keep (grows_fork graph)

private theorem targets_fork {branches : List Fragment}
    (enters : ∀ branch ∈ branches, EntersFrom low graph branch) :
    ∀ target ∈ branches.map Fragment.entry,
      target ∈ Set.Ico low graph.fork.2.size := by
  intro target isTarget
  obtain ⟨branch, member, rfl⟩ := List.mem_map.mp isTarget
  exact (enters branch member).mem_fork

theorem Inward.alternation {branches : List Fragment}
    (inward : Inward low graph)
    (enters : ∀ branch ∈ branches, EntersFrom low graph branch)
    (result : graph.alternation branches = .ok (whole, after)) :
    Inward low after ∧ EntersFrom low after whole := by
  match branches, enters, result with
  | [], _, result =>
      cases result
      exact ⟨inward.addPoint none, inward.entersFrom_single none⟩
  | [branch], enters, result =>
      cases result
      exact ⟨inward, enters _ List.mem_cons_self⟩
  | first :: second :: rest, enters, result =>
      rw [alternation_eq] at result
      obtain ⟨joined, isJoined, same⟩ := bind_eq_ok_iff.mp result
      cases same
      have leads := inward.fork.connectAll (targets_fork enters)
        (fork_connectAll _)
      have sameSize : (graph.forkTo
          ((first :: second :: rest).map Fragment.entry)).size =
            graph.fork.2.size := by
        rw [size_forkTo, size_fork]
      obtain ⟨inwardAfter, joinedSize⟩ := leads.joinAll
        (sameSize ▸ inward.mem_fork (Or.inr rfl)) isJoined
      refine ⟨inwardAfter, ?_⟩
      rw [EntersFrom, joinedSize, sameSize]
      exact inward.mem_fork (Or.inl rfl)

/-! ## Repetition -/

/-- Two edges at a fork. -/
private theorem Inward.two {source₁ source₂ : Nat}
    {targets₁ targets₂ : List Nat} {fragment : Fragment}
    (inward : Inward low graph)
    (within₁ : ∀ target ∈ targets₁, target ∈ Set.Ico low graph.fork.2.size)
    (within₂ : ∀ target ∈ targets₂, target ∈ Set.Ico low graph.fork.2.size)
    (enters : fragment.entry ∈ Set.Ico low graph.fork.2.size)
    (result : (do
      let graph ← graph.fork.2.connectAll source₁ targets₁
      let graph ← graph.connectAll source₂ targets₂
      return (fragment, graph)) = Except.ok (whole, after)) :
    Inward low after ∧ EntersFrom low after whole := by
  obtain ⟨first, isFirst, result⟩ := bind_eq_ok_iff.mp result
  obtain ⟨second, isSecond, same⟩ := bind_eq_ok_iff.mp result
  cases same
  have firstSize := size_of_connectAll isFirst
  have secondSize := size_of_connectAll isSecond
  have firstInward := inward.fork.connectAll within₁ isFirst
  rw [← firstSize] at within₂
  refine ⟨firstInward.connectAll within₂ isSecond, ?_⟩
  rw [EntersFrom, secondSize, firstSize]
  exact enters

/-- The two ways from the decision point of a repetition. -/
private theorem Inward.ways (inward : Inward low graph)
    (enters : EntersFrom low graph inner) :
    ∀ target ∈ [inner.entry, graph.size + 1],
      target ∈ Set.Ico low graph.fork.2.size := by
  intro target isTarget
  rcases List.mem_cons.mp isTarget with rfl | isJoin
  · exact enters.mem_fork
  · exact inward.mem_fork (Or.inr (List.mem_singleton.mp isJoin))

private theorem Inward.way (inward : Inward low graph) {id : Nat}
    (isPoint : id = graph.size ∨ id = graph.size + 1) :
    ∀ target ∈ [id], target ∈ Set.Ico low graph.fork.2.size := by
  intro target isTarget
  rw [List.mem_singleton.mp isTarget]
  exact inward.mem_fork isPoint

theorem Inward.optional (inward : Inward low graph)
    (enters : EntersFrom low graph inner)
    (result : graph.optional inner = .ok (whole, after)) :
    Inward low after ∧ EntersFrom low after whole := by
  rw [FragmentGraph.optional, fork_eq] at result
  exact inward.two (inward.ways enters) (inward.way (Or.inr rfl))
    (inward.mem_fork (Or.inl rfl)) result

theorem Inward.zeroOrMore (inward : Inward low graph)
    (enters : EntersFrom low graph inner)
    (result : graph.zeroOrMore inner = .ok (whole, after)) :
    Inward low after ∧ EntersFrom low after whole := by
  rw [FragmentGraph.zeroOrMore, fork_eq] at result
  exact inward.two (inward.ways enters) (inward.way (Or.inl rfl))
    (inward.mem_fork (Or.inl rfl)) result

theorem Inward.oneOrMore (inward : Inward low graph)
    (enters : EntersFrom low graph inner)
    (result : graph.oneOrMore inner = .ok (whole, after)) :
    Inward low after ∧ EntersFrom low after whole := by
  rw [FragmentGraph.oneOrMore, fork_eq] at result
  refine inward.two (inward.way (Or.inl rfl)) (inward.ways enters) ?_ result
  exact enters.mem_fork

theorem Inward.setSuccessors {id : Nat} {targets : List Nat}
    (inward : Inward low graph) (present : id < graph.size)
    (within : ∀ target ∈ targets, target ∈ Set.Ico low graph.size) :
    Inward low (graph.setSuccessors id targets) := by
  have sameSize : (graph.setSuccessors id targets).size = graph.size :=
    Array.size_modify
  constructor
  · rw [sameSize]
    exact inward.low_le
  · intro other behind next isNext
    rw [Copying.successors_setSuccessors present] at isNext
    rw [sameSize]
    split at isNext
    · exact within next isNext
    · exact inward.leads other behind next isNext

end FragmentGraph

/-! ## Copies -/

namespace Copying

open FragmentGraph

/-- The points from `low` on lead to each other only, and the copies made so far
are among them. -/
structure CopiesFrom (low : Nat) (copying : Copying) : Prop where
  inward : Inward low copying.graph
  copies : ∀ id copy : Nat, copying.copies[id]? = some copy →
    copy ∈ Set.Ico low copying.graph.size

variable {low : Nat} {copying after : Copying}

private theorem CopiesFrom.meetOne (inside : CopiesFrom low copying)
    (atom : Option Atom) (id : Nat) :
    CopiesFrom low
      ⟨(copying.graph.addPoint { atom }).2,
        copying.copies.insert id copying.graph.size, id :: copying.trail⟩ where
  inward := inside.inward.addPoint atom
  copies other copy found := by
    simp only [Std.TreeMap.getElem?_insert,
      Std.LawfulEqCmp.compare_eq_iff_eq] at found
    split at found
    · cases found
      exact inside.inward.entersFrom_single atom
    · have within := inside.copies other copy found
      rw [size_addPoint]
      exact ⟨within.1, Nat.lt_succ_of_lt within.2⟩

theorem CopiesFrom.meet {exit room : Nat} {waiting : List Nat}
    (inside : CopiesFrom low copying)
    (result : Copying.meet exit room waiting copying = .ok after) :
    CopiesFrom low after := by
  induction room generalizing waiting copying with
  | zero =>
      unfold Copying.meet at result
      split at result
      · cases result
        exact inside
      · split at result
        · cases result
        · cases result
          exact inside
        · rename_i impossible
          cases impossible
  | succ room inductionHypothesis =>
      unfold Copying.meet at result
      split at result
      · cases result
        exact inside
      · split at result
        · cases result
        · rename_i impossible
          cases impossible
        · rename_i sameRoom
          cases sameRoom
          exact inductionHypothesis (inside.meetOne _ _) result

theorem CopiesFrom.mem_of_copyOf {id copy : Nat}
    (inside : CopiesFrom low copying)
    (isCopy : copying.copyOf id = .ok copy) :
    copy ∈ Set.Ico low copying.graph.size := by
  rw [copyOf] at isCopy
  split at isCopy
  · rename_i found
    cases isCopy
    exact inside.copies id copy found
  · cases isCopy

/-- A copy is led to other copies. -/
private theorem CopiesFrom.wireOne {id copy : Nat} {successors targets : List Nat}
    (inside : CopiesFrom low copying)
    (isTargets : successors.mapM copying.copyOf = .ok targets)
    (isCopy : copying.copyOf id = .ok copy) :
    CopiesFrom low
      { copying with graph := copying.graph.setSuccessors copy targets } where
  inward := by
    refine inside.inward.setSuccessors (inside.mem_of_copyOf isCopy).2 ?_
    intro target member
    obtain ⟨next, _, isTarget⟩ := exists_of_mem_mapM isTargets member
    exact inside.mem_of_copyOf isTarget
  copies other copyOfOther found := by
    have sameSize : (copying.graph.setSuccessors copy targets).size =
        copying.graph.size := Array.size_modify
    rw [sameSize]
    exact inside.copies other copyOfOther found

theorem CopiesFrom.wire {exit : Nat} {order : List Nat}
    (inside : CopiesFrom low copying)
    (result : Copying.wire exit order copying = .ok after) :
    CopiesFrom low after := by
  induction order generalizing copying with
  | nil =>
      cases result
      exact inside
  | cons id rest inductionHypothesis =>
      rw [Copying.wire] at result
      split at result
      · exact inductionHypothesis inside result
      · obtain ⟨point, _, result⟩ := bind_eq_ok_iff.mp result
        obtain ⟨targets, isTargets, result⟩ := bind_eq_ok_iff.mp result
        obtain ⟨copy, isCopy, result⟩ := bind_eq_ok_iff.mp result
        exact inductionHypothesis (inside.wireOne isTargets isCopy) result

end Copying

namespace FragmentGraph

variable {low : Nat} {graph after : FragmentGraph} {inner whole : Fragment}

theorem Inward.duplicate (inward : Inward low graph)
    (result : graph.duplicate inner = .ok (whole, after)) :
    Inward low after ∧ EntersFrom low after whole := by
  obtain ⟨met, isMet, result⟩ := bind_eq_ok_iff.mp result
  obtain ⟨wired, isWired, result⟩ := bind_eq_ok_iff.mp result
  obtain ⟨entry, isEntry, result⟩ := bind_eq_ok_iff.mp result
  obtain ⟨exit, _, same⟩ := bind_eq_ok_iff.mp result
  cases same
  have start : Copying.CopiesFrom low ⟨graph, ∅, []⟩ :=
    { inward
      copies := by simp }
  have inside := (start.meet isMet).wire isWired
  exact ⟨inside.inward, inside.mem_of_copyOf isEntry⟩

theorem Inward.take {used : Nat} (inward : Inward low graph)
    (enters : EntersFrom low graph inner)
    (result : graph.take inner used = .ok (whole, after)) :
    Inward low after ∧ EntersFrom low after whole := by
  rw [FragmentGraph.take] at result
  split at result
  · cases result
    exact ⟨inward, enters⟩
  · exact inward.duplicate result

theorem Inward.takeMany {count used : Nat} {parts : List Fragment}
    (inward : Inward low graph) (enters : EntersFrom low graph inner)
    (result : graph.takeMany inner count used = .ok (parts, after)) :
    Inward low after ∧ ∀ part ∈ parts, EntersFrom low after part := by
  induction count generalizing graph used parts with
  | zero =>
      cases result
      exact ⟨inward, fun part member => absurd member List.not_mem_nil⟩
  | succ count inductionHypothesis =>
      obtain ⟨⟨first, taken⟩, isFirst, result⟩ := bind_eq_ok_iff.mp result
      obtain ⟨⟨rest, middle⟩, isRest, same⟩ := bind_eq_ok_iff.mp result
      cases same
      obtain ⟨inwardTaken, entersFirst⟩ := inward.take enters isFirst
      obtain ⟨inwardAfter, entersRest⟩ := inductionHypothesis inwardTaken
        (enters.keep (grows_of_take isFirst)) isRest
      refine ⟨inwardAfter, List.forall_mem_cons.mpr ⟨?_, entersRest⟩⟩
      exact entersFirst.keep (grows_of_takeMany isRest)

/-- The operand of one more optional occurrence. -/
private theorem Inward.operand {used : Nat} {tail : Option Fragment}
    {body : Fragment} {taken joined : FragmentGraph} {copy : Fragment}
    (inward : Inward low graph) (enters : EntersFrom low graph inner)
    (entersTail : ∀ rest ∈ tail, EntersFrom low graph rest)
    (isCopy : graph.take inner used = .ok (copy, taken))
    (isBody : (match tail with
      | some rest => taken.concat copy rest
      | none => .ok (copy, taken)) = .ok (body, joined)) :
    Inward low joined ∧ EntersFrom low joined body ∧
      graph.Grows joined := by
  obtain ⟨inwardTaken, entersCopy⟩ := inward.take enters isCopy
  have takenGrows := grows_of_take isCopy
  cases tail with
  | none =>
      cases isBody
      exact ⟨inwardTaken, entersCopy, takenGrows⟩
  | some rest =>
      have entersRest := (entersTail rest rfl).keep takenGrows
      obtain ⟨inwardJoined, sameEntry⟩ :=
        inwardTaken.concat entersRest isBody
      have joinedGrows := grows_of_concat isBody
      have entersBody := entersCopy.keep joinedGrows
      rw [EntersFrom, ← sameEntry] at entersBody
      exact ⟨inwardJoined, entersBody, takenGrows.trans joinedGrows⟩

theorem Inward.nestOptional {count used : Nat} {tail nested : Option Fragment}
    (inward : Inward low graph) (enters : EntersFrom low graph inner)
    (entersTail : ∀ rest ∈ tail, EntersFrom low graph rest)
    (result : graph.nestOptional inner count used tail =
      .ok (nested, after)) :
    Inward low after ∧ ∀ rest ∈ nested, EntersFrom low after rest := by
  induction count generalizing graph used tail with
  | zero =>
      cases result
      exact ⟨inward, entersTail⟩
  | succ count inductionHypothesis =>
      obtain ⟨copy, taken, body, joined, further, next, isCopy, isBody,
        isFurther, isRest⟩ := exists_of_nestOptional_succ result
      obtain ⟨inwardJoined, entersBody, joinedGrows⟩ :=
        inward.operand enters entersTail isCopy isBody
      obtain ⟨inwardNext, entersFurther⟩ :=
        inwardJoined.optional entersBody isFurther
      refine inductionHypothesis inwardNext ?_ ?_ isRest
      · exact enters.keep (joinedGrows.trans (grows_of_optional isFurther))
      · intro rest isTail
        cases isTail
        exact entersFurther

theorem Inward.bounded {min : Nat} {max : Option Nat}
    (inward : Inward low graph) (enters : EntersFrom low graph inner)
    (result : graph.bounded inner min max = .ok (whole, after)) :
    Inward low after ∧ EntersFrom low after whole := by
  rw [FragmentGraph.bounded] at result
  split at result
  · cases result
    exact ⟨inward.addPoint none, inward.entersFrom_single none⟩
  · obtain ⟨⟨needed, before⟩, isNeeded, result⟩ := bind_eq_ok_iff.mp result
    obtain ⟨inwardBefore, entersNeeded⟩ := inward.takeMany enters isNeeded
    have entersBefore := enters.keep (grows_of_takeMany isNeeded)
    cases max with
    | none =>
        obtain ⟨⟨copy, taken⟩, isCopy, result⟩ := bind_eq_ok_iff.mp result
        obtain ⟨⟨loop, looped⟩, isLoop, result⟩ := bind_eq_ok_iff.mp result
        obtain ⟨inwardTaken, entersCopy⟩ :=
          inwardBefore.take entersBefore isCopy
        obtain ⟨inwardLooped, entersLoop⟩ :=
          inwardTaken.zeroOrMore entersCopy isLoop
        refine inwardLooped.sequence ?_ result
        have grows := (grows_of_take isCopy).trans (grows_of_zeroOrMore isLoop)
        intro part member
        rcases List.mem_append.mp member with isNeeded | isLast
        · exact (entersNeeded part isNeeded).keep grows
        · rw [List.mem_singleton.mp isLast]
          exact entersLoop
    | some max =>
        obtain ⟨⟨tail, nested⟩, isTail, result⟩ := bind_eq_ok_iff.mp result
        obtain ⟨inwardNested, entersTail⟩ :=
          inwardBefore.nestOptional entersBefore
            (fun rest impossible => absurd impossible (Option.not_mem_none rest))
            isTail
        refine inwardNested.sequence ?_ result
        intro part member
        rcases List.mem_append.mp member with isNeeded | isLast
        · exact (entersNeeded part isNeeded).keep (grows_of_nestOptional isTail)
        · exact entersTail part (Option.mem_toList.mp isLast)

theorem Inward.occurring {occurs : Occurs} (inward : Inward low graph)
    (enters : EntersFrom low graph inner)
    (result : graph.occurring inner occurs = .ok (whole, after)) :
    Inward low after ∧ EntersFrom low after whole := by
  rw [FragmentGraph.occurring] at result
  cases form : occurs.cardinality with
  | one =>
      rw [form] at result
      cases result
      exact ⟨inward, enters⟩
  | optional =>
      rw [form] at result
      exact inward.optional enters result
  | zeroOrMore =>
      rw [form] at result
      exact inward.zeroOrMore enters result
  | oneOrMore =>
      rw [form] at result
      exact inward.oneOrMore enters result
  | never =>
      rw [form] at result
      cases result
      exact ⟨inward.addPoint none, inward.entersFrom_single none⟩
  | bounded min max =>
      rw [form] at result
      exact inward.bounded enters result

end FragmentGraph

end ContentModel
