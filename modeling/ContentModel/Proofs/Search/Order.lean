import ContentModel.Proofs.Search
import Mathlib.Data.Set.Function

/-!
# The order of visits

Main statements: `explore_add_room`, more room than is needed changes nothing,
`exists_explore_mirrored`, two searches through graphs that are alike visit the
nodes of the same keys one after the other, and `Plan.exists_breadthFirst`, a
list in which keys stand as they are first met is the order of visits.
-/

namespace ContentModel.Search

universe u v w t

variable {α : Type u} {β : Type v} {κ : Type w} {ε : Type t}

/-! ## Room -/

section Room

variable [Ord α] [Std.TransOrd α] [Std.LawfulEqOrd α]

/-- Where the room is enough, more of it changes nothing. -/
theorem explore_add_room {schedule : List α → List α → List α}
    (fair : ∀ found rest key,
      key ∈ schedule found rest ↔ key ∈ found ∨ key ∈ rest)
    {neighbours : α → Except ε (List α)} {starts bound : List α}
    (bounded : ∀ key, Reachable neighbours starts key →
      Answers neighbours key → key ∈ bound)
    (room more : Nat) {waiting : List α} {visited : Visited α}
    (progress : Progress neighbours starts waiting visited)
    (enough : bound.length ≤ room + visited.trail.length) :
    explore schedule neighbours (room + more) waiting visited =
      explore schedule neighbours room waiting visited := by
  fun_induction explore schedule neighbours room waiting visited with
  | case1 room waiting visited remaining =>
      unfold explore
      rw [remaining]
  | case2 room waiting visited key rest remaining failure answer =>
      unfold explore
      simp only [remaining, answer]
  | case3 waiting visited key rest remaining found answer =>
      have skipped := progress.skip
      rw [remaining] at skipped
      have := skipped.trail_length_lt bounded
        (contains_of_dropWhile remaining) answer
      omega
  | case4 waiting visited key rest remaining found room answer
      inductionHypothesis =>
      have skipped := progress.skip
      rw [remaining] at skipped
      have further := inductionHypothesis
        (skipped.visit (contains_of_dropWhile remaining) answer
          (fair found rest))
        (by simp only [Visited.add, List.length_cons]; omega)
      rw [Nat.succ_add]
      conv => lhs; unfold explore
      simp only [remaining, answer]
      exact further

theorem breadthFirst_add_room {neighbours : α → Except ε (List α)}
    {starts bound : List α}
    (bounded : ∀ key, Reachable neighbours starts key →
      Answers neighbours key → key ∈ bound)
    {room : Nat} (enough : bound.length ≤ room) (more : Nat) :
    breadthFirst (room + more) neighbours starts =
      breadthFirst room neighbours starts := by
  apply explore_add_room _ bounded room more (progress_start neighbours starts)
  · exact enough
  · intro found rest key
    rw [List.mem_append, or_comm]

theorem depthFirst_add_room {neighbours : α → Except ε (List α)}
    {starts bound : List α}
    (bounded : ∀ key, Reachable neighbours starts key →
      Answers neighbours key → key ∈ bound)
    {room : Nat} (enough : bound.length ≤ room) (more : Nat) :
    depthFirst (room + more) neighbours starts =
      depthFirst room neighbours starts := by
  apply explore_add_room _ bounded room more (progress_start neighbours starts)
  · exact enough
  · intro found rest key
    exact List.mem_append

end Room

/-! ## Graphs that are alike -/

/-- The keys in `trail` were visited under these names. -/
structure Names [Ord α] (nameOf : κ → α) (area : Set κ) (trail : List κ)
    (visited : Visited α) : Prop where
  trail_eq : visited.trail = trail.map nameOf
  contains_iff : ∀ key ∈ area,
    visited.contains (nameOf key) = true ↔ key ∈ trail

section Names

variable [Ord α] {nameOf : κ → α} {area : Set κ} {trail waiting : List κ}
  {visited : Visited α}

theorem names_start (nameOf : κ → α) (area : Set κ) :
    Names nameOf area [] ({} : Visited α) where
  trail_eq := rfl
  contains_iff key _ := by
    simp [Visited.contains]

theorem Names.add [Std.TransOrd α] [Std.LawfulEqOrd α] {key : κ}
    (names : Names nameOf area trail visited)
    (injective : Set.InjOn nameOf area) (member : key ∈ area) :
    Names nameOf area (key :: trail) (visited.add (nameOf key)) where
  trail_eq := congrArg (nameOf key :: ·) names.trail_eq
  contains_iff other isOther := by
    rw [contains_add, injective.eq_iff isOther member,
      names.contains_iff other isOther, List.mem_cons]

open Classical in
/-- Keys that were visited are passed over under their names. -/
theorem Names.dropWhile (names : Names nameOf area trail visited)
    (inside : ∀ key ∈ waiting, key ∈ area) :
    (waiting.map nameOf).dropWhile visited.contains =
      (waiting.dropWhile (· ∈ trail)).map nameOf := by
  rw [List.dropWhile_map]
  congr 1
  induction waiting with
  | nil =>
      rfl
  | cons key rest inductionHypothesis =>
      have seen := names.contains_iff key (inside key List.mem_cons_self)
      rw [List.dropWhile_cons, List.dropWhile_cons, Function.comp_apply,
        inductionHypothesis fun other member =>
          inside other (List.mem_cons_of_mem key member)]
      simp only [seen, decide_eq_true_eq]

end Names

section Mirrored

variable [Ord α] [Std.TransOrd α] [Std.LawfulEqOrd α]
  [Ord β] [Std.TransOrd β] [Std.LawfulEqOrd β]
  {left : α → Except ε (List α)} {right : β → Except ε (List β)}
  {leftOf : κ → α} {rightOf : κ → β} {area : Set κ}

/-- The neighbours of a key of the area are the same keys under the names of
either side. -/
structure Alike (left : α → Except ε (List α))
    (right : β → Except ε (List β)) (leftOf : κ → α) (rightOf : κ → β)
    (area : Set κ) : Prop where
  leftInjective : Set.InjOn leftOf area
  rightInjective : Set.InjOn rightOf area
  neighbours : ∀ key ∈ area, ∃ found : List κ,
    left (leftOf key) = .ok (found.map leftOf) ∧
    right (rightOf key) = .ok (found.map rightOf) ∧
    ∀ next ∈ found, next ∈ area

open Classical in
/-- The induction is on the room: with the same room both sides visit the next
key of the same list. -/
theorem exists_explore_mirrored
    (alike : Alike left right leftOf rightOf area) (room : Nat)
    {waiting trail : List κ} {leftVisited : Visited α}
    {rightVisited : Visited β}
    (leftNames : Names leftOf area trail leftVisited)
    (rightNames : Names rightOf area trail rightVisited)
    (inside : ∀ key ∈ waiting, key ∈ area)
    (trailInside : ∀ key ∈ trail, key ∈ area) :
    ∃ order leftAfter rightAfter,
      explore (fun found rest => rest ++ found) left room
        (waiting.map leftOf) leftVisited = .ok leftAfter ∧
      explore (fun found rest => rest ++ found) right room
        (waiting.map rightOf) rightVisited = .ok rightAfter ∧
      Names leftOf area order leftAfter ∧
      Names rightOf area order rightAfter ∧
      ∀ key ∈ order, key ∈ area := by
  induction room generalizing waiting trail leftVisited rightVisited with
  | zero =>
      unfold explore
      rw [leftNames.dropWhile inside, rightNames.dropWhile inside]
      cases remaining : waiting.dropWhile (· ∈ trail) with
      | nil =>
          exact ⟨trail, leftVisited, rightVisited, rfl, rfl, leftNames,
            rightNames, trailInside⟩
      | cons key rest =>
          have isWaiting : key ∈ waiting :=
            (List.dropWhile_sublist _).subset
              (remaining ▸ List.mem_cons_self)
          obtain ⟨found, isLeft, isRight, _⟩ :=
            alike.neighbours key (inside key isWaiting)
          simp only [List.map_cons, isLeft, isRight]
          exact ⟨trail, leftVisited, rightVisited, rfl, rfl, leftNames,
            rightNames, trailInside⟩
  | succ room inductionHypothesis =>
      unfold explore
      rw [leftNames.dropWhile inside, rightNames.dropWhile inside]
      cases remaining : waiting.dropWhile (· ∈ trail) with
      | nil =>
          exact ⟨trail, leftVisited, rightVisited, rfl, rfl, leftNames,
            rightNames, trailInside⟩
      | cons key rest =>
          have isWaiting : ∀ other ∈ key :: rest, other ∈ waiting := by
            intro other member
            rw [← remaining] at member
            exact (List.dropWhile_sublist _).subset member
          have keyInside := inside key (isWaiting key List.mem_cons_self)
          obtain ⟨found, isLeft, isRight, foundInside⟩ :=
            alike.neighbours key keyInside
          simp only [List.map_cons, isLeft, isRight, ← List.map_append]
          apply inductionHypothesis
            (leftNames.add alike.leftInjective keyInside)
            (rightNames.add alike.rightInjective keyInside)
          · intro other member
            cases List.mem_append.mp member with
            | inl later =>
                exact inside other
                  (isWaiting other (List.mem_cons_of_mem key later))
            | inr isFound =>
                exact foundInside other isFound
          · exact List.forall_mem_cons.mpr ⟨keyInside, trailInside⟩

/-- Through graphs that are alike, searches with the same room come by the
nodes of the same keys in the same order. -/
theorem exists_breadthFirst_mirrored
    (alike : Alike left right leftOf rightOf area) (room : Nat) {start : κ}
    (member : start ∈ area) :
    ∃ (order : List κ) (leftAfter : Visited α) (rightAfter : Visited β),
      breadthFirst room left [leftOf start] = .ok leftAfter ∧
      breadthFirst room right [rightOf start] = .ok rightAfter ∧
      leftAfter.inOrder = order.map leftOf ∧
      rightAfter.inOrder = order.map rightOf ∧
      ∀ key ∈ order, key ∈ area := by
  have startInside : ∀ key ∈ [start], key ∈ area :=
    List.forall_mem_singleton.mpr member
  obtain ⟨trail, leftAfter, rightAfter, isLeft, isRight, leftNames,
    rightNames, inside⟩ :=
    exists_explore_mirrored alike room (names_start leftOf area)
      (names_start rightOf area) startInside
      (fun _ impossible => absurd impossible List.not_mem_nil)
  refine ⟨trail.reverse, leftAfter, rightAfter, isLeft, isRight, ?_, ?_, ?_⟩
  · rw [Visited.inOrder, leftNames.trail_eq, List.map_reverse]
  · rw [Visited.inOrder, rightNames.trail_eq, List.map_reverse]
  · intro key isVisited
    exact inside key (List.mem_reverse.mp isVisited)

end Mirrored

/-! ## First meetings -/

section Meetings

variable [DecidableEq α]

/-- What was met before adds nothing. -/
theorem eraseDups_append_of_subset {items more : List α}
    (known : more ⊆ items) : (items ++ more).eraseDups = items.eraseDups := by
  have nothingNew : more.removeAll items = [] := by
    rw [List.removeAll, List.filter_eq_nil_iff]
    intro item member
    simpa using known member
  rw [List.eraseDups_append, nothingNew, List.eraseDups_nil, List.append_nil]

theorem eraseDups_concat {items : List α} {item : α} (isNew : item ∉ items) :
    (items ++ [item]).eraseDups = items.eraseDups ++ [item] := by
  have isLeft : [item].removeAll items = [item] := by
    simpa [List.removeAll] using isNew
  rw [List.eraseDups_append, isLeft]
  rfl

theorem eraseDups_prefix {items more : List α} (isPrefix : items <+: more) :
    items.eraseDups <+: more.eraseDups := by
  obtain ⟨rest, same⟩ := isPrefix
  rw [← same, List.eraseDups_append]
  exact List.prefix_append _ _

/-- The keys of the order are met in this order, and each of them but the start
as a neighbour of an earlier one. -/
structure Plan (neighbours : α → Except ε (List α)) (start : α)
    (order : List α) (found : α → List α) : Prop where
  answers : ∀ key ∈ order, neighbours key = .ok (found key)
  nodup : order.Nodup
  meetings : (start :: order.flatMap found).eraseDups = order
  early : ∀ earlier key later, order = earlier ++ key :: later →
    key = start ∨ ∃ parent ∈ earlier, key ∈ found parent

namespace Plan

variable {neighbours : α → Except ε (List α)} {start : α}
  {order earlier later passed waiting : List α} {found : α → List α}

/-- The next key of the plan is among the keys that were met so far. -/
theorem next_mem (plan : Plan neighbours start order found) {key : α}
    (isOrder : order = earlier ++ key :: later) :
    key ∈ start :: earlier.flatMap found := by
  cases plan.early earlier key later isOrder with
  | inl isStart =>
      rw [isStart]
      exact List.mem_cons_self
  | inr isNeighbour =>
      obtain ⟨parent, isEarlier, member⟩ := isNeighbour
      exact List.mem_cons_of_mem _ (List.mem_flatMap_of_mem isEarlier member)

/-- The next key of the plan is the first of the waiting ones that was not
visited. -/
theorem exists_dropWhile (plan : Plan neighbours start order found) {key : α}
    (isOrder : order = earlier ++ key :: later) {visited : α → Bool}
    (isVisited : ∀ other, visited other = true ↔ other ∈ earlier)
    (isPassed : passed.eraseDups = earlier)
    (isMet : start :: earlier.flatMap found = passed ++ waiting) :
    ∃ rest, waiting.dropWhile visited = key :: rest ∧
      passed ++ waiting.takeWhile visited ++ key :: rest = passed ++ waiting ∧
      (passed ++ waiting.takeWhile visited ++ [key]).eraseDups =
        earlier ++ [key] := by
  have isSplit := List.takeWhile_append_dropWhile (p := visited) (l := waiting)
  have nodup := plan.nodup
  rw [isOrder] at nodup
  have isNew : key ∉ earlier := fun member =>
    (List.nodup_append.mp nodup).2.2 key member key List.mem_cons_self rfl
  have skipped : waiting.takeWhile visited ⊆ passed := by
    intro other member
    have isEarlier := (isVisited other).mp (List.mem_takeWhile_imp member)
    rw [← isPassed] at isEarlier
    exact List.mem_eraseDups.mp isEarlier
  have allEarlier : ∀ other ∈ passed ++ waiting.takeWhile visited,
      other ∈ earlier := by
    intro other member
    rw [← isPassed, List.mem_eraseDups]
    cases List.mem_append.mp member with
    | inl wasPassed => exact wasPassed
    | inr wasSkipped => exact skipped wasSkipped
  have isKeyMet : key ∈ passed ++ waiting := isMet ▸ plan.next_mem isOrder
  cases remaining : waiting.dropWhile visited with
  | nil =>
      rw [remaining, List.append_nil] at isSplit
      rw [← isSplit] at isKeyMet
      exact absurd (allEarlier key isKeyMet) isNew
  | cons other rest =>
      rw [remaining] at isSplit
      have whole : passed ++ waiting.takeWhile visited ++ other :: rest =
          passed ++ waiting := by
        rw [List.append_assoc, isSplit]
      have otherNew : other ∉ passed ++ waiting.takeWhile visited := by
        intro member
        have fails := List.head?_dropWhile_not visited waiting
        rw [remaining] at fails
        simp [(isVisited other).mpr (allEarlier other member)] at fails
      have isNext :
          (passed ++ waiting.takeWhile visited ++ [other]).eraseDups =
            earlier ++ [other] := by
        rw [eraseDups_concat otherNew, eraseDups_append_of_subset skipped,
          isPassed]
      have soFar : passed ++ waiting.takeWhile visited ++ [other] <+:
          start :: order.flatMap found := by
        rw [isOrder, List.flatMap_append, ← List.cons_append, isMet, ← whole]
        refine ⟨rest ++ (key :: later).flatMap found, ?_⟩
        simp
      have inOrder := eraseDups_prefix soFar
      rw [isNext, plan.meetings, isOrder, List.prefix_append_right_inj]
        at inOrder
      have same : other = key := (List.cons_prefix_cons.mp inOrder).1
      rw [same] at whole isNext
      exact ⟨rest, by rw [same], whole, isNext⟩

variable [Ord α] [Std.TransOrd α] [Std.LawfulEqOrd α]

/-- The induction is on the part of the plan that is left. -/
theorem exists_explore (plan : Plan neighbours start order found) (room : Nat)
    {visited : Visited α} (isOrder : order = earlier ++ later)
    (isTrail : visited.inOrder = earlier)
    (isVisited : ∀ key, visited.contains key = true ↔ key ∈ earlier)
    (isPassed : passed.eraseDups = earlier)
    (isMet : start :: earlier.flatMap found = passed ++ waiting)
    (enough : later.length ≤ room) :
    ∃ after,
      explore (fun found rest => rest ++ found) neighbours room waiting
        visited = .ok after ∧
      after.inOrder = order := by
  induction later generalizing room earlier passed waiting visited with
  | nil =>
      rw [List.append_nil] at isOrder
      have allVisited : waiting.dropWhile visited.contains = [] := by
        rw [List.dropWhile_eq_nil_iff]
        intro key member
        rw [isVisited, ← isOrder, ← plan.meetings, List.mem_eraseDups, isOrder,
          isMet]
        exact List.mem_append_right _ member
      refine ⟨visited, ?_, isTrail.trans isOrder.symm⟩
      unfold explore
      rw [allVisited]
  | cons key later inductionHypothesis =>
      obtain ⟨rest, remaining, whole, isNext⟩ :=
        plan.exists_dropWhile isOrder isVisited isPassed isMet
      have answer := plan.answers key <| by
        rw [isOrder]
        exact List.mem_append_right _ List.mem_cons_self
      cases room with
      | zero =>
          exact absurd enough (Nat.not_succ_le_zero _)
      | succ room =>
          unfold explore
          rw [remaining]
          simp only [answer]
          have isNextOrder : order = (earlier ++ [key]) ++ later := by
            rw [List.append_assoc, isOrder]
            rfl
          refine inductionHypothesis room isNextOrder ?_ ?_ isNext ?_
            (Nat.le_of_succ_le_succ enough)
          · rw [← isTrail, Visited.inOrder, Visited.inOrder, Visited.add,
              List.reverse_cons]
          · intro other
            rw [contains_add, isVisited, List.mem_append, List.mem_singleton,
              or_comm]
          · rw [List.flatMap_append, ← List.cons_append, isMet, ← whole]
            simp

/-- The keys are visited as planned. -/
theorem exists_breadthFirst (plan : Plan neighbours start order found)
    {room : Nat} (enough : order.length ≤ room) :
    ∃ visited, breadthFirst room neighbours [start] = .ok visited ∧
      visited.inOrder = order := by
  have noneMet : ([] : List α).eraseDups = [] := rfl
  refine plan.exists_explore room (List.nil_append order).symm rfl ?_ noneMet
    rfl enough
  intro key
  simp [Visited.contains]

end Plan

end Meetings

end ContentModel.Search
