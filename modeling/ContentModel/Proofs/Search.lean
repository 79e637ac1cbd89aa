import ContentModel.Search
import Mathlib.Data.List.TakeWhile
import Mathlib.Data.List.Perm.Subperm
import Mathlib.Logic.Relation

/-!
# What a search visits

A search visits exactly the keys that can be reached from its starts, whichever
way the keys that wait are scheduled, or it ends with the failure of one of
them. The room that it needs is the length of any list of the keys that it may
have to visit.
-/

namespace ContentModel.Search

universe u v

variable {α : Type u} {ε : Type v}

/-- `next` is a neighbour of `key`. -/
def Leads (neighbours : α → Except ε (List α)) (key next : α) : Prop :=
  ∃ found, neighbours key = .ok found ∧ next ∈ found

/-- A key to which some neighbours lead from one of `starts`. -/
def Reachable (neighbours : α → Except ε (List α)) (starts : List α)
    (key : α) : Prop :=
  ∃ start ∈ starts, Relation.ReflTransGen (Leads neighbours) start key

/-- Visiting the key does not fail. -/
def Answers (neighbours : α → Except ε (List α)) (key : α) : Prop :=
  ∃ found, neighbours key = .ok found

theorem reachable_start
    {neighbours : α → Except ε (List α)} {starts : List α} {key : α}
    (member : key ∈ starts) : Reachable neighbours starts key :=
  ⟨key, member, Relation.ReflTransGen.refl⟩

theorem Reachable.next
    {neighbours : α → Except ε (List α)} {starts found : List α}
    {key next : α} (reachable : Reachable neighbours starts key)
    (answer : neighbours key = .ok found) (member : next ∈ found) :
    Reachable neighbours starts next := by
  obtain ⟨start, startMember, path⟩ := reachable
  exact ⟨start, startMember, path.tail ⟨found, answer, member⟩⟩

/-- What holds of the starts and passes on to neighbours holds of every
reachable key. -/
theorem Reachable.invariant
    {neighbours : α → Except ε (List α)} {starts : List α} {key : α}
    {motive : α → Prop} (reachable : Reachable neighbours starts key)
    (initial : ∀ start ∈ starts, motive start)
    (step : ∀ key found, motive key → neighbours key = .ok found →
      ∀ next ∈ found, motive next) :
    motive key := by
  obtain ⟨start, startMember, path⟩ := reachable
  induction path with
  | refl =>
      exact initial start startMember
  | tail _ leads inductionHypothesis =>
      obtain ⟨found, answer, member⟩ := leads
      exact step _ found inductionHypothesis answer _ member

section Exploring

variable [Ord α]

/-- What is known between two visits. -/
structure Progress (neighbours : α → Except ε (List α)) (starts : List α)
    (waiting : List α) (visited : Visited α) : Prop where
  started : ∀ key ∈ starts, key ∈ waiting ∨ visited.contains key = true
  waitingReachable : ∀ key ∈ waiting, Reachable neighbours starts key
  visitedReachable :
    ∀ key, visited.contains key = true → Reachable neighbours starts key
  answered : ∀ key, visited.contains key = true →
    ∃ found, neighbours key = .ok found ∧
      ∀ next ∈ found, next ∈ waiting ∨ visited.contains next = true
  trailNodup : visited.trail.Nodup
  mem_trail_iff : ∀ key, key ∈ visited.trail ↔ visited.contains key = true

/-- A search that has visited what can be reached, each key once. -/
structure Finished (neighbours : α → Except ε (List α)) (starts : List α)
    (visited : Visited α) : Prop where
  contains_iff :
    ∀ key, visited.contains key = true ↔ Reachable neighbours starts key
  answers : ∀ key, Reachable neighbours starts key → Answers neighbours key
  trailNodup : visited.trail.Nodup
  mem_trail_iff : ∀ key, key ∈ visited.trail ↔ visited.contains key = true

/-- How a search ends: with everything visited, or with the failure of a key
that it came by. -/
def Ends (neighbours : α → Except ε (List α)) (starts : List α) :
    Except ε (Visited α) → Prop
  | .ok visited => Finished neighbours starts visited
  | .error failure =>
    ∃ key, Reachable neighbours starts key ∧ neighbours key = .error failure

theorem progress_start (neighbours : α → Except ε (List α))
    (starts : List α) : Progress neighbours starts starts {} where
  started _ member := Or.inl member
  waitingReachable _ member := reachable_start member
  visitedReachable key visited := by
    simp [Visited.contains] at visited
  answered key visited := by
    simp [Visited.contains] at visited
  trailNodup := List.nodup_nil
  mem_trail_iff key := by
    simp [Visited.contains]

theorem contains_add [Std.TransOrd α] [Std.LawfulEqOrd α]
    (visited : Visited α) (key other : α) :
    (visited.add key).contains other = true ↔
      other = key ∨ visited.contains other = true := by
  rw [eq_comm (a := other)]
  simp [Visited.add, Visited.contains, Std.TreeSet.contains_insert]

namespace Progress

variable {neighbours : α → Except ε (List α)} {starts : List α}
  {waiting : List α} {visited : Visited α}

/-- Passing over waiting keys that were visited loses nothing. -/
theorem skip (progress : Progress neighbours starts waiting visited) :
    Progress neighbours starts (waiting.dropWhile visited.contains)
      visited := by
  have kept : ∀ key ∈ waiting,
      key ∈ waiting.dropWhile visited.contains ∨
        visited.contains key = true := by
    intro key member
    rw [← List.takeWhile_append_dropWhile
      (p := visited.contains) (l := waiting)] at member
    rcases List.mem_append.mp member with passed | left
    · exact Or.inr (List.mem_takeWhile_imp passed)
    · exact Or.inl left
  refine
    { progress with
      started := ?_
      waitingReachable := ?_
      answered := ?_ }
  · intro key member
    rcases progress.started key member with waits | done
    · exact kept key waits
    · exact Or.inr done
  · intro key member
    exact progress.waitingReachable key <|
      (List.dropWhile_sublist visited.contains).subset member
  · intro key done
    obtain ⟨found, answer, next⟩ := progress.answered key done
    refine ⟨found, answer, fun other member => ?_⟩
    rcases next other member with waits | otherDone
    · exact kept other waits
    · exact Or.inr otherDone

theorem finished (progress : Progress neighbours starts [] visited) :
    Finished neighbours starts visited := by
  have covered : ∀ key, Reachable neighbours starts key →
      visited.contains key = true := by
    intro key reachable
    refine reachable.invariant (motive := (visited.contains · = true)) ?_ ?_
    · intro start member
      simpa using progress.started start member
    · intro key found done answer next member
      obtain ⟨answered, same, kept⟩ := progress.answered key done
      rw [answer] at same
      cases same
      simpa using kept next member
  constructor
  · intro key
    exact ⟨progress.visitedReachable key, covered key⟩
  · intro key reachable
    obtain ⟨found, answer, _⟩ := progress.answered key (covered key reachable)
    exact ⟨found, answer⟩
  · exact progress.trailNodup
  · exact progress.mem_trail_iff

/-- The trail has no repetitions, so it is no longer than a list of all keys
that may have to be visited, and shorter as long as one of them is not. -/
theorem trail_length_lt {bound found rest : List α} {key : α}
    (progress : Progress neighbours starts (key :: rest) visited)
    (bounded : ∀ key, Reachable neighbours starts key →
      Answers neighbours key → key ∈ bound)
    (fresh : visited.contains key = false)
    (answer : neighbours key = .ok found) :
    visited.trail.length < bound.length := by
  have keyNew : key ∉ visited.trail := by
    rw [progress.mem_trail_iff, fresh]
    exact Bool.false_ne_true
  have within : key :: visited.trail ⊆ bound := by
    intro other member
    rcases List.mem_cons.mp member with rfl | earlier
    · exact bounded other
        (progress.waitingReachable other List.mem_cons_self) ⟨found, answer⟩
    · have done := (progress.mem_trail_iff other).mp earlier
      obtain ⟨otherFound, otherAnswer, _⟩ := progress.answered other done
      exact bounded other (progress.visitedReachable other done)
        ⟨otherFound, otherAnswer⟩
  have nodup : (key :: visited.trail).Nodup :=
    List.nodup_cons.mpr ⟨keyNew, progress.trailNodup⟩
  exact (nodup.subperm within).length_le

variable [Std.TransOrd α] [Std.LawfulEqOrd α]

/-- A visit hands the search over to the neighbours of the visited key. -/
theorem visit {rest found : List α} {key : α}
    (progress : Progress neighbours starts (key :: rest) visited)
    (fresh : visited.contains key = false)
    (answer : neighbours key = .ok found)
    (scheduled : ∀ other, other ∈ waiting ↔ other ∈ found ∨ other ∈ rest) :
    Progress neighbours starts waiting (visited.add key) := by
  have added := contains_add visited key
  have keyReachable : Reachable neighbours starts key :=
    progress.waitingReachable key List.mem_cons_self
  have moved : ∀ other,
      (other ∈ key :: rest ∨ visited.contains other = true) →
        other ∈ waiting ∨ (visited.add key).contains other = true := by
    intro other before
    rw [added, scheduled]
    rcases before with waits | done
    · rcases List.mem_cons.mp waits with same | later
      · exact Or.inr (Or.inl same)
      · exact Or.inl (Or.inr later)
    · exact Or.inr (Or.inr done)
  constructor
  · intro other member
    exact moved other (progress.started other member)
  · intro other member
    rcases (scheduled other).mp member with isFound | later
    · exact keyReachable.next answer isFound
    · exact progress.waitingReachable other (List.mem_cons_of_mem key later)
  · intro other done
    rcases (added other).mp done with rfl | before
    · exact keyReachable
    · exact progress.visitedReachable other before
  · intro other done
    rcases (added other).mp done with rfl | before
    · refine ⟨found, answer, fun next member => ?_⟩
      exact Or.inl ((scheduled next).mpr (Or.inl member))
    · obtain ⟨otherFound, otherAnswer, next⟩ :=
        progress.answered other before
      exact ⟨otherFound, otherAnswer, fun following member =>
        moved following (next following member)⟩
  · refine List.nodup_cons.mpr ⟨?_, progress.trailNodup⟩
    rw [progress.mem_trail_iff, fresh]
    exact Bool.false_ne_true
  · intro other
    rw [added, ← progress.mem_trail_iff]
    exact List.mem_cons

end Progress

theorem Finished.mem_ascending_iff [Std.TransOrd α] [Std.LawfulEqOrd α]
    {neighbours : α → Except ε (List α)} {starts : List α}
    {visited : Visited α} (finished : Finished neighbours starts visited)
    (key : α) :
    key ∈ visited.ascending ↔ Reachable neighbours starts key := by
  rw [← finished.contains_iff]
  exact Std.TreeSet.mem_toList.trans Std.TreeSet.contains_iff_mem.symm

theorem ascending_pairwise (visited : Visited Nat) :
    visited.ascending.Pairwise (· < ·) :=
  Std.TreeSet.ordered_toList.imp Nat.compare_eq_lt.mp

theorem contains_of_dropWhile {waiting rest : List α}
    {visited : Visited α} {key : α}
    (remaining : waiting.dropWhile visited.contains = key :: rest) :
    visited.contains key = false := by
  have headFails := List.head?_dropWhile_not visited.contains waiting
  rw [remaining] at headFails
  simpa using headFails

/-- The induction is on the room. Every visit lengthens the trail, which stays
shorter than `bound` while a key waits; so the room does not run out. -/
theorem ends_explore [Std.TransOrd α] [Std.LawfulEqOrd α]
    {schedule : List α → List α → List α}
    (fair : ∀ found rest key,
      key ∈ schedule found rest ↔ key ∈ found ∨ key ∈ rest)
    {neighbours : α → Except ε (List α)} {starts bound : List α}
    (bounded : ∀ key, Reachable neighbours starts key →
      Answers neighbours key → key ∈ bound)
    (room : Nat) {waiting : List α} {visited : Visited α}
    (progress : Progress neighbours starts waiting visited)
    (enough : bound.length ≤ room + visited.trail.length) :
    Ends neighbours starts
      (explore schedule neighbours room waiting visited) := by
  fun_induction explore schedule neighbours room waiting visited with
  | case1 room waiting visited remaining =>
      have skipped := progress.skip
      rw [remaining] at skipped
      exact skipped.finished
  | case2 room waiting visited key rest remaining failure answer =>
      have skipped := progress.skip
      rw [remaining] at skipped
      exact ⟨key, skipped.waitingReachable key List.mem_cons_self, answer⟩
  | case3 waiting visited key rest remaining found answer =>
      have skipped := progress.skip
      rw [remaining] at skipped
      have := skipped.trail_length_lt bounded
        (contains_of_dropWhile remaining) answer
      omega
  | case4 waiting visited key rest remaining found room answer
      inductionHypothesis =>
      have skipped := progress.skip
      rw [remaining] at skipped
      refine inductionHypothesis
        (skipped.visit (contains_of_dropWhile remaining) answer
          (fair found rest)) ?_
      simp only [Visited.add, List.length_cons]
      omega

theorem ends_depthFirst [Std.TransOrd α] [Std.LawfulEqOrd α]
    {neighbours : α → Except ε (List α)} {starts bound : List α}
    (bounded : ∀ key, Reachable neighbours starts key →
      Answers neighbours key → key ∈ bound)
    {room : Nat} (enough : bound.length ≤ room) :
    Ends neighbours starts (depthFirst room neighbours starts) :=
  ends_explore (fun _ _ _ => List.mem_append) bounded room
    (progress_start neighbours starts) (by simpa using enough)

/-- A search whose first start fails ends there. -/
theorem explore_eq_error {schedule : List α → List α → List α}
    {neighbours : α → Except ε (List α)} {room : Nat} {start : α}
    {rest : List α} {failure : ε} (fails : neighbours start = .error failure) :
    explore schedule neighbours room (start :: rest) {} = .error failure := by
  have fresh : (start :: rest).dropWhile ({} : Visited α).contains =
      start :: rest := by
    simp [Visited.contains]
  unfold explore
  rw [fresh]
  simp only [fails]

/-- A search that ends well has asked for the neighbours of its start. -/
theorem answers_of_depthFirst {neighbours : α → Except ε (List α)}
    {room : Nat} {start : α} {visited : Visited α}
    (isVisited : depthFirst room neighbours [start] = .ok visited) :
    Answers neighbours start := by
  cases answer : neighbours start with
  | ok found =>
      exact ⟨found, answer⟩
  | error failure =>
      rw [depthFirst, explore_eq_error answer] at isVisited
      cases isVisited

/-- A search that comes by no failing key ends with everything visited. -/
theorem exists_explore [Std.TransOrd α] [Std.LawfulEqOrd α]
    {schedule : List α → List α → List α}
    (fair : ∀ found rest key,
      key ∈ schedule found rest ↔ key ∈ found ∨ key ∈ rest)
    {neighbours : α → Except ε (List α)} {starts bound : List α}
    (answers : ∀ key, Reachable neighbours starts key →
      Answers neighbours key ∧ key ∈ bound)
    {room : Nat} (enough : bound.length ≤ room) :
    ∃ visited, explore schedule neighbours room starts {} = .ok visited ∧
      Finished neighbours starts visited := by
  have ends := ends_explore fair
    (fun key reachable _ => (answers key reachable).2) room
    (progress_start neighbours starts) (by simpa using enough)
  cases result : explore schedule neighbours room starts {} with
  | ok visited =>
      rw [result] at ends
      exact ⟨visited, rfl, ends⟩
  | error failure =>
      rw [result] at ends
      obtain ⟨key, reachable, failed⟩ := ends
      obtain ⟨found, answer⟩ := (answers key reachable).1
      rw [failed] at answer
      cases answer

theorem exists_depthFirst [Std.TransOrd α] [Std.LawfulEqOrd α]
    {neighbours : α → Except ε (List α)} {starts bound : List α}
    (answers : ∀ key, Reachable neighbours starts key →
      Answers neighbours key ∧ key ∈ bound)
    {room : Nat} (enough : bound.length ≤ room) :
    ∃ visited, depthFirst room neighbours starts = .ok visited ∧
      Finished neighbours starts visited :=
  exists_explore (fun _ _ _ => List.mem_append) answers enough

theorem exists_breadthFirst [Std.TransOrd α] [Std.LawfulEqOrd α]
    {neighbours : α → Except ε (List α)} {starts bound : List α}
    (answers : ∀ key, Reachable neighbours starts key →
      Answers neighbours key ∧ key ∈ bound)
    {room : Nat} (enough : bound.length ≤ room) :
    ∃ visited, breadthFirst room neighbours starts = .ok visited ∧
      Finished neighbours starts visited :=
  exists_explore
    (fun _ _ _ => List.mem_append.trans or_comm) answers enough

/-- Visits only lengthen the trail. -/
theorem trail_suffix_explore {schedule : List α → List α → List α}
    {neighbours : α → Except ε (List α)} {room : Nat} {waiting : List α}
    {visited after : Visited α}
    (isAfter : explore schedule neighbours room waiting visited = .ok after) :
    visited.trail <:+ after.trail := by
  fun_induction explore schedule neighbours room waiting visited with
  | case1 room waiting visited remaining =>
      cases isAfter
      exact List.suffix_rfl
  | case2 room waiting visited key rest remaining failure answer =>
      cases isAfter
  | case3 waiting visited key rest remaining found answer =>
      cases isAfter
      exact List.suffix_rfl
  | case4 waiting visited key rest remaining found room answer
      inductionHypothesis =>
      exact (List.suffix_cons key visited.trail).trans
        (inductionHypothesis isAfter)

/-- The start is visited first. -/
theorem prefix_inOrder_breadthFirst
    {neighbours : α → Except ε (List α)} {room : Nat} {start : α}
    {after : Visited α}
    (isAfter : breadthFirst (room + 1) neighbours [start] = .ok after) :
    [start] <+: after.inOrder := by
  have fresh : [start].dropWhile ({} : Visited α).contains = [start] := by
    simp [Visited.contains]
  rw [breadthFirst] at isAfter
  unfold explore at isAfter
  rw [fresh] at isAfter
  cases answer : neighbours start with
  | error failure =>
      simp only [answer] at isAfter
      cases isAfter
  | ok found =>
      simp only [answer] at isAfter
      exact List.reverse_prefix.mpr (trail_suffix_explore isAfter)

end Exploring

end ContentModel.Search
