import Std.Data.TreeSet

/-!
# Searching a graph

A search visits keys one at a time. Each key is visited once; visiting it asks
for its neighbours, which may fail, and puts them before or behind the keys
that still wait. The order of visits is part of the result.

`room` bounds how many keys can still be new. It is at least the number of keys
that have neighbours, so a search ends because nothing waits any more.
-/

namespace ContentModel

universe u v

/-- What a search has visited. -/
structure Visited (α : Type u) [Ord α] where
  /-- The visited keys, the latest first. -/
  trail : List α := []
  /-- The same keys in their order. -/
  members : Std.TreeSet α compare := ∅

namespace Visited

variable {α : Type u} [Ord α]

def contains (visited : Visited α) (key : α) : Bool :=
  visited.members.contains key

def add (visited : Visited α) (key : α) : Visited α :=
  ⟨key :: visited.trail, visited.members.insert key⟩

/-- The visited keys, the earliest first. -/
def inOrder (visited : Visited α) : List α :=
  visited.trail.reverse

/-- The visited keys, ascending. -/
def ascending (visited : Visited α) : List α :=
  visited.members.toList

end Visited

namespace Search

variable {α : Type u} [Ord α] {ε : Type v}

/-- Visits the waiting keys from the front. `schedule` says where the
neighbours of a visited key go among those that wait. -/
def explore (schedule : List α → List α → List α)
    (neighbours : α → Except ε (List α)) :
    Nat → List α → Visited α → Except ε (Visited α)
  | room, waiting, visited =>
    match waiting.dropWhile visited.contains with
    | [] => .ok visited
    | key :: rest =>
      match neighbours key, room with
      | .error failure, _ => .error failure
      | .ok _, 0 => .ok visited
      | .ok found, room + 1 =>
        explore schedule neighbours room (schedule found rest)
          (visited.add key)

/-- Follows the first neighbour before it turns to the next one. -/
def depthFirst (room : Nat) (neighbours : α → Except ε (List α))
    (starts : List α) : Except ε (Visited α) :=
  explore (· ++ ·) neighbours room starts {}

/-- Visits all neighbours of a key before it turns to theirs. -/
def breadthFirst (room : Nat) (neighbours : α → Except ε (List α))
    (starts : List α) : Except ε (Visited α) :=
  explore (fun found rest => rest ++ found) neighbours room starts {}

end Search

end ContentModel
