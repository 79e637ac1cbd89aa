import ContentModel.AtomMap.Lookup

/-!
# Looking up by halving

The entries of a table in an array are searched by halving: the name is compared
with that of the entry in the middle, and the search goes on before it or behind
it. This is right only as long as the entries ascend, and they do because every
earlier search gave the right place for a new one.

Main statements: `lookUp_toArray`, halving finds what the table finds, and
`put_toArray`, an entry that is put where halving says makes the same table.
-/

namespace ContentModel.AtomMap

universe u

variable {β : Type u}

/-! ## The search -/

/-- Where a name stands among so many entries. -/
inductive Place (size : Nat) where
  /-- The entry of this number bears the name. -/
  | found (index : Fin size)
  /-- No entry bears the name, and one that does comes before the entry of this
  number. -/
  | missing (index : Fin (size + 1))

/-- Looks for a name among the entries from `low` to below `high`. -/
def seekBetween (entries : Array (Atom × β)) (name : String)
    (low high : Nat) (ordered : low ≤ high) (within : high ≤ entries.size) :
    Place entries.size :=
  if nonempty : low < high then
    let middle := low + (high - low) / 2
    have middleWithin : middle < high := by omega
    match compare entries[middle].1.name name with
    | .lt => seekBetween entries name (middle + 1) high middleWithin within
    | .eq => .found ⟨middle, Nat.lt_of_lt_of_le middleWithin within⟩
    | .gt =>
      seekBetween entries name low middle (Nat.le_add_right low _)
        (Nat.le_trans (Nat.le_of_lt middleWithin) within)
  else
    .missing ⟨low, Nat.lt_succ_of_le (Nat.le_trans ordered within)⟩
termination_by high - low

def seek (entries : Array (Atom × β)) (name : String) : Place entries.size :=
  seekBetween entries name 0 entries.size (Nat.zero_le _) (Nat.le_refl _)

/-- The value under a name. -/
def lookUp (entries : Array (Atom × β)) (name : String) : Option β :=
  match seek entries name with
  | .found index => some entries[index].2
  | .missing _ => none

/-- Puts a value under the name of `atom`, and gives the one that it
replaces. -/
def put (entries : Array (Atom × β)) (atom : Atom) (value : β) :
    Option β × Array (Atom × β) :=
  match seek entries atom.name with
  | .found index =>
    (some entries[index].2,
      entries.modify index fun entry => (entry.1, value))
  | .missing index =>
    (none,
      entries.insertIdx index (atom, value) (Nat.le_of_lt_succ index.isLt))

/-! ## What the search comes to -/

/-- A name stands at this place: the entries before it are below the name, and
those behind it are above. -/
inductive StandsAt (entries : Array (Atom × β)) (name : String) :
    Place entries.size → Prop
  | found {index : Fin entries.size} :
      entries[index].1.name = name →
      StandsAt entries name (.found index)
  | missing {index : Fin (entries.size + 1)} :
      (∀ other (present : other < entries.size), other < index.val →
        entries[other].1.name < name) →
      (∀ other (present : other < entries.size), index.val ≤ other →
        name < entries[other].1.name) →
      StandsAt entries name (.missing index)

section Search

variable {entries : Array (Atom × β)} {name : String}
  (ascending :
    entries.toList.Pairwise fun left right => left.1.name < right.1.name)

include ascending

private theorem getElem_lt {first second : Nat} (before : first < second)
    (present : second < entries.size) :
    entries[first].1.name < entries[second].1.name := by
  have below := List.pairwise_iff_getElem.mp ascending first second
    (Nat.lt_trans before present) present before
  simpa using below

/-- The induction follows the halving: what was left out before `low` is below
the name, and what was left out from `high` on is above it. -/
private theorem standsAt_seekBetween {low high : Nat} {ordered : low ≤ high}
    {within : high ≤ entries.size}
    (below : ∀ other (present : other < entries.size), other < low →
      entries[other].1.name < name)
    (above : ∀ other (present : other < entries.size), high ≤ other →
      name < entries[other].1.name) :
    StandsAt entries name
      (seekBetween entries name low high ordered within) := by
  fun_induction seekBetween entries name low high ordered within with
  | case1 low high ordered within nonempty middle middleWithin isBelow
      inductionHypothesis =>
      have middleBelow : entries[middle].1.name < name :=
        compareOfLessAndEq_eq_lt.mp isBelow
      refine inductionHypothesis ?_ above
      intro other present before
      rcases Nat.lt_or_eq_of_le (Nat.le_of_lt_succ before) with earlier | same
      · exact String.lt_trans
          (getElem_lt ascending earlier (by omega)) middleBelow
      · subst same
        exact middleBelow
  | case2 low high ordered within nonempty middle middleWithin isSame =>
      exact StandsAt.found (Std.LawfulEqCmp.compare_eq_iff_eq.mp isSame)
  | case3 low high ordered within nonempty middle middleWithin isAbove
      inductionHypothesis =>
      have isBelow : compare name entries[middle].1.name = .lt :=
        Std.OrientedCmp.gt_iff_lt.mp isAbove
      have middleAbove : name < entries[middle].1.name :=
        compareOfLessAndEq_eq_lt.mp isBelow
      refine inductionHypothesis below ?_
      intro other present behind
      rcases Nat.lt_or_eq_of_le behind with later | same
      · exact String.lt_trans middleAbove (getElem_lt ascending later present)
      · subst same
        exact middleAbove
  | case4 low high ordered within isEmpty =>
      have same : low = high := by omega
      subst same
      exact StandsAt.missing below above

end Search

theorem standsAt_seek {entries : Array (Atom × β)} (name : String)
    (ascending :
      entries.toList.Pairwise fun left right => left.1.name < right.1.name) :
    StandsAt entries name (seek entries name) := by
  refine standsAt_seekBetween ascending ?_ ?_
  · intro other _ impossible
    exact absurd impossible (Nat.not_lt_zero other)
  · intro other present behind
    exact absurd present (Nat.not_lt_of_le behind)

/-! ## The entries of a table -/

/-- Halving finds in the entries of a table what the table finds. -/
theorem lookUp_toArray (table : AtomMap β) (name : String) :
    lookUp table.entries.toArray name = table.find? name := by
  have stands : StandsAt table.entries.toArray name _ :=
    standsAt_seek name table.ascending
  rw [lookUp]
  generalize seek table.entries.toArray name = place at stands
  cases stands with
  | @found index same =>
      symm
      rw [find?_eq_some_iff]
      exact ⟨table.entries.toArray[index].1,
        Array.mem_toList_iff.mpr (Array.getElem_mem index.isLt), same⟩
  | @missing index below above =>
      symm
      rw [Option.eq_none_iff_forall_ne_some]
      intro value isFound
      obtain ⟨atom, member, same⟩ := (find?_eq_some_iff ..).mp isFound
      obtain ⟨other, present, isOther⟩ := List.mem_iff_getElem.mp member
      have otherName : table.entries[other].1.name = name := by
        rw [isOther]
        exact same
      by_cases before : other < index.val
      · exact String.lt_irrefl name (otherName ▸ below other present before)
      · exact String.lt_irrefl name
          (otherName ▸ above other present (Nat.le_of_not_lt before))

/-- Putting an entry where halving says is entering it into the table. -/
theorem put_toArray (table : AtomMap β) (atom : Atom) (value : β) :
    put table.entries.toArray atom value =
      (table.find? atom.name, (table.insert atom value).entries.toArray) := by
  have sameFound := lookUp_toArray table atom.name
  have stands : StandsAt table.entries.toArray atom.name _ :=
    standsAt_seek atom.name table.ascending
  rw [lookUp] at sameFound
  rw [put, ← sameFound]
  generalize seek table.entries.toArray atom.name = place at stands
  cases stands with
  | @found index same =>
      have entered := alterEntries_eq_modify (fun _ => value)
        table.ascending index.isLt same
      simp only [insert, alter, entered, List.modify_toArray]
  | @missing index below above =>
      have entered := alterEntries_eq_insertIdx (fun _ => value)
        (Nat.le_of_lt_succ index.isLt) below above
      simp only [insert, alter, entered, List.insertIdx_toArray]

end ContentModel.AtomMap
