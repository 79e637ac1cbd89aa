/-!
# Tables in order of entry

A table lists its values in the order in which their names were entered first.
Changing the value of a present name leaves it in its place.
-/

namespace ContentModel

universe u

/-- A table from names to values, each name once. -/
structure Register (β : Type u) where
  entries : List (String × β)
  distinct : entries.Pairwise fun left right => left.1 ≠ right.1
  deriving DecidableEq

namespace Register

variable {β : Type u}

/-! ## Changing entries -/

/-- Changes the value under a name, or enters one behind all others. -/
def alterEntries (name : String) (change : Option β → β) :
    List (String × β) → List (String × β)
  | [] => [(name, change none)]
  | (key, value) :: rest =>
    if key = name then
      (key, change (some value)) :: rest
    else
      (key, value) :: alterEntries name change rest

/-- Every entry after a change bears the changed name or a name that was
there. -/
theorem name_mem_alterEntries {name : String} {change : Option β → β}
    {entries : List (String × β)} {entry : String × β}
    (member : entry ∈ alterEntries name change entries) :
    entry.1 = name ∨ ∃ old ∈ entries, old.1 = entry.1 := by
  induction entries with
  | nil =>
      rw [alterEntries, List.mem_singleton] at member
      exact Or.inl (by rw [member])
  | cons head tail inductionHypothesis =>
      obtain ⟨key, value⟩ := head
      rw [alterEntries] at member
      by_cases same : key = name
      · rw [if_pos same] at member
        cases List.mem_cons.mp member with
        | inl isHead =>
            exact Or.inl (by rw [isHead, same])
        | inr later =>
            exact Or.inr ⟨entry, List.mem_cons_of_mem _ later, rfl⟩
      · rw [if_neg same] at member
        cases List.mem_cons.mp member with
        | inl isHead =>
            exact Or.inr ⟨(key, value), List.mem_cons_self, by rw [isHead]⟩
        | inr later =>
            cases inductionHypothesis later with
            | inl isName =>
                exact Or.inl isName
            | inr wasThere =>
                obtain ⟨old, isOld, sameName⟩ := wasThere
                exact Or.inr ⟨old, List.mem_cons_of_mem _ isOld, sameName⟩

theorem distinct_alterEntries (name : String) (change : Option β → β)
    {entries : List (String × β)}
    (distinct : entries.Pairwise fun left right => left.1 ≠ right.1) :
    (alterEntries name change entries).Pairwise fun left right =>
      left.1 ≠ right.1 := by
  induction entries with
  | nil =>
      exact List.pairwise_singleton _ _
  | cons head tail inductionHypothesis =>
      obtain ⟨key, value⟩ := head
      obtain ⟨headDiffers, tailDistinct⟩ := List.pairwise_cons.mp distinct
      rw [alterEntries]
      by_cases same : key = name
      · rw [if_pos same]
        exact List.pairwise_cons.mpr ⟨headDiffers, tailDistinct⟩
      · rw [if_neg same]
        refine List.pairwise_cons.mpr ⟨?_, inductionHypothesis tailDistinct⟩
        intro entry member
        cases name_mem_alterEntries member with
        | inl isName =>
            rw [isName]
            exact same
        | inr wasThere =>
            obtain ⟨old, isOld, sameName⟩ := wasThere
            rw [← sameName]
            exact headDiffers old isOld

/-! ## Operations -/

def empty : Register β :=
  ⟨[], List.Pairwise.nil⟩

instance : EmptyCollection (Register β) :=
  ⟨empty⟩

instance : Inhabited (Register β) :=
  ⟨empty⟩

def find? (table : Register β) (name : String) : Option β :=
  (table.entries.find? (·.1 == name)).map Prod.snd

def contains (table : Register β) (name : String) : Bool :=
  (table.find? name).isSome

/-- Gives a name a new value made from the old one. -/
def alter (table : Register β) (name : String) (change : Option β → β) :
    Register β :=
  ⟨alterEntries name change table.entries,
    distinct_alterEntries name change table.distinct⟩

/-- Enters a value, in place of the one under the same name if there is one. -/
def insert (table : Register β) (name : String) (value : β) : Register β :=
  table.alter name fun _ => value

/-- The values in the order in which their names were entered. -/
def values (table : Register β) : List β :=
  table.entries.map Prod.snd

def size (table : Register β) : Nat :=
  table.entries.length

def isEmpty (table : Register β) : Bool :=
  table.entries.isEmpty

end Register

end ContentModel
