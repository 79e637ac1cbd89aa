import ContentModel.AtomMap

/-!
# Looking up in a table

Main statements: `entryOf?_alter` and `find?_alter` give a look-up after a
change, `entryOf?_eq_some_iff` reads a look-up off the entries,
`alterEntries_eq_modify` and `alterEntries_eq_insertIdx` say where a change is
made, and `ext_find` says that a table is determined by its look-ups.
-/

namespace ContentModel.AtomMap

universe u v

variable {β : Type u} {γ : Type v}

/-- Among ascending entries, a name is found exactly where it is entered. -/
private theorem find?_entries_eq_some_iff
    {entries : List (Atom × β)}
    (ascending :
      entries.Pairwise fun left right => left.1.name < right.1.name)
    (name : String) (entry : Atom × β) :
    entries.find? (·.1.name == name) = some entry ↔
      entry ∈ entries ∧ entry.1.name = name := by
  induction entries with
  | nil =>
      simp
  | cons head tail inductionHypothesis =>
      obtain ⟨headBelow, tailAscending⟩ := List.pairwise_cons.mp ascending
      rw [List.find?_cons]
      by_cases same : head.1.name = name
      · simp only [same, beq_self_eq_true, Option.some.injEq]
        constructor
        · rintro rfl
          exact ⟨List.mem_cons_self, same⟩
        · rintro ⟨member, entryName⟩
          rcases List.mem_cons.mp member with rfl | later
          · rfl
          · have below := headBelow entry later
            rw [same, entryName] at below
            exact absurd below (String.lt_irrefl name)
      · simp only [beq_eq_false_iff_ne.mpr same,
          inductionHypothesis tailAscending, List.mem_cons]
        constructor
        · rintro ⟨member, entryName⟩
          exact ⟨Or.inr member, entryName⟩
        · rintro ⟨rfl | member, entryName⟩
          · exact absurd entryName same
          · exact ⟨member, entryName⟩

theorem entryOf?_eq_some_iff
    (table : AtomMap β) (name : String) (entry : Atom × β) :
    table.entryOf? name = some entry ↔
      entry ∈ table.entries ∧ entry.1.name = name :=
  find?_entries_eq_some_iff table.ascending name entry

theorem find?_eq_some_iff
    (table : AtomMap β) (name : String) (value : β) :
    table.find? name = some value ↔
      ∃ atom, (atom, value) ∈ table.entries ∧ atom.name = name := by
  simp only [find?, Option.map_eq_some_iff, entryOf?_eq_some_iff]
  constructor
  · rintro ⟨⟨atom, found⟩, ⟨member, same⟩, rfl⟩
    exact ⟨atom, member, same⟩
  · rintro ⟨atom, member, same⟩
    exact ⟨(atom, value), ⟨member, same⟩, rfl⟩

@[simp] theorem entryOf?_empty (name : String) :
    (∅ : AtomMap β).entryOf? name = none :=
  rfl

@[simp] theorem find?_empty (name : String) :
    (∅ : AtomMap β).find? name = none :=
  rfl

private theorem find?_eq_none_of_above {entries : List (Atom × β)}
    {name : String} (above : ∀ entry ∈ entries, name < entry.1.name) :
    entries.find? (·.1.name == name) = none := by
  rw [List.find?_eq_none]
  intro entry member found
  have below := above entry member
  rw [beq_iff_eq.mp found] at below
  exact String.lt_irrefl _ below

private theorem find?_alterEntries
    (atom : Atom) (change : Option β → β) {entries : List (Atom × β)}
    (ascending :
      entries.Pairwise fun left right => left.1.name < right.1.name)
    (name : String) :
    (alterEntries atom change entries).find? (·.1.name == name) =
      if name = atom.name then
        some <|
          match entries.find? (·.1.name == name) with
          | some (key, value) => (key, change (some value))
          | none => (atom, change none)
      else
        entries.find? (·.1.name == name) := by
  induction entries with
  | nil =>
      by_cases same : name = atom.name
      · simp [alterEntries, same]
      · simp [alterEntries, same, Ne.symm same]
  | cons head tail inductionHypothesis =>
      obtain ⟨key, value⟩ := head
      obtain ⟨headBelow, tailAscending⟩ := List.pairwise_cons.mp ascending
      simp only [alterEntries]
      split
      · rename_i below
        by_cases same : name = atom.name
        · subst same
          have above : ∀ entry ∈ (key, value) :: tail,
              atom.name < entry.1.name := by
            intro entry member
            rcases List.mem_cons.mp member with rfl | later
            · exact below
            · exact String.lt_trans below (headBelow entry later)
          rw [find?_eq_none_of_above above]
          simp
        · rw [List.find?_cons]
          simp [same, beq_eq_false_iff_ne.mpr (Ne.symm same)]
      · split
        · rename_i notBelow equal
          by_cases same : name = atom.name
          · simp [same, equal]
          · have keyOther : key.name ≠ name := by
              rw [← equal]
              exact Ne.symm same
            simp [same, keyOther]
        · rename_i notBelow different
          rw [List.find?_cons, inductionHypothesis tailAscending]
          by_cases same : name = atom.name
          · simp [same, beq_eq_false_iff_ne.mpr (Ne.symm different)]
          · by_cases keySame : key.name = name
            · simp [same, keySame]
            · simp [same, beq_eq_false_iff_ne.mpr keySame]

/-- After a change the entry under the changed name keeps its atom and has the
new value; every other name keeps its entry. -/
theorem entryOf?_alter
    (table : AtomMap β) (atom : Atom) (change : Option β → β)
    (name : String) :
    (table.alter atom change).entryOf? name =
      if name = atom.name then
        some <|
          match table.entryOf? name with
          | some (key, value) => (key, change (some value))
          | none => (atom, change none)
      else
        table.entryOf? name :=
  find?_alterEntries atom change table.ascending name

/-- After a change the changed name has the new value, every other name its
old one. -/
theorem find?_alter
    (table : AtomMap β) (atom : Atom) (change : Option β → β)
    (name : String) :
    (table.alter atom change).find? name =
      if name = atom.name then some (change (table.find? name))
      else table.find? name := by
  simp only [find?, entryOf?_alter]
  split
  · cases table.entryOf? name with
    | none => rfl
    | some entry => rfl
  · rfl

theorem find?_insert
    (table : AtomMap β) (atom : Atom) (value : β) (name : String) :
    (table.insert atom value).find? name =
      if name = atom.name then some value else table.find? name :=
  find?_alter table atom (fun _ => value) name

/-! ## Changes at a place -/

/-- A change goes on behind the names that are below its own. -/
private theorem alterEntries_cons_of_lt {atom : Atom}
    {change : Option β → β} {head : Atom × β} {tail : List (Atom × β)}
    (below : head.1.name < atom.name) :
    alterEntries atom change (head :: tail) =
      head :: alterEntries atom change tail := by
  have different : atom.name ≠ head.1.name := by
    intro same
    rw [same] at below
    exact String.lt_irrefl _ below
  rw [alterEntries, if_neg (String.lt_asymm below), if_neg different]

/-- A value that is changed where its name stands. -/
theorem alterEntries_eq_modify {atom : Atom} (change : Option β → β)
    {entries : List (Atom × β)} {index : Nat}
    (ascending :
      entries.Pairwise fun left right => left.1.name < right.1.name)
    (present : index < entries.length)
    (same : entries[index].1.name = atom.name) :
    alterEntries atom change entries =
      entries.modify index fun entry => (entry.1, change (some entry.2)) := by
  induction entries generalizing index with
  | nil =>
      exact absurd present (Nat.not_lt_zero index)
  | cons head tail inductionHypothesis =>
      obtain ⟨headBelow, tailAscending⟩ := List.pairwise_cons.mp ascending
      cases index with
      | zero =>
          have same : head.1.name = atom.name := same
          rw [alterEntries, same, if_neg (String.lt_irrefl _), if_pos rfl]
          rfl
      | succ index =>
          have present : index < tail.length := Nat.lt_of_succ_lt_succ present
          have same : tail[index].1.name = atom.name := same
          have below : head.1.name < atom.name := by
            rw [← same]
            exact headBelow _ (List.getElem_mem present)
          rw [alterEntries_cons_of_lt below,
            inductionHypothesis tailAscending present same]
          rfl

/-- A name that is entered between those below it and those above it. -/
theorem alterEntries_eq_insertIdx {atom : Atom} (change : Option β → β)
    {entries : List (Atom × β)} {index : Nat}
    (fits : index ≤ entries.length)
    (below : ∀ other (present : other < entries.length), other < index →
      entries[other].1.name < atom.name)
    (above : ∀ other (present : other < entries.length), index ≤ other →
      atom.name < entries[other].1.name) :
    alterEntries atom change entries =
      entries.insertIdx index (atom, change none) := by
  induction entries generalizing index with
  | nil =>
      rw [Nat.le_zero.mp fits]
      rfl
  | cons head tail inductionHypothesis =>
      cases index with
      | zero =>
          have headAbove : atom.name < head.1.name :=
            above 0 (Nat.zero_lt_succ _) (Nat.le_refl 0)
          rw [alterEntries, if_pos headAbove]
          rfl
      | succ index =>
          have headBelow : head.1.name < atom.name :=
            below 0 (Nat.zero_lt_succ _) (Nat.zero_lt_succ _)
          have further := inductionHypothesis (Nat.le_of_succ_le_succ fits)
            (fun other present before => below (other + 1)
              (Nat.succ_lt_succ present) (Nat.succ_lt_succ before))
            (fun other present behind => above (other + 1)
              (Nat.succ_lt_succ present) (Nat.succ_le_succ behind))
          rw [alterEntries_cons_of_lt headBelow, further]
          rfl

/-- A name behind all names of a table is entered at its end. -/
theorem entries_insert_of_above {table : AtomMap β} {atom : Atom}
    (above : ∀ entry ∈ table.entries, entry.1.name < atom.name) (value : β) :
    (table.insert atom value).entries = table.entries ++ [(atom, value)] := by
  have entered := alterEntries_eq_insertIdx (fun _ => value) (Nat.le_refl _)
    (fun _ present _ => above _ (List.getElem_mem present))
    (fun _ present behind => absurd present (Nat.not_lt_of_le behind))
  rw [List.insertIdx_length_self] at entered
  exact entered

/-! ## Look-ups and the whole table -/

theorem entryOf?_map
    (change : β → γ) (table : AtomMap β) (name : String) :
    (table.map change).entryOf? name =
      (table.entryOf? name).map fun entry => (entry.1, change entry.2) := by
  simp only [entryOf?, map, List.find?_map]
  rfl

theorem find?_map (change : β → γ) (table : AtomMap β) (name : String) :
    (table.map change).find? name = (table.find? name).map change := by
  simp only [find?, entryOf?_map, Option.map_map]
  rfl

theorem mem_values_iff (table : AtomMap β) (value : β) :
    value ∈ table.values ↔ ∃ name, table.find? name = some value := by
  rw [values, List.mem_map]
  constructor
  · intro listed
    obtain ⟨⟨atom, listedValue⟩, member, same⟩ := listed
    cases same
    exact ⟨atom.name,
      (find?_eq_some_iff table atom.name listedValue).mpr
        ⟨atom, member, rfl⟩⟩
  · intro found
    obtain ⟨name, isFound⟩ := found
    obtain ⟨atom, member, _⟩ := (find?_eq_some_iff table name value).mp isFound
    exact ⟨(atom, value), member, rfl⟩

theorem exists_find?_of_mem_atoms {table : AtomMap β} {atom : Atom}
    (member : atom ∈ table.atoms) :
    ∃ value, table.find? atom.name = some value := by
  obtain ⟨⟨key, value⟩, listed, same⟩ := List.mem_map.mp member
  cases same
  exact ⟨value, (find?_eq_some_iff table key.name value).mpr
    ⟨key, listed, rfl⟩⟩

theorem contains_eq_isSome_find? (table : AtomMap β) (name : String) :
    table.contains name = (table.find? name).isSome := by
  simp [contains, find?]

private theorem ne_of_name_lt {left right : Atom × β}
    (below : left.1.name < right.1.name) : left ≠ right := by
  rintro rfl
  exact String.lt_irrefl _ below

/-- Two tables that find the same entries are the same table. -/
theorem ext_find {left right : AtomMap β}
    (agree : ∀ name, left.entryOf? name = right.entryOf? name) :
    left = right := by
  have sameMembers : ∀ entry, entry ∈ left.entries ↔ entry ∈ right.entries := by
    intro entry
    have leftFound := entryOf?_eq_some_iff left entry.1.name entry
    have rightFound := entryOf?_eq_some_iff right entry.1.name entry
    rw [agree] at leftFound
    simpa using leftFound.symm.trans rightFound
  have sameEntries : left.entries = right.entries := by
    refine List.Perm.eq_of_pairwise ?_ left.ascending right.ascending ?_
    · intro first second _ _ below above
      exact absurd above (String.lt_asymm below)
    · refine (List.perm_ext_iff_of_nodup ?_ ?_).mpr sameMembers
      · exact left.ascending.imp ne_of_name_lt
      · exact right.ascending.imp ne_of_name_lt
  cases left
  cases right
  simp_all

/-! ## Names and their values -/

/-- The names with their values, ascending. -/
def pairs (table : AtomMap β) : List (String × β) :=
  table.entries.map fun entry => (entry.1.name, entry.2)

theorem mem_pairs_iff (table : AtomMap β) (name : String) (value : β) :
    (name, value) ∈ table.pairs ↔ table.find? name = some value := by
  rw [pairs, List.mem_map, find?_eq_some_iff]
  constructor
  · intro listed
    obtain ⟨⟨atom, other⟩, member, same⟩ := listed
    cases same
    exact ⟨atom, member, rfl⟩
  · intro found
    obtain ⟨atom, member, same⟩ := found
    exact ⟨(atom, value), member, by rw [same]⟩

theorem pairs_map (change : β → γ) (table : AtomMap β) :
    (table.map change).pairs =
      table.pairs.map fun pair => (pair.1, change pair.2) := by
  simp only [pairs, map, List.map_map]
  rfl

theorem values_eq_pairs (table : AtomMap β) :
    table.values = table.pairs.map Prod.snd := by
  rw [pairs, values, List.map_map]
  rfl

theorem pairwise_pairs (table : AtomMap β) :
    table.pairs.Pairwise fun left right => left.1 < right.1 :=
  table.ascending.map _ fun _ _ below => below

/-- Tables that give the same values list the same names and values, whatever
their atoms are. -/
theorem pairs_eq_of_find? {left right : AtomMap β}
    (agree : ∀ name, left.find? name = right.find? name) :
    left.pairs = right.pairs := by
  have distinct : ∀ {first second : String × β},
      first.1 < second.1 → first ≠ second := by
    intro first second below same
    rw [same] at below
    exact String.lt_irrefl _ below
  refine List.Perm.eq_of_pairwise ?_ left.pairwise_pairs right.pairwise_pairs
    ((List.perm_ext_iff_of_nodup (left.pairwise_pairs.imp distinct)
      (right.pairwise_pairs.imp distinct)).mpr ?_)
  · intro first second _ _ below above
    exact absurd above (String.lt_asymm below)
  · intro pair
    rw [mem_pairs_iff, mem_pairs_iff, agree]

end ContentModel.AtomMap
