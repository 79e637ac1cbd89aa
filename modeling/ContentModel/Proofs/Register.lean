import ContentModel.Register

/-!
# Looking up in a table in order of entry

Main statements: `find?_alter` gives a look-up after a change,
`find?_eq_some_iff` reads a look-up off the entries, and `foldl_insert_entries`
says that a table is made again by entering its entries in their order.
-/

namespace ContentModel.Register

universe u

variable {β : Type u}

@[simp] theorem find?_empty (name : String) :
    (∅ : Register β).find? name = none :=
  rfl

private theorem find?_entries_cons (head : String × β)
    (tail : List (String × β)) (name : String) :
    (head :: tail).find? (·.1 == name) =
      if head.1 = name then some head else tail.find? (·.1 == name) := by
  rw [List.find?_cons]
  by_cases same : head.1 = name
  · rw [if_pos same, beq_iff_eq.mpr same]
  · rw [if_neg same, beq_eq_false_iff_ne.mpr same]

/-- Among distinct names, a value is found exactly where it is entered. -/
theorem find?_eq_some_iff (table : Register β) (name : String) (value : β) :
    table.find? name = some value ↔ (name, value) ∈ table.entries := by
  obtain ⟨entries, distinct⟩ := table
  change (entries.find? (·.1 == name)).map Prod.snd = some value ↔
    (name, value) ∈ entries
  induction entries with
  | nil =>
      simp
  | cons head tail inductionHypothesis =>
      obtain ⟨key, own⟩ := head
      obtain ⟨headDiffers, tailDistinct⟩ := List.pairwise_cons.mp distinct
      rw [List.mem_cons, find?_entries_cons]
      by_cases same : key = name
      · have notLater : (name, value) ∉ tail := by
          intro later
          exact headDiffers (name, value) later same
        rw [if_pos same, or_iff_left notLater]
        simp [same, eq_comm]
      · have notHere : ¬ (name, value) = (key, own) := by
          intro isHead
          exact same (Prod.ext_iff.mp isHead).1.symm
        rw [if_neg same, inductionHypothesis tailDistinct,
          or_iff_right notHere]

private theorem find?_alterEntries (name : String) (change : Option β → β)
    (entries : List (String × β)) (other : String) :
    ((alterEntries name change entries).find? (·.1 == other)).map Prod.snd =
      if other = name then
        some (change ((entries.find? (·.1 == name)).map Prod.snd))
      else
        (entries.find? (·.1 == other)).map Prod.snd := by
  induction entries with
  | nil =>
      by_cases isName : other = name
      · simp [alterEntries, isName]
      · simp [alterEntries, isName, Ne.symm isName]
  | cons head tail inductionHypothesis =>
      obtain ⟨key, value⟩ := head
      rw [alterEntries]
      by_cases same : key = name
      · by_cases isName : other = name
        · simp [same, isName]
        · simp [same, isName, Ne.symm isName]
      · rw [if_neg same]
        simp only [find?_entries_cons, if_neg same]
        by_cases isKey : key = other
        · have notName : other ≠ name := isKey ▸ same
          rw [if_pos isKey, if_pos isKey, if_neg notName]
        · rw [if_neg isKey, if_neg isKey, inductionHypothesis]

/-- After a change the changed name has the new value, every other name its
old one. -/
theorem find?_alter (table : Register β) (name : String)
    (change : Option β → β) (other : String) :
    (table.alter name change).find? other =
      if other = name then some (change (table.find? name))
      else table.find? other :=
  find?_alterEntries name change table.entries other

theorem find?_insert (table : Register β) (name : String) (value : β)
    (other : String) :
    (table.insert name value).find? other =
      if other = name then some value else table.find? other :=
  find?_alter table name (fun _ => value) other

theorem contains_insert_iff (table : Register β) (name : String) (value : β)
    (other : String) :
    (table.insert name value).contains other = true ↔
      other = name ∨ table.contains other = true := by
  rw [contains, contains, find?_insert]
  by_cases same : other = name
  · simp [same]
  · simp [same]

theorem mem_values_iff (table : Register β) (value : β) :
    value ∈ table.values ↔ ∃ name, table.find? name = some value := by
  simp only [find?_eq_some_iff]
  rw [values, List.mem_map]
  constructor
  · intro listed
    obtain ⟨entry, member, same⟩ := listed
    exact ⟨entry.1, same ▸ member⟩
  · intro entered
    obtain ⟨name, member⟩ := entered
    exact ⟨(name, value), member, rfl⟩

/-! ## Tables from their entries -/

private theorem alterEntries_of_absent {name : String} (change : Option β → β)
    {entries : List (String × β)} (absent : ∀ entry ∈ entries, entry.1 ≠ name) :
    alterEntries name change entries = entries ++ [(name, change none)] := by
  induction entries with
  | nil =>
      rfl
  | cons head tail inductionHypothesis =>
      rw [alterEntries, if_neg (absent head List.mem_cons_self),
        inductionHypothesis fun entry later =>
          absent entry (List.mem_cons_of_mem head later)]
      rfl

private theorem entries_foldl_insert {first rest : List (String × β)}
    (distinct : (first ++ rest).Pairwise fun left right => left.1 ≠ right.1)
    {table : Register β} (isFirst : table.entries = first) :
    (rest.foldl (fun table entry => table.insert entry.1 entry.2)
      table).entries = first ++ rest := by
  induction rest generalizing first table with
  | nil =>
      rw [List.append_nil]
      exact isFirst
  | cons entry rest inductionHypothesis =>
      have absent : ∀ earlier ∈ table.entries, earlier.1 ≠ entry.1 := by
        intro earlier member
        rw [isFirst] at member
        exact (List.pairwise_append.mp distinct).2.2 earlier member entry
          List.mem_cons_self
      have isNext : (table.insert entry.1 entry.2).entries =
          first ++ [entry] := by
        rw [← isFirst]
        exact alterEntries_of_absent (fun _ => entry.2) absent
      rw [List.append_cons] at distinct ⊢
      exact inductionHypothesis distinct isNext

/-- A table is made again by entering its entries in their order. -/
theorem foldl_insert_entries (table : Register β) :
    table.entries.foldl (fun made entry => made.insert entry.1 entry.2) ∅ =
      table := by
  obtain ⟨entries, distinct⟩ := table
  have distinctBehind : ([] ++ entries : List (String × β)).Pairwise
      fun left right => left.1 ≠ right.1 :=
    distinct
  have isEmpty : (∅ : Register β).entries = [] := rfl
  have sameEntries := entries_foldl_insert distinctBehind isEmpty
  cases isMade : entries.foldl
      (fun made entry => made.insert entry.1 entry.2) (∅ : Register β) with
  | mk made _ =>
      rw [isMade] at sameEntries
      cases sameEntries
      rfl

end ContentModel.Register
