import ContentModel.Fault

/-!
# Chains of computations that may end in a fault
-/

namespace ContentModel

universe u v w

variable {α β : Type u}

@[simp] theorem ok_bind {ε : Type v} (value : α) (next : α → Except ε β) :
    ((.ok value : Except ε α) >>= next) = next value :=
  rfl

theorem bind_eq_ok_iff {ε : Type v} {first : Except ε α}
    {next : α → Except ε β} {result : β} :
    (first >>= next) = .ok result ↔
      ∃ value, first = .ok value ∧ next value = .ok result := by
  cases first with
  | error failure =>
      constructor
      · intro impossible
        cases impossible
      · rintro ⟨value, impossible, _⟩
        cases impossible
  | ok value =>
      constructor
      · intro isNext
        exact ⟨value, rfl, isNext⟩
      · rintro ⟨other, same, isNext⟩
        cases same
        exact isNext

/-- If no member of a list fails, all of them give their results. -/
theorem mapM_eq_ok_of_forall {ε : Type v} {items : List α}
    {compute : α → Except ε β} {result : α → β}
    (each : ∀ item ∈ items, compute item = .ok (result item)) :
    items.mapM compute = .ok (items.map result) := by
  induction items with
  | nil =>
      rfl
  | cons head tail inductionHypothesis =>
      have first := each head List.mem_cons_self
      have rest := inductionHypothesis fun item member =>
        each item (List.mem_cons_of_mem head member)
      rw [List.mapM_cons, first, rest]
      rfl

/-- Every result of a list is that of one of its members. -/
theorem exists_of_mem_mapM {ε : Type v} {items : List α}
    {compute : α → Except ε β} {results : List β}
    (isResults : items.mapM compute = .ok results) {result : β}
    (member : result ∈ results) :
    ∃ item ∈ items, compute item = .ok result := by
  induction items generalizing results with
  | nil =>
      cases isResults
      exact absurd member List.not_mem_nil
  | cons head tail inductionHypothesis =>
      rw [List.mapM_cons, bind_eq_ok_iff] at isResults
      obtain ⟨first, isFirst, isResults⟩ := isResults
      obtain ⟨rest, isRest, same⟩ := bind_eq_ok_iff.mp isResults
      cases same
      rcases List.mem_cons.mp member with rfl | later
      · exact ⟨head, List.mem_cons_self, isFirst⟩
      · obtain ⟨item, isItem, computed⟩ := inductionHypothesis isRest later
        exact ⟨item, List.mem_cons_of_mem head isItem, computed⟩

/-- If two computations give the same result for each member of a list, they
give the same results for the list. -/
theorem exists_mapM_mirrored {ι : Type w} {γ : Type u} {ε : Type v}
    {items : List ι} {leftOf : ι → α} {rightOf : ι → β}
    {left : α → Except ε γ} {right : β → Except ε γ}
    (each : ∀ item ∈ items, ∃ result,
      left (leftOf item) = .ok result ∧ right (rightOf item) = .ok result) :
    ∃ results, (items.map leftOf).mapM left = .ok results ∧
      (items.map rightOf).mapM right = .ok results := by
  induction items with
  | nil =>
      exact ⟨[], rfl, rfl⟩
  | cons head tail inductionHypothesis =>
      obtain ⟨first, isLeft, isRight⟩ := each head List.mem_cons_self
      obtain ⟨rest, isLeftRest, isRightRest⟩ :=
        inductionHypothesis fun item member =>
          each item (List.mem_cons_of_mem head member)
      refine ⟨first :: rest, ?_, ?_⟩
      · rw [List.map_cons, List.mapM_cons, isLeft, isLeftRest]
        rfl
      · rw [List.map_cons, List.mapM_cons, isRight, isRightRest]
        rfl

end ContentModel
