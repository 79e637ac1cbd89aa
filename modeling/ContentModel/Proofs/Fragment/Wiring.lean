import ContentModel.Proofs.Fragment.Passage
import Mathlib.Order.CompletePartialOrder

/-!
# Fragments wired together

A fragment is placed on an interval of point numbers when it has a region
there. Intervals keep the parts of a larger fragment apart. Each theorem takes
parts as they are wired in one graph and gives the fragment that they make up:
one after the other, side by side, skipped, or in a loop.
-/

namespace ContentModel.FragmentGraph

/-- The fragment has a region among the points from `low` to below `high`, its
exit leads to `onward`, and `language` is what is read on the way through. -/
structure Placed (thorough : Prop) (graph : FragmentGraph)
    (onward : List Nat) (low high : Nat) (fragment : Fragment)
    (language : Language String) : Prop where
  region : ∃ region, region ⊆ Set.Ico low high ∧
    Region thorough graph fragment region
  onward : graph.successors fragment.exit = onward
  language : graph.language fragment = language

/-- Fragments are placed one after the other on an interval, and the exit of
each leads to `onward`. -/
inductive Laid (thorough : Prop) (graph : FragmentGraph)
    (onward : List Nat) :
    Nat → Nat → List Fragment → List (Language String) → Prop
  | nil {low high : Nat} :
      low ≤ high →
      Laid thorough graph onward low high [] []
  | cons {low middle high : Nat} {fragment : Fragment}
      {language : Language String} {fragments : List Fragment}
      {languages : List (Language String)} :
      Placed thorough graph onward low middle fragment language →
      Laid thorough graph onward middle high fragments languages →
      Laid thorough graph onward low high (fragment :: fragments)
        (language :: languages)

variable {thorough : Prop}

namespace Placed

variable {graph after : FragmentGraph} {onward : List Nat}
  {low high : Nat} {fragment : Fragment} {inner : Language String}

theorem exit_mem
    (placed : Placed thorough graph onward low high fragment inner) :
    fragment.exit ∈ Set.Ico low high := by
  obtain ⟨region, within, whole⟩ := placed.region
  exact within whole.exit_mem

theorem exit_lt_size
    (placed : Placed thorough graph onward low high fragment inner) :
    fragment.exit < graph.size := by
  obtain ⟨region, _, whole⟩ := placed.region
  exact whole.present _ whole.exit_mem

theorem low_lt_high
    (placed : Placed thorough graph onward low high fragment inner) :
    low < high :=
  Nat.lt_of_le_of_lt placed.exit_mem.1 placed.exit_mem.2

theorem widen {lower higher : Nat}
    (placed : Placed thorough graph onward low high fragment inner)
    (below : lower ≤ low) (above : high ≤ higher) :
    Placed thorough graph onward lower higher fragment inner := by
  obtain ⟨region, within, whole⟩ := placed.region
  exact
    { placed with
      region :=
        ⟨region, within.trans (Set.Ico_subset_Ico below above), whole⟩ }

/-- Further successors of the exit and changes outside the interval leave the
fragment in place. -/
theorem rewire {changed : Set Nat} {further : List Nat}
    (placed : Placed thorough graph onward low high fragment inner)
    (grows : Extends changed graph after)
    (apart : ∀ id ∈ Set.Ico low high, id ∈ changed → id = fragment.exit)
    (leads : after.successors fragment.exit = further) :
    Placed thorough after further low high fragment inner := by
  obtain ⟨region, within, whole⟩ := placed.region
  have apartRegion : ∀ id ∈ region, id ∈ changed → id = fragment.exit :=
    fun id member => apart id (within member)
  exact
    { region := ⟨region, within, whole.extend grows apartRegion⟩
      onward := leads
      language := by
        rw [whole.language_extend grows apartRegion, placed.language] }

theorem extend {changed : Set Nat}
    (placed : Placed thorough graph onward low high fragment inner)
    (grows : Extends changed graph after)
    (apart : ∀ id ∈ Set.Ico low high, id ∉ changed) :
    Placed thorough after onward low high fragment inner := by
  refine placed.rewire grows
    (fun id member isChanged => absurd isChanged (apart id member)) ?_
  rw [grows.successors _ placed.exit_lt_size (apart _ placed.exit_mem),
    placed.onward]

/-- What is read from the entry on until a further exit is passed. -/
theorem passages_entry {exit next : Nat}
    (placed : Placed thorough graph [next] low high fragment inner)
    (outside : exit ∉ Set.Ico low high) :
    graph.passages exit fragment.entry =
      inner * graph.passages exit next := by
  obtain ⟨region, within, whole⟩ := placed.region
  rw [whole.passages_eq_mul (fun member => outside (within member))
    placed.onward whole.entry_mem, ← placed.language]
  rfl

/-- A single point is a fragment that reads what is read there. -/
theorem single {id : Nat} (present : id < graph.size)
    (leads : graph.successors id = onward) :
    Placed thorough graph onward id (id + 1) (.single id)
      {graph.reading id} where
  region := by
    refine ⟨{id}, ?_, ?_⟩
    · rintro other rfl
      exact ⟨Nat.le_refl other, Nat.lt_succ_self other⟩
    · exact
        { entry_mem := rfl
          exit_mem := rfl
          present := by
            rintro other rfl
            exact present
          closed := by
            rintro other rfl different
            exact absurd rfl different
          finishes := by
            rintro other rfl _
            exact ⟨_, Passes.leave present⟩ }
  onward := leads
  language := passages_exit present

end Placed

/-! ## One after the other -/

/-- Two fragments of which the first leads to the second. -/
theorem Placed.series {graph : FragmentGraph} {onward : List Nat}
    {low₁ high₁ low₂ high₂ : Nat} {first second : Fragment}
    {inner₁ inner₂ : Language String}
    (placed₁ :
      Placed thorough graph [second.entry] low₁ high₁ first inner₁)
    (placed₂ : Placed thorough graph onward low₂ high₂ second inner₂)
    (apart : high₁ ≤ low₂ ∨ high₂ ≤ low₁) :
    Placed thorough graph onward (min low₁ low₂) (max high₁ high₂)
      ⟨first.entry, second.exit⟩ (inner₁ * inner₂) := by
  have outside : second.exit ∉ Set.Ico low₁ high₁ := by
    have := placed₂.exit_mem
    simp only [Set.mem_Ico] at this ⊢
    omega
  obtain ⟨region₁, within₁, whole₁⟩ := placed₁.region
  obtain ⟨region₂, within₂, whole₂⟩ := placed₂.region
  refine ⟨⟨region₁ ∪ region₂, ?_, ?_⟩, placed₂.onward, ?_⟩
  · refine Set.union_subset (within₁.trans ?_) (within₂.trans ?_)
    · exact Set.Ico_subset_Ico (Nat.min_le_left ..) (Nat.le_max_left ..)
    · exact Set.Ico_subset_Ico (Nat.min_le_right ..) (Nat.le_max_right ..)
  · constructor
    · exact Or.inl whole₁.entry_mem
    · exact Or.inr whole₂.exit_mem
    · rintro id (member | member)
      · exact whole₁.present id member
      · exact whole₂.present id member
    · rintro id (member | member) different next isNext
      · by_cases atExit : id = first.exit
        · subst atExit
          rw [placed₁.onward, List.mem_singleton] at isNext
          subst isNext
          exact Or.inr whole₂.entry_mem
        · exact Or.inl (whole₁.closed id member atExit next isNext)
      · exact Or.inr (whole₂.closed id member different next isNext)
    · have throughBoth : ∀ id ∈ region₁, thorough ∨ id = first.entry →
          ∃ word, graph.Passes second.exit id word := by
        intro id member must
        obtain ⟨word₁, passes₁⟩ := whole₁.finishes id member must
        obtain ⟨word₂, passes₂⟩ := whole₂.passable
        refine ⟨word₁ ++ word₂, ?_⟩
        rw [← mem_passages_iff,
          whole₁.passages_eq_mul (fun isExit => outside (within₁ isExit))
            placed₁.onward member]
        exact Language.append_mem_mul passes₁ passes₂
      rintro id (member | member) must
      · exact throughBoth id member must
      · rcases must with isThorough | isEntry
        · exact whole₂.finishes id member (Or.inl isThorough)
        · exact throughBoth id (isEntry ▸ whole₁.entry_mem) (Or.inr isEntry)
  · change graph.passages second.exit first.entry = inner₁ * inner₂
    rw [placed₁.passages_entry outside, ← placed₂.language]
    rfl

/-! ## Side by side and in a loop -/

/-- Points before the exit which a passage leaves through the exit only. -/
structure Area (thorough : Prop) (graph : FragmentGraph) (exit : Nat)
    (area : Set Nat) : Prop where
  outside : exit ∉ area
  present : ∀ id ∈ area, id < graph.size
  closed : ∀ id ∈ area, ∀ next ∈ graph.successors id,
    next ∈ area ∨ next = exit
  finishes : thorough → ∀ id ∈ area, ∃ word, graph.Passes exit id word

/-- Points before an exit and the exit itself are a region. -/
theorem Area.region {graph : FragmentGraph} {entry exit : Nat}
    {area : Set Nat} (before : Area thorough graph exit area)
    (member : entry ∈ area)
    (passable : ∃ word, graph.Passes exit entry word)
    (present : exit < graph.size) :
    Region thorough graph ⟨entry, exit⟩ (insert exit area) where
  entry_mem := Or.inr member
  exit_mem := Or.inl rfl
  present := by
    rintro id (rfl | inside)
    · exact present
    · exact before.present id inside
  closed := by
    rintro id (rfl | inside) different next isNext
    · exact absurd rfl different
    · rcases before.closed id inside next isNext with stays | rfl
      · exact Or.inr stays
      · exact Or.inl rfl
  finishes := by
    rintro id (rfl | inside) must
    · exact ⟨_, Passes.leave present⟩
    · rcases must with isThorough | rfl
      · exact before.finishes isThorough id inside
      · exact passable

/-- A further point in front of an area. -/
theorem Area.insert {graph : FragmentGraph} {choice exit : Nat}
    {area : Set Nat} (before : Area thorough graph exit area)
    (different : choice ≠ exit)
    (leads : ∀ next ∈ graph.successors choice, next ∈ area ∨ next = exit)
    (passable : ∃ word, graph.Passes exit choice word) :
    Area thorough graph exit (insert choice area) where
  outside := by
    rintro (same | inside)
    · exact different same.symm
    · exact before.outside inside
  present := by
    rintro id (rfl | inside)
    · obtain ⟨word, passes⟩ := passable
      cases passes with
      | leave _ =>
          exact absurd rfl different
      | step _ isNext _ =>
          exact lt_size_of_mem_successors isNext
    · exact before.present id inside
  closed := by
    rintro id (rfl | inside) next isNext
    · rcases leads next isNext with stays | isExit
      · exact Or.inl (Or.inr stays)
      · exact Or.inr isExit
    · rcases before.closed id inside next isNext with stays | isExit
      · exact Or.inl (Or.inr stays)
      · exact Or.inr isExit
  finishes := by
    rintro isThorough id (rfl | inside)
    · exact passable
    · exact before.finishes isThorough id inside

section Join

variable {graph : FragmentGraph} {low high choice join : Nat}

theorem Laid.low_le_high {onward : List Nat} {fragments : List Fragment}
    {languages : List (Language String)}
    (laid : Laid thorough graph onward low high fragments languages) :
    low ≤ high := by
  induction laid with
  | nil ordered =>
      exact ordered
  | cons placed _ inductionHypothesis =>
      exact Nat.le_trans (Nat.le_of_lt placed.low_lt_high)
        inductionHypothesis

theorem Laid.lower {onward : List Nat} {lower : Nat}
    {fragments : List Fragment} {languages : List (Language String)}
    (laid : Laid thorough graph onward low high fragments languages)
    (below : lower ≤ low) :
    Laid thorough graph onward lower high fragments languages := by
  cases laid with
  | nil ordered =>
      exact Laid.nil (Nat.le_trans below ordered)
  | cons placed rest =>
      exact Laid.cons (placed.widen below (Nat.le_refl _)) rest

theorem Laid.extend {onward : List Nat} {fragments : List Fragment}
    {languages : List (Language String)} {after : FragmentGraph}
    {changed : Set Nat}
    (laid : Laid thorough graph onward low high fragments languages)
    (grows : Extends changed graph after)
    (apart : ∀ id ∈ Set.Ico low high, id ∉ changed) :
    Laid thorough after onward low high fragments languages := by
  induction laid with
  | nil ordered =>
      exact Laid.nil ordered
  | @cons low middle high _ _ _ _ placed rest inductionHypothesis =>
      have ordered := rest.low_le_high
      have headOrdered := placed.low_lt_high
      refine Laid.cons (placed.extend grows fun id member => ?_)
        (inductionHypothesis fun id member => ?_)
      · exact apart id ⟨member.1, Nat.lt_of_lt_of_le member.2 ordered⟩
      · exact apart id
          ⟨Nat.le_trans (Nat.le_of_lt headOrdered) member.1, member.2⟩

/-- The points of fragments that all lead to one join come before it. -/
theorem Laid.area {fragments : List Fragment}
    {languages : List (Language String)}
    (laid : Laid thorough graph [join] low high fragments languages)
    (outside : join ∉ Set.Ico low high) (present : join < graph.size) :
    ∃ area ⊆ Set.Ico low high, Area thorough graph join area ∧
      ∀ fragment ∈ fragments, fragment.entry ∈ area ∧
        ∃ word, graph.Passes join fragment.entry word := by
  induction laid with
  | nil ordered =>
      refine ⟨∅, Set.empty_subset _, ?_, ?_⟩
      · constructor <;> simp
      · intro fragment member
        exact absurd member List.not_mem_nil
  | @cons low middle high fragment _ _ _ placed rest inductionHypothesis =>
      have ordered := rest.low_le_high
      have headOrdered := placed.low_lt_high
      simp only [Set.mem_Ico] at outside
      obtain ⟨area, within, before, entries⟩ :=
        inductionHypothesis (by simp only [Set.mem_Ico]; omega)
      obtain ⟨region, regionWithin, whole⟩ := placed.region
      have joinOutside : join ∉ region := by
        intro member
        have := regionWithin member
        simp only [Set.mem_Ico] at this
        omega
      have throughJoin : ∀ id ∈ region, thorough ∨ id = fragment.entry →
          ∃ word, graph.Passes join id word := by
        intro id member must
        obtain ⟨word, passes⟩ := whole.finishes id member must
        refine ⟨word ++ graph.reading join, ?_⟩
        rw [← mem_passages_iff,
          whole.passages_eq_mul joinOutside placed.onward member]
        exact Language.append_mem_mul passes (Passes.leave present)
      refine ⟨region ∪ area, ?_, ?_, ?_⟩
      · refine Set.union_subset (regionWithin.trans ?_) (within.trans ?_)
        · exact Set.Ico_subset_Ico_right ordered
        · exact Set.Ico_subset_Ico_left (Nat.le_of_lt headOrdered)
      · constructor
        · rintro (member | member)
          · exact joinOutside member
          · exact before.outside member
        · rintro id (member | member)
          · exact whole.present id member
          · exact before.present id member
        · rintro id (member | member) next isNext
          · by_cases atExit : id = fragment.exit
            · subst atExit
              rw [placed.onward, List.mem_singleton] at isNext
              exact Or.inr isNext
            · exact Or.inl (Or.inl (whole.closed id member atExit next isNext))
          · rcases before.closed id member next isNext with stays | isJoin
            · exact Or.inl (Or.inr stays)
            · exact Or.inr isJoin
        · rintro isThorough id (member | member)
          · exact throughJoin id member (Or.inl isThorough)
          · exact before.finishes isThorough id member
      · intro other member
        rcases List.mem_cons.mp member with rfl | later
        · exact ⟨Or.inl whole.entry_mem,
            throughJoin _ whole.entry_mem (Or.inr rfl)⟩
        · exact (entries other later).imp_left Or.inr

theorem Laid.sum_passages {fragments : List Fragment}
    {languages : List (Language String)}
    (laid : Laid thorough graph [join] low high fragments languages)
    (outside : join ∉ Set.Ico low high) (present : join < graph.size)
    (silent : graph.reading join = []) :
    (fragments.map fun fragment =>
      graph.passages join fragment.entry).sum = languages.sum := by
  induction laid with
  | nil _ =>
      rfl
  | @cons low middle high fragment language _ _ placed rest
      inductionHypothesis =>
      have ordered := rest.low_le_high
      have headOrdered := placed.low_lt_high
      simp only [Set.mem_Ico] at outside
      have head : graph.passages join fragment.entry = language := by
        rw [placed.passages_entry (by simp only [Set.mem_Ico]; omega),
          passages_exit present, silent]
        exact mul_one language
      rw [List.map_cons, List.sum_cons, List.sum_cons, head,
        inductionHypothesis (by simp only [Set.mem_Ico]; omega)]

/-- Fragments side by side between a point where walks part and a point where
they meet. Walks may also go straight from the one to the other. -/
theorem Laid.branch {fragments : List Fragment}
    {languages : List (Language String)}
    (laid : Laid thorough graph [join] low high fragments languages)
    (choiceOutside : choice ∉ Set.Ico low high)
    (joinOutside : join ∉ Set.Ico low high) (different : choice ≠ join)
    (present : join < graph.size) (opens : graph.successors choice ≠ [])
    (leads : ∀ next ∈ graph.successors choice,
      next ∈ fragments.map Fragment.entry ∨ next = join)
    (ends : graph.successors join = [])
    {lower higher : Nat} (below : lower ≤ low) (above : high ≤ higher)
    (choiceWithin : choice ∈ Set.Ico lower higher)
    (joinWithin : join ∈ Set.Ico lower higher) :
    Placed thorough graph [] lower higher ⟨choice, join⟩
      (graph.passages join choice) := by
  obtain ⟨area, within, before, entries⟩ := laid.area joinOutside present
  have passable : ∃ word, graph.Passes join choice word := by
    obtain ⟨next, isNext⟩ := List.exists_mem_of_ne_nil _ opens
    have onward : ∃ word, graph.Passes join next word := by
      rcases leads next isNext with isEntry | rfl
      · obtain ⟨fragment, member, rfl⟩ := List.mem_map.mp isEntry
        exact (entries fragment member).2
      · exact ⟨_, Passes.leave present⟩
    obtain ⟨word, passes⟩ := onward
    exact ⟨_, Passes.step different isNext passes⟩
  have whole : Area thorough graph join (insert choice area) := by
    refine before.insert different ?_ passable
    intro next isNext
    rcases leads next isNext with isEntry | isJoin
    · obtain ⟨fragment, member, rfl⟩ := List.mem_map.mp isEntry
      exact Or.inl (entries fragment member).1
    · exact Or.inr isJoin
  refine ⟨⟨_, ?_, whole.region (Or.inl rfl) passable present⟩, ends, rfl⟩
  rintro id (rfl | rfl | member)
  · exact joinWithin
  · exact choiceWithin
  · exact Set.Ico_subset_Ico below above (within member)

end Join

section Loop

/- An inner fragment whose exit leads to `choice`, from where a walk enters the
fragment again or goes on to `join`. -/
variable {graph : FragmentGraph} {low high choice join : Nat}
  {inner : Fragment} {language : Language String}
  (placed : Placed thorough graph [choice] low high inner language)
  (choiceOutside : choice ∉ Set.Ico low high)
  (joinOutside : join ∉ Set.Ico low high) (different : choice ≠ join)
  (present : join < graph.size)
  (leads : graph.successors choice = [inner.entry, join])

include placed choiceOutside joinOutside different present leads

private theorem loop_area :
    ∃ area, area ⊆ insert choice (Set.Ico low high) ∧
      Area thorough graph join area ∧
      (inner.entry ∈ area ∧ ∃ word, graph.Passes join inner.entry word) ∧
      (choice ∈ area ∧ ∃ word, graph.Passes join choice word) := by
  obtain ⟨region, within, whole⟩ := placed.region
  have joinNotInside : join ∉ region := fun member =>
    joinOutside (within member)
  have choiceToJoin : join ∈ graph.successors choice := by
    simp [leads]
  have choiceFinishes : ∃ word, graph.Passes join choice word :=
    ⟨_, Passes.step different choiceToJoin (Passes.leave present)⟩
  have innerFinishes : ∀ id ∈ region, thorough ∨ id = inner.entry →
      ∃ word, graph.Passes join id word := by
    intro id member must
    obtain ⟨first, passes⟩ := whole.finishes id member must
    obtain ⟨rest, further⟩ := choiceFinishes
    refine ⟨first ++ rest, ?_⟩
    rw [← mem_passages_iff,
      whole.passages_eq_mul joinNotInside placed.onward member]
    exact Language.append_mem_mul passes further
  refine ⟨insert choice region, Set.insert_subset_insert within, ?_,
    ⟨Or.inr whole.entry_mem,
      innerFinishes _ whole.entry_mem (Or.inr rfl)⟩,
    Or.inl rfl, choiceFinishes⟩
  constructor
  · rintro (same | member)
    · exact different same.symm
    · exact joinNotInside member
  · rintro id (rfl | member)
    · exact lt_size_of_mem_successors choiceToJoin
    · exact whole.present id member
  · rintro id (rfl | member) next isNext
    · rw [leads] at isNext
      rcases List.mem_cons.mp isNext with rfl | isJoin
      · exact Or.inl (Or.inr whole.entry_mem)
      · exact Or.inr (List.mem_singleton.mp isJoin)
    · by_cases atExit : id = inner.exit
      · subst atExit
        rw [placed.onward, List.mem_singleton] at isNext
        exact Or.inl (Or.inl isNext)
      · exact Or.inl (Or.inr (whole.closed id member atExit next isNext))
  · rintro isThorough id (rfl | member)
    · exact choiceFinishes
    · exact innerFinishes id member (Or.inl isThorough)

variable (choiceSilent : graph.reading choice = [])
  (joinSilent : graph.reading join = [])

include choiceSilent joinSilent

omit present in
/-- The induction is on the passage. Inside the fragment a passage still has to
come to its exit before it starts the next round. -/
private theorem loop_passages_le :
    graph.passages join choice ≤ KStar.kstar language := by
  obtain ⟨region, within, whole⟩ := placed.region
  have inRegion : ∀ id word, graph.Passes join id word →
      (id = choice → word ∈ KStar.kstar language) ∧
      (id ∈ region →
        word ∈ graph.passages inner.exit id * KStar.kstar language) ∧
      (id = join → word = []) := by
    intro id word passes
    induction passes with
    | leave _ =>
        refine ⟨fun same => absurd same.symm different, ?_, ?_⟩
        · exact fun member => absurd (within member) joinOutside
        · exact fun _ => joinSilent
    | @step id next word notJoin isNext passes inductionHypothesis =>
        obtain ⟨again, within', done⟩ := inductionHypothesis
        refine ⟨?_, ?_, fun same => absurd same notJoin⟩
        · rintro rfl
          rw [choiceSilent, List.nil_append]
          rw [leads] at isNext
          rcases List.mem_cons.mp isNext with rfl | isJoin
          · have round := within' whole.entry_mem
            rw [← Language.one_add_self_mul_kstar_eq_kstar]
            apply Or.inr
            rw [← placed.language]
            rw [← placed.language] at round
            exact round
          · rw [done (List.mem_singleton.mp isJoin)]
            exact Language.nil_mem_kstar language
        · intro member
          by_cases atExit : id = inner.exit
          · subst atExit
            rw [placed.onward, List.mem_singleton] at isNext
            refine Language.append_mem_mul ?_ (again isNext)
            exact Passes.leave (whole.present _ member)
          · obtain ⟨first, inside, rest, rounds, rfl⟩ :=
              Language.mem_mul.mp
                (within' (whole.closed id member atExit next isNext))
            rw [← List.append_assoc]
            refine Language.append_mem_mul ?_ rounds
            exact Passes.step atExit isNext inside
  intro word passes
  exact (inRegion choice word passes).1 rfl

private theorem loop_passages_choice :
    graph.passages join choice = KStar.kstar language := by
  refine le_antisymm
    (loop_passages_le placed choiceOutside joinOutside different leads
      choiceSilent joinSilent) ?_
  have unfolded : graph.passages join choice =
      language * graph.passages join choice + 1 := by
    conv_lhs =>
      rw [passages_of_silent different choiceSilent, leads]
    simp only [List.map_cons, List.map_nil, List.sum_cons, List.sum_nil,
      add_zero]
    rw [placed.passages_entry joinOutside, passages_exit present, joinSilent]
    rfl
  refine kstar_le_of_mul_le_right ?_ ?_
  · rw [unfolded]
    exact le_add_self
  · conv_rhs => rw [unfolded]
    exact le_self_add

variable (ends : graph.successors join = []) {lower higher : Nat}
  (below : lower ≤ low) (above : high ≤ higher)
  (choiceWithin : choice ∈ Set.Ico lower higher)
  (joinWithin : join ∈ Set.Ico lower higher)

include ends below above choiceWithin joinWithin

/-- Entered at `choice`, the loop is passed any number of times. -/
theorem Placed.star :
    Placed thorough graph [] lower higher ⟨choice, join⟩
      (KStar.kstar language) := by
  obtain ⟨area, within, before, _, choiceInside, passable⟩ :=
    loop_area placed choiceOutside joinOutside different present leads
  refine ⟨⟨_, ?_, before.region choiceInside passable present⟩, ends, ?_⟩
  · rintro id (rfl | member)
    · exact joinWithin
    · rcases within member with rfl | inside
      · exact choiceWithin
      · exact Set.Ico_subset_Ico below above inside
  · exact loop_passages_choice placed choiceOutside joinOutside different
      present leads choiceSilent joinSilent

/-- Entered at the fragment, the loop is passed at least once. -/
theorem Placed.plus :
    Placed thorough graph [] lower higher ⟨inner.entry, join⟩
      (language * KStar.kstar language) := by
  obtain ⟨area, within, before, ⟨entryInside, passable⟩, _⟩ :=
    loop_area placed choiceOutside joinOutside different present leads
  refine ⟨⟨_, ?_, before.region entryInside passable present⟩, ends, ?_⟩
  · rintro id (rfl | member)
    · exact joinWithin
    · rcases within member with rfl | inside
      · exact choiceWithin
      · exact Set.Ico_subset_Ico below above inside
  · change graph.passages join inner.entry = _
    rw [placed.passages_entry joinOutside,
      loop_passages_choice placed choiceOutside joinOutside different present
        leads choiceSilent joinSilent]

end Loop

end ContentModel.FragmentGraph
