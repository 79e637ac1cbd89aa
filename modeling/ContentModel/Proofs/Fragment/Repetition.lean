import ContentModel.Proofs.Fragment.Copy
import ContentModel.Proofs.Model.Language

/-!
# Fragments that occur repeatedly

Bounds without an operator of their own are built from occurrences one by one.
The first of them is the fragment itself and the others are copies, so that
the fragment has to be kept while its later copies are made: its points may
only change where its exit leads to.
-/

open scoped Computability

namespace ContentModel.FragmentGraph

variable {thorough : Prop} {graph : FragmentGraph} {onward : List Nat}
  {low high : Nat} {inner : Fragment} {language : Language String}

/-- Where the next occurrence starts: with the fragment itself if none was
used, or else behind the points that there are. -/
private def start (low used size : Nat) : Nat :=
  if used = 0 then low else size

private theorem start_zero (low size : Nat) : start low 0 size = low :=
  rfl

private theorem start_succ (low used size : Nat) :
    start low (used + 1) size = size :=
  rfl

private theorem start_le {low used size : Nat} (fits : low ≤ size) :
    start low used size ≤ size := by
  rw [start]
  split
  · exact fits
  · exact Nat.le_refl size

theorem builds_take (used : Nat)
    (placed : Placed thorough graph onward low high inner language)
    (fits : high ≤ graph.size)
    (unused : used = 0 → onward = []) :
    Builds thorough graph ∅ (start low used graph.size) language
      (graph.take inner used) := by
  rw [take, start]
  split
  · rename_i isFirst
    have := unused isFirst
    subst this
    exact ⟨inner, graph, rfl, placed.widen (Nat.le_refl low) fits,
      Extends.refl ∅ graph⟩
  · exact builds_duplicate placed

private theorem Placed.keep {after : FragmentGraph}
    (placed : Placed thorough graph onward low high inner language)
    (grows : Extends ∅ graph after) :
    Placed thorough after onward low high inner language :=
  placed.extend grows fun id _ => Set.notMem_empty id

private theorem takeMany_laid (count used : Nat)
    (placed : Placed thorough graph onward low high inner language)
    (fits : high ≤ graph.size)
    (unused : used = 0 → onward = []) :
    ∃ parts after,
      graph.takeMany inner count used = .ok (parts, after) ∧
      Laid thorough after [] (start low used graph.size)
        (start low (used + count) after.size) parts
        (List.replicate count language) ∧
      Extends ∅ graph after := by
  induction count generalizing graph used with
  | zero =>
      exact ⟨[], graph, rfl, Laid.nil (Nat.le_refl _), Extends.refl ∅ graph⟩
  | succ count inductionHypothesis =>
      obtain ⟨first, taken, isFirst, firstPlaced, firstGrows⟩ :=
        builds_take used placed fits unused
      obtain ⟨rest, after, isRest, laid, restGrows⟩ :=
        inductionHypothesis (used + 1)
          (placed.keep firstGrows) (Nat.le_trans fits firstGrows.size_le)
          (fun impossible => absurd impossible (Nat.succ_ne_zero used))
      rw [start_succ, Nat.add_right_comm, Nat.add_assoc] at laid
      refine ⟨first :: rest, after, ?_, ?_, ?_⟩
      · rw [takeMany, isFirst, ok_bind]
        simp only [isRest, ok_bind]
        rfl
      · exact Laid.cons (firstPlaced.keep restGrows) laid
      · exact firstGrows.andThen restGrows

/-- The operands of the occurrences that are wired so far, if there are any:
without them nothing is read. -/
private inductive Tail (thorough : Prop) (graph : FragmentGraph)
    (low high : Nat) : Option Fragment → Language String → Prop
  | none :
      Tail thorough graph low high none 1
  | some {rest : Fragment} {language : Language String} :
      Placed thorough graph [] low graph.size rest language →
      high ≤ rest.exit →
      Tail thorough graph low high (some rest) language

private theorem exit_of_optional {body whole : Fragment}
    {after : FragmentGraph}
    (result : graph.optional body = .ok (whole, after)) :
    graph.size ≤ whole.exit := by
  rw [optional_eq, bind_eq_ok_iff] at result
  obtain ⟨_, _, same⟩ := result
  cases same
  exact Nat.le_succ graph.size

/-- One occurrence more and what is wired so far after it. -/
private theorem exists_operand {base used : Nat} {tail : Option Fragment}
    {rest : Language String}
    (placed : Placed thorough graph onward low high inner language)
    (fits : high ≤ graph.size) (baseFits : base ≤ graph.size)
    (wired : Tail thorough graph base high tail rest)
    (unused : used = 0 → onward = [] ∧ tail = none ∧ base ≤ low) :
    ∃ copy taken body joined,
      graph.take inner used = .ok (copy, taken) ∧
      (match tail with
        | some rest => taken.concat copy rest
        | none => .ok (copy, taken)) = .ok (body, joined) ∧
      Placed thorough joined [] base joined.size body (language * rest) ∧
      Extends ∅ graph joined ∧
      (body.exit = inner.exit ∨ high ≤ body.exit) := by
  obtain ⟨copy, taken, isTaken, copyPlaced, copyGrows⟩ :=
    builds_take used placed fits fun isFirst => (unused isFirst).1
  have copyExit := copyPlaced.exit_mem
  cases wired with
  | none =>
      refine ⟨copy, taken, copy, taken, isTaken, rfl, ?_, copyGrows, ?_⟩
      · rw [mul_one]
        refine copyPlaced.widen ?_ (Nat.le_refl taken.size)
        rw [start]
        split
        · rename_i isFirst
          exact (unused isFirst).2.2
        · exact baseFits
      · by_cases isFirst : used = 0
        · subst isFirst
          cases isTaken
          exact Or.inl rfl
        · rw [start, if_neg isFirst] at copyExit
          exact Or.inr (Nat.le_trans fits copyExit.1)
  | @some further _ restPlaced beyond =>
      have notFirst : used ≠ 0 := by
        intro isFirst
        have impossible := (unused isFirst).2.1
        cases impossible
      rw [start, if_neg notFirst] at copyPlaced copyExit
      obtain ⟨joined, isJoined, joinedPlaced, joinedGrows, sameSize⟩ :=
        concat_placed copyPlaced (restPlaced.keep copyGrows)
          (Or.inr (Nat.le_refl graph.size))
      refine ⟨copy, taken, _, joined, isTaken, isJoined, ?_, ?_,
        Or.inr beyond⟩
      · rw [Nat.min_eq_right baseFits, Nat.max_eq_left copyGrows.size_le,
          ← sameSize] at joinedPlaced
        exact joinedPlaced
      · apply (copyGrows.andThen joinedGrows).mono
        rintro id present rfl
        exact absurd copyExit.1 (Nat.not_le_of_lt present)

/-- The induction is on the number of occurrences that are left. Wiring one
changes only where the fragment leads to, if it was used for that, and so it
can still be copied. -/
private theorem nestOptional_tail {base : Nat} (count used : Nat)
    {tail : Option Fragment} {rest : Language String}
    (placed : Placed thorough graph onward low high inner language)
    (fits : high ≤ graph.size) (baseFits : base ≤ graph.size)
    (wired : Tail thorough graph base high tail rest)
    (unused : used = 0 → onward = [] ∧ tail = none ∧ base ≤ low) :
    ∃ nested after,
      graph.nestOptional inner count used tail = .ok (nested, after) ∧
      Tail thorough after base high nested
        ((fun rest => 1 + language * rest)^[count] rest) ∧
      Extends (Set.Ico base graph.size) graph after := by
  induction count generalizing graph onward used tail rest with
  | zero =>
      exact ⟨tail, graph, rfl, wired, Extends.refl _ graph⟩
  | succ count inductionHypothesis =>
      obtain ⟨copy, taken, body, joined, isTaken, isJoined, bodyPlaced,
        bodyGrows, bodyExit⟩ :=
        exists_operand placed fits baseFits wired unused
      obtain ⟨nested, next, isNested, nestedPlaced, nestedGrows⟩ :=
        builds_optional bodyPlaced
      have exitWithin := bodyPlaced.exit_mem
      have joinedFits : high ≤ joined.size :=
        Nat.le_trans fits bodyGrows.size_le
      have kept : Placed thorough next (next.successors inner.exit) low high
          inner language := by
        refine (placed.keep bodyGrows).rewire nestedGrows ?_ rfl
        rintro id member rfl
        rcases bodyExit with same | beyond
        · exact same
        · exact absurd member.2 (Nat.not_lt_of_le beyond)
      have nextGrows : Extends (Set.Ico base graph.size) graph next := by
        apply (bodyGrows.andThen nestedGrows).mono
        rintro id present rfl
        exact ⟨exitWithin.1, present⟩
      have nextWired : Tail thorough next base high (some nested)
          (1 + language * rest) :=
        Tail.some nestedPlaced
          (Nat.le_trans joinedFits (exit_of_optional isNested))
      obtain ⟨whole, after, isWhole, wholeWired, wholeGrows⟩ :=
        inductionHypothesis (used + 1) kept
          (Nat.le_trans joinedFits nestedGrows.size_le)
          (Nat.le_trans baseFits nextGrows.size_le) nextWired
          (fun impossible => absurd impossible (Nat.succ_ne_zero used))
      refine ⟨whole, after, ?_, wholeWired, ?_⟩
      · rw [nestOptional, isTaken, ok_bind]
        cases tail with
        | none =>
            cases isJoined
            simp only [isNested, ok_bind, isWhole]
        | some further =>
            simp only at isJoined
            simp only [isJoined, ok_bind, isNested, isWhole]
      · apply nextGrows.trans wholeGrows
        rintro id present (member | member)
        · exact member
        · exact ⟨member.1, present⟩

private theorem Laid.append {middle : Nat} {first second : List Fragment}
    {languages₁ languages₂ : List (Language String)}
    (laid₁ : Laid thorough graph [] low middle first languages₁)
    (laid₂ : Laid thorough graph [] middle high second languages₂) :
    Laid thorough graph [] low high (first ++ second)
      (languages₁ ++ languages₂) := by
  induction laid₁ with
  | nil ordered =>
      exact laid₂.lower ordered
  | cons placed _ inductionHypothesis =>
      exact Laid.cons placed (inductionHypothesis laid₂)

private theorem Laid.of_placed {onward : List Nat}
    (placed : Placed thorough graph onward low high inner language) :
    Laid thorough graph onward low high [inner] [language] :=
  Laid.cons placed (Laid.nil (Nat.le_refl high))

/-- An operation on points that were all added or changed by another one. -/
theorem Builds.after {middle : FragmentGraph}
    {result : Except Fault (Fragment × FragmentGraph)}
    (builds :
      Builds thorough middle (Set.Ico low middle.size) low language result)
    (grows : Extends (Set.Ico low graph.size) graph middle) :
    Builds thorough graph (Set.Ico low graph.size) low language result := by
  obtain ⟨whole, after, isResult, placed, further⟩ := builds
  refine ⟨whole, after, isResult, placed, grows.trans further ?_⟩
  rintro id present (member | member)
  · exact member
  · exact ⟨member.1, present⟩

private theorem builds_never (lowFits : low ≤ graph.size)
    (language : Language String) :
    Builds thorough graph (Set.Ico low graph.size) low
      ((Occurs.mk 0 (some 0)).repeats language) (.ok graph.nothing) := by
  obtain ⟨whole, after, result, placed, grows⟩ := builds_nothing graph
  refine ⟨whole, after, result, ?_, grows.mono ?_⟩
  · rw [Occurs.repeats_closed (Nat.le_refl 0), pow_zero, one_mul]
    exact placed.widen lowFits (Nat.le_refl after.size)
  · intro id _ nothing
    exact absurd nothing (Set.notMem_empty id)

section Further

variable {before : FragmentGraph} {needed : List Fragment} {min : Nat}
  (placed : Placed thorough graph [] low graph.size inner language)
  (neededGrows : Extends ∅ graph before)
  (laid : Laid thorough before [] low (start low min before.size) needed
    (List.replicate min language))

include placed neededGrows laid

/-- The needed occurrences and then any number of further ones. -/
private theorem builds_open :
    Builds thorough graph (Set.Ico low graph.size) low
      ((Occurs.mk min none).repeats language) (do
        let (copy, graph) ← before.take inner min
        let (loop, graph) ← graph.zeroOrMore copy
        graph.sequence (needed ++ [loop])) := by
  have kept := placed.keep neededGrows
  have lowStart := laid.low_le_high
  obtain ⟨copy, taken, isTaken, copyPlaced, copyGrows⟩ :=
    builds_take min kept neededGrows.size_le fun _ => rfl
  obtain ⟨loop, looped, isLoop, loopPlaced, loopGrows⟩ :=
    builds_zeroOrMore copyPlaced
  have copyExit := copyPlaced.exit_mem
  have neededKept :
      Laid thorough looped [] low (start low min before.size) needed
        (List.replicate min language) := by
    refine (laid.extend copyGrows fun id _ => Set.notMem_empty id).extend
      loopGrows ?_
    rintro id member rfl
    exact absurd copyExit.1 (Nat.not_le_of_lt member.2)
  have grows : Extends (Set.Ico low graph.size) graph looped := by
    apply ((neededGrows.andThen copyGrows).andThen loopGrows).mono
    rintro id present rfl
    exact ⟨Nat.le_trans lowStart copyExit.1, present⟩
  have built := builds_sequence
    (neededKept.append (Laid.of_placed loopPlaced))
  rw [List.prod_append, List.prod_replicate, List.prod_singleton,
    ← Occurs.repeats_open] at built
  simp only [ok_bind, isTaken, isLoop]
  exact built.after grows

/-- The needed occurrences and then as many further ones as are allowed. -/
private theorem builds_closed {max : Nat} (enough : min ≤ max) :
    Builds thorough graph (Set.Ico low graph.size) low
      ((Occurs.mk min (some max)).repeats language) (do
        let (tail, graph) ← before.nestOptional inner (max - min) min none
        graph.sequence (needed ++ tail.toList)) := by
  have kept := placed.keep neededGrows
  have lowStart := laid.low_le_high
  have beforeFits := neededGrows.size_le
  have startFits : start low min before.size ≤ before.size :=
    start_le (Nat.le_trans (Nat.le_of_lt placed.low_lt_high) beforeFits)
  obtain ⟨nested, tailed, isNested, tail, tailGrows⟩ :=
    nestOptional_tail (max - min) min kept beforeFits
      startFits Tail.none fun isFirst => ⟨rfl, rfl, by
        rw [isFirst]
        exact Nat.le_refl low⟩
  have neededKept :
      Laid thorough tailed [] low (start low min before.size) needed
        (List.replicate min language) := by
    apply laid.extend tailGrows
    intro id member isChanged
    exact absurd isChanged.1 (Nat.not_le_of_lt member.2)
  have grows : Extends (Set.Ico low graph.size) graph tailed := by
    apply (neededGrows.andThen tailGrows).mono
    intro id present member
    exact ⟨Nat.le_trans lowStart member.1, present⟩
  have tailFits : start low min before.size ≤ tailed.size :=
    Nat.le_trans startFits tailGrows.size_le
  have tailLaid : ∃ languages,
      Laid thorough tailed [] (start low min before.size) tailed.size
        nested.toList languages ∧
      languages.prod = Occurs.upTo language (max - min) := by
    rw [Occurs.upTo]
    generalize (fun rest => 1 + language * rest)^[max - min] 1 = rest
      at tail
    cases tail with
    | none =>
        exact ⟨[], Laid.nil tailFits, rfl⟩
    | some restPlaced _ =>
        exact ⟨[rest], Laid.of_placed restPlaced, List.prod_singleton⟩
  obtain ⟨languages, laidTail, product⟩ := tailLaid
  have built := builds_sequence (neededKept.append laidTail)
  rw [List.prod_append, List.prod_replicate, product,
    ← Occurs.repeats_closed enough] at built
  simp only [ok_bind, isNested]
  exact built.after grows

end Further

theorem builds_bounded
    (placed : Placed thorough graph [] low graph.size inner language)
    {min : Nat} {max : Option Nat} (ordered : (Occurs.mk min max).Ordered) :
    Builds thorough graph (Set.Ico low graph.size) low
      ((Occurs.mk min max).repeats language)
      (graph.bounded inner min max) := by
  obtain ⟨needed, before, isNeeded, laid, neededGrows⟩ :=
    takeMany_laid min 0 placed (Nat.le_refl graph.size) fun _ => rfl
  rw [start_zero, Nat.zero_add] at laid
  by_cases never : max = some 0
  · subst never
    have : min = 0 := Nat.le_zero.mp (ordered 0 rfl)
    subst this
    exact builds_never (Nat.le_of_lt placed.low_lt_high) language
  · rw [bounded, if_neg never, isNeeded]
    cases max with
    | none =>
        exact builds_open placed neededGrows laid
    | some max =>
        exact builds_closed placed neededGrows laid (ordered max rfl)

/-- A fragment that fills the graph from `low` on occurs as often as the
bounds say. -/
theorem builds_occurring
    (placed : Placed thorough graph [] low graph.size inner language)
    {occurs : Occurs} (ordered : occurs.Ordered) :
    Builds thorough graph (Set.Ico low graph.size) low (occurs.repeats language)
      (graph.occurring inner occurs) := by
  have single : ∀ {language : Language String}
      {result : Except Fault (Fragment × FragmentGraph)},
      Builds thorough graph {inner.exit} low language result →
        Builds thorough graph (Set.Ico low graph.size) low language result := by
    rintro language result ⟨whole, after, isResult, wholePlaced, grows⟩
    refine ⟨whole, after, isResult, wholePlaced, grows.mono ?_⟩
    rintro id _ rfl
    exact placed.exit_mem
  have sameBounds := occurs.min_max_cardinality
  rw [occurring]
  generalize occurs.cardinality = form at sameBounds
  subst sameBounds
  cases form with
  | one =>
      have same : (Occurs.mk 1 (some 1)).repeats language = language := by
        rw [Occurs.repeats_closed (Nat.le_refl 1), pow_one]
        exact mul_one language
      refine ⟨inner, graph, rfl, ?_, Extends.refl _ graph⟩
      rw [← same] at placed
      exact placed
  | optional =>
      have same : (Occurs.mk 0 (some 1)).repeats language = 1 + language := by
        rw [Occurs.repeats_closed (Nat.zero_le 1), pow_zero, one_mul,
          Occurs.upTo_succ]
        exact congrArg (1 + ·) (mul_one language)
      exact same ▸ single (builds_optional placed)
  | zeroOrMore =>
      have same : (Occurs.mk 0 none).repeats language = language∗ := by
        rw [Occurs.repeats_open, pow_zero, one_mul]
      exact same ▸ single (builds_zeroOrMore placed)
  | oneOrMore =>
      have same :
          (Occurs.mk 1 none).repeats language = language * language∗ := by
        rw [Occurs.repeats_open, pow_one]
      exact same ▸ single (builds_oneOrMore placed)
  | never =>
      exact builds_never (Nat.le_of_lt placed.low_lt_high) language
  | bounded min max =>
      exact builds_bounded placed ordered

end ContentModel.FragmentGraph
