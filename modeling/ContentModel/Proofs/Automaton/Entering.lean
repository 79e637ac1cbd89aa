import ContentModel.Automaton.Node
import ContentModel.Proofs.Atom.Bytes
import ContentModel.Proofs.AtomMap.Halving
import Mathlib.Data.List.DropRight

/-!
# Transitions after any calls

A table of transitions is changed by entering a step and by taking all steps
out. Whatever was called, it remembers for each name the atom that was entered
first and the target that was entered last since everything was taken out
(`after_remembers`), and an array that is searched by halving remembers the
same.
-/

namespace ContentModel.Automaton.Transitions

/-- A call that changes a table. -/
inductive Call where
  | set (atom : Atom) (target : Nat)
  | clear
  deriving DecidableEq, Repr

/-! ## Running calls -/

/-- What a call answers and the table after it. -/
def perform (transitions : Transitions) : Call → Option Nat × Transitions
  | .set atom target => transitions.set atom target
  | .clear => (none, ∅)

/-- The table after calls on an empty one. -/
def after (calls : List Call) : Transitions :=
  calls.foldl (fun transitions call => (transitions.perform call).2) ∅

/-- The same call on an array that is searched by halving. -/
def performInArray (entries : Array (Atom × Nat)) :
    Call → Option Nat × Array (Atom × Nat)
  | .set atom target => AtomMap.put entries atom target
  | .clear => (none, #[])

/-- The array after calls on an empty one. -/
def arrayAfter (calls : List Call) : Array (Atom × Nat) :=
  calls.foldl (fun entries call => (performInArray entries call).2) #[]

/-! ## What was entered -/

/-- What a call enters under a name. -/
def Call.entered? (name : String) : Call → Option (Atom × Nat)
  | .set atom target => if atom.name = name then some (atom, target) else none
  | .clear => none

/-- What was entered under a name since everything was last taken out, the
earliest first. -/
def entered (calls : List Call) (name : String) : List (Atom × Nat) :=
  (calls.rtakeWhile (· ≠ .clear)).filterMap (Call.entered? name)

theorem entered_clear (calls : List Call) (name : String) :
    entered (calls ++ [.clear]) name = [] := by
  rw [entered, List.rtakeWhile_concat_neg _ _ _ (by decide)]
  rfl

theorem entered_set (calls : List Call) (atom : Atom) (target : Nat)
    (name : String) :
    entered (calls ++ [.set atom target]) name =
      if atom.name = name then entered calls name ++ [(atom, target)]
      else entered calls name := by
  have goesOn := List.rtakeWhile_concat_pos (· ≠ Call.clear) calls
    (.set atom target) (decide_eq_true nofun)
  rw [entered, goesOn, List.filterMap_append]
  by_cases same : atom.name = name
  · simp only [List.filterMap_cons, Call.entered?, if_pos same,
      List.filterMap_nil]
    rfl
  · simp only [List.filterMap_cons, Call.entered?, if_neg same,
      List.filterMap_nil, List.append_nil]
    rfl

/-- The first atom with the last target. -/
def remembered (history : List (Atom × Nat)) : Option (Atom × Nat) :=
  match history.head?, history.getLast? with
  | some first, some last => some (first.1, last.2)
  | _, _ => none

theorem remembered_concat (history : List (Atom × Nat)) (atom : Atom)
    (target : Nat) :
    remembered (history ++ [(atom, target)]) =
      match remembered history with
      | some (first, _) => some (first, target)
      | none => some (atom, target) := by
  cases history with
  | nil =>
      rfl
  | cons first rest =>
      simp [remembered, List.getLast?_cons]

theorem map_fst_remembered (history : List (Atom × Nat)) :
    (remembered history).map Prod.fst = history.head?.map Prod.fst := by
  cases history with
  | nil =>
      rfl
  | cons first rest =>
      simp [remembered, List.getLast?_cons]

theorem map_snd_remembered (history : List (Atom × Nat)) :
    (remembered history).map Prod.snd = history.getLast?.map Prod.snd := by
  cases history with
  | nil =>
      rfl
  | cons first rest =>
      simp [remembered, List.getLast?_cons]

/-! ## What a table remembers -/

theorem after_concat (calls : List Call) (call : Call) :
    after (calls ++ [call]) = ((after calls).perform call).2 := by
  rw [after, List.foldl_append]
  rfl

theorem arrayAfter_concat (calls : List Call) (call : Call) :
    arrayAfter (calls ++ [call]) =
      (performInArray (arrayAfter calls) call).2 := by
  rw [arrayAfter, List.foldl_append]
  rfl

/-- The induction is on the calls, from the last one back: a call changes the
entry of its own name only. -/
theorem entryOf?_after (calls : List Call) (name : String) :
    (after calls).entryOf? name = remembered (entered calls name) := by
  induction calls using List.reverseRecOn with
  | nil =>
      rfl
  | append_singleton calls call inductionHypothesis =>
      rw [after_concat]
      cases call with
      | clear =>
          rw [entered_clear]
          rfl
      | set atom target =>
          have changed := AtomMap.entryOf?_alter (after calls) atom
            (fun _ => target) name
          rw [entered_set]
          by_cases same : atom.name = name
          · rw [if_pos same, remembered_concat, ← inductionHypothesis]
            rw [if_pos same.symm] at changed
            refine changed.trans ?_
            cases (after calls).entryOf? name with
            | none => rfl
            | some entry => rfl
          · rw [if_neg same, ← inductionHypothesis]
            rw [if_neg (Ne.symm same)] at changed
            exact changed

/-- An array that is searched by halving holds the entries of the table. -/
theorem arrayAfter_eq (calls : List Call) :
    arrayAfter calls = (after calls).entries.toArray := by
  induction calls using List.reverseRecOn with
  | nil =>
      rfl
  | append_singleton calls call inductionHypothesis =>
      rw [arrayAfter_concat, after_concat, inductionHypothesis]
      cases call with
      | clear =>
          rfl
      | set atom target =>
          exact congrArg Prod.snd
            (AtomMap.put_toArray (after calls) atom target)

/-- After any calls the entries ascend by the bytes of their names, a name leads
to the target that was entered last, its atom is the one that was entered first
and has kept its kind, and entering a step answers with the target that was
found before. Halving gives the same entries and the same answers. -/
theorem after_remembers (calls : List Call) (name : String) :
    ((after calls).entries.Pairwise fun left right =>
      Atom.BytesBelow (Atom.bytes left.1.name) (Atom.bytes right.1.name)) ∧
    (after calls).find? name = (entered calls name).getLast?.map Prod.snd ∧
    ((after calls).entryOf? name).map Prod.fst =
      (entered calls name).head?.map Prod.fst ∧
    (∀ atom target, atom.name = name →
      ((after calls).perform (.set atom target)).1 =
        (after calls).find? name) ∧
    arrayAfter calls = (after calls).entries.toArray ∧
    AtomMap.lookUp (arrayAfter calls) name = (after calls).find? name ∧
    ∀ atom target, atom.name = name →
      (performInArray (arrayAfter calls) (.set atom target)).1 =
        AtomMap.lookUp (arrayAfter calls) name := by
  have sameEntries := arrayAfter_eq calls
  have sameFound := AtomMap.lookUp_toArray (after calls) name
  rw [← sameEntries] at sameFound
  refine ⟨?_, ?_, ?_, ?_, sameEntries, sameFound, ?_⟩
  · exact (after calls).ascending.imp (Atom.lt_iff_bytesBelow _ _).mp
  · rw [AtomMap.find?, entryOf?_after, map_snd_remembered]
  · rw [entryOf?_after, map_fst_remembered]
  · intro atom target same
    rw [← same]
    rfl
  · intro atom target same
    have answered := AtomMap.put_toArray (after calls) atom target
    rw [sameFound, ← same, performInArray, sameEntries, answered]

example :
    (after [.set (.ofElement "b") 1, .clear, .set (.ofAttribute "a") 2,
      .set (.ofElement "a") 3]).entries = [(.ofAttribute "a", 3)] := by
  decide

end ContentModel.Automaton.Transitions
