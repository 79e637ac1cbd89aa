import ContentModel.Proofs.Automaton.Construction
import Mathlib.Logic.Function.Basic

/-!
# The nodes of the keys

If the steps are given by the keys alone, as long as the nodes that were there
stay, the construction makes one node for each key that is met and needs one of
its own, and each node leads to the nodes of its successor keys (`Built`). It
gives up exactly if there are more of these keys than the store allows.

The invariant `Tracks` names the keys of the nodes in the order in which they
were made, and for each of them the edges that its node has got so far.
-/

namespace ContentModel.Automaton

universe u

variable {κ : Type u} [Ord κ]

namespace Construction

open Store (Grown Keeps)

/-- The node of a key after some of its edges were entered. -/
structure Stands (spec : κ → SubsetStep κ) (construction : Construction κ)
    (position : Nat) (key : κ) (entered : List (Atom × κ)) (id : Nat)
    (edges : List (Atom × κ)) : Prop where
  known : construction.known[key]? = some id
  state : construction.states[position]? = some (id, edges)
  node : ∃ node, construction.store.node id = .ok node ∧
    spec key = .expand node.accepting edges ∧
    ∀ name, node.transitions.find? name =
      (lastKey entered name).bind (construction.known[·]?)

/-- What is known of the node of a key with this step. -/
def Accounts (keys : List κ) (store : Store) (key : κ) (id : Nat) :
    SubsetStep κ → Prop
  | .any => store.sharedAny = some id
  | .empty => store.sharedEmpty = some id
  | .expand _ _ => key ∈ keys

/-- The nodes made so far are those of `keys`, and the edges of the state at a
position that were entered so far are those in `entered`. -/
structure Tracks (base : Store) (spec : κ → SubsetStep κ) (start : κ)
    (keys : List κ) (entered : Nat → List (Atom × κ))
    (construction : Construction κ) : Prop where
  grown : Grown base construction.created construction.store
  size_eq : construction.states.size = keys.length
  keysNodup : keys.Nodup
  met : ∀ (key : κ) (id : Nat), construction.known[key]? = some id →
    Met spec start key
  accounts : ∀ (key : κ) (id : Nat), construction.known[key]? = some id →
    Accounts keys construction.store key id (spec key)
  stands : ∀ position key, keys[position]? = some key →
    ∃ id edges,
      Stands spec construction position key (entered position) id edges
  targets : ∀ position, ∀ edge ∈ entered position,
    ∃ id, construction.known[edge.2]? = some id
  later : ∀ position, construction.states.size ≤ position →
    entered position = []

variable {base : Store} {step : Store → κ → Except Fault (SubsetStep κ)}
  {spec : κ → SubsetStep κ} {start : κ} {keys : List κ}
  {entered : Nat → List (Atom × κ)} {before after : Construction κ}

/-! ## Frames -/

/-- What was known and made stays so. -/
structure Remembers (before after : Construction κ) : Prop where
  known : ∀ (key : κ) (id : Nat), before.known[key]? = some id →
    after.known[key]? = some id
  states : ∀ (position : Nat) (state : Nat × List (Atom × κ)),
    before.states[position]? = some state →
    after.states[position]? = some state

theorem Remembers.refl (construction : Construction κ) :
    Remembers construction construction :=
  ⟨fun _ _ found => found, fun _ _ found => found⟩

theorem Remembers.trans {first second third : Construction κ}
    (earlier : Remembers first second) (later : Remembers second third) :
    Remembers first third :=
  ⟨fun key id found => later.known key id (earlier.known key id found),
    fun position state found =>
      later.states position state (earlier.states position state found)⟩

/-- What was known, made and in use stays so. -/
structure Further (before after : Construction κ) : Prop
    extends Remembers before after where
  keeps : Keeps before.store after.store

omit [Ord κ] in
theorem Accounts.further {more : List κ} {before after : Store}
    (beforeSound : before.Sound) (afterSound : after.Sound)
    (keeps : Keeps before after) (included : keys ⊆ more) {key : κ} {id : Nat}
    {step : SubsetStep κ} (accounts : Accounts keys before key id step) :
    Accounts more after key id step := by
  cases step with
  | any =>
      exact keeps.sharedAny beforeSound afterSound accounts
  | empty =>
      exact keeps.sharedEmpty beforeSound afterSound accounts
  | expand _ _ =>
      exact included accounts

theorem Stands.further {position id : Nat} {key : κ}
    {done edges : List (Atom × κ)}
    (stands : Stands spec before position key done id edges)
    (targets : ∀ edge ∈ done, ∃ id, before.known[edge.2]? = some id)
    (further : Further before after) :
    Stands spec after position key done id edges := by
  obtain ⟨node, found, isStep, table⟩ := stands.node
  refine ⟨further.known key id stands.known,
    further.states position _ stands.state, node,
    further.keeps id node found, isStep, ?_⟩
  intro name
  rw [table]
  cases last : lastKey done name with
  | none =>
      rfl
  | some next =>
      obtain ⟨atom, member, _⟩ := exists_of_lastKey last
      obtain ⟨target, isKnown⟩ := targets _ member
      simp only [Option.bind_some, isKnown, further.known next target isKnown]

theorem getElem?_created (construction : Construction κ) (position : Nat) :
    construction.created[position]? =
      (construction.states[position]?).map Prod.fst := by
  rw [created, List.getElem?_map, Array.getElem?_toList]

/-- Each node was made once. -/
theorem position_unique (nodup : before.created.Nodup)
    {first second id : Nat} {edges₁ edges₂ : List (Atom × κ)}
    (isFirst : before.states[first]? = some (id, edges₁))
    (isSecond : before.states[second]? = some (id, edges₂)) :
    first = second := by
  have within : first < before.created.length := by
    rw [created, List.length_map, Array.length_toList]
    exact (Array.getElem?_eq_some_iff.mp isFirst).1
  refine (List.getElem?_inj within nodup).mp ?_
  rw [getElem?_created, getElem?_created, isFirst, isSecond]
  rfl

/-! ## Meeting a key -/

/-- A key is known already, or is entered as a new one. -/
theorem Finds.cases_known {key : κ} {id : Nat}
    (finds : Finds step key before id after) :
    (before.known[key]? = some id ∧ after = before) ∨
      (before.known[key]? = none ∧
        after.known = before.known.insert key id) := by
  cases finds with
  | known isKnown => exact Or.inl ⟨isKnown, rfl⟩
  | any isNew _ => exact Or.inr ⟨isNew, rfl⟩
  | empty isNew _ => exact Or.inr ⟨isNew, rfl⟩
  | expand isNew _ => exact Or.inr ⟨isNew, rfl⟩

section Meeting

variable [Std.TransOrd κ] [Std.LawfulEqOrd κ]

private theorem getElem?_insert_known (known : Std.TreeMap κ Nat compare)
    (key : κ) (id : Nat) (other : κ) (found : Nat) :
    (known.insert key id)[other]? = some found ↔
      (other = key ∧ found = id) ∨
        (other ≠ key ∧ known[other]? = some found) := by
  simp only [Std.TreeMap.getElem?_insert, Std.LawfulEqCmp.compare_eq_iff_eq]
  by_cases same : other = key
  · subst same
    simp [eq_comm]
  · simp [same, Ne.symm same]

theorem Finds.known_iff {key : κ} {id : Nat}
    (finds : Finds step key before id after) (other : κ) (found : Nat) :
    after.known[other]? = some found ↔
      (other = key ∧ found = id) ∨ before.known[other]? = some found := by
  rcases finds.cases_known with ⟨isKnown, rfl⟩ | ⟨isNew, isInsert⟩
  · constructor
    · exact Or.inr
    · rintro (⟨rfl, rfl⟩ | isFound)
      · exact isKnown
      · exact isFound
  · rw [isInsert, getElem?_insert_known]
    constructor
    · exact Or.imp_right And.right
    · rintro (isThis | isFound)
      · exact Or.inl isThis
      · refine Or.inr ⟨?_, isFound⟩
        rintro rfl
        rw [isNew] at isFound
        cases isFound

theorem Finds.further {key : κ} {id : Nat} (sound : before.store.Sound)
    (finds : Finds step key before id after) : Further before after := by
  have known := fun other found isFound =>
    (finds.known_iff other found).mpr (Or.inr isFound)
  cases finds with
  | known _ =>
      exact ⟨⟨known, fun _ _ found => found⟩, Keeps.refl _⟩
  | any _ _ =>
      exact ⟨⟨known, fun _ _ found => found⟩,
        (Store.grown_start sound).anyNode.keeps⟩
  | empty _ _ =>
      exact ⟨⟨known, fun _ _ found => found⟩,
        (Store.grown_start sound).emptyNode.keeps⟩
  | @expand accepting _ _ _ =>
      refine ⟨⟨known, ?_⟩, ?_⟩
      · intro position state found
        have within := (Array.getElem?_eq_some_iff.mp found).1
        rw [Array.getElem?_push, if_neg (Nat.ne_of_lt within)]
        exact found
      · exact (Store.introduces_alloc sound.toPooled
          (fun node => { node with accepting }) rfl).keeps

/-- A key of its own gets a node without edges. -/
private theorem stands_new {key : κ} {accepting : Bool}
    {edges : List (Atom × κ)} (pooled : before.store.Pooled)
    (isExpand : spec key = .expand accepting edges) :
    Stands spec
      ⟨before.store.alloc.2.modifyNode before.store.alloc.1 fun node =>
          { node with accepting },
        before.known.insert key before.store.alloc.1,
        before.states.push (before.store.alloc.1, edges)⟩
      before.states.size key [] before.store.alloc.1 edges := by
  have introduces := Store.introduces_alloc pooled
    (fun node => { node with accepting }) rfl
  refine ⟨?_, Array.getElem?_push_size, { accepting }, ?_, isExpand,
    fun _ => rfl⟩
  · exact (getElem?_insert_known ..).mpr (Or.inl ⟨rfl, rfl⟩)
  · rw [introduces.node_eq, if_pos rfl]

section Found

variable {key : κ} {id : Nat}
  (tracks : Tracks base spec start keys entered before)
  (finds : Finds step key before id after)

include tracks finds

private theorem Tracks.met_after (isMet : Met spec start key) (other : κ)
    (found : Nat) (isFound : after.known[other]? = some found) :
    Met spec start other := by
  rcases (finds.known_iff other found).mp isFound with ⟨rfl, _⟩ | wasKnown
  · exact isMet
  · exact tracks.met other found wasKnown

private theorem Tracks.accounts_after {more : List κ} (included : keys ⊆ more)
    (accounted : Accounts more after.store key id (spec key)) (other : κ)
    (found : Nat) (isFound : after.known[other]? = some found) :
    Accounts more after.store other found (spec other) := by
  have grown := finds.grown tracks.grown
  have further := finds.further tracks.grown.sound
  rcases (finds.known_iff other found).mp isFound with ⟨rfl, rfl⟩ | wasKnown
  · exact accounted
  · exact (tracks.accounts other found wasKnown).further
      tracks.grown.sound grown.sound further.keeps included

private theorem Tracks.stands_after (position : Nat) (other : κ)
    (isKey : keys[position]? = some other) :
    ∃ id edges,
      Stands spec after position other (entered position) id edges := by
  have further := finds.further tracks.grown.sound
  obtain ⟨id, edges, stood⟩ := tracks.stands position other isKey
  exact ⟨id, edges, stood.further (tracks.targets position) further⟩

private theorem Tracks.targets_after (position : Nat) :
    ∀ edge ∈ entered position,
      ∃ id, after.known[edge.2]? = some id := by
  intro edge member
  have further := finds.further tracks.grown.sound
  obtain ⟨id, wasKnown⟩ := tracks.targets position edge member
  exact ⟨id, further.known edge.2 id wasKnown⟩

/-- A key that needs no node of its own adds no state. -/
private theorem Tracks.finds_shared (isMet : Met spec start key)
    (sameStates : after.states = before.states)
    (accounted : Accounts keys after.store key id (spec key)) :
    Tracks base spec start keys entered after where
  grown := finds.grown tracks.grown
  size_eq := by
    rw [sameStates]
    exact tracks.size_eq
  keysNodup := tracks.keysNodup
  met := tracks.met_after finds isMet
  accounts := tracks.accounts_after finds (List.Subset.refl keys) accounted
  stands := tracks.stands_after finds
  targets := tracks.targets_after finds
  later := by
    rw [sameStates]
    exact tracks.later

end Found

/-- A key that gets a node of its own is the last one. -/
private theorem Tracks.finds_new {key : κ} {accepting : Bool}
    {edges : List (Atom × κ)}
    (tracks : Tracks base spec start keys entered before)
    (isNew : before.known[key]? = none) (isMet : Met spec start key)
    (isExpand : spec key = .expand accepting edges)
    (isStep : step before.store key = .ok (.expand accepting edges)) :
    Tracks base spec start (keys ++ [key]) entered
      ⟨before.store.alloc.2.modifyNode before.store.alloc.1 fun node =>
          { node with accepting },
        before.known.insert key before.store.alloc.1,
        before.states.push (before.store.alloc.1, edges)⟩ := by
  have finds : Finds step key before _ _ := Finds.expand isNew isStep
  have notListed : key ∉ keys := by
    intro member
    obtain ⟨position, isKey⟩ := List.getElem?_of_mem member
    obtain ⟨other, _, stood⟩ := tracks.stands position key isKey
    have wasKnown := stood.known
    rw [isNew] at wasKnown
    cases wasKnown
  have sizeEq := tracks.size_eq
  constructor
  · exact finds.grown tracks.grown
  · rw [Array.size_push, List.length_append, sizeEq]
    rfl
  · rw [← List.concat_eq_append]
    exact tracks.keysNodup.concat notListed
  · exact tracks.met_after finds isMet
  · apply tracks.accounts_after finds (List.subset_append_left keys [key])
    rw [isExpand]
    exact List.mem_append_right keys (List.mem_singleton_self key)
  · intro position other isKey
    rw [List.getElem?_append] at isKey
    split at isKey
    · exact tracks.stands_after finds position other isKey
    · rename_i beyond
      obtain ⟨within, same⟩ := List.getElem?_eq_some_iff.mp isKey
      have atEnd : position = before.states.size := by
        rw [List.length_singleton] at within
        omega
      have same : key = other := by
        simpa using same
      subst same
      subst atEnd
      rw [tracks.later _ (Nat.le_refl before.states.size)]
      exact ⟨_, _, stands_new tracks.grown.sound.toPooled isExpand⟩
  · exact tracks.targets_after finds
  · intro position beyond
    rw [Array.size_push] at beyond
    exact tracks.later position (Nat.le_of_succ_le beyond)

/-- A key that was met is tracked from then on. -/
theorem Tracks.finds {key : κ} {id : Nat}
    (tracks : Tracks base spec start keys entered before)
    (finds : Finds step key before id after)
    (answer : step before.store key = .ok (spec key))
    (isMet : Met spec start key) :
    ∃ keys, Tracks base spec start keys entered after := by
  cases finds with
  | known isKnown =>
      exact ⟨keys, tracks⟩
  | any isNew isAny =>
      have isSpec := Except.ok.inj (answer.symm.trans isAny)
      refine ⟨keys, tracks.finds_shared (Finds.any isNew isAny) isMet rfl ?_⟩
      rw [isSpec]
      exact Store.sharedAny_anyNode before.store
  | empty isNew isEmpty =>
      have isSpec := Except.ok.inj (answer.symm.trans isEmpty)
      refine ⟨keys,
        tracks.finds_shared (Finds.empty isNew isEmpty) isMet rfl ?_⟩
      rw [isSpec]
      exact Store.sharedEmpty_emptyNode before.store
  | expand isNew isExpand =>
      have isSpec := Except.ok.inj (answer.symm.trans isExpand)
      exact ⟨_, tracks.finds_new isNew isMet isSpec isExpand⟩

end Meeting

/-! ## Entering edges -/

private theorem Stands.enter_own {position source target : Nat} {key next : κ}
    {done edges : List (Atom × κ)} (atom : Atom)
    (stands : Stands spec before position key done source edges)
    (isKnown : before.known[next]? = some target) :
    Stands spec (before.enter source atom target) position key
      (done ++ [(atom, next)]) source edges := by
  obtain ⟨node, found, isStep, table⟩ := stands.node
  refine ⟨stands.known, stands.state,
    { node with transitions := node.transitions.insert atom target }, ?_,
    isStep, ?_⟩
  · simp only [Construction.enter, Store.node_modifyNode, if_true, found]
    rfl
  · intro name
    rw [lastKey_concat, AtomMap.find?_insert, table]
    by_cases isName : name = atom.name
    · rw [if_pos isName, if_pos isName]
      exact isKnown.symm
    · rw [if_neg isName, if_neg isName]
      rfl

private theorem Stands.enter_other {place source target id : Nat} {key : κ}
    {done edges : List (Atom × κ)} {atom : Atom}
    (stands : Stands spec before place key done id edges)
    (different : id ≠ source) :
    Stands spec (before.enter source atom target) place key done id
      edges := by
  obtain ⟨node, found, isStep, table⟩ := stands.node
  refine ⟨stands.known, stands.state, node, ?_, isStep, table⟩
  simp only [Construction.enter, Store.node_modifyNode, if_neg different,
    found]

theorem Tracks.enter {position source target : Nat} {key : κ}
    {edges : List (Atom × κ)}
    (tracks : Tracks base spec start keys entered before) (atom : Atom)
    (isState : before.states[position]? = some (source, edges))
    (isKnown : before.known[key]? = some target) :
    Tracks base spec start keys
      (Function.update entered position
        (entered position ++ [(atom, key)]))
      (before.enter source atom target) := by
  have grown : Grown base (before.enter source atom target).created
      (before.enter source atom target).store :=
    grown_enter tracks.grown (mem_created_of_state isState)
  have within := (Array.getElem?_eq_some_iff.mp isState).1
  refine ⟨grown, tracks.size_eq, tracks.keysNodup, tracks.met, ?_, ?_, ?_, ?_⟩
  · intro other found wasKnown
    have accounts := tracks.accounts other found wasKnown
    generalize spec other = itsStep at accounts ⊢
    cases itsStep with
    | any => exact accounts
    | empty => exact accounts
    | expand _ _ => exact accounts
  · intro place other isKey
    obtain ⟨id, itsEdges, stands⟩ := tracks.stands place other isKey
    refine ⟨id, itsEdges, ?_⟩
    by_cases same : place = position
    · subst same
      have sameState := stands.state
      rw [isState] at sameState
      cases sameState
      rw [Function.update_self]
      exact stands.enter_own atom isKnown
    · have different : id ≠ source := by
        intro sameNode
        subst sameNode
        exact same (position_unique tracks.grown.nodup stands.state isState)
      rw [Function.update_of_ne same]
      exact stands.enter_other different
  · intro place edge member
    by_cases same : place = position
    · subst same
      rw [Function.update_self] at member
      rcases List.mem_append.mp member with earlier | isLast
      · exact tracks.targets place edge earlier
      · rw [List.mem_singleton.mp isLast]
        exact ⟨target, isKnown⟩
    · rw [Function.update_of_ne same] at member
      exact tracks.targets place edge member
  · intro place beyond
    have notHere : place ≠ position :=
      Nat.ne_of_gt (Nat.lt_of_lt_of_le within beyond)
    rw [Function.update_of_ne notHere]
    exact tracks.later place beyond

section Completing

variable [Std.TransOrd κ] [Std.LawfulEqOrd κ]
  (follows : ∀ store, Keeps base store → ∀ key, Met spec start key →
    step store key = .ok (spec key))

include follows

private theorem connect_tracks {position source : Nat}
    {edges whole : List (Atom × κ)}
    (tracks : Tracks base spec start keys entered before)
    (isState : before.states[position]? = some (source, whole))
    (isWhole : entered position ++ edges = whole)
    (met : ∀ edge ∈ edges, Met spec start edge.2) :
    ∃ after keys, before.connect step source edges = .ok after ∧
      Tracks base spec start keys
        (Function.update entered position whole) after ∧
      Remembers before after := by
  induction edges generalizing before keys entered with
  | nil =>
      rw [List.append_nil] at isWhole
      refine ⟨before, keys, rfl, ?_, Remembers.refl before⟩
      rw [← isWhole, Function.update_eq_self]
      exact tracks
  | cons edge edges inductionHypothesis =>
      obtain ⟨atom, key⟩ := edge
      have isMet := met (atom, key) List.mem_cons_self
      have answer := follows before.store tracks.grown.keeps key isMet
      obtain ⟨target, found, isFound, finds⟩ := exists_finds answer
      have further := finds.further tracks.grown.sound
      obtain ⟨more, foundTracks⟩ := tracks.finds finds answer isMet
      have foundState := further.states position _ isState
      have isKnown := (finds.known_iff key target).mpr (Or.inl ⟨rfl, rfl⟩)
      have enteredTracks := foundTracks.enter atom foundState isKnown
      obtain ⟨after, all, isAfter, afterTracks, remembers⟩ :=
        inductionHypothesis enteredTracks foundState
          (by rw [Function.update_self, List.append_assoc]; exact isWhole)
          (fun edge member => met edge (List.mem_cons_of_mem _ member))
      refine ⟨after, all, ?_, ?_, ?_⟩
      · rw [connect_cons isFound]
        exact isAfter
      · rw [Function.update_idem] at afterTracks
        exact afterTracks
      · exact further.toRemembers.trans ⟨remembers.known, remembers.states⟩

/-- The states before the position have all their edges, the others none. -/
private def Due (construction : Construction κ)
    (entered : Nat → List (Atom × κ)) (position : Nat) : Prop :=
  ∀ (place id : Nat) (edges : List (Atom × κ)),
    construction.states[place]? = some (id, edges) →
    entered place = if place < position then edges else []

private theorem connect_due {position source : Nat} {edges : List (Atom × κ)}
    (tracks : Tracks base spec start keys entered before)
    (due : Due before entered position)
    (isState : before.states[position]? = some (source, edges)) :
    ∃ after keys entered, before.connect step source edges = .ok after ∧
      Tracks base spec start keys entered after ∧
      Remembers before after ∧ Due after entered (position + 1) := by
  have within := (Array.getElem?_eq_some_iff.mp isState).1
  rw [tracks.size_eq] at within
  have isKey := List.getElem?_eq_getElem within
  obtain ⟨id, itsEdges, stands⟩ := tracks.stands position _ isKey
  obtain ⟨node, _, isStep, _⟩ := stands.node
  have sameState := stands.state
  rw [isState] at sameState
  cases sameState
  have isMet := tracks.met _ _ stands.known
  have none : entered position = [] := by
    rw [due position source edges isState, if_neg (Nat.lt_irrefl position)]
  obtain ⟨after, more, isAfter, afterTracks, remembers⟩ :=
    connect_tracks follows tracks isState (by rw [none, List.nil_append])
      fun edge member => isMet.next isStep member
  refine ⟨after, more, _, isAfter, afterTracks, remembers, ?_⟩
  intro place other otherEdges isOther
  by_cases same : place = position
  · subst same
    have stays := remembers.states place _ isState
    rw [isOther] at stays
    cases stays
    rw [Function.update_self, if_pos (Nat.lt_succ_self place)]
  · rw [Function.update_of_ne same]
    cases wasState : before.states[place]? with
    | none =>
        have beyond := Array.getElem?_eq_none_iff.mp wasState
        rw [tracks.later place beyond, if_neg]
        rw [tracks.size_eq] at beyond
        omega
    | some state =>
        have stays := remembers.states place state wasState
        rw [isOther] at stays
        cases stays
        rw [due place other otherEdges wasState]
        have ordered : place < position + 1 ↔ place < position := by omega
        simp only [ordered]

/-- The induction is on the number of nodes that may still come: with the
position it makes up the limit. -/
private theorem complete_tracks {room position limit : Nat}
    (tracks : Tracks base spec start keys entered before)
    (due : Due before entered position)
    (isLimit : room + position = limit) :
    ∃ answer after keys entered,
      before.complete step room position = .ok (answer, after) ∧
      Tracks base spec start keys entered after ∧
      Remembers before after ∧
      (answer = true → after.states.size ≤ limit ∧
        ∃ position ≥ after.states.size, Due after entered position) ∧
      (answer = false → limit < after.states.size) := by
  induction room generalizing position keys entered before with
  | zero =>
      unfold complete
      cases isState : before.states[position]? with
      | none =>
          have few := Array.getElem?_eq_none_iff.mp isState
          exact ⟨true, before, keys, entered, rfl, tracks,
            Remembers.refl before, fun _ => ⟨by omega, position, few, due⟩,
            Bool.noConfusion⟩
      | some state =>
          obtain ⟨source, edges⟩ := state
          obtain ⟨after, more, all, isAfter, afterTracks, remembers, _⟩ :=
            connect_due follows tracks due isState
          have within :=
            (Array.getElem?_eq_some_iff.mp (remembers.states _ _ isState)).1
          refine ⟨false, after, more, all, ?_, afterTracks, remembers,
            Bool.noConfusion, ?_⟩
          · simp only [isAfter]
          · intro _
            omega
  | succ room inductionHypothesis =>
      unfold complete
      cases isState : before.states[position]? with
      | none =>
          have few := Array.getElem?_eq_none_iff.mp isState
          exact ⟨true, before, keys, entered, rfl, tracks,
            Remembers.refl before, fun _ => ⟨by omega, position, few, due⟩,
            Bool.noConfusion⟩
      | some state =>
          obtain ⟨source, edges⟩ := state
          obtain ⟨next, more, all, isNext, nextTracks, remembers, nextDue⟩ :=
            connect_due follows tracks due isState
          simp only [isNext]
          split
          · obtain ⟨answer, after, more, all, isAfter, afterTracks, further,
              complete, gaveUp⟩ :=
              inductionHypothesis nextTracks nextDue (by omega)
            exact ⟨answer, after, more, all, isAfter, afterTracks,
              remembers.trans further, complete, gaveUp⟩
          · refine ⟨false, next, more, all, rfl, nextTracks, remembers,
              Bool.noConfusion, ?_⟩
            intro _
            omega

end Completing

theorem tracks_start [Std.TransOrd κ] (sound : base.Sound) (spec : κ → SubsetStep κ)
    (start : κ) :
    Tracks base spec start [] (fun _ => [])
      (⟨base, ∅, #[]⟩ : Construction κ) where
  grown := Store.grown_start sound
  size_eq := rfl
  keysNodup := List.nodup_nil
  met key id found := by
    simp at found
  accounts key id found := by
    simp at found
  stands position key found := by
    simp at found
  targets position edge member := absurd member List.not_mem_nil
  later _ _ := rfl

/-- The keys of the nodes that were made. -/
theorem Tracks.mem_keys {key : κ}
    (tracks : Tracks base spec start keys entered before)
    (member : key ∈ keys) :
    Met spec start key ∧ (spec key).IsExpand := by
  obtain ⟨position, isKey⟩ := List.getElem?_of_mem member
  obtain ⟨id, edges, stands⟩ := tracks.stands position key isKey
  obtain ⟨node, _, isStep, _⟩ := stands.node
  exact ⟨tracks.met key id stands.known, node.accepting, edges, isStep⟩

end Construction

/-! ## The whole construction -/

/-- The nodes of the keys that are met: keys of their own have a node of their
own, which leads to the nodes of the successor keys, and the others have the
shared nodes. -/
structure Built (base : Store) (spec : κ → SubsetStep κ) (start : κ)
    (keys : List κ) (nodeOf : κ → Nat) (after : Store) : Prop where
  mem_keys_iff : ∀ key,
    key ∈ keys ↔ Met spec start key ∧ (spec key).IsExpand
  keysNodup : keys.Nodup
  grown : base.Grown (keys.map nodeOf) after
  any : ∀ key, Met spec start key → spec key = .any →
    after.sharedAny = some (nodeOf key)
  empty : ∀ key, Met spec start key → spec key = .empty →
    after.sharedEmpty = some (nodeOf key)
  expand : ∀ key accepting edges, Met spec start key →
    spec key = .expand accepting edges →
    ∃ node, after.node (nodeOf key) = .ok node ∧
      node.accepting = accepting ∧ node.role = .ordinary ∧
      ∀ name, node.transitions.find? name =
        (lastKey edges name).map nodeOf

namespace Construction

variable {base : Store} {spec : κ → SubsetStep κ} {start : κ} {keys : List κ}
  {entered : Nat → List (Atom × κ)} {construction : Construction κ}

/-- The node of a key that is known. -/
private def nodeOf (construction : Construction κ) (key : κ) : Nat :=
  construction.known[key]?.getD 0

/-- When no edge is missing, every key that is met is known. -/
private theorem Tracks.known
    (tracks : Tracks base spec start keys entered construction)
    {position : Nat} (atEnd : construction.states.size ≤ position)
    (due : Due construction entered position)
    {root : Nat} (isRoot : construction.known[start]? = some root) {key : κ}
    (met : Met spec start key) :
    construction.known[key]? = some (construction.nodeOf key) := by
  have isKnown : ∃ id : Nat, construction.known[key]? = some id := by
    refine met.invariant
      (motive := fun key => ∃ id : Nat, construction.known[key]? = some id)
      ⟨root, isRoot⟩ ?_
    rintro key accepting edges ⟨id, isKnown⟩ isExpand edge member
    have accounts := tracks.accounts key id isKnown
    rw [isExpand] at accounts
    obtain ⟨place, isKey⟩ := List.getElem?_of_mem accounts
    obtain ⟨id, itsEdges, stands⟩ := tracks.stands place key isKey
    obtain ⟨node, _, isStep, _⟩ := stands.node
    rw [isExpand] at isStep
    cases isStep
    have within := (Array.getElem?_eq_some_iff.mp stands.state).1
    have whole := due place id edges stands.state
    rw [if_pos (Nat.lt_of_lt_of_le within atEnd)] at whole
    exact tracks.targets place edge (whole ▸ member)
  obtain ⟨id, isId⟩ := isKnown
  rw [nodeOf, isId]
  rfl

private theorem Tracks.created_eq
    (tracks : Tracks base spec start keys entered construction) :
    construction.created = keys.map construction.nodeOf := by
  apply List.ext_getElem?
  intro place
  rw [getElem?_created, List.getElem?_map]
  cases isKey : keys[place]? with
  | none =>
      have beyond := List.getElem?_eq_none_iff.mp isKey
      rw [← tracks.size_eq] at beyond
      rw [Array.getElem?_eq_none beyond]
      rfl
  | some key =>
      obtain ⟨id, edges, stands⟩ := tracks.stands place key isKey
      rw [stands.state, Option.map_some, Option.map_some, nodeOf,
        stands.known]
      rfl

private theorem Tracks.built
    (tracks : Tracks base spec start keys entered construction)
    {position : Nat} (atEnd : construction.states.size ≤ position)
    (due : Due construction entered position)
    {root : Nat} (isRoot : construction.known[start]? = some root) :
    Built base spec start keys construction.nodeOf construction.store := by
  have known : ∀ key, Met spec start key →
      construction.known[key]? = some (construction.nodeOf key) :=
    fun _ met => tracks.known atEnd due isRoot met
  have expandListed : ∀ key, Met spec start key → (spec key).IsExpand →
      key ∈ keys := by
    intro key met isExpand
    have accounts := tracks.accounts key _ (known key met)
    obtain ⟨accepting, edges, isStep⟩ := isExpand
    rw [isStep] at accounts
    exact accounts
  constructor
  · intro key
    constructor
    · exact tracks.mem_keys
    · intro isKey
      exact expandListed key isKey.1 isKey.2
  · exact tracks.keysNodup
  · rw [← tracks.created_eq]
    exact tracks.grown
  · intro key met isAny
    have accounts := tracks.accounts key _ (known key met)
    rw [isAny] at accounts
    exact accounts
  · intro key met isEmpty
    have accounts := tracks.accounts key _ (known key met)
    rw [isEmpty] at accounts
    exact accounts
  · intro key accepting edges met isExpand
    have member := expandListed key met ⟨accepting, edges, isExpand⟩
    obtain ⟨place, isKey⟩ := List.getElem?_of_mem member
    obtain ⟨id, itsEdges, stands⟩ := tracks.stands place key isKey
    obtain ⟨node, found, isStep, table⟩ := stands.node
    have sameId := stands.known
    rw [known key met] at sameId
    cases sameId
    rw [isExpand] at isStep
    cases isStep
    have isOwn := tracks.grown.ordinary _ (mem_created_of_state stands.state)
    obtain ⟨other, isOther, ordinary⟩ := isOwn
    rw [found] at isOther
    cases isOther
    refine ⟨node, found, rfl, ordinary, ?_⟩
    intro name
    have within := (Array.getElem?_eq_some_iff.mp stands.state).1
    rw [table, due place _ _ stands.state,
      if_pos (Nat.lt_of_lt_of_le within atEnd)]
    cases last : lastKey edges name with
    | none =>
        rfl
    | some next =>
        obtain ⟨atom, isEdge, _⟩ := exists_of_lastKey last
        exact known next (met.next isExpand isEdge)

end Construction

/-- If the steps are given by the keys alone while the nodes in use stay, the
construction comes to an end: with the nodes of the keys if the store allows
one for each key that needs one, and else with no node of its own. -/
theorem Store.determinize_outcome [Std.TransOrd κ] [Std.LawfulEqOrd κ]
    {base : Store} (sound : base.Sound)
    {step : Store → κ → Except Fault (SubsetStep κ)}
    {spec : κ → SubsetStep κ} {start : κ}
    (follows : ∀ store, Keeps base store → ∀ key, Met spec start key →
      step store key = .ok (spec key)) :
    (∃ (keys : List κ) (nodeOf : κ → Nat) (after : Store),
      base.determinize start step = .ok (.ok (nodeOf start), after) ∧
      keys.length ≤ base.stateLimit ∧
      Built base spec start keys nodeOf after) ∨
    (∃ (keys : List κ) (after : Store),
      base.determinize start step =
        .ok (.error ⟨base.stateLimit⟩, after) ∧
      base.stateLimit < keys.length ∧ keys.Nodup ∧
      (∀ key ∈ keys, Met spec start key ∧ (spec key).IsExpand) ∧
      Grown base [] after) := by
  have tracks := Construction.tracks_start sound spec start
  have answer := follows base (Keeps.refl base) start (met_start spec start)
  obtain ⟨root, first, isFirst, finds⟩ :
      ∃ root first,
        Construction.stateOf step start ⟨base, ∅, #[]⟩ = .ok (root, first) ∧
          Construction.Finds step start ⟨base, ∅, #[]⟩ root first :=
    Construction.exists_finds answer
  obtain ⟨keys, firstTracks⟩ := tracks.finds finds answer (met_start spec start)
  have isRoot := (finds.known_iff start root).mpr (Or.inl ⟨rfl, rfl⟩)
  have due : Construction.Due first (fun _ => []) 0 := by
    intro place id edges _
    rw [if_neg (Nat.not_lt_zero place)]
  obtain ⟨answer, after, all, entered, isAfter, afterTracks, remembers,
    complete, gaveUp⟩ :=
    Construction.complete_tracks follows firstTracks due
      (Nat.add_zero base.stateLimit)
  rw [determinize, isFirst]
  simp only [isAfter]
  cases answer with
  | true =>
      obtain ⟨few, position, atEnd, allDue⟩ := complete rfl
      have rootStays := remembers.known start root isRoot
      have built := afterTracks.built atEnd allDue rootStays
      refine Or.inl ⟨all, after.nodeOf, after.store, ?_, ?_, built⟩
      · rw [Construction.nodeOf, rootStays]
        rfl
      · rw [← afterTracks.size_eq]
        exact few
  | false =>
      refine Or.inr ⟨all, after.abandon, rfl, ?_, afterTracks.keysNodup,
        fun key member => afterTracks.mem_keys member,
        Construction.grown_abandon afterTracks.grown⟩
      rw [← afterTracks.size_eq]
      exact gaveUp rfl

end ContentModel.Automaton
