import ContentModel.Proofs.Model.Language
import ContentModel.Proofs.Model.Suffix

/-!
# The written form of a content model

The written form does not tell all models apart: what is not filled in is
written in one way whatever it holds, and so are groups of one member of either
kind. It does tell apart what models allow, as long as the names of the leaves
hold no sign of the notation (`language_eq_of_text_eq`). The argument reads two
models of one text side by side. The first sign settles the form of both, a name
ends at the next sign, and a member of a group ends at a separator or at the end
of the group.
-/

namespace ContentModel

/-- The signs of the notation. -/
def isSign (c : Char) : Bool :=
  c ∈ ['(', ')', ',', '|', '?', '*', '+', '\x7b', '\x7d', '#']

/-- A name that holds no sign of the notation. -/
def PlainName (name : String) : Prop :=
  name ≠ "" ∧ ∀ c ∈ name.toList, isSign c = false

instance (name : String) : Decidable (PlainName name) :=
  haveI := List.decidableBAll (fun c => isSign c = false) name.toList
  inferInstanceAs (Decidable (_ ∧ _))

theorem PlainName.exists_cons {name : String} (plain : PlainName name) :
    ∃ c more, name.toList = c :: more ∧ isSign c = false := by
  have nonempty : name.toList ≠ [] := by
    intro isEmpty
    exact plain.1 (String.toList_eq_nil_iff.mp isEmpty)
  obtain ⟨c, more, isName⟩ := List.exists_cons_of_ne_nil nonempty
  refine ⟨c, more, isName, plain.2 c ?_⟩
  rw [isName]
  exact List.mem_cons_self

/-- A name does not begin with a sign. -/
theorem PlainName.append_ne_cons {name : String} (plain : PlainName name)
    {c : Char} (sign : isSign c = true) (rest more : List Char) :
    name.toList ++ rest ≠ c :: more := by
  intro same
  obtain ⟨d, later, isName, notSign⟩ := plain.exists_cons
  rw [isName] at same
  rw [(List.cons.inj same).1, sign] at notSign
  exact Bool.noConfusion notSign

/-- What comes after a name begins with a sign. -/
theorem isSign_of_suffix {occurs : Occurs} {rest : List Char}
    (follows : Follows rest) :
    ∀ c ∈ (occurs.suffix ++ rest).head?, isSign c = true := by
  intro c isHead
  by_cases isOnce : occurs = .once
  · rw [isOnce, Occurs.suffix_once, List.nil_append] at isHead
    rcases follows c isHead with rfl | rfl | rfl
    all_goals decide
  · rcases Occurs.suffix_cases isOnce with
      ⟨_, isSuffix⟩ | ⟨_, isSuffix⟩ | ⟨_, isSuffix⟩ | isSuffix
    all_goals
      rw [isSuffix] at isHead
      cases isHead
      decide

/-- A name ends where its bounds, or what comes after the model, begin. -/
theorem PlainName.append_inj {left right : String} (leftPlain : PlainName left)
    (rightPlain : PlainName right) {leftOccurs rightOccurs : Occurs}
    {leftRest rightRest : List Char} (leftFollows : Follows leftRest)
    (rightFollows : Follows rightRest)
    (same : left.toList ++ (leftOccurs.suffix ++ leftRest) =
      right.toList ++ (rightOccurs.suffix ++ rightRest)) :
    left = right ∧
      leftOccurs.suffix ++ leftRest = rightOccurs.suffix ++ rightRest := by
  have leftEnds : ∀ c ∈ (leftOccurs.suffix ++ leftRest).head?,
      ¬ isSign c = false := by
    intro c isHead
    rw [isSign_of_suffix leftFollows c isHead]
    decide
  have rightEnds : ∀ c ∈ (rightOccurs.suffix ++ rightRest).head?,
      ¬ isSign c = false := by
    intro c isHead
    rw [isSign_of_suffix rightFollows c isHead]
    decide
  obtain ⟨sameName, sameRest⟩ := append_inj_of_head leftPlain.2 rightPlain.2
    leftEnds rightEnds same
  exact ⟨String.toList_inj.mp sameName, sameRest⟩

namespace Model

/-! ## The names of the leaves -/

mutual

/-- The names of the leaves from the left. -/
def leafNames : Model → List String
  | node particle children =>
    match particle.kind, particle.atom with
    | .leaf, some atom => atom.name :: allLeafNames children
    | _, _ => allLeafNames children

def allLeafNames : List Model → List String
  | [] => []
  | model :: models => model.leafNames ++ allLeafNames models

end

theorem allLeafNames_eq_flatMap (models : List Model) :
    allLeafNames models = models.flatMap leafNames := by
  induction models with
  | nil =>
      rfl
  | cons head tail inductionHypothesis =>
      simp only [allLeafNames, List.flatMap_cons, inductionHypothesis]

/-- No name of a leaf holds a sign of the notation. -/
def NamesPlain (model : Model) : Prop :=
  ∀ name ∈ model.leafNames, PlainName name

instance (model : Model) : Decidable model.NamesPlain :=
  List.decidableBAll PlainName model.leafNames

theorem NamesPlain.child {particle : Particle} {children : List Model}
    (plain : (node particle children).NamesPlain) :
    ∀ child ∈ children, child.NamesPlain := by
  intro child member name isName
  apply plain
  have listed : name ∈ allLeafNames children := by
    rw [allLeafNames_eq_flatMap]
    exact List.mem_flatMap.mpr ⟨child, member, isName⟩
  rw [leafNames]
  split
  · exact List.mem_cons_of_mem _ listed
  · exact listed

theorem NamesPlain.own {occurs : Occurs} {atom : Atom}
    {children : List Model}
    (plain : (node ⟨.leaf, occurs, some atom⟩ children).NamesPlain) :
    PlainName atom.name := by
  apply plain
  rw [leafNames]
  exact List.mem_cons_self

/-! ## The text of a group -/

/-- The members of a group after the first one, the end of the group and what
comes after it. -/
def laterText (separator : Char) (rest : List Char) : List Model → List Char
  | [] => ')' :: rest
  | member :: members =>
    separator :: (member.text.toList ++ laterText separator rest members)

/-- The members of a group, the end of the group and what comes after it. -/
def memberText (separator : Char) (rest : List Char) : List Model → List Char
  | [] => ')' :: rest
  | member :: members =>
    member.text.toList ++ laterText separator rest members

theorem laterText_append (separator : Char) (rest more : List Char)
    (members : List Model) :
    laterText separator rest members ++ more =
      laterText separator (rest ++ more) members := by
  induction members with
  | nil =>
      rfl
  | cons member members inductionHypothesis =>
      simp only [laterText, List.cons_append, List.append_assoc,
        inductionHypothesis]

theorem memberText_append (separator : Char) (rest more : List Char)
    (members : List Model) :
    memberText separator rest members ++ more =
      memberText separator (rest ++ more) members := by
  cases members with
  | nil =>
      rfl
  | cons member members =>
      rw [memberText, memberText, List.append_assoc, laterText_append]

theorem intercalate_append (separator : Char) (rest : List Char)
    (members : List Model) :
    [separator].intercalate (members.map fun member => member.text.toList) ++
        ')' :: rest =
      memberText separator rest members := by
  cases members with
  | nil =>
      rfl
  | cons member members =>
      induction members generalizing member with
      | nil =>
          simp [memberText, laterText]
      | cons next members inductionHypothesis =>
          have shorter := inductionHypothesis next
          rw [List.map_cons] at shorter
          rw [List.map_cons, List.map_cons, List.intercalate_cons_cons,
            List.append_assoc, List.append_assoc, shorter]
          rfl

/-! ## The forms of a model -/

/-- What a group allows, given what its members allow. -/
def groupLanguage (separator : Char) (occurs : Occurs)
    (members : List (Language String)) : Language String :=
  if members.isEmpty then 1
  else occurs.repeats <|
    if separator = ',' then members.prod else members.sum

/-- How a model is written, and what it allows. -/
inductive Form (model : Model) : Prop
  | silent (occurs : Occurs) :
      model.text.toList = '#' :: ("UNKNOWN".toList ++ occurs.suffix) →
      model.language = 1 →
      Form model
  | leaf (occurs : Occurs) (name : String) :
      PlainName name →
      model.text.toList = name.toList ++ occurs.suffix →
      model.language = occurs.repeats {[name]} →
      Form model
  | group (occurs : Occurs) (separator : Char) :
      (separator = ',' ∨ separator = '|') →
      model.text.toList =
        '(' :: memberText separator occurs.suffix model.children →
      model.language =
        groupLanguage separator occurs (model.children.map language) →
      Form model

private theorem text_group (separator : String) (c : Char)
    (isOne : separator.toList = [c]) (children : List Model)
    (suffix : String) :
    ("(" ++ separator.intercalate (texts children) ++ ")" ++ suffix).toList =
      '(' :: memberText c suffix.toList children := by
  rw [texts_eq_map, ← intercalate_append]
  simp [String.toList_append, String.toList_intercalate, isOne,
    Function.comp_def]

private theorem isEmpty_map_language (children : List Model) :
    (children.map language).isEmpty = children.isEmpty := by
  cases children with
  | nil => rfl
  | cons child children => rfl

theorem form {model : Model} (plain : model.NamesPlain) : model.Form := by
  obtain ⟨⟨kind, occurs, atom⟩, children⟩ := model
  cases kind with
  | unknown =>
      refine Form.silent occurs ?_ ?_
      · simp [text, particleText, Occurs.suffix]
      · rw [language]
  | choice =>
      refine Form.group occurs '|' (Or.inr rfl) ?_ ?_
      · rw [text, particleText]
        exact text_group "|" '|' rfl children _
      · rw [groupLanguage, Model.children, isEmpty_map_language, language,
          languages_eq_map]
        rfl
  | sequence =>
      refine Form.group occurs ',' (Or.inl rfl) ?_ ?_
      · rw [text, particleText]
        exact text_group "," ',' rfl children _
      · rw [groupLanguage, Model.children, isEmpty_map_language, language,
          languages_eq_map]
        rfl
  | leaf =>
      cases atom with
      | none =>
          refine Form.silent occurs ?_ ?_
          · simp [text, particleText, Occurs.suffix]
          · rw [language]
      | some atom =>
          refine Form.leaf occurs atom.name plain.own ?_ ?_
          · simp [text, particleText, Occurs.suffix]
          · rw [language]

/-- No model begins with what ends a group. -/
theorem Form.append_ne_end {model : Model} (form : model.Form)
    (rest more : List Char) : model.text.toList ++ rest ≠ ')' :: more := by
  cases form with
  | silent occurs isText _ =>
      rw [isText]
      exact fun same => absurd (List.cons.inj same).1 (by decide)
  | leaf occurs name plain isText _ =>
      rw [isText, List.append_assoc]
      exact plain.append_ne_cons (by decide) _ _
  | group occurs separator _ isText _ =>
      rw [isText]
      exact fun same => absurd (List.cons.inj same).1 (by decide)

/-! ## Two models of one text -/

/-- Wherever the model is read, another model that is read there instead allows
the same and ends at the same place. -/
def Reads (left : Model) : Prop :=
  ∀ (right : Model) (leftRest rightRest : List Char),
    right.NamesPlain → Follows leftRest → Follows rightRest →
    left.text.toList ++ leftRest = right.text.toList ++ rightRest →
    left.language = right.language ∧ leftRest = rightRest

theorem follows_laterText {separator : Char}
    (separates : separator = ',' ∨ separator = '|') (rest : List Char)
    (members : List Model) : Follows (laterText separator rest members) := by
  intro c isHead
  cases members with
  | nil =>
      cases isHead
      exact Or.inr (Or.inr rfl)
  | cons member members =>
      cases isHead
      cases separates with
      | inl isComma => exact Or.inl isComma
      | inr isBar => exact Or.inr (Or.inl isBar)

section Members

variable {leftSeparator rightSeparator : Char}
  (leftSeparates : leftSeparator = ',' ∨ leftSeparator = '|')
  (rightSeparates : rightSeparator = ',' ∨ rightSeparator = '|')
  {leftRest rightRest : List Char} {lefts rights : List Model}
  (each : ∀ left ∈ lefts, left.Reads)
  (plain : ∀ right ∈ rights, right.NamesPlain)

include leftSeparates rightSeparates each plain

/-- Separators show where the members end, and of which kind the group is. -/
theorem laterText_inj
    (same : laterText leftSeparator leftRest lefts =
      laterText rightSeparator rightRest rights) :
    lefts.map language = rights.map language ∧ leftRest = rightRest ∧
      (lefts = [] ∨ leftSeparator = rightSeparator) := by
  induction lefts generalizing rights with
  | nil =>
      cases rights with
      | nil =>
          exact ⟨rfl, (List.cons.inj same).2, Or.inl rfl⟩
      | cons right rights =>
          have isEnd := (List.cons.inj same).1
          rcases rightSeparates with rfl | rfl
          all_goals exact absurd isEnd (by decide)
  | cons left lefts inductionHypothesis =>
      cases rights with
      | nil =>
          have isEnd := (List.cons.inj same).1
          rcases leftSeparates with rfl | rfl
          all_goals exact absurd isEnd (by decide)
      | cons right rights =>
          obtain ⟨sameSeparator, sameTail⟩ := List.cons.inj same
          obtain ⟨sameLanguage, sameLater⟩ :=
            each left List.mem_cons_self right _ _
              (plain right List.mem_cons_self)
              (follows_laterText leftSeparates leftRest lefts)
              (follows_laterText rightSeparates rightRest rights) sameTail
          obtain ⟨sameLanguages, sameRest, _⟩ := inductionHypothesis
            (fun other member => each other (List.mem_cons_of_mem _ member))
            (fun other member => plain other (List.mem_cons_of_mem _ member))
            sameLater
          exact ⟨by rw [List.map_cons, List.map_cons, sameLanguage,
            sameLanguages], sameRest, Or.inr sameSeparator⟩

/-- The same from the first member on; a group of one member does not show its
kind. -/
theorem memberText_inj (leftForms : ∀ left ∈ lefts, left.Form)
    (same : memberText leftSeparator leftRest lefts =
      memberText rightSeparator rightRest rights) :
    lefts.map language = rights.map language ∧ leftRest = rightRest ∧
      (lefts.length ≤ 1 ∨ leftSeparator = rightSeparator) := by
  cases lefts with
  | nil =>
      cases rights with
      | nil =>
          exact ⟨rfl, (List.cons.inj same).2, Or.inl (by decide)⟩
      | cons right rights =>
          have rightForm := form (plain right List.mem_cons_self)
          exact absurd same.symm (rightForm.append_ne_end _ _)
  | cons left lefts =>
      cases rights with
      | nil =>
          have leftForm := leftForms left List.mem_cons_self
          exact absurd same (leftForm.append_ne_end _ _)
      | cons right rights =>
          obtain ⟨sameLanguage, sameLater⟩ :=
            each left List.mem_cons_self right _ _
              (plain right List.mem_cons_self)
              (follows_laterText leftSeparates leftRest lefts)
              (follows_laterText rightSeparates rightRest rights) same
          obtain ⟨sameLanguages, sameRest, sameKind⟩ :=
            laterText_inj leftSeparates rightSeparates
              (fun other member => each other (List.mem_cons_of_mem _ member))
              (fun other member => plain other (List.mem_cons_of_mem _ member))
              sameLater
          refine ⟨by rw [List.map_cons, List.map_cons, sameLanguage,
            sameLanguages], sameRest, ?_⟩
          cases sameKind with
          | inl alone =>
              rw [alone]
              exact Or.inl (Nat.le_refl 1)
          | inr sameSeparator =>
              exact Or.inr sameSeparator

end Members

/-- Groups of at most one member allow the same whichever their kind is. -/
theorem groupLanguage_congr {leftSeparator rightSeparator : Char}
    {occurs : Occurs} {members : List (Language String)}
    (sameKind : members.length ≤ 1 ∨ leftSeparator = rightSeparator) :
    groupLanguage leftSeparator occurs members =
      groupLanguage rightSeparator occurs members := by
  cases sameKind with
  | inr sameSeparator =>
      rw [sameSeparator]
  | inl few =>
      match members, few with
      | [], _ =>
          rfl
      | [member], _ =>
          simp [groupLanguage]

/-- A particle that is not filled in and a group do not begin alike, nor does
either like a name. -/
private theorem Form.reads {left right : Model} {leftRest rightRest : List Char}
    (leftForm : left.Form) (rightForm : right.Form)
    (each : ∀ child ∈ left.children, child.NamesPlain ∧ child.Reads)
    (plain : ∀ child ∈ right.children, child.NamesPlain)
    (leftFollows : Follows leftRest) (rightFollows : Follows rightRest)
    (same : left.text.toList ++ leftRest = right.text.toList ++ rightRest) :
    left.language = right.language ∧ leftRest = rightRest := by
  cases leftForm with
  | silent leftOccurs leftText leftLanguage =>
      rw [leftText] at same
      cases rightForm with
      | silent rightOccurs rightText rightLanguage =>
          rw [rightText, List.cons_append, List.cons_append, List.append_assoc,
            List.append_assoc] at same
          have sameSuffix := List.append_cancel_left (List.cons.inj same).2
          have sameRest :=
            (Occurs.suffix_append_inj leftFollows rightFollows sameSuffix).2
          exact ⟨leftLanguage.trans rightLanguage.symm, sameRest⟩
      | leaf rightOccurs name named rightText _ =>
          rw [rightText, List.append_assoc] at same
          exact absurd same.symm (named.append_ne_cons (by decide) _ _)
      | group rightOccurs separator _ rightText _ =>
          rw [rightText] at same
          exact absurd (List.cons.inj same).1 (by decide)
  | leaf leftOccurs leftName leftNamed leftText leftLanguage =>
      cases rightForm with
      | silent rightOccurs rightText _ =>
          rw [leftText, rightText, List.append_assoc] at same
          exact absurd same (leftNamed.append_ne_cons (by decide) _ _)
      | leaf rightOccurs rightName rightNamed rightText rightLanguage =>
          rw [leftText, rightText, List.append_assoc, List.append_assoc] at same
          obtain ⟨sameName, sameSuffix⟩ :=
            leftNamed.append_inj rightNamed leftFollows rightFollows same
          obtain ⟨sameOccurs, sameRest⟩ :=
            Occurs.suffix_append_inj leftFollows rightFollows sameSuffix
          rw [leftLanguage, rightLanguage, sameName, sameOccurs]
          exact ⟨rfl, sameRest⟩
      | group rightOccurs separator _ rightText _ =>
          rw [leftText, rightText, List.append_assoc] at same
          exact absurd same (leftNamed.append_ne_cons (by decide) _ _)
  | group leftOccurs leftSeparator leftSeparates leftText leftLanguage =>
      rw [leftText] at same
      cases rightForm with
      | silent rightOccurs rightText _ =>
          rw [rightText] at same
          exact absurd (List.cons.inj same).1 (by decide)
      | leaf rightOccurs name named rightText _ =>
          rw [rightText, List.append_assoc] at same
          exact absurd same.symm (named.append_ne_cons (by decide) _ _)
      | group rightOccurs rightSeparator rightSeparates rightText
          rightLanguage =>
          rw [rightText, List.cons_append, List.cons_append, memberText_append,
            memberText_append] at same
          obtain ⟨sameLanguages, sameSuffix, sameKind⟩ :=
            memberText_inj leftSeparates rightSeparates
              (fun child member => (each child member).2) plain
              (fun child member => form (each child member).1)
              (List.cons.inj same).2
          obtain ⟨sameOccurs, sameRest⟩ :=
            Occurs.suffix_append_inj leftFollows rightFollows sameSuffix
          rw [leftLanguage, rightLanguage, ← sameLanguages, ← sameOccurs]
          refine ⟨groupLanguage_congr ?_, sameRest⟩
          rw [List.length_map]
          exact sameKind

theorem reads {left : Model} (leftPlain : left.NamesPlain) : left.Reads := by
  induction left using inductionOnMembers with
  | node particle children inductionHypothesis =>
      intro right leftRest rightRest rightPlain leftFollows rightFollows same
      have each : ∀ child ∈ children, child.NamesPlain ∧ child.Reads :=
        fun child member =>
          ⟨leftPlain.child child member,
            inductionHypothesis child member (leftPlain.child child member)⟩
      have plain : ∀ child ∈ right.children, child.NamesPlain := by
        cases right with
        | node rightParticle rightChildren => exact rightPlain.child
      exact (form leftPlain).reads (form rightPlain) each plain leftFollows
        rightFollows same

/-- The written form settles what a model allows. -/
theorem language_eq_of_text_eq {left right : Model}
    (leftPlain : left.NamesPlain) (rightPlain : right.NamesPlain)
    (same : left.text = right.text) : left.language = right.language := by
  have nothing : Follows [] := fun c isHead => by cases isHead
  exact (reads leftPlain right [] [] rightPlain nothing nothing
    (by rw [same])).1

end Model

end ContentModel
