import ContentModel.Atom
import Mathlib.Algebra.Ring.Nat

/-!
# The order of names is the order of their bytes

Names are ordered code point by code point. In UTF-8 a character with a greater
code point has the greater byte where the two encodings first differ, so that
the same order is seen by whoever compares names byte by byte.
-/

namespace ContentModel.Atom

/-- The bytes of a name in UTF-8. -/
def bytes (name : String) : List UInt8 :=
  name.toUTF8.data.toList

/-- One list of bytes comes before another: it has the smaller byte where they
first differ, or it ends there. -/
def BytesBelow : List UInt8 → List UInt8 → Prop :=
  List.Lex (· < ·)

theorem bytes_eq (name : String) :
    bytes name = name.toList.flatMap String.utf8EncodeChar := by
  rw [bytes, String.toUTF8, ← String.utf8Encode_toList, List.utf8Encode,
    List.data_toByteArray]

/-! ## Encodings of characters -/

/-- Whatever follows, the first list comes before the second one: they differ
before either of them ends. -/
private def Splits (left right : List UInt8) : Prop :=
  ∀ leftRest rightRest, BytesBelow (left ++ leftRest) (right ++ rightRest)

private theorem splits_of_lt {left right : Nat} (below : left < right)
    (few : right < 256) (leftRest rightRest : List UInt8) :
    Splits (UInt8.ofNat left :: leftRest)
      (UInt8.ofNat right :: rightRest) := by
  intro _ _
  refine List.Lex.rel ?_
  exact (UInt8.ofNat_lt_iff_lt (Nat.lt_trans below few) few).mpr below

private theorem Splits.cons (first : UInt8) {left right : List UInt8}
    (splits : Splits left right) :
    Splits (first :: left) (first :: right) :=
  fun leftRest rightRest => List.Lex.cons (splits leftRest rightRest)

/-- The bytes after the first one: each of them holds six bits of the code
point, with a mark before them. -/
private def lastBytes : Nat → Nat → List UInt8
  | 0, _ => []
  | count + 1, code =>
    UInt8.ofNat (code / 64 ^ count % 64 + 128) :: lastBytes count code

/-- The induction is on the number of bytes: the first six bits decide, unless
they are the same. -/
private theorem splits_lastBytes {left right : Nat} (count : Nat)
    (below : left % 64 ^ count < right % 64 ^ count) :
    Splits (lastBytes count left) (lastBytes count right) := by
  induction count with
  | zero =>
      rw [Nat.pow_zero, Nat.mod_one, Nat.mod_one] at below
      exact absurd below (Nat.lt_irrefl 0)
  | succ count inductionHypothesis =>
      rw [Nat.mod_pow_succ, Nat.mod_pow_succ] at below
      rw [lastBytes, lastBytes]
      by_cases same : left / 64 ^ count % 64 = right / 64 ^ count % 64
      · rw [same] at below ⊢
        exact Splits.cons _
          (inductionHypothesis (Nat.lt_of_add_lt_add_right below))
      · have positive : 0 < 64 ^ count := Nat.pow_pos (by decide)
        have room : right % 64 ^ count < 64 ^ count :=
          Nat.mod_lt right positive
        have notAbove :
            ¬ right / 64 ^ count % 64 < left / 64 ^ count % 64 := by
          intro above
          have := Nat.mul_le_mul_left (64 ^ count) (Nat.succ_le_of_lt above)
          rw [Nat.mul_succ] at this
          omega
        exact splits_of_lt (by omega) (by omega) _ _

private theorem code_lt (char : Char) : char.val.toNat < 2097152 := by
  have valid : char.val.toNat < 55296 ∨
      57343 < char.val.toNat ∧ char.val.toNat < 1114112 := char.valid
  omega

/-- How many bytes follow the first one. -/
private def followers (code : Nat) : Nat :=
  if code ≤ 127 then 0
  else if code ≤ 2047 then 1
  else if code ≤ 65535 then 2
  else 3

/-- The first byte holds the first bits of the code point, behind a mark that
tells how many bytes follow. -/
private def firstByte (code : Nat) : Nat :=
  if code ≤ 127 then code
  else if code ≤ 2047 then code / 64 + 192
  else if code ≤ 65535 then code / 4096 + 224
  else code / 262144 + 240

private theorem utf8EncodeChar_eq (char : Char) :
    String.utf8EncodeChar char =
      UInt8.ofNat (firstByte char.val.toNat) ::
        lastBytes (followers char.val.toNat) char.val.toNat := by
  have few := code_lt char
  simp only [String.utf8EncodeChar, firstByte, followers]
  generalize char.val.toNat = code at few
  split
  · rfl
  · split
    · have small : code / 64 % 32 = code / 64 := Nat.mod_eq_of_lt (by omega)
      simp [lastBytes, small]
    · split
      · have small : code / 4096 % 16 = code / 4096 :=
          Nat.mod_eq_of_lt (by omega)
        simp [lastBytes, small]
      · have small : code / 262144 % 8 = code / 262144 :=
          Nat.mod_eq_of_lt (by omega)
        simp [lastBytes, small]

/-- The first byte and how many follow, for a code point of each length. -/
private theorem firstByte_cases (code : Nat) :
    (code ≤ 127 ∧ followers code = 0 ∧ firstByte code = code) ∨
    (127 < code ∧ code ≤ 2047 ∧
      followers code = 1 ∧ firstByte code = code / 64 + 192) ∨
    (2047 < code ∧ code ≤ 65535 ∧
      followers code = 2 ∧ firstByte code = code / 4096 + 224) ∨
    (65535 < code ∧
      followers code = 3 ∧ firstByte code = code / 262144 + 240) := by
  rw [followers, firstByte]
  split
  · omega
  · split
    · omega
    · split
      · omega
      · omega

private theorem firstByte_lt {code : Nat} (few : code < 2097152) :
    firstByte code < 256 := by
  have := firstByte_cases code
  omega

/-- A greater code point does not have a smaller first byte. -/
private theorem firstByte_le {left right : Nat} (below : left < right) :
    firstByte left ≤ firstByte right := by
  have := firstByte_cases left
  have := firstByte_cases right
  omega

/-- With the same first byte as many bytes follow, and the first bits agree. -/
private theorem eq_of_firstByte_eq {left right : Nat} (below : left < right)
    (same : firstByte left = firstByte right) :
    followers left = followers right ∧
      left / 64 ^ followers left = right / 64 ^ followers left := by
  have leftCases := firstByte_cases left
  have rightCases := firstByte_cases right
  have sameFollowers : followers left = followers right := by
    omega
  refine ⟨sameFollowers, ?_⟩
  rcases leftCases with ⟨_, count, _⟩ | ⟨_, _, count, _⟩ | ⟨_, _, count, _⟩ |
    ⟨_, count, _⟩
  all_goals
    rw [count]
    omega

/-- The first byte decides, unless it is the same: then the others do. -/
private theorem splits_utf8EncodeChar {left right : Char}
    (below : left < right) :
    Splits (String.utf8EncodeChar left) (String.utf8EncodeChar right) := by
  have below : left.val.toNat < right.val.toNat := below
  have few := code_lt right
  rw [utf8EncodeChar_eq, utf8EncodeChar_eq]
  generalize left.val.toNat = left at below
  generalize right.val.toNat = right at below few
  rcases Nat.lt_or_eq_of_le (firstByte_le below) with firstBelow | same
  · exact splits_of_lt firstBelow (firstByte_lt few) _ _
  · obtain ⟨sameFollowers, sameBits⟩ := eq_of_firstByte_eq below same
    rw [same, ← sameFollowers]
    refine Splits.cons _ (splits_lastBytes _ ?_)
    rw [← Nat.div_add_mod left (64 ^ followers left),
      ← Nat.div_add_mod right (64 ^ followers left), sameBits] at below
    exact Nat.lt_of_add_lt_add_left below

/-! ## Encodings of names -/

private theorem bytesBelow_append (first : List UInt8)
    {left right : List UInt8} (below : BytesBelow left right) :
    BytesBelow (first ++ left) (first ++ right) := by
  induction first with
  | nil =>
      exact below
  | cons head tail inductionHypothesis =>
      exact List.Lex.cons inductionHypothesis

private theorem bytesBelow_flatMap {left right : List Char}
    (below : List.Lex (· < ·) left right) :
    BytesBelow (left.flatMap String.utf8EncodeChar)
      (right.flatMap String.utf8EncodeChar) := by
  induction below with
  | @nil head tail =>
      rw [List.flatMap_cons]
      cases encoding : String.utf8EncodeChar head with
      | nil =>
          exact absurd encoding String.utf8EncodeChar_ne_nil
      | cons first rest =>
          exact List.Lex.nil
  | rel headBelow =>
      exact splits_utf8EncodeChar headBelow _ _
  | cons _ inductionHypothesis =>
      exact bytesBelow_append _ inductionHypothesis

private theorem not_bytesBelow_both {left right : List UInt8}
    (below : BytesBelow left right) : ¬ BytesBelow right left :=
  List.lt_asymm below

/-- One name comes before another exactly if its bytes do. -/
theorem lt_iff_bytesBelow (left right : String) :
    left < right ↔ BytesBelow (bytes left) (bytes right) := by
  have onward : ∀ {left right : String}, left < right →
      BytesBelow (bytes left) (bytes right) := by
    intro left right below
    rw [bytes_eq, bytes_eq]
    exact bytesBelow_flatMap (String.lt_iff.mp below)
  constructor
  · exact onward
  · intro bytesBelow
    apply Decidable.byContradiction
    intro notBelow
    by_cases above : right < left
    · exact not_bytesBelow_both bytesBelow (onward above)
    · have same : left = right :=
        String.le_antisymm (String.not_lt.mp above) (String.not_lt.mp notBelow)
      rw [same] at bytesBelow
      exact not_bytesBelow_both bytesBelow bytesBelow

end ContentModel.Atom
