import ContentModel.Atom
import ContentModel.Atom.Unprintable

/-!
# Quoted atoms

For diagnosis an atom is written between quotes. Quotes, backslashes and some
control characters have a short form, and a character without a picture of its
own is written by its number.
-/

namespace ContentModel

/-- The digits of a number to base sixteen, in small letters. -/
def hexText (number : Nat) : String :=
  String.ofList (Nat.toDigits 16 number)

/-- A character as it is written between quotes. -/
def quotedChar (char : Char) : String :=
  match char with
  | '"' => "\\\""
  | '\\' => "\\\\"
  | '\n' => "\\n"
  | '\r' => "\\r"
  | '\t' => "\\t"
  | '\x00' => "\\0"
  | char =>
    if isUnprintable char then
      "\\u\x7b" ++ hexText char.toNat ++ "\x7d"
    else
      String.singleton char

def quoted (text : String) : String :=
  "\"" ++ String.join (text.toList.map quotedChar) ++ "\""

/-- An atom as it is written for diagnosis. -/
def Atom.describe (atom : Atom) : String :=
  "Atom(" ++ quoted atom.name ++ ")"

end ContentModel
