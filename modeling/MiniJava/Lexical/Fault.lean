import MiniJava.Diagnostic
import MiniJava.Text.Digits
/-!
# Lexical faults

What can be wrong with the spelling of a word, and the message for each cause. A
fault is placed by its distance from the start of the malformed text, so that it
does not depend on where that text stands.
-/

namespace MiniJava.Lexical

open MiniJava.Text

inductive Cause where
  | unclosedComment
  | underscoreFirst (word : String)
  | letterAfterNumber (radix : Radix) (text : String)
  | noHexadecimalDigit
  | secondDot
  | dotAfterExponent
  | hexadecimalFraction
  | octalFraction
  | secondExponent
  | noExponentDigit (found : Option Char)
  | integerRange (text : String)
  | realRange (text : String)
  | realForm (text : String)
  | unclosedChar
  | unclosedString
  | charLength
  | unknownCharacter (c : Char)
  deriving DecidableEq, Repr

namespace Cause

def message : Cause → String
  | unclosedComment => "end of file happened in comment, */ is expected!"
  | underscoreFirst word => "Identifiers can not begin with an underscore " ++ word
  | letterAfterNumber .decimal text => "Identifiers can not begin with a number " ++ text
  | letterAfterNumber .octal text => "Octal number format error: " ++ text
  | letterAfterNumber .hexadecimal text => "Hexadecimal number format error: " ++ text
  | noHexadecimalDigit => "Hexadecimal number format error."
  | secondDot => "Fraction number can not have more than one dot."
  | dotAfterExponent => "Scientist number representation in MJava can not have dot."
  | hexadecimalFraction => "Hexadecimal number in MJava can only be integer."
  | octalFraction => "Octal number in MJava can only be integer."
  | secondExponent => "Scientist presentation can not have more than one e / E"
  | noExponentDigit found =>
    "Scientist presentation number after e / E should be + / - or digits but find " ++
      match found with
      | some c => "'" ++ String.singleton c ++ "'"
      | none => "end of file"
  | integerRange text => "Integer literal: " ++ text ++ " is outside the range of the \"int\"."
  | realRange text =>
    "Floating-point number literal: " ++ text ++ " is outside the range of the \"double\"."
  | realForm text =>
    "Floating-point number literal: " ++ text ++ " can not be converted to the \"double\"."
  | unclosedChar => "end of file happened in char, ' is expected!"
  | unclosedString => "end of file happened in string, \" is expected!"
  | charLength => "Char can contain only one character!"
  | unknownCharacter c => "Unknown character " ++ String.singleton c

end Cause

/-- A cause and how many characters of the malformed text precede the place it is found. -/
structure Fault where
  offset : Nat
  cause : Cause
  deriving DecidableEq, Repr

namespace Fault

def atStart (cause : Cause) : Fault := ⟨0, cause⟩

def diagnose (source : String) (start : Point) (text : List Char) (f : Fault) : Diagnostic :=
  ⟨.lexical, ⟨start.after (text.take f.offset), source⟩, f.cause.message⟩

end Fault

end MiniJava.Lexical
