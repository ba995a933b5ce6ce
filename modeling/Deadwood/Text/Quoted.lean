import Deadwood.Text.Hex
import Deadwood.Text.Unprintable

namespace Deadwood.Text

/-!
Text between quotes, with everything that would not show as itself escaped.
-/

/-- A code point as a numbered escape of two, four or eight digits. -/
def numbered (c : Char) : String :=
  if c.toNat < 0x100 then "\\x" ++ hexPadded 2 c.toNat
  else if c.toNat < 0x10000 then "\\u" ++ hexPadded 4 c.toNat
  else "\\U" ++ hexPadded 8 c.toNat

def escaped (delimiter c : Char) : String :=
  if c = delimiter ∨ c = '\\' then "\\" ++ c.toString
  else if c = '\n' then "\\n"
  else if c = '\r' then "\\r"
  else if c = '\t' then "\\t"
  else if isUnprintable c then numbered c
  else c.toString

/-- Single quotes delimit the text, unless it contains one and no double quote. -/
def delimiter (text : List Char) : Char :=
  if '\x27' ∈ text ∧ '\x22' ∉ text then '\x22' else '\x27'

def quoted (text : String) : String :=
  let mark := delimiter text.toList
  mark.toString ++ String.join (text.toList.map (escaped mark)) ++ mark.toString

end Deadwood.Text
