import Randomizer.Json.Basic
import Randomizer.Text.Number

/-!
Writing a JSON value on one line. Text is escaped where JSON asks for it and nowhere else.
-/

namespace Randomizer.Json

/-- Quotes, backslashes and controls are escaped, the last ones by four digits. -/
def escapedChar (char : Char) : String :=
  if char = '"' then "\\\""
  else if char = '\\' then "\\\\"
  else if char.toNat < 0x20 then "\\u" ++ Hexadecimal.padded 4 char.toNat
  else char.toString

def quotedText (text : String) : String :=
  "\"" ++ String.join (text.toList.map escapedChar) ++ "\""

mutual

/-- The text of a value. -/
def text : Json → String
  | null => "null"
  | bool value => toString value
  | integer value => toString value
  | decimal negative digits exponent =>
    (if negative then "-" else "") ++ toString digits ++ "e" ++ toString exponent
  | string value => quotedText value
  | array items => "[" ++ String.intercalate "," (itemTexts items) ++ "]"
  | object members => "\x7b" ++ String.intercalate "," (memberTexts members) ++ "\x7d"

def itemTexts : List Json → List String
  | [] => []
  | item :: rest => item.text :: itemTexts rest

def memberTexts : List (String × Json) → List String
  | [] => []
  | (key, value) :: rest => (quotedText key ++ ":" ++ value.text) :: memberTexts rest

end

end Randomizer.Json
