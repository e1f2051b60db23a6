import Randomizer.Json.Lexeme

/-!
Reading a JSON document from text. The whole text is one value, and containers nest to a bounded
depth.
-/

namespace Randomizer.Json

/-- A value read from the front of the lexemes, and the lexemes that are left. -/
abbrev Front (α : Type) (lexemes : List Lexeme) :=
  Option (α × { rest : List Lexeme // rest.length < lexemes.length })

mutual

/-- One value, with a number of levels of containers still allowed. -/
def readValue (levels : Nat) (lexemes : List Lexeme) : Front Json lexemes :=
  match lexemes with
  | .scalar value :: rest => some (value, ⟨rest, by simp⟩)
  | .openArray :: .closeArray :: rest =>
    if levels = 0 then none
    else some (.array [], ⟨rest, by simp only [List.length_cons]; omega⟩)
  | .openArray :: rest =>
    if levels = 0 then none
    else
      match readItems (levels - 1) rest with
      | none => none
      | some (items, after) =>
        have shorter : after.val.length < rest.length := after.property
        some (.array items, ⟨after.val, by simp only [List.length_cons]; omega⟩)
  | .openObject :: .closeObject :: rest =>
    if levels = 0 then none
    else some (.object [], ⟨rest, by simp only [List.length_cons]; omega⟩)
  | .openObject :: rest =>
    if levels = 0 then none
    else
      match readMembers (levels - 1) rest with
      | none => none
      | some (members, after) =>
        have shorter : after.val.length < rest.length := after.property
        some (.object members, ⟨after.val, by simp only [List.length_cons]; omega⟩)
  | _ => none
termination_by (lexemes.length, 0)

/-- The items of an array that has at least one, up to its closing bracket. -/
def readItems (levels : Nat) (lexemes : List Lexeme) : Front (List Json) lexemes :=
  match readValue levels lexemes with
  | some (item, ⟨.comma :: rest, shorter⟩) =>
    have : rest.length < lexemes.length := by simp only [List.length_cons] at shorter; omega
    match readItems levels rest with
    | none => none
    | some (items, after) =>
      some (item :: items, ⟨after.val, by have := after.property; omega⟩)
  | some (item, ⟨.closeArray :: rest, shorter⟩) =>
    some ([item], ⟨rest, by simp only [List.length_cons] at shorter; omega⟩)
  | _ => none
termination_by (lexemes.length, 1)

/-- The members of an object that has at least one, up to its closing brace. -/
def readMembers (levels : Nat) (lexemes : List Lexeme) :
    Front (List (String × Json)) lexemes :=
  match lexemes with
  | .scalar (.string key) :: .colon :: start =>
    match readValue levels start with
    | some (value, ⟨.comma :: rest, shorter⟩) =>
      have : rest.length < start.length := by simp only [List.length_cons] at shorter; omega
      match readMembers levels rest with
      | none => none
      | some (members, after) =>
        have : after.val.length < rest.length := after.property
        some ((key, value) :: members, ⟨after.val, by simp only [List.length_cons]; omega⟩)
    | some (value, ⟨.closeObject :: rest, shorter⟩) =>
      some ([(key, value)], ⟨rest, by simp only [List.length_cons] at shorter ⊢; omega⟩)
    | _ => none
  | _ => none
termination_by (lexemes.length, 0)

end

/-- How deep containers may nest. -/
def maximalLevels : Nat := 127

/-- The value that a text writes, if it writes one and nothing else. -/
def ofText? (text : String) : Option Json := do
  let lexemes ← Lexeme.scan text.toList
  match readValue maximalLevels lexemes with
  | some (value, ⟨[], _⟩) => some value
  | _ => none

end Randomizer.Json
