import Randomizer.Error
import Randomizer.Logic.Clause
import Randomizer.Logic.Lexeme
import Randomizer.NameMap

/-!
Reading logic text into clauses, against a table of macros that are known by name.
-/

namespace Randomizer

/-- What waits for its operands or its closing parenthesis, the latest on top. -/
inductive Pending where
  | group
  | connective (kind : Connective)
  deriving DecidableEq, Repr

namespace Pending

/-- The waiting connectives that bind at least as tight as a new one, and what waits below. -/
def unwind (strength : Nat) : List Pending → List Token × List Pending
  | .connective kind :: rest =>
    if kind.strength < strength then ([], .connective kind :: rest)
    else
      let (emitted, below) := unwind strength rest
      (.connective kind :: emitted, below)
  | pending => ([], pending)

/-- The connectives of the innermost group, and what waits outside it. -/
def close? : List Pending → Option (List Token × List Pending)
  | [] => none
  | .group :: rest => some ([], rest)
  | .connective kind :: rest =>
    (close? rest).map fun (emitted, below) => (.connective kind :: emitted, below)

/-- All waiting connectives, unless a group is still open. -/
def finish? : List Pending → Option (List Token)
  | [] => some []
  | .group :: _ => none
  | .connective kind :: rest => (finish? rest).map (.connective kind :: ·)

end Pending

namespace Clause

/-- The tokens still to come, given what waits and whether an operand is due. -/
def arrange (pending : List Pending) (operandDue : Bool) :
    List Lexeme → Except ParseFault (List Token)
  | [] =>
    if operandDue then .error .unexpectedEnd
    else
      match Pending.finish? pending with
      | some emitted => .ok emitted
      | none => .error .unbalancedOpen
  | .atom token :: rest =>
    if operandDue then (arrange pending false rest).map (token :: ·)
    else .error (.missingConnective token)
  | .openGroup :: rest =>
    if operandDue then arrange (.group :: pending) true rest
    else .error .missingConnectiveBeforeGroup
  | .closeGroup :: rest =>
    if operandDue then .error .unexpectedClose
    else
      match Pending.close? pending with
      | some (emitted, below) => (arrange below false rest).map (emitted ++ ·)
      | none => .error .unbalancedClose
  | .connective kind :: rest =>
    if operandDue then .error (.missingOperand kind)
    else
      let (emitted, below) := Pending.unwind kind.strength pending
      (arrange (.connective kind :: below) true rest).map (emitted ++ ·)

def ofLexemes (lexemes : List Lexeme) : Except ParseFault Clause :=
  (arrange [] true lexemes).map Clause.mk

/-- The clause that a text writes, with the names that are macros told apart. -/
def ofText (isMacro : String → Bool) (text : String) : Except ParseFault Clause :=
  (Lexeme.ofText isMacro text).bind ofLexemes

end Clause

/-- Named clauses that logic text may use as atoms. -/
abbrev MacroTable := NameMap Clause

namespace MacroTable

/-- The clause of a definition's text; a fault carries the definition's name. -/
def parseWith (isMacro : String → Bool) (name text : String) : Except Error Clause :=
  (Clause.ofText isMacro text).mapError fun fault => .parse name fault.message

def parse (table : MacroTable) (name text : String) : Except Error Clause :=
  parseWith table.contains name text

/-- The text of a macro is read before its name becomes known. -/
def define (table : MacroTable) (name text : String) : Except Error MacroTable :=
  (table.parse name text).map fun clause => table.insert name clause

/-- The macros of a batch know each other whatever their order, and nothing is defined when one
of them has a fault. -/
def defineAll (table : MacroTable) (batch : List (String × String)) :
    Except Error MacroTable :=
  let isMacro (name : String) : Bool :=
    (batch.map Prod.fst).contains name || table.contains name
  let parsed := batch.mapM fun entry =>
    (parseWith isMacro entry.1 entry.2).map fun clause => (entry.1, clause)
  parsed.map table.insertAll

end MacroTable

end Randomizer
