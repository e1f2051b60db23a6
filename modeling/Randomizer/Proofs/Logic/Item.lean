import Randomizer.Logic.Template
import Randomizer.Proofs.Logic.Retention

namespace Randomizer

namespace Item

/-- Induction over items, through the branches that are there. -/
@[induction_eliminator]
theorem induction {property : Item → Prop} (bool : ∀ name term, property (.bool name term))
    (single : ∀ name effect, property (.single name effect))
    (multi : ∀ name effects, property (.multi name effects))
    (capped : ∀ name effects cap, property (.capped name effects cap))
    (branched : ∀ name guard whenTrue whenFalse,
      (∀ item, whenTrue = some item → property item) →
      (∀ item, whenFalse = some item → property item) →
      property (.branched name guard whenTrue whenFalse))
    (empty : ∀ name, property (.empty name)) (item : Item) : property item :=
  match item with
  | .bool name term => bool name term
  | .single name effect => single name effect
  | .multi name effects => multi name effects
  | .capped name effects cap => capped name effects cap
  | .branched name guard whenTrue whenFalse =>
    branched name guard whenTrue whenFalse
      (fun item _ => item.induction bool single multi capped branched empty)
      (fun item _ => item.induction bool single multi capped branched empty)
  | .empty name => empty name

/-- What a branch does when it is taken. -/
def grantBranch (vars : VariableTable) : Option Item → EStateM Overflow Progression Unit
  | some item => item.grant vars
  | none => return

def branchTerms : Option Item → List TermId
  | some item => item.effectTerms
  | none => []

/-- A branched item is granted as the branch that its guard chooses. -/
theorem grant_branched (vars : VariableTable) (name : String) (guard : Definition)
    (whenTrue whenFalse : Option Item) :
    (branched name guard whenTrue whenFalse).grant vars = (do
      if guard.holds vars (← get).read then grantBranch vars whenTrue
      else grantBranch vars whenFalse) := by
  rw [grant.eq_def]
  cases whenTrue <;> cases whenFalse <;> rfl

/-- A branched item lists the terms of both branches. -/
theorem effectTerms_branched (name : String) (guard : Definition)
    (whenTrue whenFalse : Option Item) :
    (branched name guard whenTrue whenFalse).effectTerms =
      branchTerms whenTrue ++ branchTerms whenFalse := by
  rw [effectTerms.eq_def]
  cases whenTrue <;> cases whenFalse <;> rfl

end Item

namespace ItemTemplate

/-- Induction over templates, through the branches that are there. -/
@[induction_eliminator]
theorem induction {property : ItemTemplate → Prop}
    (bool : ∀ name term, property (.bool name term))
    (single : ∀ name effect, property (.single name effect))
    (multi : ∀ name effects, property (.multi name effects))
    (capped : ∀ name effects cap, property (.capped name effects cap))
    (branched : ∀ name guard whenTrue whenFalse,
      (∀ template, whenTrue = some template → property template) →
      (∀ template, whenFalse = some template → property template) →
      property (.branched name guard whenTrue whenFalse))
    (empty : ∀ name, property (.empty name)) (template : ItemTemplate) : property template :=
  match template with
  | .bool name term => bool name term
  | .single name effect => single name effect
  | .multi name effects => multi name effects
  | .capped name effects cap => capped name effects cap
  | .branched name guard whenTrue whenFalse =>
    branched name guard whenTrue whenFalse
      (fun template _ => template.induction bool single multi capped branched empty)
      (fun template _ => template.induction bool single multi capped branched empty)
  | .empty name => empty name

end ItemTemplate

/-- An id that stands for some name. -/
def TermTable.Holds (table : TermTable) (id : TermId) : Prop :=
  ∃ name, table.idOf? name = some id

/-- A definition made from logic text. -/
def Definition.OfText (definition : Definition) (ambient : Scope) (vars : VariableTable) : Prop :=
  ∃ clause : Clause, clause.Readable ∧ ambient.ClauseExpands vars clause definition.program

/-- A definition of a text is still one when variables are added. -/
theorem Definition.OfText.mono {definition : Definition} {ambient : Scope}
    {vars later : VariableTable} (ofText : definition.OfText ambient vars)
    (before : vars.Precedes later) : definition.OfText ambient later := by
  obtain ⟨clause, readable, expands⟩ := ofText
  exact ⟨clause, readable, expands.mono before⟩

/-- An item whose terms are in the table and whose guards, each under its item's name, come from
logic text. -/
inductive Item.Grounded (ambient : Scope) (vars : VariableTable) : Item → Prop where
  | bool {name : String} {term : TermId} : ambient.terms.Holds term →
      Grounded ambient vars (.bool name term)
  | single {name : String} {effect : TermAmount} : ambient.terms.Holds effect.term →
      Grounded ambient vars (.single name effect)
  | multi {name : String} {effects : List TermAmount} :
      (∀ effect ∈ effects, ambient.terms.Holds effect.term) →
      Grounded ambient vars (.multi name effects)
  | capped {name : String} {effects : List TermAmount} {cap : TermAmount} :
      (∀ effect ∈ effects, ambient.terms.Holds effect.term) → ambient.terms.Holds cap.term →
      Grounded ambient vars (.capped name effects cap)
  | branched {name : String} {guard : Definition} {whenTrue whenFalse : Option Item} :
      guard.name = name → guard.OfText ambient vars →
      (∀ item, whenTrue = some item → Grounded ambient vars item) →
      (∀ item, whenFalse = some item → Grounded ambient vars item) →
      Grounded ambient vars (.branched name guard whenTrue whenFalse)
  | empty {name : String} : Grounded ambient vars (.empty name)

/-- A grounded item is still grounded when variables are added. -/
theorem Item.Grounded.mono {item : Item} {ambient : Scope} {vars later : VariableTable}
    (grounded : item.Grounded ambient vars) (before : vars.Precedes later) :
    item.Grounded ambient later := by
  induction grounded with
  | bool holds => exact .bool holds
  | single holds => exact .single holds
  | multi holds => exact .multi holds
  | capped holds ofCap => exact .capped holds ofCap
  | branched named ofText _ _ ihTrue ihFalse =>
      exact .branched named (ofText.mono before) ihTrue ihFalse
  | empty => exact .empty

namespace Manager

/-- The later manager has more variables and is otherwise the same. -/
def GrowsTo (manager later : Manager) : Prop :=
  later = { manager with vars := later.vars } ∧ manager.vars.Precedes later.vars

theorem GrowsTo.refl (manager : Manager) : manager.GrowsTo manager := ⟨rfl, .refl _⟩

theorem GrowsTo.trans {first second third : Manager} (before : first.GrowsTo second)
    (after : second.GrowsTo third) : first.GrowsTo third := by
  refine ⟨?_, before.2.trans after.2⟩
  rw [after.1, before.1]

/-- What the manager holds stands for what the wider scope says. -/
structure Sound (manager : Manager) (ambient : Scope) : Prop where
  part : manager.scope.PartOf ambient
  compiled : Compiled.Sound manager.scope ambient ⟨manager.vars, manager.definitions⟩

variable {manager next : Manager} {ambient : Scope}

/-- The items have no part in whether a manager is sound. -/
theorem Sound.withItems (sound : manager.Sound ambient) (items : NameMap Item) :
    Manager.Sound { manager with items } ambient :=
  ⟨sound.part, sound.compiled⟩

/-- Every clause of the wider scope has a definition, since a manager compiles none on demand. -/
theorem Sound.exists_definition (sound : manager.Sound ambient) {name : String} {clause : Clause}
    (source : ambient.sources.get? name = some clause) :
    ∃ definition, manager.definitions.get? name = some definition ∧ definition.name = name ∧
      ambient.ClauseExpands manager.vars clause definition.program := by
  rcases sound.compiled.complete name (NameMap.mem_keys_of_get? source) with defined | none
  · obtain ⟨definition, found⟩ := NameMap.contains_iff.1 defined
    obtain ⟨named, other, sourceOther, expands⟩ :=
      sound.compiled.definitions name definition found
    obtain rfl := Option.some.inj (source.symm.trans sourceOther)
    exact ⟨definition, found, named, expands⟩
  · cases none

/-- The definition of a clause has its value wherever the clause has a meaning. -/
theorem Sound.exists_value (sound : manager.Sound ambient) {name : String} {clause : Clause}
    (source : ambient.sources.get? name = some clause) (value : Reading → Int)
    (means : ∀ reading, ambient.ClauseMeans name reading clause (value reading)) :
    ∃ definition, manager.definitions.get? name = some definition ∧ definition.name = name ∧
      ∀ reading, definition.value manager.vars reading = value reading := by
  obtain ⟨definition, found, named, expands⟩ := sound.exists_definition source
  refine ⟨definition, found, named, fun reading => ?_⟩
  rw [Definition.value, named]
  exact (expands.means name reading).unique (means reading)

/-- A manager compiles what its scope compiles, and keeps the variables and definitions. -/
theorem compile_eq_ok_iff {name : String} {clause : Clause} {definition : Definition} :
    compile name clause manager = .ok definition next ↔ ∃ compiled,
      manager.scope.compileClause name clause ⟨manager.vars, manager.definitions⟩ =
        .ok definition compiled ∧
      next = { manager with vars := compiled.vars, definitions := compiled.definitions } := by
  rw [compile]
  cases manager.scope.compileClause name clause ⟨manager.vars, manager.definitions⟩ with
  | error error compiled => constructor <;> nofun
  | ok made compiled =>
      constructor
      · rintro ⟨⟩
        exact ⟨compiled, rfl, rfl⟩
      · rintro ⟨_, ⟨⟩, rfl⟩
        rfl

/-- A clause that the scope fails on, the manager fails on. -/
theorem compile_of_error {name : String} {clause : Clause} {error : Error} {compiled : Compiled}
    (failed : manager.scope.compileClause name clause ⟨manager.vars, manager.definitions⟩ =
      .error error compiled) : ∃ next, compile name clause manager = .error error next := by
  rw [compile, failed]
  exact ⟨_, rfl⟩

/-- A clause that is compiled later gets the meaning that it has in the wider scope. -/
theorem compile_ok (formed : ambient.Formed) (sound : manager.Sound ambient) {name : String}
    {clause : Clause} (formedClause : clause.Formed) {definition : Definition}
    (ran : compile name clause manager = .ok definition next) :
    definition.name = name ∧ ambient.ClauseExpands next.vars clause definition.program ∧
      next.Sound ambient ∧ manager.GrowsTo next := by
  obtain ⟨compiled, compiledClause, rfl⟩ := compile_eq_ok_iff.1 ran
  obtain ⟨named, soundNext, precedes, expands⟩ :=
    Scope.compileClause_ok sound.part formed formedClause sound.compiled compiledClause
  have unchanged : compiled.definitions = manager.definitions :=
    ((Scope.retains_definitions rfl _).compileClause clause).ok compiledClause rfl
  exact ⟨named, expands, ⟨sound.part, soundNext⟩, by rw [unchanged], precedes.slots⟩

/-- A text that parses compiles as its clause. -/
theorem compileText_of_parse {name text : String} {clause : Clause}
    (parsed : manager.macros.parse name text = .ok clause) :
    compileText name text manager = compile name clause manager := by
  rw [compileText, EStateM.get_bind_apply, parsed]

/-- A text that does not parse changes nothing. -/
theorem compileText_of_parse_error {name text : String} {error : Error}
    (failed : manager.macros.parse name text = .error error) :
    compileText name text manager = .error error manager := by
  rw [compileText, EStateM.get_bind_apply, failed]
  rfl

/-- A text that compiles gives a definition under its name, and the manager only grows. -/
theorem compileText_ok (formed : ambient.Formed) (sound : manager.Sound ambient)
    {name text : String} {definition : Definition}
    (ran : compileText name text manager = .ok definition next) :
    definition.name = name ∧ definition.OfText ambient next.vars ∧ next.Sound ambient ∧
      manager.GrowsTo next := by
  cases parsed : manager.macros.parse name text with
  | error error =>
      rw [compileText_of_parse_error parsed] at ran
      cases ran
  | ok clause =>
      rw [compileText_of_parse parsed] at ran
      have ofText := MacroTable.readable_of_parseWith parsed
      obtain ⟨named, expands, soundNext, grows⟩ := compile_ok formed sound ofText.formed ran
      exact ⟨named, ⟨clause, ofText, expands⟩, soundNext, grows⟩

/-- A term that is looked up is one of the surroundings. -/
theorem term_ok (sound : manager.Sound ambient) {name : String} {id : TermId}
    (found : manager.term name = .ok id) : ambient.terms.idOf? name = some id := by
  unfold term at found
  split at found
  · next known =>
    cases found
    rw [← sound.part.terms]
    exact known
  · cases found

end Manager

namespace NamedAmount

variable {manager : Manager} {ambient : Scope}

/-- An amount that is resolved is on a term that there is. -/
theorem resolve_ok (sound : manager.Sound ambient) {named : NamedAmount} {pair : TermAmount}
    (resolved : named.resolve manager = .ok pair) : ambient.terms.Holds pair.term := by
  obtain ⟨term, found, rfl⟩ := Except.map_eq_ok_iff.1 resolved
  exact ⟨named.term, Manager.term_ok sound found⟩

/-- All amounts that are resolved are on terms that there are. -/
theorem resolveAll_ok (sound : manager.Sound ambient) {named : List NamedAmount}
    {pairs : List TermAmount} (resolved : named.mapM (·.resolve manager) = .ok pairs) :
    ∀ pair ∈ pairs, ambient.terms.Holds pair.term := by
  intro pair member
  obtain ⟨source, _, resolvedSource⟩ := Except.exists_of_mem_mapM resolved member
  exact resolve_ok sound resolvedSource

end NamedAmount

namespace ItemTemplate

variable {manager next : Manager} {ambient : Scope}

/-- A lookup does not change the manager. -/
theorem lookUp_ok {α : Type} {find : Manager → Except Error α} {found : α} :
    create.lookUp find manager = .ok found next ↔ find manager = .ok found ∧ manager = next := by
  rw [create.lookUp, EStateM.get_bind_apply]
  cases find manager with
  | ok value =>
      rw [EStateM.pure_eq_ok_iff]
      simp
  | error error =>
      constructor
      · rintro ⟨⟩
      · rintro ⟨⟨⟩, _⟩

/-- The item of a branch, if there is one. -/
def createBranch : Option ItemTemplate → EStateM Error Manager (Option Item)
  | some template => some <$> template.create
  | none => pure none

/-- The guard is made first, then the branch for a true guard, then the other one. -/
theorem create_branched (name guard : String) (whenTrue whenFalse : Option ItemTemplate) :
    create (.branched name guard whenTrue whenFalse) = do
      let guard ← Manager.compileText name guard
      let whenTrue ← createBranch whenTrue
      let whenFalse ← createBranch whenFalse
      return .branched name guard whenTrue whenFalse := by
  rw [create]
  cases whenTrue <;> cases whenFalse <;> rfl

/-- A branch is created just as its template, if it has one. -/
theorem createBranch_ok {branch : Option ItemTemplate} {result : Option Item}
    (ran : createBranch branch manager = .ok result next) :
    (branch = none ∧ result = none ∧ manager = next) ∨
      ∃ template item, branch = some template ∧ result = some item ∧
        template.create manager = .ok item next := by
  cases branch with
  | none =>
      obtain ⟨rfl, rfl⟩ := EStateM.pure_eq_ok_iff.1 ran
      exact .inl ⟨rfl, rfl, rfl⟩
  | some template =>
      obtain ⟨item, created, rfl⟩ := EStateM.map_eq_ok_iff.1 ran
      exact .inr ⟨template, item, rfl, rfl, created⟩

/-- What is known of the branches once they are made. -/
theorem createBranch_grounded {branch : Option ItemTemplate} {result : Option Item}
    (each : ∀ template, branch = some template → ∀ item, template.create manager = .ok item next →
      item.Grounded ambient next.vars ∧ next.Sound ambient ∧ manager.GrowsTo next)
    (sound : manager.Sound ambient) (ran : createBranch branch manager = .ok result next) :
    (∀ item, result = some item → item.Grounded ambient next.vars) ∧ next.Sound ambient ∧
      manager.GrowsTo next := by
  rcases createBranch_ok ran with ⟨rfl, rfl, rfl⟩ | ⟨template, item, rfl, rfl, created⟩
  · exact ⟨by simp, sound, .refl _⟩
  · obtain ⟨grounded, soundNext, grows⟩ := each template rfl item created
    refine ⟨?_, soundNext, grows⟩
    rintro _ ⟨⟩
    exact grounded

/-- An item that is made from a template has its name, and is made of what the manager has. -/
theorem create_ok (formed : ambient.Formed) {template : ItemTemplate}
    (sound : manager.Sound ambient) {item : Item}
    (ran : template.create manager = .ok item next) :
    item.name = template.name ∧ item.Grounded ambient next.vars ∧ next.Sound ambient ∧
      manager.GrowsTo next := by
  induction template generalizing manager next item with
  | bool name term =>
      rw [create] at ran
      obtain ⟨id, middle, found, returned⟩ := EStateM.bind_eq_ok_iff.1 ran
      obtain ⟨rfl, rfl⟩ := EStateM.pure_eq_ok_iff.1 returned
      obtain ⟨known, rfl⟩ := lookUp_ok.1 found
      exact ⟨rfl, .bool ⟨term, Manager.term_ok sound known⟩, sound, .refl _⟩
  | single name effect =>
      rw [create] at ran
      obtain ⟨pair, middle, found, returned⟩ := EStateM.bind_eq_ok_iff.1 ran
      obtain ⟨rfl, rfl⟩ := EStateM.pure_eq_ok_iff.1 returned
      obtain ⟨resolved, rfl⟩ := lookUp_ok.1 found
      exact ⟨rfl, .single (NamedAmount.resolve_ok sound resolved), sound, .refl _⟩
  | multi name effects =>
      rw [create] at ran
      obtain ⟨pairs, middle, found, returned⟩ := EStateM.bind_eq_ok_iff.1 ran
      obtain ⟨rfl, rfl⟩ := EStateM.pure_eq_ok_iff.1 returned
      obtain ⟨resolved, rfl⟩ := lookUp_ok.1 found
      exact ⟨rfl, .multi (NamedAmount.resolveAll_ok sound resolved), sound, .refl _⟩
  | capped name effects cap =>
      rw [create] at ran
      obtain ⟨pairs, middle, found, continued⟩ := EStateM.bind_eq_ok_iff.1 ran
      obtain ⟨least, final, foundCap, returned⟩ := EStateM.bind_eq_ok_iff.1 continued
      obtain ⟨rfl, rfl⟩ := EStateM.pure_eq_ok_iff.1 returned
      obtain ⟨resolved, rfl⟩ := lookUp_ok.1 found
      obtain ⟨resolvedCap, rfl⟩ := lookUp_ok.1 foundCap
      exact ⟨rfl, .capped (NamedAmount.resolveAll_ok sound resolved)
        (NamedAmount.resolve_ok sound resolvedCap), sound, .refl _⟩
  | branched name guard whenTrue whenFalse ihTrue ihFalse =>
      rw [create_branched] at ran
      obtain ⟨definition, afterGuard, compiled, continued⟩ := EStateM.bind_eq_ok_iff.1 ran
      obtain ⟨ofTrue, afterTrue, createdTrue, continuedTrue⟩ :=
        EStateM.bind_eq_ok_iff.1 continued
      obtain ⟨ofFalse, afterFalse, createdFalse, returned⟩ :=
        EStateM.bind_eq_ok_iff.1 continuedTrue
      obtain ⟨rfl, rfl⟩ := EStateM.pure_eq_ok_iff.1 returned
      obtain ⟨named, ofText, soundGuard, growsGuard⟩ :=
        Manager.compileText_ok formed sound compiled
      obtain ⟨groundedTrue, soundTrue, growsTrue⟩ := createBranch_grounded
        (fun template found item created => (ihTrue template found soundGuard created).2)
        soundGuard createdTrue
      obtain ⟨groundedFalse, soundFalse, growsFalse⟩ := createBranch_grounded
        (fun template found item created => (ihFalse template found soundTrue created).2)
        soundTrue createdFalse
      have growsBoth := growsTrue.trans growsFalse
      exact ⟨rfl, .branched named (ofText.mono growsBoth.2)
        (fun item found => (groundedTrue item found).mono growsFalse.2) groundedFalse,
        soundFalse, growsGuard.trans growsBoth⟩
  | empty name =>
      rw [create] at ran
      obtain ⟨rfl, rfl⟩ := EStateM.pure_eq_ok_iff.1 ran
      exact ⟨rfl, .empty, sound, .refl _⟩

end ItemTemplate

end Randomizer
