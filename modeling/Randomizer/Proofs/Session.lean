import Randomizer.Proofs.Logic.Registration
import Randomizer.Session

/-!
Sessions, move by move. A builder is edited, built and reopened, and more is compiled on what was
built. A move that is refused midway keeps what it has done.
-/

namespace Randomizer

open Randomizer.EStateM

namespace Builder

/-- What can be done to a builder. -/
inductive Operation where
  | useResolver (resolver : Resolver)
  | addTerms (names : List String)
  | ingestText (kind : DocumentKind) (text : String)
  | ingestJson (kind : DocumentKind) (json : Json)
  | addLocation (record : LogicRecord)
  | addWaypoint (record : LogicRecord)
  | addTransition (record : TransitionRecord)
  | defineMacro (name text : String)
  | defineMacros (batch : List (String × String))
  | addTemplate (template : ItemTemplate)
  | addPrefab (item : Item)

namespace Operation

def perform : Operation → EStateM Error Builder Unit
  | useResolver resolver => modify fun builder => { builder with resolver }
  | addTerms names => ingest (.terms names)
  | ingestText kind text => Builder.ingestText kind text
  | ingestJson kind json => Builder.ingestJson kind json
  | addLocation record => addEach Builder.addLocation [record]
  | addWaypoint record => addEach Builder.addWaypoint [record]
  | addTransition record => addEach Builder.addTransition [record]
  | defineMacro name text => addEach (·.defineMacro name ·) [text]
  | defineMacros batch => addEach Builder.defineMacros [batch]
  | addTemplate template => ingest (.items [template])
  | addPrefab item => modify fun builder => builder.addPrefab item

/-- What ingestion and items made elsewhere keep, every operation keeps, also one that fails. -/
theorem keeps {keep : Builder → Prop}
    (step : ∀ builder next, Ingests builder next → keep builder → keep next)
    (prefab : ∀ builder item, keep builder → keep (builder.addPrefab item))
    (operation : Operation) : Keeps operation.perform keep := by
  have ingests (document : Document) : Keeps (ingest document) keep :=
    keeps_ingest (fun builder next ingests _ => step builder next ingests) document
  cases operation with
  | useResolver resolver =>
      exact keeps_modify fun builder => step _ _ (.useResolver builder resolver)
  | addTerms names => exact ingests (.terms names)
  | ingestText kind text => exact keeps_ingestText ingests kind text
  | ingestJson kind json => exact keeps_ingestJson ingests kind json
  | addLocation record =>
      exact keeps_addEach (fun _ _ _ added => step _ _ (.addLocation added)) _
  | addWaypoint record =>
      exact keeps_addEach (fun _ _ _ added => step _ _ (.addWaypoint added)) _
  | addTransition record =>
      exact keeps_addEach (fun _ _ _ added => step _ _ (.addTransition added)) _
  | defineMacro name text =>
      exact keeps_addEach (fun _ _ _ added => step _ _ (.defineMacro added)) _
  | defineMacros batch =>
      exact keeps_addEach (fun _ _ _ added => step _ _ (.defineMacros added)) _
  | addTemplate template => exact ingests (.items [template])
  | addPrefab item => exact keeps_modify fun builder => prefab builder item

end Operation

end Builder

namespace Session

/-- The moves of a session that bear on its builder or its manager. -/
inductive Move where
  | edit (operation : Builder.Operation)
  | build
  | compile (name text : String)
  | compileTokens (name : String) (tokens : List Token)
  | create (template : ItemTemplate)
  | reopen

def Move.step : Move → Step Unit
  | edit operation => onBuilder operation.perform
  | build => (fun _ => ()) <$> Session.build
  | compile name text => (fun _ => ()) <$> Session.compile name text
  | compileTokens name tokens => (fun _ => ()) <$> Session.compileTokens name tokens
  | create template => (fun _ => ()) <$> Session.create template
  | reopen => (fun _ => ()) <$> Session.reopen

def next (session : Session) (move : Move) : Session := ending move.step session

/-- The session that moves lead to, whether they succeed or not. -/
def after (moves : List Move) : Session := moves.foldl next start

variable {session : Session}

/-- An edit changes the builder alone. -/
theorem next_edit (operation : Builder.Operation) :
    session.next (.edit operation) =
      { session with builder := ending operation.perform session.builder } := by
  unfold next Move.step onBuilder
  rw [ending_get_bind]
  unfold ending EStateM.run
  cases operation.perform session.builder with
  | ok => rfl
  | error => rfl

/-- A build that succeeds replaces the manager and nothing else. -/
theorem next_build_of_ok {manager : Manager} (built : session.builder.build = .ok manager) :
    session.next .build = { session with built := some manager } := by
  unfold next Move.step Session.build
  simp only [ending, Functor.map, EStateM.map, get_bind_apply, built]
  rfl

/-- A build that fails leaves the session as it was. -/
theorem next_build_of_error {error : Error} (failed : session.builder.build = .error error) :
    session.next .build = session := by
  unfold next Move.step Session.build
  simp only [ending, Functor.map, EStateM.map, get_bind_apply, failed]
  rfl

/-- Reopening takes the builder from the manager. -/
theorem next_reopen_of_some {manager : Manager} (built : session.built = some manager) :
    session.next .reopen = { session with builder := .ofManager manager } := by
  cases session
  cases built
  rfl

/-- There is nothing to reopen before a build. -/
theorem next_reopen_of_none (none : session.built = none) : session.next .reopen = session := by
  cases session
  cases none
  rfl

/-- A property of the builder and the manager of a session. -/
def Holds (property : Builder → Option Manager → Prop) (session : Session) : Prop :=
  property session.builder session.built

variable {property : Builder → Option Manager → Prop} {α : Type}

/-- What a manager keeps holds on while work is done on it. -/
theorem keeps_manager : Keeps manager (Holds property) := by
  refine keeps_get_bind fun start => ?_
  cases start.built with
  | some manager => exact keeps_pure manager
  | none => exact keeps_throw _

/-- Work on the manager leaves the rest of the session. -/
theorem ending_onManager {work : EStateM Error Manager α} {found : Manager}
    (built : session.built = some found) :
    ending (onManager work) session = { session with built := some (ending work found) } := by
  have there : manager session = .ok found session := by
    unfold manager
    rw [get_bind_apply, built]
    rfl
  unfold ending onManager
  rw [bind_of_ok there]
  unfold EStateM.run
  cases work found with
  | ok => rfl
  | error => rfl

/-- Work on the manager that keeps the property, whatever the builder is. -/
theorem keeps_onManager {work : EStateM Error Manager α}
    (kept : ∀ builder, Keeps work fun manager => property builder (some manager)) :
    Keeps (onManager work) (Holds property) := by
  intro session holds
  cases built : session.built with
  | some manager =>
      rw [Holds, built] at holds
      rw [ending_onManager built]
      exact kept session.builder manager holds
  | none =>
      have missing : onManager work session = .error .noManager session := by
        refine bind_of_error ?_
        unfold manager
        rw [get_bind_apply, built]
        rfl
      rw [ending, missing]
      exact holds

/-- Keeping a definition does not change the manager. -/
theorem keeps_keepDefinition (definition : Definition) :
    Keeps (keepDefinition definition) (Holds property) :=
  fun _ holds => holds

section Compiling

variable (kept : ∀ builder, Manager.KeptByCompiling fun manager => property builder (some manager))

include kept

/-- Compiling a text in a session keeps what compiling keeps. -/
theorem keeps_compile (name text : String) : Keeps (compile name text) (Holds property) :=
  (keeps_onManager fun builder => (kept builder).compileText name text).bind keeps_keepDefinition

/-- Compiling tokens in a session keeps what compiling keeps. -/
theorem keeps_compileTokens (name : String) (tokens : List Token) :
    Keeps (compileTokens name tokens) (Holds property) := by
  refine keeps_manager.bind fun manager => ?_
  cases Clause.ofTokens tokens with
  | ok clause =>
      exact (keeps_onManager fun builder => kept builder name clause).bind keeps_keepDefinition
  | error position => exact keeps_throw _

/-- Creating an item in a session keeps what compiling keeps. -/
theorem keeps_create (template : ItemTemplate) : Keeps (create template) (Holds property) := by
  refine (keeps_onManager fun builder => (kept builder).create template).bind fun item => ?_
  exact keeps_manager.bind fun _ session holds => holds

end Compiling

/-- A property of the builder and the manager that no move breaks. -/
structure Kept (property : Builder → Option Manager → Prop) : Prop where
  edit : ∀ (operation : Builder.Operation) builder built, property builder built →
    property (ending operation.perform builder) built
  build : ∀ builder built manager, property builder built → builder.build = .ok manager →
    property builder (some manager)
  compile : ∀ builder, Manager.KeptByCompiling fun manager => property builder (some manager)
  reopen : ∀ builder manager, property builder (some manager) →
    property (.ofManager manager) (some manager)

/-- A kept property holds after every move. -/
theorem Kept.next (kept : Kept property) (move : Move) (holds : Holds property session) :
    Holds property (session.next move) := by
  cases move with
  | edit operation =>
      rw [next_edit]
      exact kept.edit operation session.builder session.built holds
  | build =>
      cases ran : session.builder.build with
      | ok manager =>
          rw [next_build_of_ok ran]
          exact kept.build session.builder session.built manager holds ran
      | error error => rwa [next_build_of_error ran]
  | compile name text => exact (keeps_compile kept.compile name text).map _ session holds
  | compileTokens name tokens =>
      exact (keeps_compileTokens kept.compile name tokens).map _ session holds
  | create template => exact (keeps_create kept.compile template).map _ session holds
  | reopen =>
      cases built : session.built with
      | some manager =>
          rw [Holds, built] at holds
          rw [next_reopen_of_some built, Holds, built]
          exact kept.reopen session.builder manager holds
      | none => rwa [next_reopen_of_none built]

/-- What holds at the start and is broken by no move holds after all moves. -/
theorem Kept.after (kept : Kept property) (start : property ∅ none) (moves : List Move) :
    Holds property (after moves) := by
  have run (session : Session) (holds : Holds property session) :
      Holds property (moves.foldl Session.next session) := by
    induction moves generalizing session with
    | nil => exact holds
    | cons move rest ih => exact ih _ (kept.next move holds)
  exact run Session.start start

/-- A location in the place of a waypoint, late logic that fails once a variable is found, and a
manager that is opened again. -/
def harbour : List Move := [
  .edit (.addTerms ["Lamp"]),
  .edit (.addWaypoint ⟨"Pier", "Lamp"⟩),
  .edit (.addTransition ⟨"", "Quay", "left", "*Pier", .twoWay⟩),
  .edit (.addLocation ⟨"Pier", "Lamp > 1"⟩),
  .build,
  .compile "Buoy" "Lamp > 7 + Rope",
  .reopen,
  .edit (.addTerms ["Oil"])]

end Session

end Randomizer
