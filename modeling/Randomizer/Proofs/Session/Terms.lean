import Randomizer.Proofs.Session
import Randomizer.Proofs.Term

namespace Randomizer

open Randomizer.EStateM

namespace Builder

/-- A step of ingestion registers the name that it brings, or none. -/
theorem Ingests.terms_growsTo {builder next : Builder} (ingests : Ingests builder next) :
    builder.terms.GrowsTo next.terms := by
  cases ingests with
  | useResolver | addTemplate => exact .refl _
  | addTerm name => exact builder.terms.growsTo_add name
  | defineMacro added | defineMacros added | addLocation added =>
      obtain ⟨_, _, rfl⟩ := Except.map_eq_ok_iff.1 added
      exact .refl _
  | @addWaypoint _ record added =>
      obtain ⟨_, _, rfl⟩ := Except.map_eq_ok_iff.1 added
      exact builder.terms.growsTo_add record.name
  | @addTransition _ record added =>
      obtain ⟨_, _, rfl⟩ := Except.map_eq_ok_iff.1 added
      exact builder.terms.growsTo_add record.fullName

/-- An operation only adds terms, also when it fails. -/
theorem Operation.terms_growsTo (operation : Operation) (builder : Builder) :
    builder.terms.GrowsTo (ending operation.perform builder).terms := by
  have kept : Keeps operation.perform fun later => builder.terms.GrowsTo later.terms :=
    operation.keeps (fun _ _ ingests grows => grows.trans ingests.terms_growsTo)
      fun _ _ grows => grows
  exact kept builder (.refl _)

/-- A manager has the terms of its builder. -/
theorem terms_of_build {builder : Builder} {manager : Manager}
    (built : builder.build = .ok manager) : manager.terms = builder.terms := by
  obtain ⟨compiled, waypointed, transitioned, itemed, _, addedWaypoints, addedTransitions,
    addedItems, rfl⟩ := build_eq_ok_iff.1 built
  obtain ⟨waypoints, rfl, _, _⟩ := addWaypoints_ok addedWaypoints
  obtain ⟨transitions, rfl, _, _⟩ := addTransitions_ok addedTransitions
  obtain ⟨vars, items, rfl⟩ := exists_addItems_eq addedItems
  rfl

end Builder

/-- Compiling leaves the terms of a manager. -/
theorem Manager.kept_terms (terms : TermTable) :
    KeptByCompiling fun manager => manager.terms = terms := by
  intro name clause manager same
  have grown := manager.kept_growsTo name clause manager (.refl _)
  rw [grown.1]
  exact same

namespace Session

/-- What a move does to the tables of a session: the builder's grows by the operations on it, is
what a manager gets that is built, and is what a reopened manager has. Compiling changes none. -/
def Move.KeepsTerms (move : Move) (session later : Session) : Prop :=
  match move with
  | edit _ => session.builder.terms.GrowsTo later.builder.terms ∧ later.built = session.built
  | build => later.builder = session.builder ∧
      (∀ manager, session.builder.build = .ok manager →
        later.built = some manager ∧ manager.terms = session.builder.terms) ∧
      ∀ error, session.builder.build = .error error → later.built = session.built
  | compile _ _ | compileTokens _ _ | create _ => later.builder = session.builder ∧
      later.built.map Manager.terms = session.built.map Manager.terms
  | reopen => later.built = session.built ∧
      later.builder.terms = (session.built.map Manager.terms).getD session.builder.terms

/-- The builder is that of the session, and the manager has the terms of the session's. -/
def Shares (session : Session) (builder : Builder) (built : Option Manager) : Prop :=
  builder = session.builder ∧ built.map Manager.terms = session.built.map Manager.terms

/-- A manager shares its terms with the builder whatever it compiles. -/
theorem kept_shares (session : Session) (builder : Builder) :
    Manager.KeptByCompiling fun manager => session.Shares builder (some manager) := by
  rintro name clause manager ⟨same, sameTerms⟩
  have kept := Manager.kept_terms manager.terms name clause manager rfl
  refine ⟨same, ?_⟩
  rw [← sameTerms, Option.map_some, kept, Option.map_some]

/-- A move keeps the terms of builder and manager, or takes one over from the other. -/
theorem keepsTerms_next (session : Session) (move : Move) :
    move.KeepsTerms session (session.next move) := by
  have kept := session.kept_shares
  cases move with
  | edit operation =>
      rw [next_edit]
      exact ⟨operation.terms_growsTo session.builder, rfl⟩
  | build =>
      cases ran : session.builder.build with
      | ok manager =>
          rw [next_build_of_ok ran]
          refine ⟨rfl, fun other same => ?_, fun error failed => ?_⟩
          · obtain rfl := Except.ok.inj (ran.symm.trans same)
            exact ⟨rfl, Builder.terms_of_build ran⟩
          · cases ran.symm.trans failed
      | error error =>
          rw [next_build_of_error ran]
          refine ⟨rfl, fun manager built => ?_, fun _ _ => rfl⟩
          cases ran.symm.trans built
  | compile name text => exact (keeps_compile kept name text).map _ session ⟨rfl, rfl⟩
  | compileTokens name tokens =>
      exact (keeps_compileTokens kept name tokens).map _ session ⟨rfl, rfl⟩
  | create template => exact (keeps_create kept template).map _ session ⟨rfl, rfl⟩
  | reopen =>
      cases built : session.built with
      | some manager =>
          rw [next_reopen_of_some built]
          exact ⟨rfl, by rw [built]; rfl⟩
      | none =>
          rw [next_reopen_of_none built]
          exact ⟨rfl, by rw [built]; rfl⟩

/-- The builder has the terms of the manager under their ids. -/
def Continues (builder : Builder) (built : Option Manager) : Prop :=
  ∀ manager, built = some manager → manager.terms.GrowsTo builder.terms

/-- Terms go on through every move. -/
theorem kept_continues : Kept Continues where
  edit := fun operation _ _ continues manager same =>
    (continues manager same).trans (operation.terms_growsTo _)
  build := by
    rintro builder built manager _ ran _ ⟨⟩
    rw [Builder.terms_of_build ran]
    exact .refl _
  compile := by
    rintro builder name clause manager continues _ ⟨⟩
    have kept := Manager.kept_terms manager.terms name clause manager rfl
    rw [kept]
    exact continues manager rfl
  reopen := by
    rintro builder manager _ _ ⟨⟩
    exact .refl _

/-- Wherever a session stands, its tables are one to one, the builder goes on from the terms of the
manager, and whatever the next move is, no id changes its name. -/
theorem terms_stay (moves : List Move) :
    (after moves).builder.terms.OneToOne ∧
      (∀ manager, (after moves).built = some manager →
        manager.terms.OneToOne ∧ manager.terms.GrowsTo (after moves).builder.terms) ∧
      ∀ move : Move, move.KeepsTerms (after moves) (after (moves ++ [move])) := by
  refine ⟨TermTable.oneToOne _, fun manager built => ?_, fun move => ?_⟩
  · exact ⟨TermTable.oneToOne _, kept_continues.after nofun moves manager built⟩
  · rw [after, after, List.foldl_append]
    exact keepsTerms_next _ move

/-- The harbour's manager keeps its terms, and the builder gets one more. -/
theorem terms_stay_harbour :
    ∃ manager, (after harbour).built = some manager ∧
      manager.terms.names = ["Lamp", "Pier", "Quay[left]"] ∧
      (after harbour).builder.terms.names = ["Lamp", "Pier", "Quay[left]", "Oil"] ∧
      manager.terms.GrowsTo (after harbour).builder.terms := by
  have names : ((after harbour).built.map (fun manager => manager.terms.names),
        (after harbour).builder.terms.names) =
      (some ["Lamp", "Pier", "Quay[left]"], ["Lamp", "Pier", "Quay[left]", "Oil"]) := by cbv
  obtain ⟨built, grown⟩ := Prod.mk.inj names
  obtain ⟨manager, found, same⟩ := Option.map_eq_some_iff.1 built
  exact ⟨manager, found, same, grown, ((terms_stay harbour).2.1 manager found).2⟩

end Session

end Randomizer
