import Mathlib.Order.Bounds.Basic
import Randomizer.Proofs.Placement.Memory
import Randomizer.Proofs.World.Attempts

namespace Randomizer

open Randomizer.EStateM

/-- The attempt failed with an error that asks for a new one. -/
def AsksAgain (answer : Except Fault Outcome) : Prop :=
  ∃ fault, answer = .error fault ∧ fault.isRetryable

instance : DecidablePred AsksAgain
  | .ok _ => isFalse nofun
  | .error fault => decidable_of_iff (fault.isRetryable = true)
      ⟨fun retryable => ⟨fault, rfl, retryable⟩, fun ⟨_, rfl, retryable⟩ => retryable⟩

/-- What an attempt of a world answers from a seed, on a strategy that has placed nothing. -/
def World.answerOfSeed {σ : Type} (world : World) (generator : Generator) (config : RunConfig)
    (initial : Progression) (constraints : List (Constraint σ WorldItem WorldLocation)) (memory : σ)
    (seed : UInt64) : Except Fault Outcome :=
  answer (Run.attempt world generator initial seed
    (Strategy.create config.transform constraints memory))

/-- The report of a run whose attempt with a number, counted from zero, answers with an outcome. -/
def Outcome.toReport (outcome : Outcome) (first : UInt64) (number : Nat) : Report :=
  ⟨outcome, first + UInt64.ofNat number, number + 1⟩

namespace Run

variable {σ : Type} {transform : Transform}
  {constraints : List (Constraint σ WorldItem WorldLocation)} {first second : RunStrategy σ}

section Twins

variable (pure : ∀ constraint ∈ constraints, constraint.Pure)
include pure

/-- Twins place spheres alike, and are twins again after it. -/
theorem agree_placeAll (spheres : List (Sphere WorldItem WorldLocation))
    (twins : Strategy.Twins transform constraints first second) :
    Agree (Strategy.Twins transform constraints) (placeAll spheres first)
      (placeAll spheres second) := by
  induction spheres generalizing first second with
  | nil => exact .ok twins
  | cons sphere rest ih =>
      have placed := Strategy.agree_placeSphere pure twins .forward sphere
      refine placed.bind fun placements middle otherMiddle kept => ?_
      refine (ih kept).bind fun others next later keptNext => ?_
      exact .ok keptNext

/-- Twins go through an attempt alike. -/
theorem agree_attempt (world : World) (generator : Generator) (initial : Progression)
    (seed : UInt64)
    (twins : Strategy.Twins transform constraints first second) :
    Agree (Strategy.Twins transform constraints) (attempt world generator initial seed first)
      (attempt world generator initial seed second) := by
  have placed := agree_placeAll pure (world.growthOfSeed generator initial seed).spheres twins
  simp only [attempt]
  generalize placeAll (world.growthOfSeed generator initial seed).spheres first = result at placed ⊢
  generalize placeAll (world.growthOfSeed generator initial seed).spheres second = other at placed ⊢
  cases placed with
  | error kept => exact .error kept
  | ok kept =>
      cases (world.growthOfSeed generator initial seed).ending with
      | error overflow => exact .error kept
      | ok frontier => exact .ok kept

end Twins

/-- The attempt that decides a run: all before it ask for a new one, and it does not unless it is
the last of the budget. -/
structure Decides (answers : Nat → Except Fault Outcome) (further number : Nat) : Prop where
  within : number ≤ further
  retried : ∀ earlier < number, AsksAgain (answers earlier)
  ends : AsksAgain (answers number) → number = further

/-- The number that decides is the least that does not ask again. -/
theorem Decides.isLeast {answers : Nat → Except Fault Outcome} {further number : Nat}
    (decides : Decides answers further number) :
    IsLeast {number | ¬ AsksAgain (answers number) ∨ number = further} number := by
  constructor
  · by_cases asks : AsksAgain (answers number)
    · exact .inr (decides.ends asks)
    · exact .inl asks
  · rintro other (final | rfl)
    · by_contra earlier
      exact final (decides.retried other (Nat.lt_of_not_ge earlier))
    · exact decides.within

/-- An answer that is final decides at once. -/
theorem Decides.zero {answers : Nat → Except Fault Outcome} {further : Nat}
    (last : AsksAgain (answers 0) → further = 0) : Decides answers further 0 where
  within := Nat.zero_le further
  retried := nofun
  ends := fun asks => (last asks).symm

/-- When the first attempt asks for a new one, the rest of the run is decided like a run of its
own. -/
theorem Decides.succ {answers : Nat → Except Fault Outcome} {further number : Nat}
    (asks : AsksAgain (answers 0))
    (decides : Decides (fun later => answers (later + 1)) further number) :
    Decides answers (further + 1) (number + 1) where
  within := Nat.succ_le_succ decides.within
  retried := by
    intro earlier before
    cases earlier with
    | zero => exact asks
    | succ earlier => exact decides.retried earlier (Nat.lt_of_succ_lt_succ before)
  ends := fun again => congrArg (· + 1) (decides.ends again)

/-- The seeds after the first are those that follow its successor. -/
theorem seed_succ (seed : UInt64) (number : Nat) :
    seed + 1 + UInt64.ofNat number = seed + UInt64.ofNat (number + 1) := by
  rw [UInt64.ofNat_add, UInt64.add_assoc, UInt64.add_comm (UInt64.ofNat number)]
  rfl

/-- What a run gives after a number of attempts, if the attempt that decides it answers for its
seed alone. -/
def Repeats (answers : UInt64 → Except Fault Outcome) (further tried : Nat) (seed : UInt64)
    (result : Except Fault Report) : Prop :=
  ∃ number, Decides (fun number => answers (seed + UInt64.ofNat number)) further number ∧
    result = (answers (seed + UInt64.ofNat number)).map fun outcome =>
      ⟨outcome, seed + UInt64.ofNat number, tried + number + 1⟩

/-- An answer that is final ends the repetition. -/
theorem repeats_of_last {answers : UInt64 → Except Fault Outcome} {further tried : Nat}
    {seed : UInt64} (last : AsksAgain (answers seed) → further = 0) :
    Repeats answers further tried seed
      ((answers seed).map fun outcome => ⟨outcome, seed, tried + 1⟩) := by
  have start : seed + UInt64.ofNat 0 = seed := UInt64.add_zero seed
  exact ⟨0, .zero (by rwa [start]), by rw [start, Nat.add_zero]⟩

/-- An answer that asks again is followed by the next seed. -/
theorem Repeats.succ {answers : UInt64 → Except Fault Outcome} {further tried : Nat}
    {seed : UInt64} {result : Except Fault Report} (asks : AsksAgain (answers seed))
    (repeats : Repeats answers further (tried + 1) (seed + 1) result) :
    Repeats answers (further + 1) tried seed result := by
  obtain ⟨number, decides, rfl⟩ := repeats
  simp only [seed_succ] at decides ⊢
  have start : seed + UInt64.ofNat 0 = seed := UInt64.add_zero seed
  refine ⟨number + 1, .succ (by rwa [start]) decides, ?_⟩
  rw [Nat.add_right_comm tried 1 number, Nat.add_assoc tried number 1]

section Loop

variable {world : World} {generator : Generator} {initial : Progression} {further : Nat}
  (tried : Nat) {seed : UInt64} {strategy : RunStrategy σ}

/-- The first attempt is the only one when it does not ask for another or no other is left. -/
theorem answer_attempts_of_last
    (last : AsksAgain (answer (attempt world generator initial seed strategy)) → further = 0) :
    answer (attempts world generator initial further tried seed strategy) =
      (answer (attempt world generator initial seed strategy)).map fun outcome =>
        ⟨outcome, seed, tried + 1⟩ := by
  cases attempted : attempt world generator initial seed strategy with
  | ok outcome next => rw [attempts_of_attempt attempted]; rfl
  | error fault next =>
      cases further with
      | zero => simp only [attempts, attempted]; rfl
      | succ further =>
          have final : ¬ fault.isRetryable := fun retryable =>
            Nat.succ_ne_zero further (last ⟨fault, by rw [attempted, answer], retryable⟩)
          simp only [attempts, attempted, final]
          rfl

/-- An attempt that asks for another leaves the rest of the run to its strategy, reset. -/
theorem exists_reset_of_asksAgain (further : Nat)
    (asks : AsksAgain (answer (attempt world generator initial seed strategy))) :
    ∃ fault next, attempt world generator initial seed strategy = .error fault next ∧
      attempts world generator initial (further + 1) tried seed strategy =
        attempts world generator initial further (tried + 1) (seed + 1) next.reset := by
  obtain ⟨fault, answered, retryable⟩ := asks
  cases attempted : attempt world generator initial seed strategy with
  | ok outcome next =>
      rw [attempted] at answered
      cases answered
  | error cause next =>
      rw [attempted] at answered
      cases answered
      exact ⟨fault, next, rfl, by simp only [attempts, attempted, retryable, if_true]⟩

end Loop

/-- However often a run has failed before, the rest of it is what it is on new strategies. -/
theorem repeats_attempts (pure : ∀ constraint ∈ constraints, constraint.Pure) (world : World)
    (generator : Generator) (config : RunConfig) (initial : Progression) (memory : σ)
    (further tried : Nat) (seed : UInt64) {strategy : RunStrategy σ}
    (twins : Strategy.Twins config.transform constraints strategy
      (Strategy.create config.transform constraints memory)) :
    Repeats (world.answerOfSeed generator config initial constraints memory) further tried seed
      (answer (attempts world generator initial further tried seed strategy)) := by
  induction further generalizing tried seed strategy with
  | zero =>
      have agree := agree_attempt pure world generator initial seed twins
      rw [answer_attempts_of_last tried fun _ => rfl, agree.answer_eq]
      exact repeats_of_last fun _ => rfl
  | succ further ih =>
      have agree := agree_attempt pure world generator initial seed twins
      by_cases asks : AsksAgain (answer (attempt world generator initial seed strategy))
      · obtain ⟨fault, next, attempted, continued⟩ := exists_reset_of_asksAgain tried further asks
        rw [continued]
        rw [agree.answer_eq] at asks
        rw [attempted] at agree
        obtain ⟨later, kept⟩ := agree.exists_of_error
        exact (ih (tried + 1) (seed + 1) (kept.equippedFirst.reset memory)).succ asks
      · rw [answer_attempts_of_last tried fun again => absurd again asks, agree.answer_eq]
        rw [agree.answer_eq] at asks
        exact repeats_of_last fun again => absurd again asks

end Run

namespace World

/-- A run answers as its attempts do. -/
theorem run_eq_answer {σ : Type} (world : World) (generator : Generator) (config : RunConfig)
    (initial : Progression) (constraints : List (Constraint σ WorldItem WorldLocation))
    (memory : σ) :
    (world.runWith generator config initial constraints memory).1 =
      answer (Run.attempts world generator initial (config.maxAttempts - 1) 0 config.seed
        (Strategy.create config.transform constraints memory)) := by
  simp only [runWith]
  cases Run.attempts world generator initial (config.maxAttempts - 1) 0 config.seed
    (Strategy.create config.transform constraints memory) <;> rfl

/-- Retries leave no trace: a run gives what one of its attempts gives on a new strategy, the first
that does not ask for another or the last of the budget. -/
theorem run_eq_attempt {σ : Type} (world : World) (generator : Generator) (config : RunConfig)
    (initial : Progression)
    {constraints : List (Constraint σ WorldItem WorldLocation)}
    (pure : ∀ constraint ∈ constraints, constraint.Pure) (memory : σ) :
    ∃ number, IsLeast {later |
        ¬ AsksAgain (world.answerOfSeed generator config initial constraints memory
          (config.seed + UInt64.ofNat later)) ∨ later = max 1 config.maxAttempts - 1} number ∧
      (world.runWith generator config initial constraints memory).1 =
        (world.answerOfSeed generator config initial constraints memory
          (config.seed + UInt64.ofNat number)).map
            fun outcome => outcome.toReport config.seed number := by
  obtain ⟨number, decides, answered⟩ := Run.repeats_attempts pure world generator config initial
    memory (config.maxAttempts - 1) 0 config.seed (Strategy.twins_create _ constraints memory)
  have budget : config.maxAttempts - 1 = max 1 config.maxAttempts - 1 := by omega
  refine ⟨number, budget ▸ decides.isLeast, ?_⟩
  rw [run_eq_answer, answered, Nat.zero_add]
  rfl

/-- A shelf, and a barrel that either of two things gives access to. -/
def cellar : World where
  manager := {
    terms := ⟨["Lamp", "Torch"], by decide⟩
    macros := ∅
    resolver := Resolver.integers
    vars := ∅
    definitions := .ofList [("Shelf", ⟨"Shelf", [-3]⟩), ("Barrel", ⟨"Barrel", [0, 1, -2]⟩)]
    items := .ofList [("Lamp", .bool "Lamp" ⟨0⟩), ("Torch", .bool "Torch" ⟨1⟩)]
    transitions := ∅
    waypoints := ∅ }
  items := [.ofItem (.bool "Lamp" ⟨0⟩), .ofItem (.bool "Torch" ⟨1⟩)]
  locations := [.ofDefinition ⟨"Shelf", [-3]⟩, .ofDefinition ⟨"Barrel", [0, 1, -2]⟩]

/-- The torch is kept out of the barrel. -/
def cellarRules : List Rule :=
  [⟨none, .forbid [("Torch", "Barrel")], some ⟨0, .retry, .retry⟩⟩]

/-- The first attempt puts the lamp on the shelf and has only the barrel for the torch; the run
gives what the seed after it gives. -/
theorem run_eq_attempt_cellar : ∃ outcome,
    cellar.answerOfSeed .words .standard ∅ (Rule.toConstraints cellarRules) (.start 1) 43 =
        .ok outcome ∧
      (cellar.run .standard ∅ (Rule.toConstraints cellarRules) (.start 1)).1 =
        .ok (outcome.toReport 42 1) := by
  have pure := Rule.pure_toConstraints (ι := WorldItem) (μ := WorldLocation)
    (show ∀ rule ∈ cellarRules, ∀ plan, rule.plan = some plan → plan.first = plan.next by
      simp [cellarRules])
  obtain ⟨number, least, ran⟩ := run_eq_attempt cellar .words .standard ∅ pure (.start 1)
  have first : AsksAgain (cellar.answerOfSeed .words .standard ∅ (Rule.toConstraints cellarRules)
      (.start 1) 42) := by decide +kernel
  have second : (cellar.answerOfSeed .words .standard ∅ (Rule.toConstraints cellarRules)
      (.start 1) 43).isOk := by decide +kernel
  obtain ⟨outcome, answered⟩ := Except.isOk_iff.1 second
  have final : ¬ AsksAgain (cellar.answerOfSeed .words .standard ∅ (Rule.toConstraints cellarRules)
      (.start 1) 43) := by
    rw [answered]
    nofun
  have decided : number = 1 := by
    refine le_antisymm (least.2 (.inl final)) (Nat.one_le_iff_ne_zero.2 ?_)
    rintro rfl
    exact least.1.elim (absurd first) (nomatch ·)
  subst decided
  refine ⟨outcome, answered, ran.trans ?_⟩
  exact congrArg (Except.map _) answered

end World

end Randomizer
