/-!
Sequences of steps that may fail. When the whole succeeds, each step did, and the next one went on
from what it left.
-/

universe u v

namespace Randomizer

namespace Except

variable {ε : Type u} {α β : Type v}

theorem map_eq_ok_iff {work : Except ε α} {change : α → β} {result : β} :
    work.map change = .ok result ↔ ∃ value, work = .ok value ∧ change value = result := by
  cases work <;> simp [Except.map]

theorem map_eq_error_iff {work : Except ε α} {change : α → β} {error : ε} :
    work.map change = .error error ↔ work = .error error := by
  cases work <;> simp [Except.map]

/-- Work is good just if it gives a value. -/
theorem isOk_iff {work : Except ε α} : work.isOk ↔ ∃ value, work = .ok value := by
  cases work <;> simp [Except.isOk, Except.toBool]

theorem toOption_eq_some_iff {work : Except ε α} {value : α} :
    work.toOption = some value ↔ work = .ok value := by
  cases work <;> simp [Except.toOption]

theorem mapError_eq_ok_iff {ε' : Type u} {work : Except ε α} {change : ε → ε'} {result : α} :
    work.mapError change = .ok result ↔ work = .ok result := by
  cases work with
  | ok value =>
      constructor <;>
        · intro same
          cases same
          rfl
  | error error => constructor <;> nofun

theorem bind_eq_ok_iff {work : Except ε α} {next : α → Except ε β} {result : β} :
    (work >>= next) = .ok result ↔ ∃ value, work = .ok value ∧ next value = .ok result := by
  cases work <;> simp [bind, Except.bind]

/-- Lists may be put before the result at once or one after the other. -/
theorem map_append_append {work : Except ε (List α)} (first second : List α) :
    (work.map (second ++ ·)).map (first ++ ·) = work.map (first ++ second ++ ·) := by
  cases work with
  | error error => rfl
  | ok value => exact congrArg Except.ok (List.append_assoc _ _ _).symm

/-- Each output comes from an input. -/
theorem exists_of_mem_mapM {step : α → Except ε β} {inputs : List α} {outputs : List β}
    (stepped : inputs.mapM step = .ok outputs) {output : β} (member : output ∈ outputs) :
    ∃ input ∈ inputs, step input = .ok output := by
  induction inputs generalizing outputs with
  | nil =>
      cases stepped
      cases member
  | cons input rest ih =>
      rw [List.mapM_cons] at stepped
      obtain ⟨first, steppedFirst, continued⟩ := bind_eq_ok_iff.1 stepped
      obtain ⟨others, steppedRest, collected⟩ := bind_eq_ok_iff.1 continued
      cases collected
      rcases List.mem_cons.1 member with rfl | later
      · exact ⟨input, by simp, steppedFirst⟩
      · obtain ⟨source, among, steppedSource⟩ := ih steppedRest later
        exact ⟨source, by simp [among], steppedSource⟩

/-- What a step keeps of its input, the outputs have in the order of the inputs. -/
theorem map_of_mapM {γ : Type v} {step : α → Except ε β} {ofInput : α → γ} {ofOutput : β → γ}
    (keeps : ∀ input output, step input = .ok output → ofOutput output = ofInput input)
    {inputs : List α} {outputs : List β} (stepped : inputs.mapM step = .ok outputs) :
    outputs.map ofOutput = inputs.map ofInput := by
  induction inputs generalizing outputs with
  | nil =>
      cases stepped
      rfl
  | cons input rest ih =>
      rw [List.mapM_cons] at stepped
      obtain ⟨first, steppedFirst, continued⟩ := bind_eq_ok_iff.1 stepped
      obtain ⟨others, steppedRest, collected⟩ := bind_eq_ok_iff.1 continued
      cases collected
      rw [List.map_cons, List.map_cons, keeps input first steppedFirst, ih steppedRest]

/-- The error is that of an input. -/
theorem exists_of_mapM_error {step : α → Except ε β} {inputs : List α} {error : ε}
    (failed : inputs.mapM step = .error error) : ∃ input ∈ inputs, step input = .error error := by
  induction inputs with
  | nil => cases failed
  | cons input rest ih =>
      rw [List.mapM_cons] at failed
      cases stepped : step input with
      | error cause =>
          rw [stepped] at failed
          cases failed
          exact ⟨input, List.mem_cons_self, stepped⟩
      | ok output =>
          rw [stepped] at failed
          obtain ⟨other, member, stuck⟩ := ih (map_eq_error_iff.1 failed)
          exact ⟨other, List.mem_cons_of_mem _ member, stuck⟩

/-- The outputs of a list are those of its parts. -/
theorem mapM_append_cons_eq_ok_iff {step : α → Except ε β} {before after : List α} {input : α}
    {outputs : List β} :
    (before ++ input :: after).mapM step = .ok outputs ↔ ∃ earlier output later,
      before.mapM step = .ok earlier ∧ step input = .ok output ∧ after.mapM step = .ok later ∧
        outputs = earlier ++ output :: later := by
  rw [List.mapM_append, List.mapM_cons]
  simp only [bind_eq_ok_iff]
  constructor
  · rintro ⟨earlier, ranBefore, _, ⟨output, ranInput, later, ranAfter, ⟨⟩⟩, ⟨⟩⟩
    exact ⟨earlier, output, later, ranBefore, ranInput, ranAfter, rfl⟩
  · rintro ⟨earlier, output, later, ranBefore, ranInput, ranAfter, rfl⟩
    exact ⟨earlier, ranBefore, _, ⟨output, ranInput, later, ranAfter, rfl⟩, rfl⟩

/-- A list in another order has the same outputs in another order. -/
theorem exists_mapM_of_perm {step : α → Except ε β} {inputs others : List α}
    (same : inputs.Perm others) {outputs : List β} (stepped : inputs.mapM step = .ok outputs) :
    ∃ permuted, others.mapM step = .ok permuted ∧ outputs.Perm permuted := by
  induction same generalizing outputs with
  | nil => exact ⟨outputs, stepped, .refl _⟩
  | cons input _ ih =>
      rw [List.mapM_cons] at stepped
      obtain ⟨first, steppedFirst, continued⟩ := bind_eq_ok_iff.1 stepped
      obtain ⟨rest, steppedRest, collected⟩ := bind_eq_ok_iff.1 continued
      cases collected
      obtain ⟨permuted, steppedOthers, perm⟩ := ih steppedRest
      refine ⟨first :: permuted, ?_, perm.cons first⟩
      rw [List.mapM_cons, steppedFirst, steppedOthers]
      rfl
  | swap input other rest =>
      simp only [List.mapM_cons, bind_eq_ok_iff] at stepped
      obtain ⟨first, steppedFirst, _, ⟨second, steppedSecond, later, steppedRest, ⟨⟩⟩, ⟨⟩⟩ :=
        stepped
      refine ⟨second :: first :: later, ?_, .swap _ _ _⟩
      simp only [List.mapM_cons, steppedFirst, steppedSecond, steppedRest]
      rfl
  | trans _ _ ihFirst ihSecond =>
      obtain ⟨middle, steppedMiddle, permMiddle⟩ := ihFirst stepped
      obtain ⟨permuted, steppedOthers, perm⟩ := ihSecond steppedMiddle
      exact ⟨permuted, steppedOthers, permMiddle.trans perm⟩

end Except

namespace EStateM

variable {ε σ α β : Type u}

/-- Work that does nothing gives its value in the state at its start. -/
theorem pure_eq_ok_iff {value result : α} {start ending : σ} :
    (pure value : EStateM ε σ α) start = .ok result ending ↔ value = result ∧ start = ending := by
  simp [pure, EStateM.pure]

/-- Two parts succeed together when the second does from where the first ends. -/
theorem bind_eq_ok_iff {work : EStateM ε σ α} {next : α → EStateM ε σ β} {start ending : σ}
    {result : β} :
    (work >>= next) start = .ok result ending ↔
      ∃ value middle, work start = .ok value middle ∧ next value middle = .ok result ending := by
  simp only [bind, EStateM.bind]
  cases work start with
  | ok value middle =>
      constructor
      · exact fun continued => ⟨value, middle, rfl, continued⟩
      · rintro ⟨_, _, ⟨⟩, continued⟩
        exact continued
  | error error middle => simp

/-- Two parts fail together when the first does, or the second does from where the first ends. -/
theorem bind_eq_error_iff {work : EStateM ε σ α} {next : α → EStateM ε σ β} {start ending : σ}
    {error : ε} :
    (work >>= next) start = .error error ending ↔ work start = .error error ending ∨
      ∃ value middle, work start = .ok value middle ∧ next value middle = .error error ending := by
  simp only [bind, EStateM.bind]
  cases work start with
  | ok value middle =>
      constructor
      · exact fun continued => .inr ⟨value, middle, rfl, continued⟩
      · rintro (⟨⟨⟩⟩ | ⟨_, _, ⟨⟩, continued⟩)
        exact continued
  | error error middle => simp

theorem map_eq_ok_iff {work : EStateM ε σ α} {change : α → β} {start ending : σ} {result : β} :
    (change <$> work) start = .ok result ending ↔
      ∃ value, work start = .ok value ending ∧ change value = result := by
  simp only [Functor.map, EStateM.map]
  cases work start with
  | ok value middle =>
      simp only [EStateM.Result.ok.injEq]
      constructor
      · rintro ⟨same, rfl⟩
        exact ⟨value, ⟨rfl, rfl⟩, same⟩
      · rintro ⟨_, ⟨rfl, rfl⟩, same⟩
        exact ⟨same, rfl⟩
  | error error middle => simp

/-- A loop succeeds when its first round does and the rest does from there. -/
theorem forM_cons_eq_ok_iff {step : α → EStateM ε σ PUnit} {input : α} {rest : List α}
    {start ending : σ} :
    (input :: rest).forM step start = .ok ⟨⟩ ending ↔
      ∃ middle, step input start = .ok ⟨⟩ middle ∧ rest.forM step middle = .ok ⟨⟩ ending := by
  change (step input >>= fun _ => rest.forM step) start = _ ↔ _
  rw [bind_eq_ok_iff]
  exact ⟨fun ⟨_, middle, first, later⟩ => ⟨middle, first, later⟩,
    fun ⟨middle, first, later⟩ => ⟨⟨⟩, middle, first, later⟩⟩

/-- Work goes on from where the first part succeeds. -/
theorem bind_of_ok {work : EStateM ε σ α} {next : α → EStateM ε σ β} {start middle : σ} {value : α}
    (ran : work start = .ok value middle) : (work >>= next) start = next value middle := by
  simp only [bind, EStateM.bind, ran]

/-- Work ends where the first part fails. -/
theorem bind_of_error {work : EStateM ε σ α} {next : α → EStateM ε σ β} {start middle : σ}
    {error : ε} (failed : work start = .error error middle) :
    (work >>= next) start = .error error middle := by
  simp only [bind, EStateM.bind, failed]

/-- A run that drops its state succeeds as the run does. -/
theorem run'_eq_some_iff {work : EStateM ε σ α} {start : σ} {result : α} :
    work.run' start = some result ↔ ∃ ending, work start = .ok result ending := by
  change (match work start with
    | .ok value _ => some value
    | .error _ _ => none) = some result ↔ _
  cases work start <;> simp

/-- Work that asks for the state is given the one at its start. -/
theorem get_bind_apply (next : σ → EStateM ε σ β) (start : σ) :
    ((get : EStateM ε σ σ) >>= next) start = next start start := rfl

/-- The state in which work ends, whether it succeeds or not. -/
def ending (work : EStateM ε σ α) (start : σ) : σ :=
  match work start with
  | .ok _ ending => ending
  | .error _ ending => ending

/-- Work goes on from where the first part ended, unless that part failed. -/
theorem ending_bind (work : EStateM ε σ α) (next : α → EStateM ε σ β) (start : σ) :
    ending (work >>= next) start =
      match work start with
      | .ok value middle => ending (next value) middle
      | .error _ middle => middle := by
  unfold ending
  simp only [bind, EStateM.bind]
  cases work start <;> rfl

/-- A change of the result has no part in where work ends. -/
theorem ending_bind_pure (work : EStateM ε σ α) (change : α → β) (start : σ) :
    ending (work >>= fun value => pure (change value)) start = ending work start := by
  rw [ending_bind]
  unfold ending
  cases work start <;> rfl

/-- The work keeps a property of the state, also when it fails. -/
def Keeps (work : EStateM ε σ α) (keep : σ → Prop) : Prop :=
  ∀ start, keep start → keep (ending work start)

variable {keep : σ → Prop}

/-- What work keeps holds after its success. -/
theorem Keeps.ok {work : EStateM ε σ α} (keeps : Keeps work keep) {start next : σ} {value : α}
    (ran : work start = .ok value next) (kept : keep start) : keep next := by
  have keptEnding := keeps start kept
  rw [ending, ran] at keptEnding
  exact keptEnding

/-- What work keeps holds after its failure. -/
theorem Keeps.error {work : EStateM ε σ α} (keeps : Keeps work keep) {start next : σ} {error : ε}
    (ran : work start = .error error next) (kept : keep start) : keep next := by
  have keptEnding := keeps start kept
  rw [ending, ran] at keptEnding
  exact keptEnding

theorem keeps_pure (value : α) : Keeps (pure value : EStateM ε σ α) keep :=
  fun _ kept => kept

theorem keeps_throw (error : ε) : Keeps (throw error : EStateM ε σ α) keep :=
  fun _ kept => kept

theorem keeps_throw_bind (error : ε) (next : α → EStateM ε σ β) :
    Keeps ((throw error : EStateM ε σ α) >>= next) keep :=
  fun _ kept => kept

/-- A change of the state keeps what it keeps of each state. -/
theorem keeps_modify {change : σ → σ} (each : ∀ start, keep start → keep (change start)) :
    Keeps (modify change : EStateM ε σ PUnit) keep :=
  fun start kept => each start kept

/-- Two parts keep together what both keep. -/
theorem Keeps.bind {work : EStateM ε σ α} {next : α → EStateM ε σ β} (first : Keeps work keep)
    (rest : ∀ value, Keeps (next value) keep) : Keeps (work >>= next) keep := by
  intro start kept
  have keptFirst := first start kept
  unfold ending at keptFirst ⊢
  simp only [Bind.bind, EStateM.bind]
  cases ran : work start with
  | ok value middle =>
      rw [ran] at keptFirst
      exact rest value middle keptFirst
  | error error middle =>
      rw [ran] at keptFirst
      exact keptFirst

/-- A change of the result has no part in what work keeps. -/
theorem Keeps.map {work : EStateM ε σ α} (first : Keeps work keep) (change : α → β) :
    Keeps (change <$> work) keep := by
  intro start kept
  have keptFirst := first start kept
  unfold ending at keptFirst ⊢
  simp only [Functor.map, EStateM.map]
  cases ran : work start with
  | ok | error =>
      rw [ran] at keptFirst
      exact keptFirst

/-- Steps over a list keep what each step keeps. -/
theorem keeps_mapM {step : α → EStateM ε σ β} (each : ∀ input, Keeps (step input) keep)
    (inputs : List α) : Keeps (inputs.mapM step) keep := by
  induction inputs with
  | nil => exact keeps_pure []
  | cons input rest ih =>
      rw [List.mapM_cons]
      refine (each input).bind fun first => ?_
      exact ih.bind fun others => keeps_pure _

/-- A loop keeps what each of its rounds keeps. -/
theorem keeps_forM {step : α → EStateM ε σ PUnit} {inputs : List α}
    (each : ∀ input ∈ inputs, Keeps (step input) keep) : Keeps (inputs.forM step) keep := by
  induction inputs with
  | nil => exact keeps_pure PUnit.unit
  | cons input rest ih =>
      have first := each input List.mem_cons_self
      exact first.bind fun _ => ih fun other member => each other (List.mem_cons_of_mem _ member)

/-- Work that looks at the state first. -/
theorem keeps_get_bind {next : σ → EStateM ε σ β} (each : ∀ start, Keeps (next start) keep) :
    Keeps ((get : EStateM ε σ σ) >>= next) keep :=
  fun start kept => each start start kept

/-- Work that asks for the state ends as it does when given the state. -/
theorem ending_get_bind (next : σ → EStateM ε σ β) (start : σ) :
    ending ((get : EStateM ε σ σ) >>= next) start = ending (next start) start := rfl

/-- Work that sets the state ends as it does from that state. -/
theorem ending_set_bind (middle : σ) (next : PUnit → EStateM ε σ β) (start : σ) :
    ending ((set middle : EStateM ε σ PUnit) >>= next) start = ending (next ⟨⟩) middle := rfl

section TwoRuns

variable {τ γ δ : Type u} {related : σ → τ → Prop}

/-- Two runs that come out alike: both succeed, in related states, or both fail with the same
error. -/
inductive Alike (related : σ → τ → Prop) :
    EStateM.Result ε σ α → EStateM.Result ε τ γ → Prop where
  | ok {value : α} {other : γ} {next : σ} {later : τ} : related next later →
      Alike related (.ok value next) (.ok other later)
  | error (error : ε) (next : σ) (later : τ) :
      Alike related (.error error next) (.error error later)

/-- Where the first run succeeds, the other does too, in related states. -/
def Follows (related : σ → τ → Prop) (result : EStateM.Result ε σ α)
    (other : EStateM.Result ε τ γ) : Prop :=
  ∀ value next, result = .ok value next →
    ∃ otherValue later, other = .ok otherValue later ∧ related next later

section Result

variable {result : EStateM.Result ε σ α} {other : EStateM.Result ε τ γ}

/-- Of two runs that come out alike both succeed or neither does. -/
theorem Alike.exists_ok_iff (alike : Alike related result other) :
    (∃ value next, result = .ok value next) ↔ ∃ value next, other = .ok value next := by
  cases alike with
  | ok => exact iff_of_true ⟨_, _, rfl⟩ ⟨_, _, rfl⟩
  | error => constructor <;> nofun

/-- Of two runs that come out alike both fail with the same error. -/
theorem Alike.exists_error {error : ε} {next : σ} (alike : Alike related result other)
    (failed : result = .error error next) : ∃ later, other = .error error later := by
  cases alike with
  | ok => cases failed
  | error _ _ later =>
      cases failed
      exact ⟨later, rfl⟩

end Result

variable {work : EStateM ε σ α} {other : EStateM ε τ γ} {next : α → EStateM ε σ β}
  {later : γ → EStateM ε τ δ} {start : σ} {begin : τ}

/-- Two runs come out alike if their parts do, one after the other. -/
theorem Alike.bind (first : Alike related (work start) (other begin))
    (rest : ∀ value otherValue middle otherMiddle, related middle otherMiddle →
      Alike related (next value middle) (later otherValue otherMiddle)) :
    Alike related ((work >>= next) start) ((other >>= later) begin) := by
  simp only [Bind.bind, EStateM.bind]
  generalize work start = result at first ⊢
  generalize other begin = otherResult at first ⊢
  cases first with
  | ok kept => exact rest _ _ _ _ kept
  | error => exact .error _ _ _

/-- Work that does nothing follows work that does nothing. -/
theorem follows_pure {value : α} {otherValue : γ} (kept : related start begin) :
    Follows related ((pure value : EStateM ε σ α) start)
      ((pure otherValue : EStateM ε τ γ) begin) := by
  intro _ _ ran
  obtain ⟨rfl, rfl⟩ := pure_eq_ok_iff.1 ran
  exact ⟨otherValue, begin, rfl, kept⟩

/-- One run follows another if its parts follow the parts. -/
theorem Follows.bind (first : Follows related (work start) (other begin))
    (rest : ∀ value otherValue middle otherMiddle, related middle otherMiddle →
      Follows related (next value middle) (later otherValue otherMiddle)) :
    Follows related ((work >>= next) start) ((other >>= later) begin) := by
  intro result ending ran
  obtain ⟨value, middle, ranFirst, ranRest⟩ := bind_eq_ok_iff.1 ran
  obtain ⟨otherValue, otherMiddle, ranOther, kept⟩ := first value middle ranFirst
  rw [bind_of_ok ranOther]
  exact rest value otherValue middle otherMiddle kept result ending ranRest

end TwoRuns

section SameAnswer

variable {τ : Type u} {related : σ → τ → Prop}

/-- What a run answers, whatever state it leaves. -/
def answer : EStateM.Result ε σ α → Except ε α
  | .ok value _ => .ok value
  | .error error _ => .error error

/-- A change of the result may come before the answer or after it. -/
theorem answer_bind_pure (work : EStateM ε σ α) (change : α → β) (start : σ) :
    answer ((work >>= fun value => pure (change value)) start) =
      (answer (work start)).map change := by
  simp only [bind, EStateM.bind]
  cases work start <;> rfl

/-- Two runs that give the same answer and leave related states, also when they fail. -/
inductive Agree (related : σ → τ → Prop) :
    EStateM.Result ε σ α → EStateM.Result ε τ α → Prop where
  | ok {value : α} {next : σ} {later : τ} : related next later →
      Agree related (.ok value next) (.ok value later)
  | error {error : ε} {next : σ} {later : τ} : related next later →
      Agree related (.error error next) (.error error later)

/-- Runs that agree have the same answer. -/
theorem Agree.answer_eq {result : EStateM.Result ε σ α} {other : EStateM.Result ε τ α}
    (agree : Agree related result other) : answer result = answer other := by
  cases agree with
  | ok | error => rfl

/-- Runs that agree end in related states. -/
theorem Agree.ending {work : EStateM ε σ α} {other : EStateM ε τ α} {start : σ} {begin : τ}
    (agree : Agree related (work start) (other begin)) :
    related (ending work start) (EStateM.ending other begin) := by
  unfold EStateM.ending
  generalize work start = result at agree ⊢
  generalize other begin = otherResult at agree ⊢
  cases agree with
  | ok kept | error kept => exact kept

/-- Where one run of two that agree fails, the other ends in a related state. -/
theorem Agree.exists_of_error {error : ε} {next : σ} {other : EStateM.Result ε τ α}
    (agree : Agree related (.error error next) other) : ∃ later, related next later := by
  cases agree with
  | error kept => exact ⟨_, kept⟩

/-- Runs with the same answer agree, with nothing said of the states. -/
theorem agree_of_answer_eq {result : EStateM.Result ε σ α} {other : EStateM.Result ε τ α}
    (same : answer result = answer other) : Agree (fun _ _ => True) result other := by
  cases result <;> cases other <;> cases same
  · exact .ok trivial
  · exact .error trivial

/-- Two runs agree if their parts do, one after the other. -/
theorem Agree.bind {work : EStateM ε σ α} {other : EStateM ε τ α} {next : α → EStateM ε σ β}
    {later : α → EStateM ε τ β} {start : σ} {begin : τ}
    (first : Agree related (work start) (other begin))
    (rest : ∀ value middle otherMiddle, related middle otherMiddle →
      Agree related (next value middle) (later value otherMiddle)) :
    Agree related ((work >>= next) start) ((other >>= later) begin) := by
  simp only [Bind.bind, EStateM.bind]
  generalize work start = result at first ⊢
  generalize other begin = otherResult at first ⊢
  cases first with
  | ok kept => exact rest _ _ _ kept
  | error kept => exact .error kept

/-- Steps over a list agree if each of them does. -/
theorem agree_mapM {step : α → EStateM ε σ β} {other : α → EStateM ε τ β}
    (each : ∀ input start begin, related start begin →
      Agree related (step input start) (other input begin)) (inputs : List α) {start : σ}
    {begin : τ} (kept : related start begin) :
    Agree related (inputs.mapM step start) (inputs.mapM other begin) := by
  induction inputs generalizing start begin with
  | nil => exact .ok kept
  | cons input rest ih =>
      rw [List.mapM_cons, List.mapM_cons]
      refine (each input start begin kept).bind fun value middle otherMiddle keptMiddle => ?_
      refine (ih keptMiddle).bind fun values next later keptNext => ?_
      exact .ok keptNext

/-- Loops agree if each of their rounds does. -/
theorem agree_forM {step : α → EStateM ε σ PUnit} {other : α → EStateM ε τ PUnit}
    {inputs : List α} (each : ∀ input ∈ inputs, ∀ start begin, related start begin →
      Agree related (step input start) (other input begin)) {start : σ} {begin : τ}
    (kept : related start begin) :
    Agree related (inputs.forM step start) (inputs.forM other begin) := by
  induction inputs generalizing start begin with
  | nil => exact .ok kept
  | cons input rest ih =>
      have first := each input List.mem_cons_self start begin kept
      refine first.bind fun _ middle otherMiddle keptMiddle => ?_
      exact ih (fun other member => each other (List.mem_cons_of_mem _ member)) keptMiddle

end SameAnswer

end EStateM

end Randomizer
