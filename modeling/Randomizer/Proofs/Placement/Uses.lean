import Randomizer.Proofs.Placement.History

namespace Randomizer

/-- The transform gives the adjusted priority of a use. -/
def Adjustment.GivenBy (transform : Transform) (use : Adjustment) : Prop :=
  transform use.depths use.priority = use.adjusted

namespace Strategy

/-- The strategy with another transform. -/
def withTransform {σ ι μ : Type} [Participant μ] (strategy : Strategy σ ι μ)
    (transform : Transform) : Strategy σ ι μ :=
  { strategy with transform }

section Scan

variable {σ ι μ : Type} [Participant μ] {strategy : Strategy σ ι μ} {other : Transform}

@[simp] theorem side_withTransform (direction : Direction) :
    (strategy.withTransform other).side direction = strategy.side direction := by
  cases direction <;> rfl

/-- A scan of a pool goes on from its trace. -/
theorem mem_trace_scanPool {item : ι} {depth rank pool index : Nat} {list : List μ}
    {scan : Scan μ} {use : Adjustment} (noted : use ∈ scan.trace) :
    use ∈ (strategy.scanPool item depth rank pool index list scan).trace := by
  obtain ⟨candidates, _, same⟩ := strategy.trace_scanPool item depth rank pool index list scan
  rw [same]
  exact List.mem_append_left _ noted

/-- A scan of pools goes on from its trace. -/
theorem mem_trace_scanPools {item : ι} {depth rank position : Nat} {pools : List (Pool μ)}
    {scan : Scan μ} {use : Adjustment} (noted : use ∈ scan.trace) :
    use ∈ (strategy.scanPools item depth rank position pools scan).trace := by
  obtain ⟨candidates, _, same⟩ := strategy.trace_scanPools item depth rank position pools scan
  rw [same]
  exact List.mem_append_left _ noted

/-- The use for a location that is looked at is in the trace. -/
theorem ofLocation_mem_trace_scanPool {item : ι} {depth rank pool index : Nat} {location : μ}
    {rest : List μ} {scan : Scan μ} (looks : ¬ scan.skips (strategy.satisfies item location)) :
    Adjustment.ofLocation strategy.transform depth rank location ∈
      (strategy.scanPool item depth rank pool index (location :: rest) scan).trace := by
  let use := Adjustment.ofLocation strategy.transform depth rank location
  have noted : use ∈ scan.trace ++ [use] := List.mem_append_right _ (List.mem_singleton_self _)
  rw [scanPool]
  dsimp only
  rw [if_neg looks]
  split
  · split
    · exact noted
    · exact mem_trace_scanPool noted
  · exact mem_trace_scanPool noted

/-- A transform that gives all uses of a scan leads to the same scan. -/
theorem scanPool_withTransform {item : ι} {depth rank pool index : Nat} {list : List μ}
    {scan : Scan μ}
    (given : ∀ use ∈ (strategy.scanPool item depth rank pool index list scan).trace,
      use.GivenBy other) :
    (strategy.withTransform other).scanPool item depth rank pool index list scan =
      strategy.scanPool item depth rank pool index list scan := by
  induction list generalizing index scan with
  | nil => rfl
  | cons location rest ih =>
      have satisfies : (strategy.withTransform other).satisfies item location =
          strategy.satisfies item location := rfl
      by_cases skips : scan.skips (strategy.satisfies item location)
      · rw [scanPool] at given
        dsimp only at given
        rw [if_pos skips] at given
        rw [scanPool, scanPool, satisfies]
        dsimp only
        rw [if_pos skips, if_pos skips]
        exact ih given
      · have same : (strategy.withTransform other).transform
            ⟨depth, rank, Participant.sphere location⟩ (Participant.priority location) =
            strategy.transform ⟨depth, rank, Participant.sphere location⟩
              (Participant.priority location) :=
          given _ (ofLocation_mem_trace_scanPool skips)
        rw [scanPool] at given
        dsimp only at given
        rw [if_neg skips] at given
        rw [scanPool, scanPool, satisfies]
        dsimp only
        rw [if_neg skips, if_neg skips, same]
        split at given
        next improves =>
          rw [if_pos improves, if_pos improves]
          split at given
          next satisfied => rw [if_pos satisfied, if_pos satisfied]
          next violated =>
            rw [if_neg violated, if_neg violated]
            exact ih given
        next worse =>
          rw [if_neg worse, if_neg worse]
          exact ih given

/-- A transform that gives all uses of a scan leads through the same pools. -/
theorem scanPools_withTransform {item : ι} {depth rank position : Nat} {pools : List (Pool μ)}
    {scan : Scan μ}
    (given : ∀ use ∈ (strategy.scanPools item depth rank position pools scan).trace,
      use.GivenBy other) :
    (strategy.withTransform other).scanPools item depth rank position pools scan =
      strategy.scanPools item depth rank position pools scan := by
  induction pools generalizing position scan with
  | nil => rfl
  | cons pool rest ih =>
      rw [scanPools] at given
      have first := scanPool_withTransform fun use noted => given use (mem_trace_scanPools noted)
      rw [scanPools, scanPools, first]
      exact ih given

/-- A transform that gives all uses of a scan leads to the same scan. -/
theorem scan_withTransform [Participant ι] {direction : Direction} {depth : Nat} {item : ι}
    (given : ∀ use ∈ (strategy.scan direction depth item).trace, use.GivenBy other) :
    (strategy.withTransform other).scan direction depth item =
      strategy.scan direction depth item := by
  unfold scan at given ⊢
  dsimp only at given ⊢
  rw [side_withTransform]
  exact scanPools_withTransform given

end Scan

section Work

variable {σ ι μ α β : Type} [Participant μ]

/-- The uses that are in the trace after some work decide what the work does. Another transform that
gives all of them leads to the same answer, and to the same strategy but for the transform. -/
structure ByTrace (work : EStateM Error (Strategy σ ι μ) α) : Prop where
  keeps : ∀ use, EStateM.Keeps work fun strategy => use ∈ strategy.trace.toList
  follows : ∀ strategy other,
    (∀ use ∈ (EStateM.ending work strategy).trace.toList, use.GivenBy other) →
      EStateM.Agree (fun next later => later = next.withTransform other) (work strategy)
        (work (strategy.withTransform other))

namespace ByTrace

theorem pure (value : α) : ByTrace (pure value : EStateM Error (Strategy σ ι μ) α) where
  keeps := fun _ => EStateM.keeps_pure value
  follows := fun _ _ _ => .ok rfl

theorem throw_bind (error : Error) (next : α → EStateM Error (Strategy σ ι μ) β) :
    ByTrace ((throw error : EStateM Error (Strategy σ ι μ) α) >>= next) where
  keeps := fun _ => EStateM.keeps_throw_bind error next
  follows := fun _ _ _ => .error rfl

/-- Two parts go by the trace if both do. -/
theorem bind {work : EStateM Error (Strategy σ ι μ) α}
    {next : α → EStateM Error (Strategy σ ι μ) β} (first : ByTrace work)
    (rest : ∀ value, ByTrace (next value)) : ByTrace (work >>= next) where
  keeps := fun use => (first.keeps use).bind fun value => (rest value).keeps use
  follows := by
    intro strategy other given
    rw [EStateM.ending_bind] at given
    have here := first.follows strategy other
    unfold EStateM.ending at here
    simp only [Bind.bind, EStateM.bind]
    cases ran : work strategy with
    | error error middle =>
        rw [ran] at given here
        have agree := here given
        generalize work (strategy.withTransform other) = result at agree ⊢
        cases agree with
        | error same => exact .error same
    | ok value middle =>
        rw [ran] at given here
        have agree := here fun use noted => given use ((rest value).keeps use middle noted)
        generalize work (strategy.withTransform other) = result at agree ⊢
        cases agree with
        | ok same =>
            subst same
            exact (rest value).follows middle other given

/-- Steps over a list go by the trace if each step does. -/
theorem mapM {step : α → EStateM Error (Strategy σ ι μ) β} (each : ∀ input, ByTrace (step input))
    (inputs : List α) : ByTrace (inputs.mapM step) := by
  induction inputs with
  | nil => exact .pure []
  | cons input rest ih =>
      rw [List.mapM_cons]
      exact (each input).bind fun first => ih.bind fun others => .pure _

/-- Work that looks at the state first, but not at the transform. -/
theorem get_bind {next : Strategy σ ι μ → EStateM Error (Strategy σ ι μ) β}
    (each : ∀ strategy, ByTrace (next strategy))
    (same : ∀ strategy other, next (strategy.withTransform other) = next strategy) :
    ByTrace ((get : EStateM Error (Strategy σ ι μ) (Strategy σ ι μ)) >>= next) where
  keeps := fun use => EStateM.keeps_get_bind fun strategy => (each strategy).keeps use
  follows := by
    intro strategy other given
    rw [EStateM.get_bind_apply, EStateM.get_bind_apply, same]
    exact (each strategy).follows strategy other given

/-- A change of the state that has no part in the trace and none in the transform. -/
theorem modify {change : Strategy σ ι μ → Strategy σ ι μ}
    (trace : ∀ strategy, (change strategy).trace = strategy.trace)
    (same : ∀ strategy other,
      change (strategy.withTransform other) = (change strategy).withTransform other) :
    ByTrace (modify change : EStateM Error (Strategy σ ι μ) PUnit) where
  keeps := fun use => EStateM.keeps_modify fun strategy noted => by rwa [trace]
  follows := fun strategy other _ => .ok (same strategy other)

end ByTrace

section Spheres

variable [Participant ι] (direction : Direction)

/-- A selection goes by the uses of its scan. -/
theorem byTrace_selectFrom (depth : Nat) (group : String) (item : ι) :
    ByTrace (selectFrom direction depth group item :
      EStateM Error (Strategy σ ι μ) μ) where
  keeps := by
    intro use strategy noted
    rw [(strategy.noted_selectFrom direction depth group item).trace]
    exact List.mem_append_left _ noted
  follows := by
    intro strategy other given
    have same : (strategy.withTransform other).scan direction depth item =
        strategy.scan direction depth item := by
      refine scan_withTransform fun use noted => given use ?_
      rw [(strategy.noted_selectFrom direction depth group item).trace]
      exact List.mem_append_right _ (List.mem_flatMap.2 ⟨_, List.mem_singleton_self _, noted⟩)
    simp only [selectFrom, same]
    cases (strategy.scan direction depth item).best with
    | none => exact .error rfl
    | some best =>
        dsimp only [withTransform]
        cases Constraint.reject strategy.constraints item best.location strategy.memory with
        | error error memory => exact .error rfl
        | ok _ memory => cases direction <;> exact .ok rfl

/-- A sphere goes by the uses of its searches. -/
theorem byTrace_placeSphere (sphere : Sphere ι μ) :
    ByTrace (placeSphere direction sphere :
      EStateM Error (Strategy σ ι μ) (List (Placement ι μ))) := by
  refine (ByTrace.mapM (fun item => ?_) sphere.items).bind fun placements => ?_
  · exact (byTrace_selectFrom direction _ _ item).bind fun location => .pure _
  · refine (ByTrace.modify (fun strategy => ?_) fun strategy other => ?_).bind fun _ => .pure _
    · cases direction <;> rfl
    · cases direction <;> rfl

end Spheres

end Work

section Coupled

variable {σ κ : Type} [Participant κ]

/-- Pairing off goes by the uses of its searches. -/
theorem byTrace_pairOff (direction : Direction) (depth : Nat) (group : String) (rounds : Nat) :
    ByTrace (pairOff direction depth group rounds :
      EStateM Error (Strategy σ κ κ) (List (Placement κ κ))) := by
  induction rounds with
  | zero => exact .pure []
  | succ rounds ih =>
      have paired (item : κ) : ByTrace (do
          let location ← selectFrom .forward depth group item
          let others ← pairOff direction depth group rounds
          return ⟨item, location⟩ :: others :
            EStateM Error (Strategy σ κ κ) (List (Placement κ κ))) :=
        (byTrace_selectFrom .forward depth group item).bind fun location =>
          ih.bind fun others => .pure _
      constructor
      · intro use strategy noted
        rw [pairOff, EStateM.ending_get_bind]
        dsimp only
        cases Side.takeLowest? (strategy.side direction).pools with
        | none => exact noted
        | some taken =>
            dsimp only
            rw [EStateM.ending_set_bind]
            refine (paired taken.1).keeps use _ ?_
            cases direction <;> exact noted
      · intro strategy other given
        rw [pairOff, EStateM.ending_get_bind] at given
        rw [pairOff, EStateM.get_bind_apply, EStateM.get_bind_apply]
        dsimp only at given ⊢
        rw [side_withTransform]
        cases lowest : Side.takeLowest? (strategy.side direction).pools with
        | none => exact .ok rfl
        | some taken =>
            rw [lowest] at given
            dsimp only at given
            rw [EStateM.ending_set_bind] at given
            have follows := (paired taken.1).follows _ other given
            cases direction <;> exact follows

/-- A reconciliation goes by the uses of its searches. -/
theorem byTrace_reconcile (hasDual : Bool) (depth : Nat) (group : String) :
    ByTrace (reconcile hasDual depth group :
      EStateM Error (Strategy σ κ κ) (List (Placement κ κ))) := by
  refine .get_bind (fun strategy => ?_) fun strategy other => ?_
  · split
    · exact .throw_bind _ _
    · refine (byTrace_pairOff _ depth group _).bind fun placements => ?_
      refine .get_bind (fun later => ?_) fun later other => rfl
      dsimp only
      split
      · exact .throw_bind _ _
      · exact .pure placements
  · cases hasDual <;> rfl

/-- A call for a group goes by the uses of its searches. -/
theorem byTrace_placeCoupled (sphere : Sphere κ κ) (dualSphere : Option (Sphere κ κ)) :
    ByTrace (placeCoupled sphere dualSphere :
      EStateM Error (Strategy σ κ κ) (List (Placement κ κ))) := by
  refine (byTrace_placeSphere .forward sphere).bind fun placements => ?_
  have reconciled (placed : List (Placement κ κ)) : ByTrace (do
      let leftover ←
        if sphere.isFinal then reconcile dualSphere.isSome sphere.depth sphere.group else pure []
      return placed ++ leftover : EStateM Error (Strategy σ κ κ) (List (Placement κ κ))) := by
    split
    · exact (byTrace_reconcile _ _ _).bind fun leftover => .pure _
    · exact (ByTrace.pure _).bind fun leftover => .pure _
  cases dualSphere with
  | none => exact (ByTrace.pure []).bind fun dual => reconciled _
  | some dualSphere =>
      exact (byTrace_placeSphere .dual dualSphere).bind fun dual => reconciled _

end Coupled

end Strategy

/-- What is told of uses after some events, was told before them or is told by one of them. -/
theorem Event.mem_noteIn {ι μ : Type} {uses : List Adjustment} {events : List (Event ι μ)}
    {use : Adjustment} (noted : use ∈ events.foldl noteIn uses) :
    use ∈ uses ∨ ∃ event ∈ events, ∃ search ∈ event.searches, use ∈ search.uses := by
  induction events generalizing uses with
  | nil => exact .inl noted
  | cons event rest ih =>
      rcases ih noted with here | ⟨later, member, told⟩
      · cases event with
        | reset => cases here
        | attempted | searched =>
            rcases List.mem_append.1 here with before | among
            · exact .inl before
            · obtain ⟨search, searched, told⟩ := List.mem_flatMap.1 among
              exact .inr ⟨_, List.mem_cons_self, search, searched, told⟩
      · exact .inr ⟨later, List.mem_cons_of_mem _ member, told⟩

namespace Request

variable {σ ι μ : Type} [Participant ι] [Participant μ]

/-- The placements of a request, or its error. -/
def answer {σ ι μ : Type} [Participant ι] [Participant μ] :
    Request ι μ → Strategy σ ι μ → Except Error (List (Placement ι μ))
  | place sphere, strategy => EStateM.answer (Strategy.place sphere strategy)
  | select depth group item, strategy =>
    (EStateM.answer (Strategy.select depth group item strategy)).map fun location =>
      [⟨item, location⟩]
  | couple sphere dualSphere, strategy =>
    EStateM.answer (Strategy.placeCoupled sphere dualSphere strategy)
  | reset, _ => .ok []

/-- The answers of a run of requests, one for each. -/
def answers : List (Request ι μ) → Strategy σ ι μ → List (Except Error (List (Placement ι μ)))
  | [], _ => []
  | request :: rest, strategy =>
    request.answer strategy :: answers rest (request.leaves strategy)

/-- A request goes by the uses of the transform that are in the trace after it. -/
theorem same_withTransform (request : Request ι μ) {strategy : Strategy σ ι μ} {other : Transform}
    (given : ∀ use ∈ (request.leaves strategy).trace.toList, use.GivenBy other) :
    request.answer (strategy.withTransform other) = request.answer strategy ∧
      request.leaves (strategy.withTransform other) =
        (request.leaves strategy).withTransform other := by
  cases request with
  | place sphere =>
      have agree := (Strategy.byTrace_placeSphere .forward sphere).follows strategy other given
      exact ⟨agree.answer_eq.symm, agree.ending⟩
  | select depth group item =>
      have agree :=
        (Strategy.byTrace_selectFrom .forward depth group item).follows strategy other given
      exact ⟨congrArg (Except.map _) agree.answer_eq.symm, agree.ending⟩
  | couple sphere dualSphere =>
      have agree := (Strategy.byTrace_placeCoupled sphere dualSphere).follows strategy other given
      exact ⟨agree.answer_eq.symm, agree.ending⟩
  | reset => exact ⟨rfl, rfl⟩

/-- Another transform that gives all uses that the events tell of makes no difference to a run. -/
theorem answers_withTransform {transform other : Transform} {events : List (Event ι μ)}
    {strategy : Strategy σ ι μ} (records : Records transform events strategy)
    (requests : List (Request ι μ)) (before : ∀ use ∈ strategy.trace.toList, use.GivenBy other)
    (given : ∀ event ∈ allEvents requests strategy, ∀ search ∈ event.searches,
      ∀ use ∈ search.uses, use.GivenBy other) :
    answers requests (strategy.withTransform other) = answers requests strategy ∧
      leavesAll requests (strategy.withTransform other) =
        (leavesAll requests strategy).withTransform other := by
  induction requests generalizing events strategy with
  | nil => exact ⟨rfl, rfl⟩
  | cons request rest ih =>
      have recordsNext := records_leaves records request
      have givenHere : ∀ use ∈ (request.leaves strategy).trace.toList, use.GivenBy other := by
        intro use noted
        rw [recordsNext.trace, Event.usesSince, List.foldl_append] at noted
        rcases Event.mem_noteIn noted with earlier | ⟨event, member, search, searched, told⟩
        · refine before use ?_
          rwa [records.trace]
        · exact given event (List.mem_append_left _ member) search searched use told
      obtain ⟨sameAnswer, sameNext⟩ := same_withTransform request givenHere
      obtain ⟨sameAnswers, sameEnd⟩ := ih recordsNext givenHere fun event member =>
        given event (List.mem_append_right _ member)
      rw [answers, answers, sameAnswer, sameNext, sameAnswers]
      refine ⟨rfl, ?_⟩
      change leavesAll rest (request.leaves (strategy.withTransform other)) = _
      rw [sameNext, sameEnd]
      rfl

/-- Over any run of requests, those that fail included: the transform was used as the events since
the last reset tell, and every use was at the depth of its event, at the location's own sphere and
at the true rank of the item among the spheres that had been completed on that side since the last
reset. The event of a sphere comes after all that it is ranked by, so no item sees its own sphere.
The events tell of all uses that matter: whatever a transform does elsewhere, if it gives these, the
run has the same answers and ends alike. -/
theorem allFaithful_allEvents (strategy : Strategy σ ι μ) (requests : List (Request ι μ)) :
    (leavesAll requests strategy.reset).trace.toList =
        Event.usesSince (allEvents requests strategy.reset) ∧
      Event.AllFaithful strategy.transform (allEvents requests strategy.reset) ∧
      ∀ other : Transform, (∀ event ∈ allEvents requests strategy.reset,
          ∀ search ∈ event.searches, ∀ use ∈ search.uses, use.GivenBy other) →
        answers requests (strategy.reset.withTransform other) =
            answers requests strategy.reset ∧
          leavesAll requests (strategy.reset.withTransform other) =
            (leavesAll requests strategy.reset).withTransform other := by
  have records := records_leavesAll (records_nil strategy) requests
  refine ⟨records.trace, records.faithful, fun other given => ?_⟩
  exact answers_withTransform (records_nil strategy) requests (List.forall_mem_nil _) given

end Request

/-- A sphere without items counts for an item of priority zero and for none below minus infinity. -/
example :
    [.zero, ⟨0xFFC00000⟩].map (fun priority => trueRank .forward
      [.attempted .forward ⟨0, "world", ([] : List WorldItem), ([] : List WorldLocation), false⟩
        [] true] { WorldItem.ofItem (.empty "key") with priority }) = [1, 0] := by decide

end Randomizer
