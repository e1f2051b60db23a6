import Mathlib.Data.List.Perm.Basic
import Randomizer.Proofs.Placement.Order

/-!
The history behind the depths. A run of calls is told as events: spheres with the searches for their
items, single searches and resets. Whatever fails on the way, the means that a side keeps are those
of the spheres completed on it since the last reset, so the priority depth that a transform is given
is the true rank of an item among them.
-/

namespace Randomizer

/-- A search for a location for an item: what was free and how the transform was used. -/
structure Search (ι μ : Type) where
  item : ι
  free : List μ
  uses : List Adjustment

/-- What happens to a strategy. -/
inductive Event (ι μ : Type) where
  /-- A sphere on a side, with the searches for its items up to the first that fails. -/
  | attempted (direction : Direction) (sphere : Sphere ι μ) (searches : List (Search ι μ))
      (completed : Bool)
  /-- A search among the forward locations for an item that belongs to no sphere. -/
  | searched (depth : Nat) (search : Search ι μ)
  | reset

namespace Event

variable {ι μ : Type}

def direction : Event ι μ → Direction
  | attempted direction _ _ _ => direction
  | searched _ _ => .forward
  | reset => .forward

def depth : Event ι μ → Nat
  | attempted _ sphere _ _ => sphere.depth
  | searched depth _ => depth
  | reset => 0

def searches : Event ι μ → List (Search ι μ)
  | attempted _ _ searches _ => searches
  | searched _ search => [search]
  | reset => []

/-- The items of the spheres completed on a side since the last reset, with those of an event. -/
def countIn (direction : Direction) (completed : List (List ι)) : Event ι μ → List (List ι)
  | attempted ofSphere sphere _ true =>
    if ofSphere = direction then completed ++ [sphere.items] else completed
  | attempted _ _ _ false => completed
  | searched _ _ => completed
  | reset => []

/-- The uses of the transform since the last reset, with those of an event. -/
def noteIn (uses : List Adjustment) : Event ι μ → List Adjustment
  | reset => []
  | event => uses ++ event.searches.flatMap Search.uses

/-- The items of each sphere that was completed on a side since the last reset. -/
def completedSince (direction : Direction) (events : List (Event ι μ)) : List (List ι) :=
  events.foldl (countIn direction) []

def usesSince (events : List (Event ι μ)) : List Adjustment := events.foldl noteIn []

end Event

section Ranks

variable {ι μ : Type} [Participant ι] [Participant μ]

/-- A completed sphere counts for an item if its mean priority is at most the item's, or if it had
no items and the item is not below minus infinity. -/
def countsFor (item : ι) (items : List ι) : Bool :=
  match Participant.meanPriority? items with
  | some mean => Binary32.compareTotal mean (Participant.priority item) != .gt
  | none =>
    Binary32.compareTotal (Binary32.infinity true) (Participant.priority item) != .gt

/-- The rank of an item in the history of a side. -/
def trueRank (direction : Direction) (events : List (Event ι μ)) (item : ι) : Nat :=
  (Event.completedSince direction events).countP (countsFor item)

/-- A location given to a transform at two depths and its own sphere. -/
def Adjustment.ofLocation (transform : Transform) (depth rank : Nat) (location : μ) : Adjustment :=
  let depths : DepthContext := ⟨depth, rank, Participant.sphere location⟩
  ⟨depths, Participant.priority location, transform depths (Participant.priority location)⟩

/-- The transform was given some of the free locations, at a depth and at a rank. -/
def Search.UsedAt (search : Search ι μ) (transform : Transform) (depth rank : Nat) : Prop :=
  ∃ candidates : List μ, candidates.Sublist search.free ∧
    search.uses = candidates.map (Adjustment.ofLocation transform depth rank)

/-- All searches of an event are at its depth and at the true ranks of their items in what happened
before it. -/
def Event.Faithful (transform : Transform) (before : List (Event ι μ)) (event : Event ι μ) : Prop :=
  ∀ search ∈ event.searches,
    search.UsedAt transform event.depth (trueRank event.direction before search.item)

end Ranks

namespace Strategy

section Events

variable {σ ι μ : Type} [Participant ι] [Participant μ]

def search (strategy : Strategy σ ι μ) (direction : Direction) (depth : Nat) (item : ι) :
    Search ι μ :=
  ⟨item, (strategy.side direction).locations, (strategy.scan direction depth item).trace⟩

/-- The searches for items one after another, up to the first that fails. -/
def searches (direction : Direction) (depth : Nat) (group : String) :
    List ι → Strategy σ ι μ → List (Search ι μ)
  | [], _ => []
  | item :: rest, strategy =>
    strategy.search direction depth item ::
      match selectFrom direction depth group item strategy with
      | .ok _ next => searches direction depth group rest next
      | .error _ _ => []

def sphereEvent (strategy : Strategy σ ι μ) (direction : Direction) (sphere : Sphere ι μ) :
    Event ι μ :=
  .attempted direction sphere
    (searches direction sphere.depth sphere.group sphere.items strategy)
    (EStateM.answer (placeSphere direction sphere strategy)).isOk

end Events

section Coupled

variable {σ κ : Type} [Participant κ]

/-- The searches for the leftover locations of a side, up to the first that fails. -/
def pairings (direction : Direction) (depth : Nat) (group : String) :
    Nat → Strategy σ κ κ → List (Event κ κ)
  | 0, _ => []
  | rounds + 1, strategy =>
    match Side.takeLowest? (strategy.side direction).pools with
    | none => []
    | some (item, pools) =>
      .searched depth ((strategy.withPools direction pools).search .forward depth item) ::
        match selectFrom .forward depth group item (strategy.withPools direction pools) with
        | .ok _ next => pairings direction depth group rounds next
        | .error _ _ => []

/-- Leftover locations are searched for at the depth of the forward sphere. -/
def reconciliation (hasDual : Bool) (sphere : Sphere κ κ) (strategy : Strategy σ κ κ) :
    List (Event κ κ) :=
  if sphere.isFinal ∧ strategy.imbalance hasDual = 0 then
    pairings (leftoverSide hasDual) sphere.depth sphere.group
      (strategy.side (leftoverSide hasDual)).remaining strategy
  else []

def coupledEvents (sphere : Sphere κ κ) (dualSphere : Option (Sphere κ κ))
    (strategy : Strategy σ κ κ) : List (Event κ κ) :=
  strategy.sphereEvent .forward sphere ::
    match placeSphere .forward sphere strategy, dualSphere with
    | .error _ _, _ => []
    | .ok _ middle, none => middle.reconciliation false sphere
    | .ok _ middle, some dualSphere =>
      middle.sphereEvent .dual dualSphere ::
        match placeSphere .dual dualSphere middle with
        | .error _ _ => []
        | .ok _ last => last.reconciliation true sphere

end Coupled

end Strategy

/-- Anything that may be asked of a strategy. Coupled groups are for strategies whose items and
locations are of one kind. -/
inductive Request : (ι μ : Type) → [Participant ι] → [Participant μ] → Type 1 where
  | place {ι μ : Type} [Participant ι] [Participant μ] (sphere : Sphere ι μ) : Request ι μ
  | select {ι μ : Type} [Participant ι] [Participant μ] (depth : Nat) (group : String) (item : ι) :
      Request ι μ
  | couple {κ : Type} [Participant κ] (sphere : Sphere κ κ) (dualSphere : Option (Sphere κ κ)) :
      Request κ κ
  | reset {ι μ : Type} [Participant ι] [Participant μ] : Request ι μ

namespace Request

/-- The strategy after a request, also after one that fails. -/
def leaves {σ ι μ : Type} [Participant ι] [Participant μ] :
    Request ι μ → Strategy σ ι μ → Strategy σ ι μ
  | place sphere, strategy => EStateM.ending (Strategy.place sphere) strategy
  | select depth group item, strategy => EStateM.ending (Strategy.select depth group item) strategy
  | couple sphere dualSphere, strategy =>
    EStateM.ending (Strategy.placeCoupled sphere dualSphere) strategy
  | reset, strategy => strategy.reset

def events {σ ι μ : Type} [Participant ι] [Participant μ] :
    Request ι μ → Strategy σ ι μ → List (Event ι μ)
  | place sphere, strategy => [strategy.sphereEvent .forward sphere]
  | select depth _ item, strategy => [.searched depth (strategy.search .forward depth item)]
  | couple sphere dualSphere, strategy => strategy.coupledEvents sphere dualSphere
  | reset, _ => [.reset]

end Request

namespace Strategy

section Scan

variable {σ ι μ : Type} [Participant μ] (strategy : Strategy σ ι μ) (item : ι)
  (depth priorityDepth : Nat)

/-- A scan uses the transform on some of the locations that it passes, each at its own sphere. -/
theorem trace_scanPool (pool index : Nat) (list : List μ) (scan : Scan μ) :
    ∃ candidates : List μ, candidates.Sublist list ∧
      (strategy.scanPool item depth priorityDepth pool index list scan).trace =
        scan.trace ++
          candidates.map (Adjustment.ofLocation strategy.transform depth priorityDepth) := by
  induction list generalizing index scan with
  | nil => exact ⟨[], .slnil, (List.append_nil _).symm⟩
  | cons location rest ih =>
      let use := Adjustment.ofLocation strategy.transform depth priorityDepth location
      have goOn {next : Scan μ} (noted : next.trace = scan.trace ++ [use]) :
          ∃ candidates : List μ, candidates.Sublist (location :: rest) ∧
            (strategy.scanPool item depth priorityDepth pool (index + 1) rest next).trace =
              scan.trace ++
                candidates.map (Adjustment.ofLocation strategy.transform depth priorityDepth) := by
        obtain ⟨candidates, within, same⟩ := ih (index + 1) next
        refine ⟨location :: candidates, within.cons_cons location, ?_⟩
        rw [same, noted, List.append_assoc]
        rfl
      rw [scanPool]
      dsimp only
      split
      · obtain ⟨candidates, within, same⟩ := ih (index + 1) scan
        exact ⟨candidates, within.cons location, same⟩
      · split
        · split
          · exact ⟨[location], (List.nil_sublist rest).cons_cons location, rfl⟩
          · exact goOn rfl
        · exact goOn rfl

/-- A scan of pools uses the transform on some of their locations, each at its own sphere. -/
theorem trace_scanPools (position : Nat) (pools : List (Pool μ)) (scan : Scan μ) :
    ∃ candidates : List μ, candidates.Sublist (pools.flatMap SortedList.items) ∧
      (strategy.scanPools item depth priorityDepth position pools scan).trace =
        scan.trace ++
          candidates.map (Adjustment.ofLocation strategy.transform depth priorityDepth) := by
  induction pools generalizing position scan with
  | nil => exact ⟨[], .slnil, (List.append_nil _).symm⟩
  | cons pool rest ih =>
      obtain ⟨first, within, same⟩ := strategy.trace_scanPool item depth priorityDepth position 0
        pool.items scan
      obtain ⟨later, withinRest, sameRest⟩ := ih (position + 1)
        (strategy.scanPool item depth priorityDepth position 0 pool.items scan)
      refine ⟨first ++ later, within.append withinRest, ?_⟩
      rw [scanPools, sameRest, same, List.map_append, List.append_assoc]

/-- A search uses the transform at its depth and at the rank that it looks up. -/
theorem uses_search [Participant ι] (direction : Direction) :
    (strategy.search direction depth item).UsedAt strategy.transform depth
      (strategy.priorityDepth direction item) := by
  obtain ⟨candidates, within, same⟩ := strategy.trace_scanPools item depth
    (strategy.priorityDepth direction item) 0 (strategy.side direction).pools .start
  exact ⟨candidates, within, same⟩

end Scan

/-- What searches do to a strategy, but for the locations that they take. -/
structure Noted {σ ι μ : Type} [Participant μ] (searches : List (Search ι μ))
    (strategy next : Strategy σ ι μ) : Prop where
  transform : next.transform = strategy.transform
  trace : next.trace.toList = strategy.trace.toList ++ searches.flatMap Search.uses
  means : ∀ direction, (next.side direction).means = (strategy.side direction).means

section Searches

variable {σ ι μ : Type} [Participant μ] {strategy middle next : Strategy σ ι μ}

theorem Noted.refl (strategy : Strategy σ ι μ) : Noted ([] : List (Search ι μ)) strategy strategy :=
  ⟨rfl, (List.append_nil _).symm, fun _ => rfl⟩

theorem Noted.trans {first later : List (Search ι μ)} (noted : Noted first strategy middle)
    (notedLater : Noted later middle next) : Noted (first ++ later) strategy next where
  transform := notedLater.transform.trans noted.transform
  trace := by
    rw [notedLater.trace, noted.trace, List.append_assoc, List.flatMap_append]
  means := fun direction => (notedLater.means direction).trans (noted.means direction)

/-- Pools that change leave what the searches note. -/
theorem Noted.withPools {searches : List (Search ι μ)} (noted : Noted searches strategy next)
    (direction : Direction) (pools : List (Pool μ)) :
    Noted searches strategy (next.withPools direction pools) where
  transform := by
    rw [← noted.transform]
    cases direction <;> rfl
  trace := by
    rw [← noted.trace]
    cases direction <;> rfl
  means := by
    intro other
    rw [← noted.means other]
    cases direction <;> cases other <;> rfl

variable [Participant ι]

/-- A selection notes its search, whether it succeeds or not. -/
theorem noted_selectFrom (strategy : Strategy σ ι μ) (direction : Direction) (depth : Nat)
    (group : String) (item : ι) :
    Noted [strategy.search direction depth item] strategy
      (EStateM.ending (selectFrom direction depth group item) strategy) := by
  have noted (memory : σ) : Noted [strategy.search direction depth item] strategy
      { strategy with
        memory, trace := strategy.trace ++ (strategy.scan direction depth item).trace } :=
    ⟨rfl, by simp [search], fun other => by cases other <;> rfl⟩
  unfold EStateM.ending
  simp only [selectFrom]
  cases (strategy.scan direction depth item).best with
  | none => exact noted _
  | some best =>
      dsimp only
      cases Constraint.reject strategy.constraints item best.location strategy.memory with
      | error error memory => exact noted memory
      | ok _ memory =>
          have removed := (noted memory).withPools direction
            ((strategy.side direction).remove best.pool best.index).pools
          cases direction <;> exact removed

/-- Items searched for one after another see one history, since no search adds to it. -/
theorem noted_selectAll (strategy : Strategy σ ι μ) (direction : Direction) (depth : Nat)
    (group : String) (items : List ι) :
    Noted (searches direction depth group items strategy) strategy
        (EStateM.ending (selectAll direction depth group items) strategy) ∧
      ∀ search ∈ searches direction depth group items strategy,
        search.UsedAt strategy.transform depth (strategy.priorityDepth direction search.item) := by
  induction items generalizing strategy with
  | nil => exact ⟨.refl strategy, nofun⟩
  | cons item rest ih =>
      have first := strategy.noted_selectFrom direction depth group item
      have uses := strategy.uses_search item depth direction
      rw [selectAll_cons, searches, EStateM.ending_bind]
      unfold EStateM.ending at first
      cases ran : selectFrom direction depth group item strategy with
      | error error next =>
          rw [ran] at first
          exact ⟨first, List.forall_mem_singleton.2 uses⟩
      | ok location next =>
          rw [ran] at first
          obtain ⟨later, usesLater⟩ := ih next
          refine ⟨?_, List.forall_mem_cons.2 ⟨uses, fun search member => ?_⟩⟩
          · dsimp only
            rw [EStateM.ending_bind_pure]
            exact first.trans later
          · have usesRest := usesLater search member
            rw [first.transform, priorityDepth, first.means direction] at usesRest
            exact usesRest

end Searches

end Strategy

section Records

variable {σ ι μ : Type} [Participant ι] [Participant μ]

/-- Every event was faithful to what happened before it. -/
def Event.AllFaithful (transform : Transform) (events : List (Event ι μ)) : Prop :=
  ∀ before event after, events = before ++ event :: after → event.Faithful transform before

/-- All events are faithful just if all but the last are and the last is. -/
theorem Event.allFaithful_concat_iff {transform : Transform} {events : List (Event ι μ)}
    {last : Event ι μ} :
    AllFaithful transform (events ++ [last]) ↔
      AllFaithful transform events ∧ last.Faithful transform events := by
  constructor
  · intro all
    refine ⟨fun before event after same => all before event (after ++ [last]) ?_,
      all events last [] rfl⟩
    rw [same, List.append_assoc, List.cons_append]
  · rintro ⟨earlier, here⟩ before event after same
    rcases List.eq_nil_or_concat after with rfl | ⟨rest, final, rfl⟩
    · obtain ⟨rfl, single⟩ := List.append_inj' same rfl
      cases single
      exact here
    · rw [List.concat_eq_append, ← List.cons_append, ← List.append_assoc] at same
      exact earlier before event rest (List.append_inj' same rfl).1

/-- What a completed sphere is recorded as. -/
def recordedMean (items : List ι) : Binary32 :=
  (Participant.meanPriority? items).getD (Binary32.infinity true)

/-- A strategy to which the events happened: it holds the uses of its transform and the means of the
spheres that were completed, in order, and every event was faithful to what happened before it. -/
structure Records (transform : Transform) (events : List (Event ι μ)) (strategy : Strategy σ ι μ) :
    Prop where
  faithful : Event.AllFaithful transform events
  transform : strategy.transform = transform
  trace : strategy.trace.toList = Event.usesSince events
  ascending : ∀ direction, (strategy.side direction).means.Ascending
  means : ∀ direction, (strategy.side direction).means.items.Perm
    ((Event.completedSince direction events).map recordedMean)

namespace Records

variable {transform : Transform} {events : List (Event ι μ)} {strategy next : Strategy σ ι μ}

/-- The rank that a search looks up is the true one. -/
theorem priorityDepth_eq (records : Records transform events strategy) (direction : Direction)
    (item : ι) : strategy.priorityDepth direction item = trueRank direction events item := by
  have counted : (fun mean => Binary32.compareTotal mean (Participant.priority item) != .gt) ∘
      recordedMean = countsFor item := by
    funext items
    rw [Function.comp_apply, recordedMean, countsFor]
    cases Participant.meanPriority? items <;> rfl
  rw [Strategy.priorityDepth, (records.ascending direction).countUpTo_eq,
    (records.means direction).countP_eq, List.countP_map, counted]
  rfl

/-- Pools that change leave the record. -/
theorem withPools (records : Records transform events strategy) (direction : Direction)
    (pools : List (Pool μ)) : Records transform events (strategy.withPools direction pools) := by
  have noted := (Strategy.Noted.refl (ι := ι) strategy).withPools direction pools
  exact {
    transform := noted.transform.trans records.transform
    trace := by
      rw [noted.trace, ← records.trace]
      exact List.append_nil _
    ascending := fun other => noted.means other ▸ records.ascending other
    means := fun other => noted.means other ▸ records.means other
    faithful := records.faithful }

/-- Searches that complete nothing are an event. -/
theorem append (records : Records transform events strategy) {event : Event ι μ}
    (notes : ∀ uses, Event.noteIn uses event = uses ++ event.searches.flatMap Search.uses)
    (counts : ∀ direction completed, Event.countIn direction completed event = completed)
    (noted : strategy.Noted event.searches next) (uses : ∀ search ∈ event.searches,
      search.UsedAt strategy.transform event.depth
        (strategy.priorityDepth event.direction search.item)) :
    Records transform (events ++ [event]) next where
  transform := noted.transform.trans records.transform
  trace := by
    rw [noted.trace, records.trace, Event.usesSince, Event.usesSince, List.foldl_concat, notes]
  ascending := fun direction => noted.means direction ▸ records.ascending direction
  means := by
    intro direction
    rw [noted.means, Event.completedSince, List.foldl_concat, counts]
    exact records.means direction
  faithful := by
    refine Event.allFaithful_concat_iff.2 ⟨records.faithful, fun search member => ?_⟩
    rw [← records.transform, ← records.priorityDepth_eq]
    exact uses search member

/-- A selection is recorded as its search. -/
theorem selectFrom (records : Records transform events strategy) (depth : Nat) (group : String)
    (item : ι) :
    Records transform (events ++ [.searched depth (strategy.search .forward depth item)])
      (EStateM.ending (Strategy.selectFrom .forward depth group item) strategy) :=
  records.append (fun _ => rfl) (fun _ _ => rfl)
    (strategy.noted_selectFrom .forward depth group item)
    (List.forall_mem_singleton.2 (strategy.uses_search item depth .forward))

/-- A sphere that is completed is recorded, after the searches for its own items. -/
theorem complete {direction : Direction} {sphere : Sphere ι μ} {searches : List (Search ι μ)}
    (records : Records transform (events ++ [.attempted direction sphere searches false])
      strategy) :
    Records transform (events ++ [.attempted direction sphere searches true])
      (strategy.setSide direction ((strategy.side direction).complete
        (Participant.meanPriority? sphere.items) sphere.locations)) where
  faithful := by
    obtain ⟨earlier, here⟩ := Event.allFaithful_concat_iff.1 records.faithful
    exact Event.allFaithful_concat_iff.2 ⟨earlier, here⟩
  transform := by
    rw [← records.transform]
    cases direction <;> rfl
  trace := by
    have noted := records.trace
    rw [Event.usesSince, List.foldl_concat] at noted ⊢
    cases direction <;> exact noted
  ascending := by
    intro side
    by_cases own : direction = side
    · subst own
      rw [Strategy.side_setSide]
      exact (records.ascending direction).insert _
    · rw [Strategy.side_setSide_of_ne _ own]
      exact records.ascending side
  means := by
    intro side
    have recorded := records.means side
    rw [Event.completedSince, List.foldl_concat] at recorded ⊢
    simp only [Event.countIn] at recorded ⊢
    split
    · next own =>
      subst own
      rw [Strategy.side_setSide, List.map_append]
      refine (SortedList.items_insert_perm _ _).trans ?_
      exact (recorded.cons _).trans (List.perm_append_singleton _ _).symm
    · next apart =>
      rw [Strategy.side_setSide_of_ne _ apart]
      exact recorded

/-- A sphere is recorded as its event, also when it fails. -/
theorem placeSphere (records : Records transform events strategy) (direction : Direction)
    (sphere : Sphere ι μ) :
    Records transform (events ++ [strategy.sphereEvent direction sphere])
      (EStateM.ending (Strategy.placeSphere direction sphere) strategy) := by
  obtain ⟨noted, uses⟩ :=
    strategy.noted_selectAll direction sphere.depth sphere.group sphere.items
  have searched : Records transform (events ++ [.attempted direction sphere
      (Strategy.searches direction sphere.depth sphere.group sphere.items strategy) false])
      (EStateM.ending (Strategy.selectAll direction sphere.depth sphere.group sphere.items)
        strategy) :=
    records.append (fun _ => rfl) (fun _ _ => rfl) noted uses
  unfold EStateM.ending at searched ⊢
  unfold Strategy.sphereEvent
  rcases strategy.placeSphere_cases direction sphere with
    ⟨placements, middle, selected, ran⟩ | ⟨error, next, failed, ran⟩
  · rw [selected] at searched
    rw [ran]
    exact searched.complete
  · rw [failed] at searched
    rw [ran]
    exact searched

/-- A reset is recorded and starts all over. -/
theorem reset (records : Records transform events strategy) :
    Records transform (events ++ [.reset]) strategy.reset where
  faithful := Event.allFaithful_concat_iff.2 ⟨records.faithful, nofun⟩
  transform := records.transform
  trace := by
    rw [Event.usesSince, List.foldl_concat]
    rfl
  ascending := fun direction => by cases direction <;> exact .nil
  means := by
    intro direction
    rw [Event.completedSince, List.foldl_concat]
    cases direction <;> exact .nil

end Records

end Records

section Coupled

variable {σ κ : Type} [Participant κ] {transform : Transform} {events : List (Event κ κ)}
  {strategy : Strategy σ κ κ}

/-- Leftover locations search among the forward locations. -/
theorem Records.pairOff (records : Records transform events strategy) (direction : Direction)
    (depth : Nat) (group : String) (rounds : Nat) :
    Records transform (events ++ Strategy.pairings direction depth group rounds strategy)
      (EStateM.ending (Strategy.pairOff direction depth group rounds) strategy) := by
  induction rounds generalizing events strategy with
  | zero =>
      rw [Strategy.pairings, List.append_nil]
      exact records
  | succ rounds ih =>
      rw [Strategy.pairings, Strategy.pairOff, EStateM.ending_get_bind]
      dsimp only
      cases lowest : Side.takeLowest? (strategy.side direction).pools with
      | none =>
          dsimp only
          rw [List.append_nil]
          exact records
      | some taken =>
          obtain ⟨item, pools⟩ := taken
          dsimp only
          rw [EStateM.ending_set_bind]
          have selected := (records.withPools direction pools).selectFrom depth group item
          unfold EStateM.ending at selected
          change Records transform _ (EStateM.ending _ (strategy.withPools direction pools))
          rw [EStateM.ending_bind]
          cases ran : Strategy.selectFrom .forward depth group item
              (strategy.withPools direction pools) with
          | error error next =>
              rw [ran] at selected
              exact selected
          | ok location next =>
              rw [ran] at selected
              have others := ih selected
              dsimp only
              rw [EStateM.ending_bind_pure]
              rw [List.append_assoc] at others
              exact others

/-- Whatever the numbers are, all that reconciliation does is done by pairing off. -/
theorem Strategy.ending_reconcile (hasDual : Bool) (depth : Nat) (group : String)
    (strategy : Strategy σ κ κ) :
    EStateM.ending (reconcile hasDual depth group) strategy =
      if strategy.imbalance hasDual = 0 then
        EStateM.ending (pairOff (leftoverSide hasDual) depth group
          (strategy.side (leftoverSide hasDual)).remaining) strategy
      else strategy := by
  unfold reconcile
  rw [EStateM.ending_get_bind]
  dsimp only
  by_cases balanced : strategy.imbalance hasDual = 0
  · rw [if_pos balanced, if_neg (not_not.2 balanced), EStateM.ending_bind]
    unfold EStateM.ending
    cases ran : pairOff (leftoverSide hasDual) depth group
        (strategy.side (leftoverSide hasDual)).remaining strategy with
    | error error next => rfl
    | ok placements next =>
        dsimp only
        rw [EStateM.get_bind_apply]
        by_cases nothing : next.remainingLocations = 0
        · rw [if_neg (not_not.2 nothing)]
          rfl
        · rw [if_pos nothing]
          rfl
  · rw [if_neg balanced, if_pos balanced]
    rfl

namespace Records

/-- A reconciliation is recorded as the searches for what is left. -/
theorem reconcile (records : Records transform events strategy) (hasDual : Bool)
    (sphere : Sphere κ κ) (placed : List (Placement κ κ)) :
    Records transform (events ++ strategy.reconciliation hasDual sphere)
      (EStateM.ending (do
        let leftover ←
          if sphere.isFinal then Strategy.reconcile hasDual sphere.depth sphere.group else pure []
        return placed ++ leftover) strategy) := by
  dsimp only
  rw [Strategy.reconciliation]
  by_cases isFinal : sphere.isFinal
  · rw [if_pos isFinal, EStateM.ending_bind_pure, Strategy.ending_reconcile]
    by_cases balanced : strategy.imbalance hasDual = 0
    · rw [if_pos balanced, if_pos ⟨isFinal, balanced⟩]
      exact records.pairOff _ _ _ _
    · rw [if_neg balanced, if_neg fun both => balanced both.2, List.append_nil]
      exact records
  · rw [if_neg isFinal, if_neg fun both => isFinal both.1, List.append_nil]
    exact records

/-- A call for a group is recorded as its events, also when it fails. -/
theorem placeCoupled (records : Records transform events strategy) (sphere : Sphere κ κ)
    (dualSphere : Option (Sphere κ κ)) :
    Records transform (events ++ strategy.coupledEvents sphere dualSphere)
      (EStateM.ending (Strategy.placeCoupled sphere dualSphere) strategy) := by
  have first := records.placeSphere .forward sphere
  unfold Strategy.placeCoupled Strategy.coupledEvents
  rw [EStateM.ending_bind]
  unfold EStateM.ending at first
  cases ran : Strategy.placeSphere .forward sphere strategy with
  | error error next =>
      rw [ran] at first
      exact first
  | ok forward middle =>
      rw [ran] at first
      cases dualSphere with
      | none =>
          have leftover := first.reconcile false sphere (forward ++ [].map Placement.swap)
          rw [List.append_assoc] at leftover
          exact leftover
      | some dualSphere =>
          have second := first.placeSphere .dual dualSphere
          dsimp only
          rw [EStateM.ending_bind]
          unfold EStateM.ending at second
          cases ranDual : Strategy.placeSphere .dual dualSphere middle with
          | error error next =>
              rw [ranDual, List.append_assoc] at second
              exact second
          | ok dual last =>
              rw [ranDual] at second
              have leftover := second.reconcile true sphere (forward ++ dual.map Placement.swap)
              rw [List.append_assoc, List.append_assoc] at leftover
              exact leftover

end Records

end Coupled

namespace Request

variable {σ ι μ : Type} [Participant ι] [Participant μ]

/-- Every request is recorded as its events. -/
theorem records_leaves {transform : Transform} {events : List (Event ι μ)}
    {strategy : Strategy σ ι μ} (records : Records transform events strategy)
    (request : Request ι μ) :
    Records transform (events ++ request.events strategy) (request.leaves strategy) := by
  cases request with
  | place sphere => exact records.placeSphere .forward sphere
  | select depth group item => exact records.selectFrom depth group item
  | couple sphere dualSphere => exact records.placeCoupled sphere dualSphere
  | reset => exact records.reset

/-- The strategy after a run of requests. -/
def leavesAll (requests : List (Request ι μ)) (strategy : Strategy σ ι μ) : Strategy σ ι μ :=
  requests.foldl (fun strategy request => request.leaves strategy) strategy

def allEvents : List (Request ι μ) → Strategy σ ι μ → List (Event ι μ)
  | [], _ => []
  | request :: rest, strategy =>
    request.events strategy ++ allEvents rest (request.leaves strategy)

/-- A run of requests is recorded as all their events. -/
theorem records_leavesAll {transform : Transform} {events : List (Event ι μ)}
    {strategy : Strategy σ ι μ} (records : Records transform events strategy)
    (requests : List (Request ι μ)) :
    Records transform (events ++ allEvents requests strategy) (leavesAll requests strategy) := by
  induction requests generalizing events strategy with
  | nil =>
      rw [allEvents, List.append_nil]
      exact records
  | cons request rest ih =>
      have later := ih (records_leaves records request)
      rw [List.append_assoc] at later
      exact later

/-- A strategy that is reset starts without events. -/
theorem records_nil (strategy : Strategy σ ι μ) :
    Records strategy.transform ([] : List (Event ι μ)) strategy.reset where
  faithful := by
    rintro (_ | ⟨_, _⟩) event after ⟨⟩
  transform := rfl
  trace := rfl
  ascending := fun direction => by cases direction <;> exact .nil
  means := fun direction => by cases direction <;> exact .nil

end Request

end Randomizer
