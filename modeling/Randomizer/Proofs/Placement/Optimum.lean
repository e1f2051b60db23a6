import Mathlib.Data.Prod.Lex
import Mathlib.Order.Nat
import Randomizer.Proofs.Placement.Selection

/-!
The optimum of a selection. Candidates are ranked by whether they satisfy the constraints, then by
adjusted priority, then by the age of their pool and their place in it. Where no pool falls in
adjusted priority, leaving a pool early loses nothing, and a scan ends on the least candidate of
all.
-/

namespace Randomizer

/-- Of two numbers one is less just if its signed magnitude is. -/
theorem Binary32.less_iff {first second : Binary32} (firstNumber : first.isNaN = false)
    (secondNumber : second.isNaN = false) : first.less second ↔ first.signed < second.signed := by
  simp [less, firstNumber, secondNumber]

/-- What is at most another has no larger signed magnitude. -/
theorem Binary32.signed_le_of_atMost {first second : Binary32} (atMost : first.atMost second) :
    first.signed ≤ second.signed := by
  simp only [Binary32.atMost, Bool.and_eq_true, decide_eq_true_eq] at atMost
  exact atMost.2

namespace Candidate

variable {μ : Type}

/-- What candidates are ranked by, the best one lowest: whether some constraint is violated, the
adjusted priority, the age of the pool and the place in it. -/
def rank (candidate : Candidate μ) : Bool ×ₗ Int ×ₗ Nat ×ₗ Nat :=
  toLex (!candidate.satisfied,
    toLex (candidate.adjusted.signed, toLex (candidate.pool, candidate.index)))

/-- Ranks go by constraints, then adjusted priority, then pool, then index. -/
theorem rank_le_iff {first second : Candidate μ} :
    first.rank ≤ second.rank ↔ (first.satisfied ∧ second.satisfied = false) ∨
      first.satisfied = second.satisfied ∧
        (first.adjusted.signed < second.adjusted.signed ∨
          first.adjusted.signed = second.adjusted.signed ∧
            (first.pool < second.pool ∨
              first.pool = second.pool ∧ first.index ≤ second.index)) := by
  simp only [rank, Prod.Lex.toLex_le_toLex, Bool.lt_iff, Bool.not_eq_false', Bool.not_eq_true',
    Bool.not_inj_iff]

/-- The candidate stands before a place in the order in which pools are scanned. -/
def Before (candidate : Candidate μ) (pool index : Nat) : Prop :=
  candidate.pool < pool ∨ candidate.pool = pool ∧ candidate.index < index

/-- What is before an index is before the next. -/
theorem Before.next {candidate : Candidate μ} {pool index : Nat}
    (before : candidate.Before pool index) : candidate.Before pool (index + 1) := by
  rcases before with older | ⟨same, earlier⟩
  · exact .inl older
  · exact .inr ⟨same, by omega⟩

/-- What is before an index of a pool is before the next pool. -/
theorem Before.nextPool {candidate : Candidate μ} {pool index : Nat}
    (before : candidate.Before pool index) : candidate.Before (pool + 1) 0 := by
  rcases before with older | ⟨same, _⟩
  · exact .inl (by omega)
  · exact .inl (by omega)

/-- No candidate is among no locations. -/
theorem not_among_nil {candidate : Candidate μ} {pool index : Nat} :
    ¬ candidate.Among pool index [] := by
  rintro ⟨_, _, _, none⟩
  cases none

/-- A candidate is among some locations if it is the first or among the others. -/
theorem among_cons_iff {candidate : Candidate μ} {pool index : Nat} {location : μ}
    {rest : List μ} : candidate.Among pool index (location :: rest) ↔
      (candidate.pool = pool ∧ candidate.index = index ∧ candidate.location = location) ∨
        candidate.Among pool (index + 1) rest := by
  constructor
  · rintro ⟨here, offset, place, found⟩
    cases offset with
    | zero => exact .inl ⟨here, place, (Option.some.inj found).symm⟩
    | succ offset => exact .inr ⟨here, offset, by omega, found⟩
  · rintro (⟨rfl, rfl, rfl⟩ | later)
    · exact .head _ _ _ _
    · exact later.cons

/-- The option holds the best of the candidates seen, all of them before a place. -/
structure HeldLeast (held : Option (Candidate μ)) (seen : Candidate μ → Prop) (pool index : Nat) :
    Prop where
  before : ∀ candidate, seen candidate → candidate.Before pool index
  number : ∀ candidate, seen candidate → candidate.adjusted.isNaN = false
  unseen : held = none → ∀ candidate, ¬ seen candidate
  least : ∀ best, held = some best →
    seen best ∧ ∀ candidate, seen candidate → best.rank ≤ candidate.rank

namespace HeldLeast

variable {held : Option (Candidate μ)} {seen : Candidate μ → Prop} {pool index : Nat}

/-- At its start a scan has seen nothing and holds nothing. -/
theorem start : HeldLeast (none : Option (Candidate μ)) (fun _ => False) 0 0 where
  before := fun _ none => none.elim
  number := fun _ none => none.elim
  unseen := fun _ _ none => none
  least := nofun

/-- What a scan has seen may be told in other words. -/
theorem congr {other : Candidate μ → Prop} (holds : HeldLeast held seen pool index)
    (same : ∀ candidate, seen candidate ↔ other candidate) : HeldLeast held other pool index := by
  have equal : seen = other := funext fun candidate => propext (same candidate)
  exact equal ▸ holds

/-- What a scan has seen is before every later place. -/
theorem advance {laterPool laterIndex : Nat} (holds : HeldLeast held seen pool index)
    (later : ∀ candidate : Candidate μ, candidate.Before pool index →
      candidate.Before laterPool laterIndex) : HeldLeast held seen laterPool laterIndex :=
  { holds with before := fun candidate among => later candidate (holds.before candidate among) }

/-- Candidates further on that the best is not worse than change nothing. -/
theorem extend (holds : HeldLeast held seen pool index) {best : Candidate μ}
    (isHeld : held = some best) {laterPool laterIndex : Nat}
    (later : ∀ candidate : Candidate μ, candidate.Before pool index →
      candidate.Before laterPool laterIndex)
    {more : Candidate μ → Prop} (each : ∀ candidate, more candidate →
      candidate.Before laterPool laterIndex ∧ candidate.adjusted.isNaN = false ∧
        best.rank ≤ candidate.rank) :
    HeldLeast held (fun candidate => seen candidate ∨ more candidate) laterPool laterIndex where
  before := by
    rintro candidate (among | among)
    · exact later candidate (holds.before candidate among)
    · exact (each candidate among).1
  number := by
    rintro candidate (among | among)
    · exact holds.number candidate among
    · exact (each candidate among).2.1
  unseen := by
    intro none
    rw [isHeld] at none
    cases none
  least := by
    intro other isOther
    obtain rfl := Option.some.inj (isHeld.symm.trans isOther)
    obtain ⟨among, least⟩ := holds.least best isHeld
    refine ⟨.inl among, ?_⟩
    rintro candidate (among | among)
    · exact least candidate among
    · exact (each candidate among).2.2

/-- A candidate at the place that is not better than the best is passed by. -/
theorem pass (holds : HeldLeast held seen pool index) {best fresh : Candidate μ}
    (isHeld : held = some best) (place : fresh.pool = pool ∧ fresh.index = index)
    (number : fresh.adjusted.isNaN = false) (notBetter : best.rank ≤ fresh.rank) :
    HeldLeast held (fun candidate => seen candidate ∨ candidate = fresh) pool (index + 1) := by
  refine holds.extend isHeld (fun _ => Before.next) ?_
  rintro candidate rfl
  exact ⟨.inr ⟨place.1, by omega⟩, number, notBetter⟩

/-- A candidate at the place that is not worse than the best takes over. -/
theorem take (holds : HeldLeast held seen pool index) {fresh : Candidate μ}
    (place : fresh.pool = pool ∧ fresh.index = index) (number : fresh.adjusted.isNaN = false)
    (better : ∀ best, held = some best → fresh.rank ≤ best.rank) :
    HeldLeast (some fresh) (fun candidate => seen candidate ∨ candidate = fresh)
      pool (index + 1) where
  before := by
    rintro candidate (among | rfl)
    · exact (holds.before candidate among).next
    · exact .inr ⟨place.1, by omega⟩
  number := by
    rintro candidate (among | rfl)
    · exact holds.number candidate among
    · exact number
  unseen := nofun
  least := by
    intro best isBest
    cases isBest
    refine ⟨.inr rfl, ?_⟩
    rintro candidate (among | rfl)
    · cases isHeld : held with
      | none => exact absurd among (holds.unseen isHeld candidate)
      | some best =>
          exact (better best isHeld).trans ((holds.least best isHeld).2 candidate among)
    · exact le_rfl

end HeldLeast

/-- Some of all candidates were examined, and every other one comes after a satisfying one in its
pool that was. -/
structure Covers (examined all : Candidate μ → Prop) : Prop where
  within : ∀ candidate, examined candidate → all candidate
  passed : ∀ candidate, all candidate → examined candidate ∨
    ∃ earlier, examined earlier ∧ earlier.satisfied ∧ earlier.pool = candidate.pool ∧
      earlier.index < candidate.index

namespace Covers

theorem refl (all : Candidate μ → Prop) : Covers all all :=
  ⟨fun _ => id, fun _ => .inl⟩

/-- Two parts are covered together if each is. -/
theorem union {first second firstAll secondAll : Candidate μ → Prop}
    (covers : Covers first firstAll) (coversSecond : Covers second secondAll) :
    Covers (fun candidate => first candidate ∨ second candidate)
      (fun candidate => firstAll candidate ∨ secondAll candidate) where
  within := fun candidate => Or.imp (covers.within candidate) (coversSecond.within candidate)
  passed := by
    rintro candidate (inFirst | inSecond)
    · rcases covers.passed candidate inFirst with examined | ⟨earlier, examined, before⟩
      · exact .inl (.inl examined)
      · exact .inr ⟨earlier, .inl examined, before⟩
    · rcases coversSecond.passed candidate inSecond with examined | ⟨earlier, examined, before⟩
      · exact .inl (.inr examined)
      · exact .inr ⟨earlier, .inr examined, before⟩

/-- What is covered may be told in other words. -/
theorem congr {examined all others : Candidate μ → Prop} (covers : Covers examined all)
    (same : ∀ candidate, all candidate ↔ others candidate) : Covers examined others := by
  have equal : all = others := funext fun candidate => propext (same candidate)
  exact equal ▸ covers

end Covers

end Candidate

namespace Scan

variable {μ : Type} {scan : Scan μ} {best fresh : Candidate μ}

/-- A location that is passed over is not better than the best so far. -/
theorem rank_le_of_skips (held : scan.best = some best) (skips : scan.skips fresh.satisfied) :
    best.rank ≤ fresh.rank := by
  simp only [Scan.skips, held, Bool.and_eq_true, Bool.not_eq_true'] at skips
  exact Candidate.rank_le_iff.2 (.inl skips)

variable (bestNumber : best.adjusted.isNaN = false) (freshNumber : fresh.adjusted.isNaN = false)
include bestNumber freshNumber

/-- A location that improves is not worse than the best so far. -/
theorem rank_le_of_improves (held : scan.best = some best)
    (kept : ¬ scan.skips fresh.satisfied)
    (improves : scan.improves fresh.satisfied fresh.adjusted) : fresh.rank ≤ best.rank := by
  simp only [Scan.skips, Scan.improves, held, Bool.and_eq_true, Bool.or_eq_true,
    Bool.not_eq_true'] at kept improves
  rw [Candidate.rank_le_iff]
  rcases improves with satisfying | lower
  · exact .inl satisfying
  · have lower := (Binary32.less_iff freshNumber bestNumber).1 lower
    cases ofFresh : fresh.satisfied with
    | true =>
        cases ofBest : best.satisfied with
        | true => exact .inr ⟨rfl, .inl lower⟩
        | false => exact .inl ⟨rfl, rfl⟩
    | false =>
        cases ofBest : best.satisfied with
        | true => exact absurd ⟨ofBest, ofFresh⟩ kept
        | false => exact .inr ⟨rfl, .inl lower⟩

/-- A location that does not improve is not better than the best so far. -/
theorem rank_le_of_not_improves (held : scan.best = some best)
    (before : best.Before fresh.pool fresh.index)
    (worse : ¬ scan.improves fresh.satisfied fresh.adjusted) : best.rank ≤ fresh.rank := by
  simp only [Scan.improves, held, Bool.or_eq_true, Bool.and_eq_true, Bool.not_eq_true',
    not_or, not_and, Bool.not_eq_false, Binary32.less_iff freshNumber bestNumber] at worse
  obtain ⟨satisfying, notLower⟩ := worse
  rw [Candidate.rank_le_iff]
  have tie : best.adjusted.signed < fresh.adjusted.signed ∨
      best.adjusted.signed = fresh.adjusted.signed ∧
        (best.pool < fresh.pool ∨ best.pool = fresh.pool ∧ best.index ≤ fresh.index) := by
    rcases Int.lt_or_eq_of_le (Int.not_lt.1 notLower) with lower | same
    · exact .inl lower
    · exact .inr ⟨same, before.imp_right fun ⟨samePool, earlier⟩ => ⟨samePool, earlier.le⟩⟩
  cases ofFresh : fresh.satisfied with
  | true => exact .inr ⟨satisfying ofFresh, tie⟩
  | false =>
      cases ofBest : best.satisfied with
      | true => exact .inl ⟨rfl, rfl⟩
      | false => exact .inr ⟨rfl, tie⟩

end Scan

namespace Strategy

variable {σ ι μ : Type} [Participant μ]

/-- The priority that the transform makes of a location's, at the depth of a sphere and the priority
depth of an item. -/
def adjusted (strategy : Strategy σ ι μ) (depth priorityDepth : Nat) (location : μ) : Binary32 :=
  strategy.transform ⟨depth, priorityDepth, Participant.sphere location⟩
    (Participant.priority location)

/-- The candidate that a location at a place is for an item. -/
def judge (strategy : Strategy σ ι μ) (item : ι) (depth priorityDepth pool index : Nat)
    (location : μ) : Candidate μ :=
  ⟨pool, index, location, strategy.adjusted depth priorityDepth location,
    strategy.satisfies item location⟩

/-- The candidate is judged as its location is for the item. -/
def Judges (strategy : Strategy σ ι μ) (item : ι) (depth priorityDepth : Nat)
    (candidate : Candidate μ) : Prop :=
  candidate = strategy.judge item depth priorityDepth candidate.pool candidate.index
    candidate.location

/-- How many completed spheres of a side have a mean priority up to that of an item. -/
def priorityDepth [Participant ι] (strategy : Strategy σ ι μ) (direction : Direction) (item : ι) :
    Nat :=
  (strategy.side direction).means.countUpTo (Participant.priority item)

/-- The candidates that the free locations of a side are for an item. -/
structure Offers [Participant ι] (strategy : Strategy σ ι μ) (direction : Direction)
    (depth : Nat) (item : ι) (candidate : Candidate μ) : Prop where
  within : candidate.In (strategy.side direction).pools
  judged : strategy.Judges item depth (strategy.priorityDepth direction item) candidate

variable {strategy : Strategy σ ι μ} {item : ι} {depth priorityDepth : Nat}

/-- The candidates of some locations are that of the first and those of the others. -/
theorem judges_among_cons_iff {candidate : Candidate μ} {pool index : Nat} {location : μ}
    {rest : List μ} :
    strategy.Judges item depth priorityDepth candidate ∧
        candidate.Among pool index (location :: rest) ↔
      candidate = strategy.judge item depth priorityDepth pool index location ∨
        strategy.Judges item depth priorityDepth candidate ∧
          candidate.Among pool (index + 1) rest := by
  rw [Candidate.among_cons_iff]
  constructor
  · rintro ⟨judged, ⟨rfl, rfl, rfl⟩ | later⟩
    · exact .inl judged
    · exact .inr ⟨judged, later⟩
  · rintro (rfl | ⟨judged, later⟩)
    · exact ⟨rfl, .inl ⟨rfl, rfl, rfl⟩⟩
    · exact ⟨judged, .inr later⟩

/-- One more location is covered when it is examined before the rest. -/
theorem covers_cons {pool index : Nat} {location : μ} {rest : List μ}
    {examined : Candidate μ → Prop} (covers : Candidate.Covers examined fun candidate =>
      strategy.Judges item depth priorityDepth candidate ∧
        candidate.Among pool (index + 1) rest) :
    Candidate.Covers (fun candidate =>
        candidate = strategy.judge item depth priorityDepth pool index location ∨
          examined candidate)
      (fun candidate => strategy.Judges item depth priorityDepth candidate ∧
        candidate.Among pool index (location :: rest)) :=
  ((Candidate.Covers.refl (· = _)).union covers).congr fun _ => judges_among_cons_iff.symm

/-- What follows a satisfying location may be left out. -/
theorem covers_of_satisfied {pool index : Nat} {location : μ} (rest : List μ)
    (satisfied : strategy.satisfies item location) :
    Candidate.Covers (· = strategy.judge item depth priorityDepth pool index location)
      (fun candidate => strategy.Judges item depth priorityDepth candidate ∧
        candidate.Among pool index (location :: rest)) where
  within := by
    rintro candidate rfl
    exact judges_among_cons_iff.2 (.inl rfl)
  passed := by
    intro candidate all
    rcases judges_among_cons_iff.1 all with rfl | ⟨_, here, offset, place, _⟩
    · exact .inl rfl
    · refine .inr ⟨_, rfl, satisfied, here.symm, ?_⟩
      rw [place]
      exact Nat.lt_of_lt_of_le (Nat.lt_succ_self index) (Nat.le_add_right _ _)

/-- A list of locations that has numbers for adjusted priorities and does not fall in them. -/
structure Ascends (strategy : Strategy σ ι μ) (depth priorityDepth : Nat) (list : List μ) :
    Prop where
  numbers : ∀ location ∈ list, (strategy.adjusted depth priorityDepth location).isNaN = false
  ascending : list.Pairwise fun first second =>
    (strategy.adjusted depth priorityDepth first).atMost
      (strategy.adjusted depth priorityDepth second)

/-- A scan through the rest of a pool examines all of it up to a satisfying location that takes
over, and ends on the best of what was seen before and what it examined. The induction is on the
rest. -/
theorem exists_covers_scanPool (item : ι) {pool index : Nat} {list : List μ} {scan : Scan μ}
    {seen : Candidate μ → Prop} (numbers : ∀ location ∈ list,
      (strategy.adjusted depth priorityDepth location).isNaN = false)
    (holds : Candidate.HeldLeast scan.best seen pool index) :
    ∃ examined, Candidate.Covers examined (fun candidate =>
        strategy.Judges item depth priorityDepth candidate ∧ candidate.Among pool index list) ∧
      Candidate.HeldLeast (strategy.scanPool item depth priorityDepth pool index list scan).best
        (fun candidate => seen candidate ∨ examined candidate) (pool + 1) 0 := by
  induction list generalizing index scan seen with
  | nil =>
      have holdsNext := holds.advance fun _ => Candidate.Before.nextPool
      refine ⟨_, .refl _, holdsNext.congr fun candidate => ?_⟩
      exact (or_iff_left fun nowhere => Candidate.not_among_nil nowhere.2).symm
  | cons location rest ih =>
      let fresh := strategy.judge item depth priorityDepth pool index location
      have number : fresh.adjusted.isNaN = false := numbers location (by simp)
      have goOn {next : Scan μ} (holdsNext : Candidate.HeldLeast next.best
          (fun candidate => seen candidate ∨ candidate = fresh) pool (index + 1)) :
          ∃ examined, Candidate.Covers examined (fun candidate =>
              strategy.Judges item depth priorityDepth candidate ∧
                candidate.Among pool index (location :: rest)) ∧
            Candidate.HeldLeast
              (strategy.scanPool item depth priorityDepth pool (index + 1) rest next).best
              (fun candidate => seen candidate ∨ examined candidate) (pool + 1) 0 := by
        obtain ⟨examined, covers, held⟩ :=
          ih (fun other member => numbers other (List.mem_cons_of_mem _ member)) holdsNext
        exact ⟨_, covers_cons covers, held.congr fun candidate => or_assoc⟩
      rw [scanPool]
      dsimp only
      split
      · next skips =>
        cases held : scan.best with
        | none =>
            rw [Scan.skips, held] at skips
            cases skips
        | some best =>
            apply goOn
            exact holds.pass held ⟨rfl, rfl⟩ number (Scan.rank_le_of_skips held skips)
      · next kept =>
        split
        · next improves =>
          have taken := holds.take ⟨rfl, rfl⟩ number fun best held =>
            Scan.rank_le_of_improves (holds.number best (holds.least best held).1) number held kept
              improves
          split
          · next satisfied =>
            exact ⟨_, covers_of_satisfied rest satisfied,
              taken.advance fun _ => Candidate.Before.nextPool⟩
          · exact goOn taken
        · next worse =>
          cases held : scan.best with
          | none =>
              rw [Scan.improves, held] at worse
              exact absurd rfl worse
          | some best =>
              have among := (holds.least best held).1
              have notBetter := Scan.rank_le_of_not_improves (holds.number best among) number held
                (holds.before best among) worse
              have holdsNext := holds.pass held ⟨rfl, rfl⟩ number notBetter
              rw [held] at holdsNext
              exact goOn holdsNext

/-- A scan of pools examines enough of them, and ends on the best of what was seen before and what
it examined. -/
theorem exists_covers_scanPools (item : ι) {position : Nat} {pools : List (Pool μ)} {scan : Scan μ}
    {seen : Candidate μ → Prop} (numbers : ∀ pool ∈ pools, ∀ location ∈ pool.items,
      (strategy.adjusted depth priorityDepth location).isNaN = false)
    (holds : Candidate.HeldLeast scan.best seen position 0) :
    ∃ examined, Candidate.Covers examined (fun candidate =>
        strategy.Judges item depth priorityDepth candidate ∧ ∃ offset pool,
          pools[offset]? = some pool ∧ candidate.Among (position + offset) 0 pool.items) ∧
      Candidate.HeldLeast (strategy.scanPools item depth priorityDepth position pools scan).best
        (fun candidate => seen candidate ∨ examined candidate) (position + pools.length) 0 := by
  induction pools generalizing position scan seen with
  | nil =>
      refine ⟨_, .refl _, holds.congr fun candidate => (or_iff_left ?_).symm⟩
      rintro ⟨_, _, _, none, _⟩
      cases none
  | cons pool rest ih =>
      obtain ⟨first, coversPool, holdsPool⟩ :=
        exists_covers_scanPool item (numbers pool (by simp)) holds
      obtain ⟨later, coversRest, holdsRest⟩ :=
        ih (fun other member => numbers other (by simp [member])) holdsPool
      rw [List.length_cons, Nat.add_comm rest.length, ← Nat.add_assoc]
      refine ⟨_, (coversPool.union coversRest).congr fun candidate => ?_,
        holdsRest.congr fun candidate => or_assoc⟩
      rw [← and_or_left]
      refine and_congr Iff.rfl ?_
      constructor
      · rintro (here | ⟨offset, other, found, among⟩)
        · exact ⟨0, pool, rfl, here⟩
        · exact ⟨offset + 1, other, found, by rwa [Nat.add_comm offset, ← Nat.add_assoc]⟩
      · rintro ⟨offset, other, found, among⟩
        cases offset with
        | zero =>
            cases found
            exact .inl among
        | succ offset =>
            rw [Nat.add_comm offset, ← Nat.add_assoc] at among
            exact .inr ⟨offset, other, found, among⟩

variable [Participant ι] {direction : Direction}

/-- A scan ends on the best of the candidates that it examined, and leaves out only those that come
after a satisfying one in their pool. -/
theorem exists_covers_scan (item : ι) (numbers : ∀ location ∈ (strategy.side direction).locations,
      (strategy.adjusted depth (strategy.priorityDepth direction item) location).isNaN = false) :
    ∃ examined, Candidate.Covers examined (strategy.Offers direction depth item) ∧
      Candidate.HeldLeast (strategy.scan direction depth item).best examined
        (0 + (strategy.side direction).pools.length) 0 := by
  have holds : Candidate.HeldLeast (Scan.start : Scan μ).best (fun _ => False) 0 0 := .start
  obtain ⟨examined, covers, held⟩ := exists_covers_scanPools item
    (fun pool member location inPool =>
      numbers location (List.mem_flatMap.2 ⟨pool, member, inPool⟩)) holds
  refine ⟨examined, covers.congr fun candidate => ?_, held.congr fun candidate => by rw [false_or]⟩
  constructor
  · rintro ⟨judged, position, pool, found, here, offset, place, inside⟩
    rw [Nat.zero_add] at here place
    exact ⟨⟨pool, here ▸ found, place ▸ inside⟩, judged⟩
  · rintro ⟨⟨pool, found, inside⟩, judged⟩
    exact ⟨judged, candidate.pool, pool, found, (Nat.zero_add _).symm, candidate.index,
      (Nat.zero_add _).symm, inside⟩

/-- A location on offer is free. -/
theorem Offers.location_mem {candidate : Candidate μ}
    (offers : strategy.Offers direction depth item candidate) :
    candidate.location ∈ (strategy.side direction).locations := offers.within.mem

/-- A candidate on offer has the adjusted priority of its location. -/
theorem Offers.adjusted_eq {candidate : Candidate μ}
    (offers : strategy.Offers direction depth item candidate) : candidate.adjusted =
      strategy.adjusted depth (strategy.priorityDepth direction item) candidate.location :=
  congrArg Candidate.adjusted offers.judged

/-- What is earlier in a pool stands before what is later, in every order that the pool keeps. -/
theorem Offers.relates {relation : μ → μ → Prop}
    (kept : ∀ pool ∈ (strategy.side direction).pools, pool.items.Pairwise relation)
    {earlier candidate : Candidate μ} (offersEarlier : strategy.Offers direction depth item earlier)
    (offers : strategy.Offers direction depth item candidate)
    (here : earlier.pool = candidate.pool) (before : earlier.index < candidate.index) :
    relation earlier.location candidate.location := by
  obtain ⟨pool, found, inside⟩ := offers.within
  obtain ⟨samePool, foundSame, insideEarlier⟩ := offersEarlier.within
  rw [here, found] at foundSame
  cases foundSame
  obtain ⟨bound, same⟩ := List.getElem?_eq_some_iff.1 inside
  obtain ⟨boundEarlier, sameEarlier⟩ := List.getElem?_eq_some_iff.1 insideEarlier
  rw [← same, ← sameEarlier]
  exact List.pairwise_iff_getElem.1 (kept pool (List.mem_of_getElem? found)) _ _ boundEarlier
    bound before

/-- In a pool that does not fall in adjusted priority, no candidate after a satisfying one is
better. -/
theorem Offers.rank_le (ascends : ∀ pool ∈ (strategy.side direction).pools,
      strategy.Ascends depth (strategy.priorityDepth direction item) pool.items)
    {earlier candidate : Candidate μ} (offersEarlier : strategy.Offers direction depth item earlier)
    (offers : strategy.Offers direction depth item candidate) (satisfied : earlier.satisfied)
    (here : earlier.pool = candidate.pool) (before : earlier.index < candidate.index) :
    earlier.rank ≤ candidate.rank := by
  have notBelow := Binary32.signed_le_of_atMost <|
    offersEarlier.relates (fun pool member => (ascends pool member).ascending) offers here before
  rw [← offers.adjusted_eq, ← offersEarlier.adjusted_eq] at notBelow
  rw [Candidate.rank_le_iff]
  cases ofCandidate : candidate.satisfied with
  | false => exact .inl ⟨satisfied, rfl⟩
  | true =>
      refine .inr ⟨satisfied, ?_⟩
      rcases Int.lt_or_eq_of_le notBelow with lower | same
      · exact .inl lower
      · exact .inr ⟨same, .inr ⟨here, before.le⟩⟩

/-- Where no pool falls in adjusted priority, what a scan leaves out is not better. -/
theorem heldLeast_scan (item : ι) (ascends : ∀ pool ∈ (strategy.side direction).pools,
      strategy.Ascends depth (strategy.priorityDepth direction item) pool.items) :
    Candidate.HeldLeast (strategy.scan direction depth item).best
      (strategy.Offers direction depth item) (0 + (strategy.side direction).pools.length) 0 := by
  have numbers : ∀ location ∈ (strategy.side direction).locations,
      (strategy.adjusted depth (strategy.priorityDepth direction item) location).isNaN = false := by
    intro location member
    obtain ⟨pool, memberPool, inPool⟩ := List.mem_flatMap.1 member
    exact (ascends pool memberPool).numbers location inPool
  obtain ⟨examined, covers, holds⟩ := exists_covers_scan item numbers
  exact {
    before := by
      intro candidate offers
      obtain ⟨pool, found, _⟩ := offers.within
      obtain ⟨bound, _⟩ := List.getElem?_eq_some_iff.1 found
      exact .inl (by omega)
    number := by
      intro candidate offers
      rw [offers.adjusted_eq]
      exact numbers _ offers.location_mem
    unseen := by
      intro none candidate offers
      rcases covers.passed candidate offers with here | ⟨earlier, examinedEarlier, _⟩
      · exact holds.unseen none candidate here
      · exact holds.unseen none earlier examinedEarlier
    least := by
      intro best held
      obtain ⟨examinedBest, least⟩ := holds.least best held
      refine ⟨covers.within best examinedBest, fun candidate offers => ?_⟩
      rcases covers.passed candidate offers with here | ⟨earlier, isExamined, satisfied, before⟩
      · exact least candidate here
      · exact (least earlier isExamined).trans
          ((covers.within earlier isExamined).rank_le ascends offers satisfied before.1 before.2) }

/-- A free location is a candidate. -/
theorem exists_offers (item : ι) (depth : Nat)
    (remaining : (strategy.side direction).remaining ≠ 0) :
    ∃ candidate, strategy.Offers direction depth item candidate := by
  obtain ⟨location, member⟩ :=
    List.exists_mem_of_ne_nil _ (mt List.length_eq_zero_iff.2 remaining)
  obtain ⟨pool, memberPool, inPool⟩ := List.mem_flatMap.1 member
  obtain ⟨position, found⟩ := List.mem_iff_getElem?.1 memberPool
  obtain ⟨index, inside⟩ := List.mem_iff_getElem?.1 inPool
  exact ⟨strategy.judge item depth (strategy.priorityDepth direction item) position index location,
    ⟨pool, found, inside⟩, rfl⟩

/-- The best candidate of the scan is selected and taken out when the hooks accept it. -/
theorem selectFrom_of_best {best : Candidate μ} {memory : σ} (group : String)
    (held : (strategy.scan direction depth item).best = some best)
    (accepted : Constraint.reject strategy.constraints item best.location strategy.memory =
      .ok () memory) :
    ∃ next, selectFrom direction depth group item strategy = .ok best.location next ∧
      next.side direction = (strategy.side direction).remove best.pool best.index := by
  simp only [selectFrom, held, accepted]
  exact ⟨_, rfl, side_setSide _ _ _⟩

/-- While locations are left and no pool falls in adjusted priority, the candidate that is best of
all is the one that is selected and taken out, provided that the hooks of the constraints that it
violates accept it. -/
theorem selectFrom_least (group : String) (item : ι)
    (ascends : ∀ pool ∈ (strategy.side direction).pools,
      strategy.Ascends depth (strategy.priorityDepth direction item) pool.items)
    (remaining : (strategy.side direction).remaining ≠ 0) :
    ∃ best, strategy.Offers direction depth item best ∧
      (∀ other, strategy.Offers direction depth item other → best.rank ≤ other.rank) ∧
      ∀ memory, Constraint.reject strategy.constraints item best.location strategy.memory =
          .ok () memory →
        ∃ next, selectFrom direction depth group item strategy = .ok best.location next ∧
          next.side direction = (strategy.side direction).remove best.pool best.index := by
  have holds := heldLeast_scan item ascends
  cases held : (strategy.scan direction depth item).best with
  | none =>
      obtain ⟨candidate, offered⟩ := exists_offers item depth remaining
      exact absurd offered (holds.unseen held candidate)
  | some best =>
      obtain ⟨offered, least⟩ := holds.least best held
      exact ⟨best, offered, least, fun memory => selectFrom_of_best group held⟩

/-- A location with a name and a priority. -/
def spot (name : String) (priority : Binary32) : WorldLocation :=
  { WorldLocation.ofDefinition ⟨name, []⟩ with priority }

/-- Two pools, and the lowest location of both violates a constraint. -/
def twoPools : Strategy Unit WorldItem WorldLocation where
  transform := Transform.identity
  constraints := [⟨none, fun _ location => location.name != "cave", none⟩]
  memory := ()
  forward := ⟨[⟨[spot "lake" ⟨0x40000000⟩]⟩, ⟨[spot "cave" .zero, spot "hill" ⟨0x3F800000⟩]⟩], ∅⟩
  dual := ∅
  trace := #[]

/-- Of two pools the selection takes the least candidate. -/
theorem selectFrom_least_twoPools : ∃ (best : Candidate WorldLocation)
    (next : Strategy Unit WorldItem WorldLocation),
    selectFrom .forward 1 "world" (WorldItem.ofItem (.empty "key")) twoPools =
        .ok best.location next ∧
      ∀ other, twoPools.Offers .forward 1 (WorldItem.ofItem (.empty "key")) other →
        best.rank ≤ other.rank := by
  have ascends : ∀ pool ∈ twoPools.forward.pools, twoPools.Ascends 1
      (twoPools.priorityDepth .forward (WorldItem.ofItem (.empty "key"))) pool.items := by
    refine List.forall_mem_cons.2 ⟨⟨by decide, by decide⟩, List.forall_mem_singleton.2 ?_⟩
    exact ⟨by decide, by decide⟩
  have remaining : (twoPools.side .forward).remaining ≠ 0 := by decide
  obtain ⟨best, _, least, selected⟩ :=
    selectFrom_least "world" (WorldItem.ofItem (.empty "key")) ascends remaining
  have accepted : Constraint.reject twoPools.constraints (WorldItem.ofItem (.empty "key"))
      best.location () = .ok () () := by
    rw [Constraint.reject, twoPools, List.filter_cons]
    split <;> rfl
  obtain ⟨next, taken, _⟩ := selected () accepted
  exact ⟨best, next, taken, least⟩

end Strategy

end Randomizer
