import Mathlib.Data.List.Perm.Basic
import Randomizer.Proofs.Logic.Grant
import Randomizer.Proofs.Placement.Ledger
import Randomizer.Proofs.World.Attempts
import Randomizer.Proofs.World.Settling

/-!
Worlds that unlock one location at a time. Each item holds the one term that one location waits for,
so whatever order the items come in, every item makes a sphere of its own and finds one location
free: the one that opened just before it.
-/

namespace Randomizer

/-- Where the first element alone passes a test, it is what passes in every order. -/
theorem filter_of_perm_cons {α : Type} {test : α → Bool} {first : α} {rest list : List α}
    (perm : (first :: rest).Perm list) (passes : test first = true)
    (fails : ∀ other ∈ rest, test other = false) :
    list.filter test = [first] ∧ rest.Perm (list.filter (!test ·)) := by
  have passing := perm.filter test
  have failing := perm.filter (!test ·)
  rw [List.filter_cons_of_pos passes, List.filter_eq_nil_iff.2 fun other member =>
    Bool.eq_false_iff.1 (fails other member)] at passing
  rw [List.filter_cons_of_neg (by simp [passes]),
    List.filter_eq_self.2 fun other member => by simp [fails other member]] at failing
  exact ⟨(List.singleton_perm.1 passing).symm, failing⟩

/-- What is arranged like the images of a list are the images of the list, arranged alike. -/
theorem exists_map_of_perm {α β : Type} {image : α → β} {list : List α} {images : List β}
    (perm : images.Perm (list.map image)) :
    ∃ order : List α, images = order.map image ∧ order.Perm list :=
  (congrFun (congrFun (List.eq_map_comp_perm image) images) list).mpr perm

/-- Lists with the same pairs pair the first parts alike with the second parts one place before. -/
theorem zip_cons_of_map_eq {α β γ δ : Type} {left : α → γ × δ} {right : β → γ × δ}
    {list : List α} {others : List β} (same : list.map left = others.map right) (first : δ) :
    (list.map fun element => (left element).1).zip
        (first :: list.map fun element => (left element).2) =
      (others.map fun element => (right element).1).zip
        (first :: others.map fun element => (right element).2) := by
  have firsts := congrArg (List.map Prod.fst) same
  have seconds := congrArg (List.map Prod.snd) same
  rw [List.map_map, List.map_map] at firsts seconds
  exact congrArg₂ (fun firsts seconds => firsts.zip (first :: seconds)) firsts seconds

/-- An item and the location that it opens, which waits for nothing but the term that it sets. -/
structure Link (manager : Manager) where
  term : TermId
  item : WorldItem
  location : WorldLocation
  sets : item.item.setTerm? = some term
  waits : ∀ state : Progression, location.isOpen manager.vars state.read = state.holds term

namespace Link

variable {manager : Manager}

/-- The names of what is linked. -/
def names (link : Link manager) : String × String := (link.item.item.name, link.location.name)

/-- The item as it is granted at a depth. -/
def granted (link : Link manager) (depth : Nat) : WorldItem :=
  { link.item with sphere := depth, placed := .temporary }

/-- The location as it opens at a depth. -/
def opened (link : Link manager) (depth : Nat) : WorldLocation :=
  { link.location with sphere := depth, reachable := .permanent }

/-- One sphere for each link. -/
def spheres (depth : Nat) : List (Link manager) → List (Sphere WorldItem WorldLocation)
  | [] => []
  | link :: rest =>
    ⟨depth, Growth.mainGroup, [link.granted depth], [link.opened depth], rest.isEmpty⟩ ::
      spheres (depth + 1) rest

/-- Each item at the location that opened before it, the first at one that is free. -/
def placements (depth : Nat) (free : WorldLocation) :
    List (Link manager) → List (Placement WorldItem WorldLocation)
  | [] => []
  | link :: rest =>
    ⟨link.granted depth, free⟩ :: placements (depth + 1) (link.opened depth) rest

/-- There is a sphere for each link. -/
theorem length_spheres (depth : Nat) (chain : List (Link manager)) :
    (spheres depth chain).length = chain.length := by
  induction chain generalizing depth with
  | nil => rfl
  | cons link rest ih => exact congrArg (· + 1) (ih (depth + 1))

/-- Each key is at the lock before its own, the first at the free location. -/
theorem names_placements (depth : Nat) (free : WorldLocation) (chain : List (Link manager)) :
    (placements depth free chain).map (fun placement =>
        (placement.item.item.name, placement.location.name)) =
      (chain.map fun link => link.names.1).zip
        (free.name :: chain.map fun link => link.names.2) := by
  induction chain generalizing depth free with
  | nil => rfl
  | cons link rest ih => exact congrArg ((link.names.1, free.name) :: ·) (ih (depth + 1) _)

section Growth

variable {chain rest : List (Link manager)} {unreached : List WorldLocation} {state : Progression}

/-- Where no waypoint is ready, a link's item sets its term and changes nothing else. -/
theorem play_item (still : ∀ state, manager.Settled state) (link : Link manager)
    (state : Progression) :
    manager.play link.item.item state = .ok (state.set link.term 1) :=
  Manager.play_eq_ok_iff.2
    ⟨_, Item.grant_of_sets link.sets, Manager.settle_of_settled (still _)⟩

/-- The first link's item leaves the terms of the later links as they are. -/
theorem holds_set {link : Link manager} (distinct : ((link :: rest).map term).Nodup)
    (closed : ∀ other ∈ rest, state.holds other.term = false) :
    ∀ other ∈ rest, (state.set link.term 1).holds other.term = false := by
  intro other member
  have apart : other.term ≠ link.term := fun same =>
    (List.nodup_cons.1 distinct).1 (same ▸ List.mem_map_of_mem member)
  rw [Progression.holds, Progression.read_set, if_neg apart]
  exact closed other member

/-- Of the locations that the links wait to open, the first link's item opens its own. -/
theorem filter_isOpen {link : Link manager}
    (covers : ((link :: rest).map location).Perm unreached)
    (closed : ∀ other ∈ rest, (state.set link.term 1).holds other.term = false) :
    unreached.filter (·.isOpen manager.vars (state.set link.term 1).read) = [link.location] ∧
      (rest.map location).Perm
        (unreached.filter (!·.isOpen manager.vars (state.set link.term 1).read)) := by
  have opens : link.location.isOpen manager.vars (state.set link.term 1).read = true := by
    rw [link.waits, Progression.holds, Progression.read_set, if_pos rfl]
    rfl
  have stays : ∀ later ∈ rest.map location,
      later.isOpen manager.vars (state.set link.term 1).read = false := by
    intro _ member
    obtain ⟨other, among, rfl⟩ := List.mem_map.1 member
    rw [other.waits, closed other among]
  exact filter_of_perm_cons covers opens stays

/-- Links whose terms are not held make one sphere each, and their locations are all opened. -/
theorem grow_chain (still : ∀ state, manager.Settled state)
    (covers : (chain.map location).Perm unreached) (distinct : (chain.map term).Nodup)
    (closed : ∀ link ∈ chain, state.holds link.term = false) (depth : Nat) :
    ∃ last, Growth.grow manager depth [] ⟨unreached, state⟩ (chain.map item) =
      ⟨spheres depth chain, .ok ⟨[], last⟩⟩ := by
  induction chain generalizing depth unreached state with
  | nil =>
      obtain rfl := covers.nil_eq
      exact ⟨state, rfl⟩
  | cons link rest ih =>
      have later := holds_set distinct fun other member =>
        closed other (List.mem_cons_of_mem link member)
      obtain ⟨opened, left⟩ := filter_isOpen covers later
      obtain ⟨last, grown⟩ := ih left (List.nodup_cons.1 distinct).2 later (depth + 1)
      refine ⟨last, ?_⟩
      rw [List.map_cons, Growth.grow_cons, play_item still]
      simp only [opened, grown]
      simp [spheres, granted, Link.opened]

/-- A world with one location that is open at the start and a chain for the others. -/
theorem ofOrder_chain (still : ∀ state, manager.Settled state) {start : WorldLocation}
    (isOpen : start.isOpen manager.vars state.read)
    (covers : (chain.map location).Perm unreached) (distinct : (chain.map term).Nodup)
    (closed : ∀ link ∈ chain, state.holds link.term = false) :
    ∃ last, Growth.ofOrder manager state (chain.map item) (start :: unreached) =
      ⟨⟨0, Growth.mainGroup, [], [{ start with sphere := 0, reachable := .permanent }],
          chain.isEmpty⟩ :: spheres 1 chain, .ok ⟨[], last⟩⟩ := by
  have shut : ∀ location ∈ unreached, location.isOpen manager.vars state.read = false := by
    intro location member
    obtain ⟨link, among, rfl⟩ := List.mem_map.1 (covers.mem_iff.2 member)
    rw [link.waits, closed link among]
  obtain ⟨opened, left⟩ := filter_of_perm_cons (List.Perm.refl (start :: unreached)) isOpen shut
  have settled := Manager.settle_of_settled (still state)
  obtain ⟨last, grown⟩ := grow_chain still (covers.trans left) distinct closed 1
  refine ⟨last, ?_⟩
  rw [Growth.ofOrder_eq, Growth.openedFirst, Growth.closedFirst, settled, opened, grown,
    List.isEmpty_map]
  rfl

end Growth

section Placing

variable {σ : Type} {strategy : Run.RunStrategy σ} (sphere : Sphere WorldItem WorldLocation)

/-- Without constraints a sphere is placed when it has no more items than there are free
locations. -/
theorem exists_place (lenient : strategy.constraints = [])
    (enough : sphere.items.length ≤ strategy.remainingLocations) :
    ∃ placements next, Strategy.place sphere strategy = .ok placements next ∧
      Strategy.Placed .forward sphere strategy next placements ∧ next.constraints = [] := by
  have none : ∀ constraint ∈ strategy.constraints, constraint.Lenient := by
    rw [lenient]
    nofun
  obtain ⟨placements, next, ran⟩ :=
    (Strategy.settles_of_lenient none (fun _ free => free) sphere).succeeds_iff.2 enough
  have kept := (Strategy.keeps_placeSphere (.constraints .forward []) sphere).ok ran lenient
  exact ⟨placements, next, ran, Strategy.placed_placeSphere ran, kept⟩

/-- One item and one free location leave no choice. -/
theorem place_one (lenient : strategy.constraints = []) {item : WorldItem}
    {free opened : WorldLocation} (items : sphere.items = [item])
    (locations : sphere.locations = [opened]) (one : strategy.forward.locations = [free]) :
    ∃ next, Strategy.place sphere strategy = .ok [⟨item, free⟩] next ∧ next.constraints = [] ∧
      next.forward.locations = [opened] := by
  have enough : sphere.items.length ≤ strategy.remainingLocations := by
    rw [items, Strategy.remainingLocations, Side.remaining, one]
    exact Nat.le_refl 1
  obtain ⟨placements, next, ran, placed, kept⟩ := exists_place sphere lenient enough
  obtain ⟨sameItems, taken, moved⟩ := placed
  rw [items] at sameItems
  obtain ⟨⟨placedItem, location⟩, rfl, rfl⟩ := List.map_eq_singleton_iff.1 sameItems
  have found := taken _ List.mem_cons_self
  rw [Strategy.side, one, List.mem_singleton] at found
  dsimp only at found
  subst found
  rw [Strategy.side, one, locations] at moved
  have left := (List.perm_cons location).1 moved
  exact ⟨next, ran, kept, (List.singleton_perm.1 left).symm⟩

/-- A chain is placed with each item at the location that opened before it. -/
theorem placeAll_spheres (lenient : strategy.constraints = []) {free : WorldLocation}
    (one : strategy.forward.locations = [free]) (depth : Nat) (chain : List (Link manager)) :
    ∃ next, Run.placeAll (spheres depth chain) strategy =
      .ok (placements depth free chain) next := by
  induction chain generalizing depth strategy free with
  | nil => exact ⟨strategy, rfl⟩
  | cons link rest ih =>
      obtain ⟨middle, placed, kept, opened⟩ := place_one
        ⟨depth, Growth.mainGroup, [link.granted depth], [link.opened depth], rest.isEmpty⟩
        lenient rfl rfl one
      obtain ⟨next, placedRest⟩ := ih kept opened (depth + 1)
      refine ⟨next, EStateM.bind_eq_ok_iff.2 ⟨_, middle, placed, ?_⟩⟩
      exact EStateM.bind_eq_ok_iff.2 ⟨_, next, placedRest, rfl⟩

end Placing

/-- The link between an item and a location that were drawn for those of the link. -/
def redraw (link : Link manager) (item : WorldItem) (location : WorldLocation)
    (nature : item.nature = link.item.nature)
    (access : location.access = link.location.access) : Link manager where
  term := link.term
  item := item
  location := location
  sets := (congrArg (fun nature => nature.1.setTerm?) nature).trans link.sets
  waits := fun state =>
    (WorldLocation.isOpen_eq_of_access access manager.vars state.read).trans (link.waits state)

/-- A link has the same names with other priorities. -/
theorem names_redraw (link : Link manager) {item : WorldItem} {location : WorldLocation}
    (nature : item.nature = link.item.nature) (access : location.access = link.location.access) :
    (link.redraw item location nature access).names = link.names :=
  Prod.ext (congrArg (fun nature => nature.1.name) nature)
    (WorldLocation.name_eq_of_access access)

/-- What an attempt draws for the links makes a chain again. -/
theorem exists_chain {order : List (Link manager)} {items : List WorldItem}
    {locations : List WorldLocation}
    (natures : items.map WorldItem.nature = order.map fun link => link.item.nature)
    (accesses : locations.map WorldLocation.access = order.map fun link => link.location.access) :
    ∃ chain : List (Link manager), chain.map item = items ∧ chain.map location = locations ∧
      chain.map term = order.map term ∧ chain.map names = order.map names := by
  induction order generalizing items locations with
  | nil =>
      obtain rfl := List.map_eq_nil_iff.1 natures
      obtain rfl := List.map_eq_nil_iff.1 accesses
      exact ⟨[], rfl, rfl, rfl, rfl⟩
  | cons link rest ih =>
      obtain ⟨item, items, rfl, nature, others⟩ := List.map_eq_cons_iff.1 natures
      obtain ⟨location, locations, rfl, access, otherAccesses⟩ := List.map_eq_cons_iff.1 accesses
      obtain ⟨chain, rfl, rfl, terms, named⟩ := ih others otherAccesses
      refine ⟨link.redraw item location nature access :: chain, rfl, rfl, ?_, ?_⟩
      · exact congrArg (link.term :: ·) terms
      · rw [List.map_cons, List.map_cons, names_redraw, named]

end Link

/-- What is reported of links in the order of their items: one sphere for the start and one for each
link, nothing out of reach, and each item at the location of the link before it. -/
structure Outcome.Follows {manager : Manager} (outcome : Outcome) (start : WorldLocation)
    (order : List (Link manager)) : Prop where
  spheres : outcome.spheres = order.length + 1
  unreachable : outcome.unreachable = []
  names : outcome.placements.map (fun placement =>
      (placement.item.item.name, placement.location.name)) =
    (order.map fun link => link.names.1).zip (start.name :: order.map fun link => link.names.2)

/-- A world with one location that is always open and one more for each of its items. -/
structure World.Unlocks (world : World) (start : WorldLocation)
    (links : List (Link world.manager)) : Prop where
  still : ∀ state, world.manager.Settled state
  free : ∀ state : Progression, start.isOpen world.manager.vars state.read
  items : world.items = links.map Link.item
  locations : world.locations = start :: links.map Link.location
  distinct : (links.map Link.term).Nodup

namespace World.Unlocks

variable {world : World} {start : WorldLocation} {links : List (Link world.manager)}
  {initial : Progression}

/-- Whatever an attempt draws, the world grows along a chain of its links. -/
theorem exists_growth (unlocks : world.Unlocks start links)
    (closed : ∀ link ∈ links, initial.holds link.term = false) (generator : Generator)
    (seed : UInt64) :
    ∃ (order chain : List (Link world.manager)) (free : WorldLocation) (last : Progression),
      order.Perm links ∧ chain.map Link.names = order.map Link.names ∧ free.name = start.name ∧
      world.growthOfSeed generator initial seed =
        ⟨⟨0, Growth.mainGroup, [], [free], chain.isEmpty⟩ :: Link.spheres 1 chain,
          .ok ⟨[], last⟩⟩ := by
  obtain ⟨items, locations, grows, natures, accesses⟩ :=
    world.exists_growthOfSeed_eq generator initial seed
  rw [unlocks.items, List.map_map] at natures
  rw [unlocks.locations, List.map_cons, List.map_map] at accesses
  obtain ⟨first, unreached, rfl, access, accesses⟩ := List.map_eq_cons_iff.1 accesses
  obtain ⟨order, ordered, arranged⟩ := exists_map_of_perm natures
  have opening : (order.map (WorldLocation.access ∘ Link.location)).Perm
      (unreached.map WorldLocation.access) := by
    rw [accesses]
    exact arranged.map _
  obtain ⟨doors, opening, among⟩ := exists_map_of_perm opening
  obtain ⟨chain, rfl, rfl, terms, named⟩ := Link.exists_chain ordered opening.symm
  have closedChain : ∀ link ∈ chain, initial.holds link.term = false := by
    intro link member
    have found : link.term ∈ order.map Link.term := terms ▸ List.mem_map_of_mem member
    obtain ⟨source, inOrder, same⟩ := List.mem_map.1 found
    rw [← same, closed source (arranged.mem_iff.1 inOrder)]
  have distinct : (chain.map Link.term).Nodup := by
    rw [terms]
    exact (arranged.map Link.term).nodup_iff.2 unlocks.distinct
  have isOpen : first.isOpen world.manager.vars initial.read := by
    rw [WorldLocation.isOpen_eq_of_access access]
    exact unlocks.free initial
  obtain ⟨last, grown⟩ := Link.ofOrder_chain unlocks.still isOpen among distinct closedChain
  exact ⟨order, chain, { first with sphere := 0, reachable := .permanent }, last, arranged, named,
    WorldLocation.name_eq_of_access access, grows.trans grown⟩

/-- An attempt without constraints succeeds, and each item gets the location that opened before
it. -/
theorem exists_attempt (unlocks : world.Unlocks start links)
    (closed : ∀ link ∈ links, initial.holds link.term = false) (generator : Generator)
    (seed : UInt64) {σ : Type}
    (strategy : Run.RunStrategy σ) (lenient : strategy.constraints = [])
    (unused : strategy.forward = ∅) :
    ∃ outcome next order, Run.attempt world generator initial seed strategy = .ok outcome next ∧
      order.Perm links ∧ outcome.Follows start order := by
  obtain ⟨order, chain, free, last, arranged, named, sameName, grows⟩ :=
    unlocks.exists_growth closed generator seed
  obtain ⟨none, middle, placedStart, moved, kept⟩ := Link.exists_place
    ⟨0, Growth.mainGroup, [], [free], chain.isEmpty⟩ lenient (Nat.zero_le _)
  obtain rfl := List.map_eq_nil_iff.1 moved.items
  have one := moved.locations
  rw [Strategy.side, unused] at one
  obtain ⟨next, placedRest⟩ := Link.placeAll_spheres kept (List.singleton_perm.1 one).symm 1 chain
  have placed : Run.placeAll (world.growthOfSeed generator initial seed).spheres strategy =
      .ok (Link.placements 1 free chain) next := by
    rw [grows]
    refine EStateM.bind_eq_ok_iff.2 ⟨[], middle, placedStart, ?_⟩
    exact EStateM.bind_eq_ok_iff.2 ⟨_, next, placedRest, rfl⟩
  have ends := congrArg Growth.ending grows
  refine ⟨_, next, order, Run.attempt_of_placeAll placed ends, arranged, ?_, rfl, ?_⟩
  · have sameLength := congrArg List.length named
    rw [List.length_map, List.length_map] at sameLength
    rw [grows, List.length_cons, Link.length_spheres, sameLength]
  · rw [List.map_map]
    refine (Link.names_placements 1 free chain).trans ?_
    rw [sameName]
    exact zip_cons_of_map_eq named start.name

/-- The first attempt of a run without constraints succeeds. -/
theorem exists_report (unlocks : world.Unlocks start links)
    (closed : ∀ link ∈ links, initial.holds link.term = false) (generator : Generator)
    (config : RunConfig) {σ : Type} (memory : σ) :
    ∃ (report : Report) (order : List (Link world.manager)),
      (world.runWith generator config initial ([] : List (Constraint σ WorldItem WorldLocation))
        memory).1 = .ok report ∧
      report.seed = config.seed ∧ report.attempts = 1 ∧ order.Perm links ∧
      report.toOutcome.Follows start order := by
  obtain ⟨outcome, next, order, attempted, arranged, follows⟩ :=
    unlocks.exists_attempt closed generator config.seed
      (Strategy.create config.transform [] memory) rfl rfl
  have ran := Run.attempts_of_attempt attempted (config.maxAttempts - 1) 0
  refine ⟨⟨outcome, config.seed, 1⟩, order, ?_, rfl, rfl, arranged, follows⟩
  simp only [World.runWith, ran]

end World.Unlocks

end Randomizer
