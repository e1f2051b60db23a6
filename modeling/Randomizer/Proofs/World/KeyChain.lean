import Mathlib.Data.List.Forall2
import Randomizer.Proofs.Logic.Elementary
import Randomizer.Proofs.Logic.Recovery
import Randomizer.Proofs.Term
import Randomizer.Proofs.World.Chain
import Randomizer.World.Scenario

/-!
The key chain from its text to its report. The generated names are names of the logic's grammar and
different numbers have different ones, so the world that is built has one location that is always
open and one that waits for each key.
-/

namespace Randomizer

section Forall₂

variable {α β γ : Type} {related : α → β → Prop} {inputs : List α}

/-- Where each input has an output, all of them have outputs together. -/
theorem exists_forall₂ (each : ∀ input ∈ inputs, ∃ output, related input output) :
    ∃ outputs, List.Forall₂ related inputs outputs := by
  induction inputs with
  | nil => exact ⟨[], .nil⟩
  | cons input rest ih =>
      obtain ⟨output, here⟩ := each input List.mem_cons_self
      obtain ⟨others, later⟩ := ih fun other member => each other (List.mem_cons_of_mem _ member)
      exact ⟨output :: others, .cons here later⟩

/-- What related elements have in common, whole lists have. -/
theorem map_eq_of_forall₂ {outputs : List β} (all : List.Forall₂ related inputs outputs)
    {ofInput : α → γ} {ofOutput : β → γ}
    (same : ∀ input output, related input output → ofOutput output = ofInput input) :
    outputs.map ofOutput = inputs.map ofInput := by
  induction all with
  | nil => rfl
  | cons here _ ih => rw [List.map_cons, List.map_cons, same _ _ here, ih]

end Forall₂

namespace Scenario

def keyName (number : Nat) : String := "Key" ++ toString number

def lockName (number : Nat) : String := "Loc" ++ toString number

section Names

variable {first second : Nat}

/-- Numbers are told apart by their spellings after the same text. -/
theorem eq_of_append_toString {before : String}
    (same : before ++ toString first = before ++ toString second) : first = second := by
  have chars := congrArg String.toList same
  rw [String.toList_append, String.toList_append] at chars
  have digits : Nat.toDigits 10 first = Nat.toDigits 10 second := by
    simpa only [Nat.toString_eq_repr, Nat.toList_repr] using List.append_cancel_left chars
  rw [← digitsValue_toDigits first, digits, digitsValue_toDigits]

/-- Keys are told apart by their numbers. -/
theorem keyName_injective : Function.Injective keyName := fun _ _ => eq_of_append_toString

/-- Locks are told apart by their numbers. -/
theorem lockName_injective : Function.Injective lockName := fun _ _ => eq_of_append_toString

/-- The name of a key begins with a letter. -/
theorem head?_keyName (number : Nat) : (keyName number).toList.head? = some 'K' := by
  rw [keyName, String.toList_append]
  rfl

/-- No lock has the name of the start. -/
theorem start_ne_lockName (number : Nat) : "Start" ≠ lockName number := by
  intro same
  have first := congrArg (fun text => text.toList.head?) same
  rw [lockName, String.toList_append] at first
  cases first

/-- The name of a key is a name. -/
theorem isName_keyName (number : Nat) : Lexeme.IsName (keyName number) := by
  constructor
  · intro empty
    have first := head?_keyName number
    rw [empty] at first
    cases first
  · intro char member
    rw [keyName, String.toList_append] at member
    rcases List.mem_append.1 member with letter | digit
    · exact (by decide : Lexeme.IsName "Key").2 char letter
    · exact (Amount.isName_toString number).2 char digit

/-- The name of a key is no keyword. -/
theorem keyName_notMem_keywords (number : Nat) : keyName number ∉ Token.keywords := by
  intro member
  have others : ∀ keyword ∈ Token.keywords, keyword.toList.head? ≠ some 'K' := by decide
  exact others _ member (head?_keyName number)

/-- The text of a key's name is read as the key. -/
theorem parse_keyName (name : String) (number : Nat) :
    MacroTable.parse ∅ name (keyName number) = .ok (.atom (.bare (keyName number))) := by
  have native : Token.Native (NameMap.contains (∅ : MacroTable)) (.bare (keyName number)) :=
    ⟨isName_keyName number, keyName_notMem_keywords number, rfl⟩
  have read := MacroTable.parse_atom ∅ name native
  rwa [Token.text] at read

/-- The text of the start is parsed as the constant. -/
theorem parse_true (name : String) :
    MacroTable.parse ∅ name "TRUE" = .ok (.atom (.constant true)) := by
  have native : Token.Native (NameMap.contains (∅ : MacroTable)) (.constant true) := trivial
  have read := MacroTable.parse_atom ∅ name native
  rwa [Token.text] at read

end Names

/-- What the builder holds once the keys with some numbers are added. -/
structure Holds (numbers : List Nat) (builder : Builder) : Prop where
  macros : builder.macros = ∅
  templates : builder.templates = ∅
  waypoints : builder.waypoints = ∅
  transitions : builder.transitions = ∅
  keys : ∀ number ∈ numbers, ∃ term, builder.terms.idOf? (keyName number) = some term ∧
    builder.prefabs.get? (keyName number) = some (.bool (keyName number) term)
  start : builder.clauses.get? "Start" = some (.atom (.constant true))
  locks : ∀ number ∈ numbers,
    builder.clauses.get? (lockName number) = some (.atom (.bare (keyName number)))
  clauses : builder.clauses.All fun clause => clause = .atom (.constant true) ∨
    ∃ number ∈ numbers, clause = .atom (.bare (keyName number))

/-- The builder of the start holds no keys. -/
theorem exists_holds_nil :
    ∃ builder, Builder.empty.addLocation ⟨"Start", "TRUE"⟩ = .ok builder ∧ Holds [] builder := by
  refine ⟨_, Except.map_eq_ok_iff.2 ⟨_, parse_true "Start", rfl⟩, ?_⟩
  exact {
    macros := rfl
    templates := rfl
    waypoints := rfl
    transitions := rfl
    keys := nofun
    start := by rw [NameMap.get?_insert, if_pos rfl]
    locks := nofun
    clauses := NameMap.all_empty.insert "Start" (.inl rfl) }

variable {added numbers : List Nat} {builder : Builder}

/-- Another key leaves the terms, items and clauses of the others as they are. -/
theorem Holds.exists_addKey (holds : Holds added builder) (number : Nat) :
    ∃ next, addKey builder number = .ok next ∧ Holds (added ++ [number]) next := by
  let terms := builder.terms.add (keyName number)
  have parsed : builder.macros.parse (lockName number) (keyName number) =
      .ok (.atom (.bare (keyName number))) := by
    rw [holds.macros]
    exact parse_keyName (lockName number) number
  refine ⟨_, Except.map_eq_ok_iff.2 ⟨_, parsed, rfl⟩, ?_⟩
  exact {
    macros := holds.macros
    templates := holds.templates
    waypoints := holds.waypoints
    transitions := holds.transitions
    keys := fun other member => by
      by_cases same : other = number
      · subst same
        refine ⟨terms.idAfterAdd (keyName other), ?_, ?_⟩
        · exact TermTable.idOf?_eq_some_idxOf (builder.terms.mem_add (keyName other))
        · exact (NameMap.get?_insert _ _ _ _).trans (if_pos rfl)
      · have earlier := (List.mem_append.1 member).resolve_right (mt List.mem_singleton.1 same)
        obtain ⟨term, known, made⟩ := holds.keys other earlier
        refine ⟨term, TermTable.idOf?_add_of_some known (keyName number), ?_⟩
        exact (NameMap.get?_insert _ _ _ _).trans
          ((if_neg (keyName_injective.ne same)).trans made)
    start := (NameMap.get?_insert _ _ _ _).trans
      ((if_neg (start_ne_lockName number)).trans holds.start)
    locks := fun other member => by
      rw [NameMap.get?_insert]
      by_cases same : other = number
      · subst same
        exact if_pos rfl
      · have earlier := (List.mem_append.1 member).resolve_right (mt List.mem_singleton.1 same)
        exact (if_neg (lockName_injective.ne same)).trans (holds.locks other earlier)
    clauses := by
      refine NameMap.All.insert (holds.clauses.mono fun clause => ?_) (lockName number)
        (.inr ⟨number, by simp, rfl⟩)
      exact Or.imp_right fun ⟨other, member, same⟩ => ⟨other, List.mem_append_left _ member, same⟩ }

/-- Keys are added one after another. -/
theorem Holds.exists_addKeys (holds : Holds added builder) (numbers : List Nat) :
    ∃ next, numbers.foldlM addKey builder = .ok next ∧ Holds (added ++ numbers) next := by
  induction numbers generalizing added builder with
  | nil => exact ⟨builder, rfl, by simpa using holds⟩
  | cons number rest ih =>
      obtain ⟨middle, addedKey, holdsMiddle⟩ := holds.exists_addKey number
      obtain ⟨next, addedRest, holdsNext⟩ := ih holdsMiddle
      rw [List.append_assoc] at holdsNext
      exact ⟨next, Except.bind_eq_ok_iff.2 ⟨middle, addedKey, addedRest⟩, holdsNext⟩

/-- What a builder makes that has only clauses and items made elsewhere. -/
def managerOf (builder : Builder) (compiled : Compiled) : Manager :=
  { builder.openWith compiled with items := builder.prefabs }

/-- The builder of a key chain builds, as no clause refers to another. -/
theorem Holds.exists_build (holds : Holds numbers builder) :
    ∃ compiled, builder.build = .ok (managerOf builder compiled) ∧
      (managerOf builder compiled).Sound builder.scope := by
  have atoms {clause : Clause} {name : String} (source : builder.clauses.get? name = some clause) :
      ∃ token, clause = .atom token ∧ builder.scope.Elementary token ∧ token.IsAtom := by
    rcases holds.clauses name clause source with rfl | ⟨number, member, rfl⟩
    · exact ⟨_, rfl, trivial, trivial⟩
    · obtain ⟨term, known, _⟩ := holds.keys number member
      exact ⟨_, rfl, .inl (TermTable.mem_of_idOf? known), trivial⟩
  obtain ⟨compiled, ran⟩ : ∃ compiled,
      Builder.compileAll builder.scope builder.clauses.entries ⟨∅, ∅⟩ = .ok () compiled := by
    refine Builder.exists_compileAll (fun entry member token among => ?_) _
    obtain ⟨only, same, elementary, _⟩ := atoms (NameMap.get?_of_mem member)
    rw [same] at among
    rw [List.mem_singleton.1 among]
    exact elementary
  have formed : builder.scope.Formed := by
    constructor
    · intro name clause found
      rw [Builder.scope, holds.macros] at found
      cases found
    · intro name clause source
      obtain ⟨token, rfl, _, isAtom⟩ := atoms source
      exact ⟨.atom token, rfl, isAtom⟩
  have sound := Builder.sound_openWith formed ran ∅ ∅
  refine ⟨compiled, ?_, sound.withItems builder.prefabs⟩
  refine Builder.build_eq_ok_iff.2 ⟨compiled, builder.openWith compiled,
    builder.openWith compiled, builder.openWith compiled, ran, ?_, ?_, ?_, ?_⟩
  · rw [holds.waypoints]
    rfl
  · rw [holds.transitions]
    rfl
  · rw [holds.templates]
    rfl
  · exact congrArg (fun items => { builder.openWith compiled with items })
      (NameMap.ofList_entries builder.prefabs).symm

/-- What a number stands for in a manager: its key is found with its lock, and the term between them
has the name of the key. -/
structure Opens (manager : Manager) (number : Nat) (link : Link manager) : Prop where
  item : World.findItem manager (keyName number) = .ok link.item
  location : World.findLocation manager (lockName number) = .ok link.location
  term : manager.terms.nameOf? link.term = some (keyName number)
  names : link.names = (keyName number, lockName number)

section Manager

variable {manager : Manager}

/-- The start is found, and is open in every state. -/
theorem Holds.exists_start (holds : Holds numbers builder)
    (sound : manager.Sound builder.scope) :
    ∃ definition, World.findLocation manager "Start" = .ok (.ofDefinition definition) ∧
      definition.name = "Start" ∧ ∀ reading, definition.holds manager.vars reading := by
  have means (reading : Reading) : builder.scope.ClauseMeans "Start" reading
      (.atom (.constant true)) 1 :=
    ⟨.atom (.constant true), rfl, .constant true⟩
  obtain ⟨definition, found, named, value⟩ :=
    sound.exists_value holds.start (fun _ => 1) means
  refine ⟨definition, by rw [World.findLocation, found], named, fun reading => ?_⟩
  rw [Definition.holds]
  exact decide_eq_true (value reading ▸ Int.one_pos)

/-- The location of a key's lock is open just while the key's term is held. -/
theorem Holds.exists_opens (holds : Holds numbers builder) (sound : manager.Sound builder.scope)
    (terms : manager.terms = builder.terms) (items : manager.items = builder.prefabs)
    {number : Nat} (member : number ∈ numbers) : ∃ link, Opens manager number link := by
  obtain ⟨term, known, made⟩ := holds.keys number member
  have means (reading : Reading) : builder.scope.ClauseMeans (lockName number) reading
      (.atom (.bare (keyName number))) (reading term) := by
    refine ⟨.atom (.bare (keyName number)), rfl, .bare ?_⟩
    simp only [Scope.nameValue?, Builder.scope, known]
  obtain ⟨definition, found, named, value⟩ :=
    sound.exists_value (holds.locks number member) (fun reading => reading term) means
  have waits (state : Progression) :
      (WorldLocation.ofDefinition definition).isOpen manager.vars state.read =
        state.holds term := by
    change (true && definition.holds manager.vars state.read) = _
    rw [Bool.true_and, Definition.holds]
    exact congrArg (fun amount : Int => decide (amount > 0)) (value state.read)
  refine ⟨⟨term, .ofItem (.bool (keyName number) term), .ofDefinition definition, rfl, waits⟩, ?_⟩
  exact {
    item := by rw [World.findItem, items, made]
    location := by rw [World.findLocation, found]
    term := by rw [terms, TermTable.nameOf?_eq_some_iff, known]
    names := Prod.ext rfl named }

variable {links : List (Link manager)} (opens : List.Forall₂ (Opens manager) numbers links)

include opens

/-- Items and locations of the links are found by their names. -/
theorem mapM_of_opens :
    (numbers.map keyName).mapM (World.findItem manager) = .ok (links.map Link.item) ∧
      (numbers.map lockName).mapM (World.findLocation manager) =
        .ok (links.map Link.location) := by
  induction opens with
  | nil => exact ⟨rfl, rfl⟩
  | cons here _ ih =>
      obtain ⟨items, locations⟩ := ih
      simp only [List.map_cons, List.mapM_cons, here.item, here.location, items, locations]
      exact ⟨rfl, rfl⟩

/-- Different numbers have different keys, and so different terms. -/
theorem nodup_of_opens (distinct : numbers.Nodup) : (links.map Link.term).Nodup := by
  have labels := map_eq_of_forall₂ opens fun _ _ each => each.term
  refine List.Nodup.of_map manager.terms.nameOf? ?_
  rw [List.map_map]
  refine labels ▸ distinct.map fun first second same => ?_
  exact keyName_injective (Option.some.inj same)

end Manager

/-- The world of a builder with keys, which has a link for each of them. -/
theorem Holds.exists_unlocks (holds : Holds numbers builder) (distinct : numbers.Nodup) :
    ∃ manager world start, ∃ links : List (Link world.manager),
      builder.build = .ok manager ∧
      World.ofManager manager (numbers.map keyName) ("Start" :: numbers.map lockName) =
        .ok world ∧
      world.Unlocks start links ∧ start.name = "Start" ∧
      links.map Link.names = numbers.map fun number => (keyName number, lockName number) := by
  obtain ⟨compiled, built, sound⟩ := holds.exists_build
  obtain ⟨definition, first, named, free⟩ := holds.exists_start sound
  obtain ⟨links, opens⟩ := exists_forall₂ fun _ => holds.exists_opens sound rfl rfl
  obtain ⟨items, locks⟩ := mapM_of_opens opens
  have locations : ("Start" :: numbers.map lockName).mapM
      (World.findLocation (managerOf builder compiled)) =
        .ok (.ofDefinition definition :: links.map Link.location) := by
    rw [List.mapM_cons, first, locks]
    rfl
  refine ⟨managerOf builder compiled, ⟨managerOf builder compiled, links.map Link.item,
    .ofDefinition definition :: links.map Link.location⟩, .ofDefinition definition, links, built,
    ?_, ?_, named, map_eq_of_forall₂ opens fun _ _ each => each.names⟩
  · exact Except.bind_eq_ok_iff.2 ⟨_, items, Except.bind_eq_ok_iff.2 ⟨_, locations, rfl⟩⟩
  · exact {
      still := fun _ => rfl
      free := fun state => free state.read
      items := rfl
      locations := rfl
      distinct := nodup_of_opens opens distinct }

/-- A key chain of any length is built, and its first attempt succeeds from every seed, whatever is
drawn, and with every penalty. The keys come in some order; the first is put at the location that
is always open, and each later one at the location that the key before it opens. -/
theorem exists_report_keyChain (count : Nat) (generator : Generator) (config : RunConfig)
    {σ : Type} (memory : σ) :
    ∃ world report, ∃ order : List Nat, keyChain count = .ok world ∧
      (world.runWith generator config (.zeros world.manager.terms.size)
        ([] : List (Constraint σ WorldItem WorldLocation)) memory).1 = .ok report ∧
      report.seed = config.seed ∧ report.attempts = 1 ∧ report.placements.length = count ∧
      report.spheres = count + 1 ∧ report.unreachable = [] ∧
      order.Perm ((List.range count).map (· + 1)) ∧
      report.placements.map (fun placement =>
          (placement.item.item.name, placement.location.name)) =
        (order.map keyName).zip ("Start" :: order.map lockName) := by
  obtain ⟨first, started, holdsFirst⟩ := exists_holds_nil
  obtain ⟨builder, added, holds⟩ := holdsFirst.exists_addKeys ((List.range count).map (· + 1))
  obtain ⟨manager, world, start, links, built, made, unlocks, named, names⟩ :=
    holds.exists_unlocks (List.nodup_range.map fun _ _ => Nat.succ.inj)
  obtain ⟨report, chain, ran, seed, attempts, arranged, follows⟩ := unlocks.exists_report
    (fun link _ => Progression.holds_zeros world.manager.terms.size link.term) generator config
    memory
  have arrangedNames := arranged.map Link.names
  rw [names] at arrangedNames
  obtain ⟨order, ordered, perm⟩ := exists_map_of_perm arrangedNames
  have sameLength : chain.length = count := by
    simpa using arrangedNames.length_eq
  have placed : report.placements.map (fun placement =>
      (placement.item.item.name, placement.location.name)) =
        (order.map keyName).zip ("Start" :: order.map lockName) := by
    rw [follows.names, named]
    exact zip_cons_of_map_eq ordered "Start"
  refine ⟨world, report, order, ?_, ran, seed, attempts, ?_, ?_, follows.unreachable, perm, placed⟩
  · refine Except.bind_eq_ok_iff.2 ⟨first, started, Except.bind_eq_ok_iff.2 ⟨builder, added, ?_⟩⟩
    exact Except.bind_eq_ok_iff.2 ⟨manager, built, made⟩
  · have counted := congrArg List.length placed
    have sameOrder : order.length = count := by simpa using perm.length_eq
    simp only [List.length_map, List.length_zip, List.length_cons] at counted
    omega
  · rw [follows.spheres, sameLength]

end Scenario

end Randomizer
