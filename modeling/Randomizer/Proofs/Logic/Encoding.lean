import Randomizer.Logic.Document
import Randomizer.Proofs.Logic.Item

namespace Randomizer

namespace Json

/-- The value under a key, unless it is null. -/
def given? (key : String) (members : List (String × Json)) : Option Json :=
  match member? key members with
  | none | some .null => none
  | some value => some value

/-- A field that may be left out or null. -/
def nullable? {α : Type} (fields : List (String × Json)) (key : String)
    (read : Json → Option α) : Option (Option α) :=
  (given? key fields).mapM read

/-- A value without null, in which the keys of every object stand as in one of the given lists, of
which it may leave some out. -/
inductive Shaped (shapes : List (List String)) : Json → Prop where
  | bool (value : Bool) : Shaped shapes (.bool value)
  | integer (value : Int) : Shaped shapes (.integer value)
  | decimal (negative : Bool) (digits : Nat) (exponent : Int) :
      Shaped shapes (.decimal negative digits exponent)
  | string (value : String) : Shaped shapes (.string value)
  | array {items : List Json} : (∀ item ∈ items, Shaped shapes item) →
      Shaped shapes (.array items)
  | object {members : List (String × Json)} {shape : List String} : shape ∈ shapes →
      (members.map Prod.fst).Sublist shape → (∀ member ∈ members, Shaped shapes member.2) →
      Shaped shapes (.object members)

/-- A member that is given and not null is among the members. -/
theorem mem_of_given? {key : String} {members : List (String × Json)} {value : Json}
    (found : given? key members = some value) : (key, value) ∈ members := by
  unfold given? at found
  split at found
  · cases found
  · cases found
  · next other _ there =>
    cases found
    exact mem_of_member? there

/-- Of two members with one key the later counts. -/
theorem member?_append (key : String) (before after : List (String × Json)) :
    member? key (before ++ after) = (member? key after).or (member? key before) := by
  rw [member?, List.reverse_append, List.lookup_append]
  rfl

/-- A member in the middle counts unless a later one has its key. -/
theorem member?_append_cons (key : String) (before after : List (String × Json))
    (member : String × Json) :
    member? key (before ++ member :: after) =
      (member? key after).or (if key = member.1 then some member.2 else member? key before) := by
  rw [member?, List.reverse_append, List.reverse_cons, List.append_assoc, List.lookup_append,
    List.singleton_append, NameMap.lookup_cons_eq_ite]
  rfl

/-- An item that is read under a key comes from a member with that key. -/
theorem exists_of_nullable? {α : Type} {fields : List (String × Json)} {key : String}
    {read : Json → Option α} {item : α} (found : nullable? fields key read = some (some item)) :
    ∃ value, (key, value) ∈ fields ∧ read value = some item := by
  unfold nullable? at found
  cases there : given? key fields with
  | none =>
      rw [there] at found
      cases found
  | some value =>
      rw [there, Option.mapM_some] at found
      obtain ⟨_, readValue, same⟩ := Option.map_eq_some_iff.1 found
      cases same
      exact ⟨value, mem_of_given? there, readValue⟩

section All

variable {α : Type} {read : Json → Option α}

/-- Items that are each read back make up an array that is. -/
theorem all?_map {write : α → Json} {items : List α}
    (each : ∀ item ∈ items, read (write item) = some item) :
    all? read (.array (items.map write)) = some items := by
  change (items.map write).mapM read = some items
  induction items with
  | nil => rfl
  | cons item rest ih =>
      obtain ⟨first, others⟩ := List.forall_mem_cons.1 each
      rw [List.map_cons, List.mapM_cons, first, ih others]
      rfl

/-- Each item that is read comes from one of the values. -/
theorem exists_of_mem_mapM {values : List Json} {items : List α}
    (found : values.mapM read = some items) {item : α} (member : item ∈ items) :
    ∃ value, read value = some item := by
  induction values generalizing items with
  | nil =>
      cases found
      cases member
  | cons value rest ih =>
      rw [List.mapM_cons] at found
      obtain ⟨first, readFirst, continued⟩ := Option.bind_eq_some_iff.1 found
      obtain ⟨others, readOthers, same⟩ := Option.bind_eq_some_iff.1 continued
      cases same
      rcases List.mem_cons.1 member with rfl | later
      · exact ⟨value, readFirst⟩
      · exact ih readOthers later

/-- Every item of an array that is read comes from a value. -/
theorem exists_of_mem_all? {json : Json} {items : List α} (found : all? read json = some items)
    {item : α} (member : item ∈ items) : ∃ value, read value = some item := by
  obtain ⟨values, _, each⟩ := Option.bind_eq_some_iff.1 found
  exact exists_of_mem_mapM each member

end All

end Json

/-- A term with an amount in range is read back. -/
theorem NamedAmount.ofJson?_toJson {named : NamedAmount} (inRange : Amount.InRange named.amount) :
    ofJson? named.toJson = some named := by
  have stored : (Json.integer named.amount).amount? = some named.amount := if_pos inRange
  change (do
    let amount ← (Json.integer named.amount).amount?
    return (⟨named.term, amount⟩ : NamedAmount)) = some named
  rw [stored]
  rfl

/-- An amount that is read is in range. -/
theorem NamedAmount.inRange_of_ofJson? {json : Json} {named : NamedAmount}
    (read : ofJson? json = some named) : Amount.InRange named.amount := by
  obtain ⟨fields, _, continued⟩ := Option.bind_eq_some_iff.1 read
  obtain ⟨term, _, continuedTerm⟩ := Option.bind_eq_some_iff.1 continued
  obtain ⟨amount, found, returned⟩ := Option.bind_eq_some_iff.1 continuedTerm
  obtain ⟨value, _, stored⟩ := Option.bind_eq_some_iff.1 found
  cases returned
  unfold Json.amount? at stored
  split at stored
  · split at stored
    · cases stored
      assumption
    · cases stored
  · cases stored

/-- All amounts that are read are in range. -/
theorem NamedAmount.inRange_of_all? {json : Json} {list : List NamedAmount}
    (read : json.all? ofJson? = some list) : ∀ named ∈ list, Amount.InRange named.amount := by
  intro named member
  obtain ⟨_, readNamed⟩ := Json.exists_of_mem_all? read member
  exact inRange_of_ofJson? readNamed

/-- A term with an amount is written with both keys and no others. -/
theorem NamedAmount.shaped_toJson {shapes : List (List String)} (among : ["term", "value"] ∈ shapes)
    (named : NamedAmount) : named.toJson.Shaped shapes := by
  refine .object among (List.Sublist.refl _) ?_
  simp only [List.forall_mem_cons]
  exact ⟨.string _, .integer _, nofun⟩

namespace ItemTemplate

/-- All amounts in a template are in range. -/
inductive InRange : ItemTemplate → Prop where
  | bool {name term : String} : InRange (.bool name term)
  | single {name : String} {effect : NamedAmount} : Amount.InRange effect.amount →
      InRange (.single name effect)
  | multi {name : String} {effects : List NamedAmount} :
      (∀ effect ∈ effects, Amount.InRange effect.amount) → InRange (.multi name effects)
  | capped {name : String} {effects : List NamedAmount} {cap : NamedAmount} :
      (∀ effect ∈ effects, Amount.InRange effect.amount) → Amount.InRange cap.amount →
      InRange (.capped name effects cap)
  | branched {name guard : String} {whenTrue whenFalse : Option ItemTemplate} :
      (∀ template, whenTrue = some template → InRange template) →
      (∀ template, whenFalse = some template → InRange template) →
      InRange (.branched name guard whenTrue whenFalse)
  | empty {name : String} : InRange (.empty name)

section Reading

/-- The template of a type that the body of a value writes. This is the reader without the evidence
that its recursion ends. -/
def ofBody? (body : Json) : Option String → Option ItemTemplate
  | some "Bool" => do
    let fields ← body.fields? ["name", "term"]
    let name ← Json.required? fields "name" Json.string?
    let term ← Json.required? fields "term" Json.string?
    return bool name term
  | some "Single" => do
    let fields ← body.fields? ["name", "effect"]
    let name ← Json.required? fields "name" Json.string?
    let effect ← Json.required? fields "effect" NamedAmount.ofJson?
    return single name effect
  | some "Multi" => do
    let fields ← body.fields? ["name", "effects"]
    let name ← Json.required? fields "name" Json.string?
    let effects ← Json.required? fields "effects" (Json.all? NamedAmount.ofJson?)
    return multi name effects
  | some "Capped" => do
    let fields ← body.fields? ["name", "effects", "cap"]
    let name ← Json.required? fields "name" Json.string?
    let effects ← Json.required? fields "effects" (Json.all? NamedAmount.ofJson?)
    let cap ← Json.required? fields "cap" NamedAmount.ofJson?
    return capped name effects cap
  | some "Branched" => do
    let fields ← body.fields? ["name", "logic", "trueItem", "falseItem"]
    let name ← Json.required? fields "name" Json.string?
    let guard ← Json.required? fields "logic" Json.string?
    let whenTrue ← Json.nullable? fields "trueItem" (read? true)
    let whenFalse ← Json.nullable? fields "falseItem" (read? true)
    return branched name guard whenTrue whenFalse
  | some "Empty" => do
    let fields ← body.fields? ["name"]
    let name ← Json.required? fields "name" Json.string?
    return empty name
  | _ => none

/-- A value is read by its type. -/
theorem read?_eq (inBranch : Bool) (json : Json) :
    read? inBranch json = (json.tagged? "type").bind fun tagged =>
      ofBody? tagged.2 (kind? inBranch tagged.1) := by
  rw [read?]
  split
  · next missing =>
    conv_rhs => rw [missing]
    rfl
  · next tag body tagged =>
    conv_rhs => rw [tagged]
    rw [Option.bind_some]
    dsimp only
    generalize kind? inBranch tag = kind
    split
    · rfl
    · rfl
    · rfl
    · rfl
    · rw [ofBody?]
      split
      · next missing =>
        conv_rhs => rw [missing]
        rfl
      · next fields record =>
        conv_rhs => rw [record]
        refine congrArg _ (funext fun name => congrArg _ (funext fun guard => ?_))
        refine congr (congrArg _ ?_) (funext fun whenTrue => congrArg (Option.bind · _) ?_)
        all_goals
          unfold Json.nullable? Json.given?
          split
          · next found =>
            conv_rhs => rw [found]
            rfl
          · next found =>
            conv_rhs => rw [found]
            rfl
          · next value given found =>
            conv_rhs => rw [found]
            cases value with
            | null => exact absurd rfl given
            | _ => rfl
    · rfl
    · rw [ofBody?] <;> assumption

/-- A tagged object is read as the type that its tag names. -/
theorem read?_object (inBranch : Bool) {members : List (String × Json)} {kind : String}
    (tag : Json.member? "type" members = some (.string kind)) :
    read? inBranch (.object members) = ofBody? (.object members) (some kind) := by
  rw [read?_eq, Json.tagged?, tag]
  rfl

end Reading

section Writing

/-- A branch as a member, if it is there. -/
def branchMember (key : String) : Option ItemTemplate → List (String × Json)
  | some template => [(key, template.toJson)]
  | none => []

def branchedMembers (name guard : String) (whenTrue whenFalse : Option ItemTemplate) :
    List (String × Json) :=
  [("type", .string "Branched"), ("name", .string name), ("logic", .string guard)] ++
    branchMember "trueItem" whenTrue ++ branchMember "falseItem" whenFalse

section Branches

variable (name guard : String) (whenTrue whenFalse : Option ItemTemplate)

/-- A branched template is written as an object of its members. -/
theorem toJson_branched : (branched name guard whenTrue whenFalse).toJson =
    .object (branchedMembers name guard whenTrue whenFalse) := by
  rw [toJson.eq_def]
  cases whenTrue <;> cases whenFalse <;> rfl

/-- Every template is written as an object. -/
theorem exists_toJson_eq_object (template : ItemTemplate) :
    ∃ members, template.toJson = .object members := by
  cases template with
  | branched => exact ⟨_, toJson_branched _ _ _ _⟩
  | _ => exact ⟨_, rfl⟩

/-- The name and the guard of a branched template are read back. -/
theorem required?_branchedMembers :
    Json.required? (branchedMembers name guard whenTrue whenFalse) "name" Json.string? =
        some name ∧
      Json.required? (branchedMembers name guard whenTrue whenFalse) "logic" Json.string? =
        some guard := by
  cases whenTrue <;> cases whenFalse <;> exact ⟨rfl, rfl⟩

/-- The branches of a branched template are given just if it has them. -/
theorem given?_branchedMembers :
    Json.given? "trueItem" (branchedMembers name guard whenTrue whenFalse) =
        whenTrue.map toJson ∧
      Json.given? "falseItem" (branchedMembers name guard whenTrue whenFalse) =
        whenFalse.map toJson := by
  have given (template : ItemTemplate) (members : List (String × Json)) (key : String)
      (found : Json.member? key members = some template.toJson) :
      Json.given? key members = some template.toJson := by
    obtain ⟨_, object⟩ := template.exists_toJson_eq_object
    rw [Json.given?, found, object]
  cases whenTrue with
  | none =>
      cases whenFalse with
      | none => exact ⟨rfl, rfl⟩
      | some ofFalse => exact ⟨rfl, given ofFalse _ _ rfl⟩
  | some ofTrue =>
      cases whenFalse with
      | none => exact ⟨given ofTrue _ _ rfl, rfl⟩
      | some ofFalse => exact ⟨given ofTrue _ _ rfl, given ofFalse _ _ rfl⟩

end Branches

end Writing

section RoundTrip

/-- A branch is read back if its template is. -/
theorem read?_branch {branch : Option ItemTemplate}
    (each : ∀ template, branch = some template → read? true template.toJson = some template) :
    (branch.map toJson).mapM (read? true) = some branch := by
  cases branch with
  | none => rfl
  | some template =>
      rw [Option.map_some, Option.mapM_some, each template rfl]
      rfl

/-- What is written is read back, at the top and in a branch. -/
theorem read?_toJson {template : ItemTemplate} (inRange : template.InRange) (inBranch : Bool) :
    read? inBranch template.toJson = some template := by
  induction template generalizing inBranch with
  | bool name term => exact (read?_object inBranch rfl).trans rfl
  | single name effect =>
      cases inRange with
      | single stored =>
          refine (read?_object inBranch rfl).trans ?_
          change (do
            let effect ← NamedAmount.ofJson? effect.toJson
            return single name effect) = some (single name effect)
          rw [NamedAmount.ofJson?_toJson stored]
          rfl
  | multi name effects =>
      cases inRange with
      | multi stored =>
          have readBack := Json.all?_map fun effect member =>
            NamedAmount.ofJson?_toJson (stored effect member)
          refine (read?_object inBranch rfl).trans ?_
          change (do
            let effects ← Json.all? NamedAmount.ofJson? (.array (effects.map NamedAmount.toJson))
            return multi name effects) = some (multi name effects)
          rw [readBack]
          rfl
  | capped name effects cap =>
      cases inRange with
      | capped stored storedCap =>
          have readBack := Json.all?_map fun effect member =>
            NamedAmount.ofJson?_toJson (stored effect member)
          refine (read?_object inBranch rfl).trans ?_
          change (do
            let effects ← Json.all? NamedAmount.ofJson? (.array (effects.map NamedAmount.toJson))
            let cap ← NamedAmount.ofJson? cap.toJson
            return capped name effects cap) = some (capped name effects cap)
          rw [readBack, NamedAmount.ofJson?_toJson storedCap]
          rfl
  | branched name guard whenTrue whenFalse ihTrue ihFalse =>
      cases inRange with
      | branched storedTrue storedFalse =>
          obtain ⟨givenTrue, givenFalse⟩ := given?_branchedMembers name guard whenTrue whenFalse
          obtain ⟨named, guarded⟩ := required?_branchedMembers name guard whenTrue whenFalse
          have readTrue : Json.nullable? (branchedMembers name guard whenTrue whenFalse) "trueItem"
              (read? true) = some whenTrue := by
            rw [Json.nullable?, givenTrue]
            exact read?_branch fun template found =>
              ihTrue template found (storedTrue template found) true
          have readFalse : Json.nullable? (branchedMembers name guard whenTrue whenFalse)
              "falseItem" (read? true) = some whenFalse := by
            rw [Json.nullable?, givenFalse]
            exact read?_branch fun template found =>
              ihFalse template found (storedFalse template found) true
          have tag : Json.member? "type" (branchedMembers name guard whenTrue whenFalse) =
              some (.string "Branched") := by
            cases whenTrue <;> cases whenFalse <;> rfl
          rw [toJson_branched, read?_object inBranch tag, ofBody?, Json.fields?]
          simp only [Option.bind_eq_bind, Option.bind_some, named, guarded, readTrue, readFalse]
          rfl
  | empty name => exact (read?_object inBranch rfl).trans rfl

/-- Only amounts in range are read, at any depth. -/
theorem inRange_of_read? {inBranch : Bool} {json : Json} {template : ItemTemplate}
    (read : read? inBranch json = some template) : template.InRange := by
  rw [read?_eq] at read
  obtain ⟨⟨tag, body⟩, tagged, ofBody⟩ := Option.bind_eq_some_iff.1 read
  dsimp only at ofBody
  generalize kind? inBranch tag = kind at ofBody
  unfold ofBody? at ofBody
  split at ofBody
  any_goals
    simp only [Option.bind_eq_bind, Option.bind_eq_some_iff, Json.required?] at ofBody
  · obtain ⟨_, _, _, _, _, _, ⟨⟩⟩ := ofBody
    exact .bool
  · obtain ⟨_, _, _, _, effect, ⟨_, _, readEffect⟩, ⟨⟩⟩ := ofBody
    exact .single (NamedAmount.inRange_of_ofJson? readEffect)
  · obtain ⟨_, _, _, _, effects, ⟨_, _, readEffects⟩, ⟨⟩⟩ := ofBody
    exact .multi (NamedAmount.inRange_of_all? readEffects)
  · obtain ⟨_, _, _, _, effects, ⟨_, _, readEffects⟩, cap, ⟨_, _, readCap⟩, ⟨⟩⟩ := ofBody
    exact .capped (NamedAmount.inRange_of_all? readEffects)
      (NamedAmount.inRange_of_ofJson? readCap)
  · obtain ⟨fields, record, _, _, _, _, whenTrue, readTrue, whenFalse, readFalse, ⟨⟩⟩ := ofBody
    have branch {key : String} {ofBranch : ItemTemplate}
        (found : Json.nullable? fields key (read? true) = some (some ofBranch)) :
        ofBranch.InRange := by
      obtain ⟨value, member, readValue⟩ := Json.exists_of_nullable? found
      have smaller : sizeOf value < sizeOf json := Nat.lt_of_lt_of_le
        (Json.sizeOf_lt_of_fields? record member) (Json.sizeOf_le_of_tagged? tagged)
      exact inRange_of_read? readValue
    refine .branched ?_ ?_
    · rintro _ rfl
      exact branch readTrue
    · rintro _ rfl
      exact branch readFalse
  · obtain ⟨_, _, _, _, ⟨⟩⟩ := ofBody
    exact .empty
  · cases ofBody
termination_by sizeOf json

end RoundTrip

section Shape

/-- The keys of an amount and of each type of item. -/
def shapes : List (List String) := [["term", "value"], ["type", "name", "term"],
  ["type", "name", "effect"], ["type", "name", "effects"], ["type", "name", "effects", "cap"],
  ["type", "name", "logic", "trueItem", "falseItem"], ["type", "name"]]

/-- The member of a branch has the shape of the branch's template. -/
theorem shaped_branchMember (key : String) {branch : Option ItemTemplate}
    (each : ∀ template, branch = some template → template.toJson.Shaped shapes) :
    ∀ member ∈ branchMember key branch, member.2.Shaped shapes := by
  cases branch with
  | none => nofun
  | some template =>
      rintro _ (_ | ⟨_, ⟨⟩⟩)
      exact each template rfl

/-- What is written has no null and only the keys of its type. -/
theorem shaped_toJson (template : ItemTemplate) : template.toJson.Shaped shapes := by
  have shapedAll (effects : List NamedAmount) :
      (Json.array (effects.map NamedAmount.toJson)).Shaped shapes :=
    .array (List.forall_mem_map.2 fun effect _ => effect.shaped_toJson (by decide))
  have whole {members : List (String × Json)}
      (listed : members.map Prod.fst ∈ shapes)
      (each : ∀ member ∈ members, member.2.Shaped shapes) : (Json.object members).Shaped shapes :=
    .object listed (List.Sublist.refl _) each
  induction template with
  | bool name term =>
      refine whole (by simp [shapes]) ?_
      simp only [List.forall_mem_cons]
      exact ⟨.string _, .string _, .string _, nofun⟩
  | single name effect =>
      refine whole (by simp [shapes]) ?_
      simp only [List.forall_mem_cons]
      exact ⟨.string _, .string _, effect.shaped_toJson (by decide), nofun⟩
  | multi name effects =>
      refine whole (by simp [shapes]) ?_
      simp only [List.forall_mem_cons]
      exact ⟨.string _, .string _, shapedAll effects, nofun⟩
  | capped name effects cap =>
      refine whole (by simp [shapes]) ?_
      simp only [List.forall_mem_cons]
      exact ⟨.string _, .string _, shapedAll effects, cap.shaped_toJson (by decide), nofun⟩
  | branched name guard whenTrue whenFalse ihTrue ihFalse =>
      have shape : ["type", "name", "logic", "trueItem", "falseItem"] ∈ shapes := by decide
      rw [toJson_branched]
      refine .object shape ?_ ?_
      · cases whenTrue <;> cases whenFalse <;> simp [branchedMembers, branchMember]
      · refine List.forall_mem_append.2 ⟨List.forall_mem_append.2 ⟨?_, ?_⟩, ?_⟩
        · simp only [List.forall_mem_cons]
          exact ⟨.string _, .string _, .string _, nofun⟩
        · exact shaped_branchMember "trueItem" ihTrue
        · exact shaped_branchMember "falseItem" ihFalse
  | empty name =>
      refine whole (by simp [shapes]) ?_
      simp only [List.forall_mem_cons]
      exact ⟨.string _, .string _, nofun⟩

end Shape

section Idle

def fieldKeys : List String := ["type", "name", "term", "effect", "effects", "cap", "logic"]

def branchKeys : List String := ["trueItem", "falseItem"]

/-- A member that says nothing beside the others: one under a key that no template is read from, or
null in place of a branch. -/
inductive Idle (others : List (String × Json)) : String × Json → Prop where
  | unknown {key : String} {value : Json} : key ∉ fieldKeys ++ branchKeys →
      Idle others (key, value)
  | absent {key : String} : key ∈ branchKeys → Json.member? key others = none →
      Idle others (key, .null)

/-- What is read of an object depends on the members under its keys alone. -/
theorem ofBody?_congr {first second : List (String × Json)} (kind : Option String)
    (fields : ∀ key ∈ fieldKeys, Json.member? key first = Json.member? key second)
    (branches : ∀ key ∈ branchKeys, Json.given? key first = Json.given? key second) :
    ofBody? (.object first) kind = ofBody? (.object second) kind := by
  have name := fields "name" (by decide)
  have term := fields "term" (by decide)
  have effect := fields "effect" (by decide)
  have effects := fields "effects" (by decide)
  have cap := fields "cap" (by decide)
  have guard := fields "logic" (by decide)
  have whenTrue := branches "trueItem" (by decide)
  have whenFalse := branches "falseItem" (by decide)
  unfold ofBody?
  simp only [Json.fields?, Json.required?, Json.nullable?, Option.bind_eq_bind, Option.bind_some,
    name, term, effect, effects, cap, guard, whenTrue, whenFalse]

/-- A member that says nothing is passed over. -/
theorem read?_of_idle (inBranch : Bool) {before after : List (String × Json)}
    {member : String × Json} (idle : Idle (before ++ after) member) :
    read? inBranch (.object (before ++ member :: after)) =
      read? inBranch (.object (before ++ after)) := by
  have aside (key : String) (apart : key ≠ member.1) :
      Json.member? key (before ++ member :: after) = Json.member? key (before ++ after) := by
    rw [Json.member?_append_cons, if_neg apart, Json.member?_append]
  have fields (key : String) (known : key ∈ fieldKeys) :
      Json.member? key (before ++ member :: after) = Json.member? key (before ++ after) := by
    refine aside key ?_
    rintro rfl
    cases idle with
    | unknown unknown => exact unknown (List.mem_append_left _ known)
    | absent branch _ =>
        have apart : ∀ key ∈ fieldKeys, key ∉ branchKeys := by decide
        exact apart _ known branch
  have branches (key : String) (branch : key ∈ branchKeys) :
      Json.given? key (before ++ member :: after) = Json.given? key (before ++ after) := by
    by_cases same : key = member.1
    · cases idle with
      | unknown unknown =>
          subst same
          exact absurd (List.mem_append_right _ branch) unknown
      | absent _ missing =>
          subst same
          rw [Json.given?, Json.given?, missing, Json.member?_append_cons, if_pos rfl]
          rw [Json.member?_append, Option.or_eq_none_iff] at missing
          rw [missing.1]
          rfl
    · rw [Json.given?, Json.given?, aside key same]
  have type := fields "type" (by decide)
  rw [read?_eq, read?_eq, Json.tagged?, Json.tagged?, type]
  cases Json.member? "type" (before ++ after) with
  | none => rfl
  | some tag => exact ofBody?_congr _ fields branches

end Idle

end ItemTemplate

namespace TransitionRecord

/-- The name of a passage is read back as the passage. -/
theorem ofJson?_passage (passage : Passage) :
    Passage.ofJson? (.string passage.name) = some passage := by
  cases passage <;> rfl

/-- A record is read back as it was written, also without a name. -/
theorem ofJson?_toJson (record : TransitionRecord) : ofJson? record.toJson = some record := by
  obtain ⟨name, scene, gate, logic, passage⟩ := record
  by_cases unnamed : name = ""
  · subst unnamed
    change (do
      let passage ← Passage.ofJson? (.string passage.name)
      return (⟨"", scene, gate, logic, passage⟩ : TransitionRecord)) = _
    rw [ofJson?_passage]
    rfl
  · have written : (TransitionRecord.mk name scene gate logic passage).toJson =
        .object [("name", .string name), ("scene", .string scene), ("gate", .string gate),
          ("logic", .string logic), ("oneWayFlag", .string passage.name)] := by
      rw [toJson, if_neg (mt String.isEmpty_iff.1 unnamed)]
      rfl
    rw [written]
    change (do
      let passage ← Passage.ofJson? (.string passage.name)
      return (⟨name, scene, gate, logic, passage⟩ : TransitionRecord)) = _
    rw [ofJson?_passage]
    rfl

/-- The keys of a record. -/
def shape : List String := ["name", "scene", "gate", "logic", "oneWayFlag"]

/-- A record is written with its keys and no others. -/
theorem shaped_toJson (record : TransitionRecord) : record.toJson.Shaped [shape] := by
  refine .object (List.mem_singleton_self shape) ?_ ?_
  · split <;> simp [shape]
  · refine List.forall_mem_append.2 ⟨?_, ?_⟩
    · split
      · nofun
      · exact List.forall_mem_singleton.2 (.string _)
    · simp only [List.forall_mem_cons]
      exact ⟨.string _, .string _, .string _, .string _, nofun⟩

end TransitionRecord

/-- Templates and records survive JSON. A template is read back from what it is written as just when
its amounts are in range, and a record always is, alone and in a document. Whatever value a template
is read from, its amounts are in range at any depth, so that it is read back too. What is written
has no null and only the keys of its type, and in what is read a member under an unknown key or a
null branch says nothing. -/
theorem survive_json :
    (∀ template : ItemTemplate,
      ItemTemplate.ofJson? template.toJson = some template ↔ template.InRange) ∧
    (∀ record : TransitionRecord, TransitionRecord.ofJson? record.toJson = some record) ∧
    (∀ templates : List ItemTemplate, (∀ template ∈ templates, template.InRange) →
      Document.ofJson? .items (.array (templates.map ItemTemplate.toJson)) =
        some (.items templates)) ∧
    (∀ records : List TransitionRecord,
      Document.ofJson? .transitions (.array (records.map TransitionRecord.toJson)) =
        some (.transitions records)) ∧
    (∀ json template, ItemTemplate.ofJson? json = some template →
      template.InRange ∧ ItemTemplate.ofJson? template.toJson = some template) ∧
    (∀ template : ItemTemplate, template.toJson.Shaped ItemTemplate.shapes) ∧
    (∀ record : TransitionRecord, record.toJson.Shaped [TransitionRecord.shape]) ∧
    ∀ inBranch before member after, ItemTemplate.Idle (before ++ after) member →
      ItemTemplate.read? inBranch (.object (before ++ member :: after)) =
        ItemTemplate.read? inBranch (.object (before ++ after)) := by
  have readBack (template : ItemTemplate) (inRange : template.InRange) :
      ItemTemplate.ofJson? template.toJson = some template :=
    ItemTemplate.read?_toJson inRange false
  refine ⟨fun template => ⟨ItemTemplate.inRange_of_read?, readBack template⟩,
    TransitionRecord.ofJson?_toJson, fun templates inRange => ?_, fun records => ?_,
    fun json template read => ?_, ItemTemplate.shaped_toJson, TransitionRecord.shaped_toJson,
    fun inBranch before member after => ItemTemplate.read?_of_idle inBranch⟩
  · rw [Document.ofJson?, Json.all?_map fun template member =>
      readBack template (inRange template member)]
    rfl
  · rw [Document.ofJson?, Json.all?_map fun record _ => record.ofJson?_toJson]
    rfl
  · have inRange := ItemTemplate.inRange_of_read? read
    exact ⟨inRange, readBack template inRange⟩

def oil : ItemTemplate := .capped "Oil" [⟨"Oil", 3⟩] ⟨"Oil", 9⟩

/-- A lamp that needs a can and has one branch. -/
def lamp : ItemTemplate := .branched "Lamp" "Can" (some oil) none

/-- The lamp is still read with a note, and with null for the branch that it does not have. -/
theorem survive_json_lamp : ItemTemplate.ofJson? lamp.toJson = some lamp ∧
    Document.ofJson? .items (.array [lamp.toJson]) = some (.items [lamp]) ∧
    ∃ members, lamp.toJson = .object members ∧
      ItemTemplate.ofJson? (.object (members ++ [("note", .bool true)])) = some lamp ∧
      ItemTemplate.ofJson? (.object (("falseItem", .null) :: members)) = some lamp := by
  obtain ⟨readBack, _, documents, _, again, _, _, passes⟩ := survive_json
  have inRange : lamp.InRange := by
    refine .branched ?_ nofun
    rintro _ ⟨⟩
    exact .capped (by decide) (by decide)
  have read := (readBack lamp).2 inRange
  let members := ItemTemplate.branchedMembers "Lamp" "Can" (some oil) none
  have written : lamp.toJson = .object members := ItemTemplate.toJson_branched _ _ _ _
  have noted := passes false members ("note", .bool true) [] (.unknown (by decide))
  have absent := passes false [] ("falseItem", .null) members (.absent (by decide) rfl)
  rw [List.append_nil, ← written] at noted
  rw [List.nil_append, List.nil_append, ← written] at absent
  exact ⟨(again _ lamp read).2, documents [lamp] (List.forall_mem_singleton.2 inRange), members,
    written, noted.trans read, absent.trans read⟩

end Randomizer
