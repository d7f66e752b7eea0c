import EmailMarkup.Cascade
import EmailMarkup.Proofs.Attributes
/-!
# The cascade after any registrations

The head registers attributes for tags, classes and selectors in any order, and for the same key again and again. What
the rules hold for a key is what was registered last for it: one registration changes that as `ruleValue?_register`
says, and a whole history as `ruleValue?_ofHistory` says. So the value of an attribute is known from the history. It is
the one of the first level that has it (`Cascade.levels`), and registrations that concern neither that level nor one
before it do not matter.
-/
namespace EmailMarkup.Head

/-! ## Tables -/

namespace AttributeTable

def value? (table : AttributeTable) (key name : String) : Option String := (table.lookup key).bind fun a => a.get? name

theorem lookup_add_self (table : AttributeTable) (key : String) (new : Attributes) :
    (table.add key new).lookup key = some (((table.lookup key).getD .empty).merge new) := by
  induction table with
  | nil => simp [add]
  | cons e table ih =>
    obtain ⟨k, a⟩ := e
    rw [add]
    by_cases hk : k = key
    · simp [hk]
    · have hbeq : (key == k) = false := by simpa using Ne.symm hk
      simpa [hk, List.lookup_cons, hbeq] using ih

theorem lookup_add_of_ne {key key' : String} (h : key ≠ key') (table : AttributeTable) (new : Attributes) :
    (table.add key' new).lookup key = table.lookup key := by
  have hbeq : (key == key') = false := by simpa using h
  induction table with
  | nil => simp [add, List.lookup_cons, hbeq]
  | cons e table ih =>
    obtain ⟨k, a⟩ := e
    rw [add]
    by_cases hk : k = key'
    · simp [hk, List.lookup_cons, hbeq]
    · simp only [hk, if_false, List.lookup_cons, ih]

/-- What is added under a key wins there, and nothing changes under another. -/
theorem value?_add (table : AttributeTable) (key' : String) (new : Attributes) (key name : String) :
    (table.add key' new).value? key name =
      (if key' = key then new.entries.reverse.lookup name else none).or (table.value? key name) := by
  by_cases hkey : key' = key
  · subst hkey
    rw [value?, lookup_add_self, Option.bind_some, Attributes.get?_merge, if_pos rfl, value?]
    cases table.lookup key' <;> simp [Attributes.empty, Attributes.get?]
  · rw [value?, lookup_add_of_ne (Ne.symm hkey), if_neg hkey, Option.none_or, value?]

end AttributeTable

/-! ## Histories -/

/-- What the head can register. -/
inductive Registration where
  | forTag (tag : String) (attributes : Attributes)
  | forClass (name : String) (attributes : Attributes)
  | forSelector (selector : String) (attributes : Attributes)

def Registration.attributes : Registration → Attributes
  | forTag _ a | forClass _ a | forSelector _ a => a

namespace AttributeRules

def register (r : AttributeRules) : Registration → AttributeRules
  | .forTag tag a => r.addDefaults tag a
  | .forClass name a => r.addClass name a
  | .forSelector selector a => r.addHtml selector a

def ofHistory (history : List Registration) : AttributeRules := history.foldl register {}

end AttributeRules

end EmailMarkup.Head

namespace EmailMarkup.Cascade

open Head

/-! ## Levels -/

/-- Where a value can come from. -/
inductive Level where
  /-- The node itself. -/
  | own
  | forClass (name : String)
  | forTag (tag : String)
  /-- The defaults of the component. -/
  | component
  deriving DecidableEq

/-- The classes that a node names, in their order. -/
def classesOf (node : Node) : List String := ((node.attribute? classAttribute).map Text.words).getD []

/-- The levels of a node, the first to be asked first. -/
def levels (node : Node) : List Level :=
  [.own] ++ (classesOf node).map .forClass ++ node.tag?.toList.map .forTag ++ [.forTag everyTag, .component]

/-- The level that a registration concerns. -/
def target? : Registration → Option Level
  | .forTag tag _ => some (.forTag tag)
  | .forClass name _ => some (.forClass name)
  | .forSelector .. => none

/-- Whether a registration concerns one of the levels. -/
def concerns (levels : List Level) (x : Registration) : Bool := levels.any fun l => target? x == some l

/-- What a registration gives to a level. -/
def givenTo (l : Level) (x : Registration) : List (String × String) :=
  if target? x = some l then x.attributes.entries else []

def lastGiven? (history : List Registration) (l : Level) (name : String) : Option String :=
  (history.flatMap (givenTo l)).reverse.lookup name

/-- The value of an attribute on a level. Short colours are written out, but for those of the component. -/
def valueAt? (history : List Registration) (defaults : List (String × String)) (node : Node) (name : String) :
    Level → Option String
  | .own => (node.attribute? name).map expandColor
  | .component => defaults.lookup name
  | l => (lastGiven? history l name).map expandColor

/-! ## What the rules hold -/

/-- The value that the rules hold for a level. -/
def ruleValue? (r : AttributeRules) (name : String) : Level → Option String
  | .forTag tag => r.defaults.value? tag name
  | .forClass c => r.classes.value? c name
  | .own | .component => none

theorem ruleValue?_register (r : AttributeRules) (x : Registration) (name : String) (l : Level) :
    ruleValue? (r.register x) name l = ((givenTo l x).reverse.lookup name).or (ruleValue? r name l) := by
  cases x with
  | forTag tag a =>
    cases l with
    | forTag tag' =>
      rw [ruleValue?, AttributeRules.register, AttributeRules.addDefaults, AttributeTable.value?_add, ruleValue?]
      by_cases htag : tag = tag' <;> simp [givenTo, target?, Registration.attributes, htag]
    | own | forClass _ | component => simp [givenTo, target?, ruleValue?, AttributeRules.register, AttributeRules.addDefaults]
  | forClass c a =>
    cases l with
    | forClass c' =>
      rw [ruleValue?, AttributeRules.register, AttributeRules.addClass, AttributeTable.value?_add, ruleValue?]
      by_cases hclass : c = c' <;> simp [givenTo, target?, Registration.attributes, hclass]
    | own | forTag _ | component => simp [givenTo, target?, ruleValue?, AttributeRules.register, AttributeRules.addClass]
  | forSelector selector a =>
    cases l <;> simp [givenTo, target?, ruleValue?, AttributeRules.register, AttributeRules.addHtml]

theorem ruleValue?_foldl (r : AttributeRules) (history : List Registration) (name : String) (l : Level) :
    ruleValue? (history.foldl AttributeRules.register r) name l = (lastGiven? history l name).or (ruleValue? r name l) := by
  induction history generalizing r with
  | nil => simp [lastGiven?]
  | cons x history ih =>
    rw [List.foldl_cons, ih, ruleValue?_register, lastGiven?, lastGiven?, List.flatMap_cons, List.reverse_append,
      List.lookup_append, Option.or_assoc]

/-- The rules hold for a level what was given to it last. -/
theorem ruleValue?_ofHistory (history : List Registration) (name : String) (l : Level) :
    ruleValue? (.ofHistory history) name l = lastGiven? history l name := by
  have hnone : ruleValue? {} name l = none := by cases l <;> rfl
  rw [AttributeRules.ofHistory, ruleValue?_foldl, hnone, Option.or_none]

/-! ## The first level -/

theorem fromClasses?_eq (c : Cascade) (name : String) :
    c.fromClasses? name = (classesOf c.node).findSome? fun k => ruleValue? c.rules name (.forClass k) := by
  unfold fromClasses? classesOf
  cases c.node.attribute? classAttribute <;> rfl

theorem fromTag?_eq (c : Cascade) (name : String) :
    c.fromTag? name = c.node.tag?.toList.findSome? fun tag => ruleValue? c.rules name (.forTag tag) := by
  unfold fromTag?
  cases c.node.tag? with
  | none => rfl
  | some tag =>
    have hlookup : (c.rules.defaults? tag).bind (fun a => a.get? name) = ruleValue? c.rules name (.forTag tag) := rfl
    simp [hlookup, bind]

theorem get?_eq_findSome? (node : Node) (history : List Registration) (defaults : List (String × String)) (name : String) :
    get? ⟨node, .ofHistory history, defaults⟩ name = (levels node).findSome? (valueAt? history defaults node name) := by
  have hown : valueAt? history defaults node name .own = (node.attribute? name).map expandColor := rfl
  have hclasses : ((classesOf node).map Level.forClass).findSome? (valueAt? history defaults node name) =
      (fromClasses? ⟨node, .ofHistory history, defaults⟩ name).map expandColor := by
    simp only [fromClasses?_eq, ruleValue?_ofHistory, List.map_findSome?, List.findSome?_map]
    rfl
  have htag : (node.tag?.toList.map Level.forTag).findSome? (valueAt? history defaults node name) =
      (fromTag? ⟨node, .ofHistory history, defaults⟩ name).map expandColor := by
    simp only [fromTag?_eq, ruleValue?_ofHistory, List.map_findSome?, List.findSome?_map]
    rfl
  have hall : valueAt? history defaults node name (.forTag everyTag) =
      (fromEveryTag? ⟨node, .ofHistory history, defaults⟩ name).map expandColor :=
    congrArg (Option.map expandColor) (ruleValue?_ofHistory history name (.forTag everyTag)).symm
  have hcomponent : valueAt? history defaults node name .component = defaults.lookup name := rfl
  simp only [levels, List.findSome?_append, hown, hclasses, htag, List.findSome?_cons, hall, hcomponent, List.findSome?_nil]
  rw [get?, given?]
  cases node.attribute? name with
  | some value => rfl
  | none =>
    cases fromClasses? ⟨node, .ofHistory history, defaults⟩ name with
    | some value => rfl
    | none =>
      cases fromTag? ⟨node, .ofHistory history, defaults⟩ name with
      | some value => rfl
      | none =>
        cases fromEveryTag? ⟨node, .ofHistory history, defaults⟩ name with
        | some value => rfl
        | none => cases defaults.lookup name <;> rfl

/-! ## What does not matter -/

theorem lastGiven?_filter {levels : List Level} {l : Level} (hl : l ∈ levels) (history : List Registration) (name : String) :
    lastGiven? (history.filter (concerns levels)) l name = lastGiven? history l name := by
  have hgiven : (history.filter (concerns levels)).flatMap (givenTo l) = history.flatMap (givenTo l) := by
    induction history with
    | nil => rfl
    | cons x history ih =>
      by_cases hx : concerns levels x = true
      · simp [hx, ih]
      · have hother : givenTo l x = [] := by
          refine if_neg fun htarget => hx ?_
          exact List.any_eq_true.2 ⟨l, hl, by simp [htarget]⟩
        simp [hx, ih, hother]
  rw [lastGiven?, hgiven, lastGiven?]

theorem valueAt?_congr {levels : List Level} {history history' : List Registration}
    (h : history'.filter (concerns levels) = history.filter (concerns levels)) {l : Level} (hl : l ∈ levels)
    (defaults : List (String × String)) (node : Node) (name : String) :
    valueAt? history' defaults node name l = valueAt? history defaults node name l := by
  have hlast : lastGiven? history' l name = lastGiven? history l name := by
    rw [← lastGiven?_filter hl, h, lastGiven?_filter hl]
  cases l <;> simp [valueAt?, hlast]

theorem findSome?_congr {levels : List Level} {f g : Level → Option String} (h : ∀ l ∈ levels, f l = g l) :
    levels.findSome? f = levels.findSome? g := by
  induction levels with
  | nil => rfl
  | cons l levels ih =>
    obtain ⟨hl, hlevels⟩ := List.forall_mem_cons.1 h
    rw [List.findSome?_cons, List.findSome?_cons, hl, ih hlevels]

/-- For every node, attribute, defaults of a component and history of registrations, the value is the one of the first
level that has the attribute: the node itself, each class it names, its tag, all tags, the component. On the levels of
the rules that is the value given last. And where a level has the attribute, no registrations that concern neither it
nor a level before it change the value, be they added anywhere in the history. -/
theorem get?_first_level (node : Node) (history : List Registration) (defaults : List (String × String)) (name : String) :
    get? ⟨node, .ofHistory history, defaults⟩ name = (levels node).findSome? (valueAt? history defaults node name) ∧
      ∀ before level after, levels node = before ++ level :: after →
        (valueAt? history defaults node name level).isSome →
        ∀ history', history'.filter (concerns (before ++ [level])) = history.filter (concerns (before ++ [level])) →
          get? ⟨node, .ofHistory history', defaults⟩ name = get? ⟨node, .ofHistory history, defaults⟩ name := by
  refine ⟨get?_eq_findSome? node history defaults name, ?_⟩
  intro before level after hlevels hsome history' hsame
  rw [List.append_cons] at hlevels
  have hmem : level ∈ before ++ [level] := by simp
  generalize before ++ [level] = upper at hlevels hsame hmem
  have hsome' : (valueAt? history' defaults node name level).isSome := by rwa [valueAt?_congr hsame hmem]
  rw [get?_eq_findSome?, get?_eq_findSome?, hlevels, List.findSome?_append, List.findSome?_append,
    Option.or_of_isSome (List.findSome?_isSome_iff.2 ⟨level, hmem, hsome⟩),
    Option.or_of_isSome (List.findSome?_isSome_iff.2 ⟨level, hmem, hsome'⟩)]
  exact findSome?_congr fun l hl => valueAt?_congr hsame hl defaults node name

/-- A text in two classes, the second of which has a colour. -/
def classyNode : Node := .element "mj-text" ⟨[("mj-class", "plain bright")]⟩ []

/-- Registrations for its tag, its class and all tags, some of them twice. -/
def mixedHistory : List Registration :=
  [.forTag "mj-text" ⟨[("color", "#00f")]⟩, .forClass "bright" ⟨[("color", "#000"), ("align", "left")]⟩,
    .forSelector ".a" ⟨[("color", "red")]⟩, .forClass "bright" ⟨[("color", "#f00")]⟩]

/-- The class that comes second gives its later colour, whatever else is registered for tags and other classes. -/
theorem get?_first_level_class : levels classyNode =
      [.own, .forClass "plain"] ++ .forClass "bright" :: [.forTag "mj-text", .forTag "mj-all", .component] ∧
    (valueAt? mixedHistory [("color", "#abc")] classyNode "color" (.forClass "bright")) = some "#ff0000" ∧
    get? ⟨classyNode, .ofHistory mixedHistory, [("color", "#abc")]⟩ "color" = some "#ff0000" ∧
    get? ⟨classyNode, .ofHistory (.forTag "mj-all" ⟨[("color", "green")]⟩ :: mixedHistory ++
      [.forTag "mj-text" ⟨[("color", "white")]⟩, .forClass "other" ⟨[("color", "black")]⟩]), [("color", "#abc")]⟩ "color" =
        some "#ff0000" := by
  have hlevels : levels classyNode =
      [.own, .forClass "plain"] ++ .forClass "bright" :: [.forTag "mj-text", .forTag "mj-all", .component] := by decide
  have hvalue : valueAt? mixedHistory [("color", "#abc")] classyNode "color" (.forClass "bright") = some "#ff0000" := by
    decide
  obtain ⟨hfirst, hstays⟩ := get?_first_level classyNode mixedHistory [("color", "#abc")] "color"
  have hget : get? ⟨classyNode, .ofHistory mixedHistory, [("color", "#abc")]⟩ "color" = some "#ff0000" := by
    rw [hfirst]
    decide
  refine ⟨hlevels, hvalue, hget, ?_⟩
  exact (hstays _ _ _ hlevels (by rw [hvalue]; rfl) _ rfl).trans hget

end EmailMarkup.Cascade
