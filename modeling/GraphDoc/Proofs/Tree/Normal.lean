import GraphDoc.Hook
import GraphDoc.Proofs.Tree.Entries
import GraphDoc.Proofs.Tree.Shape

/-!
# Normal forms

What printing forgets of a tree. `Tree.normal` is for trees that were read: it erases descriptions and
gives every object literal each of its names once. `Tree.reading` is for trees of any origin: it also
turns plain values into the nodes that they are read back as, and child sequences into tuples.
-/

namespace GraphDoc

/-- The text of a key; nothing for a key that has none. -/
def Key.label (key : Key) : String := key.text.toOption.getD ""

namespace Tree

/-- The arguments that stand for the given entries. -/
def ofEntries (entries : List (String × Tree)) : List Tree := entries.map fun e => .argument e.1 e.2

/-- The node without its description. -/
def dropDescription : Tree → Tree
  | .schema query mutation subscription _ => .schema query mutation subscription Option.none
  | .inputValue n t v d _ => .inputValue n t v d Option.none
  | .fieldDefinition n t a d _ => .fieldDefinition n t a d Option.none
  | .scalarType n d _ => .scalarType n d Option.none
  | .objectType n s i d _ => .objectType n s i d Option.none
  | .interfaceType n s d _ => .interfaceType n s d Option.none
  | .unionType n s d _ => .unionType n s d Option.none
  | .enumValueDefinition n d _ => .enumValueDefinition n d Option.none
  | .enumType n s d _ => .enumType n s d Option.none
  | .inputType n s d _ => .inputType n s d Option.none
  | .directiveDefinition n l a _ => .directiveDefinition n l a Option.none
  | t => t

/-- The tree without any description. -/
def eraseDescriptions : Tree → Tree := rewrite dropDescription

/-- The node without its description; an object literal with each of its names once, at its first place
and with its last value. -/
def normalNode : Tree → Tree
  | .inputObject s => .inputObject ⟨s.form, ofEntries (objectEntries (.inputObject s))⟩
  | t => t.dropDescription

/-- The tree without any description, and with each name of an object literal once. -/
def normal : Tree → Tree := rewrite normalNode

/-- Whether a definition is a schema block whose roots are all absent or called by their default
names. -/
def isSuppressed : Tree → Bool
  | .schema query mutation subscription _ =>
    (query.isNone || query == some "Query") && (mutation.isNone || mutation == some "Mutation") &&
      (subscription.isNone || subscription == some "Subscription")
  | _ => false

/-- The normal form of a document: suppressed schema blocks are gone, and the rest is normal. -/
def normalDocument (t : Tree) : Tree := (t.filterDefinitions fun d => !d.isSuppressed).normal

/-! ## Reading back -/

/-- The value that a word is read as. -/
def ofWord (word : String) : Tree :=
  if word = "true" then .bool true
  else if word = "false" then .bool false
  else if word = "null" then .nullValue
  else .enumValue word

/-- A value that is given: the missing value stands for the null value. -/
def given : Tree → Tree
  | .none => .nullValue
  | t => t

/-- What a node is read back as, once this is known of all that stands inside it. -/
def readingNode : Tree → Tree
  | .float x => .floatValue x.text
  | .symbol _ member => ofWord (Text.capitalize member.name)
  | .enumValue name => ofWord name
  | .seq s => .seq ⟨.list, s.items.map given⟩
  | .map entries =>
    .inputObject (.tuple (ofEntries ((mergeEntries Key.same entries).map fun e => (e.1.label, given e.2))))
  | .argument n v => .argument n (given v)
  | .inputObject s => .inputObject (.tuple (ofEntries (objectEntries (.inputObject s))))
  | .directive n a => .directive n (.tuple a.items)
  | .field n m a d s =>
    .field n (m.filter (· ≠ "")) (.tuple a.items) (.tuple d.items) (.tuple s.items)
  | .fragmentSpread n d => .fragmentSpread n (.tuple d.items)
  | .inlineFragment t d s => .inlineFragment t (.tuple d.items) (.tuple s.items)
  | .operation k n a d s =>
    .operation k (n.filter (· ≠ "")) (.tuple a.items) (.tuple d.items) (.tuple s.items)
  | .fragment n t d s => .fragment n t (.tuple d.items) (.tuple s.items)
  | .document s => .document (.tuple s.items)
  | t => t.dropDescription

/-- What the text of a tree is read back as, where the tree stands for itself. -/
def reading : Tree → Tree := rewrite readingNode

/-- What the text of a value is read back as. -/
def literal (t : Tree) : Tree := given t.reading

theorem normal_eq (t : Tree) : t.normal = normalNode (t.mapChildren normal) := rewrite_eq normalNode t

theorem reading_eq (t : Tree) : t.reading = readingNode (t.mapChildren reading) :=
  rewrite_eq readingNode t

theorem eraseDescriptions_eq (t : Tree) :
    t.eraseDescriptions = dropDescription (t.mapChildren eraseDescriptions) :=
  rewrite_eq dropDescription t

section Executables

variable (name : String) (label : Option String) (type : Tree) (a d s : Seq Tree)

theorem reading_field :
    reading (.field name label a d s) = .field name (label.filter (· ≠ "")) (.tuple (a.items.map reading))
      (.tuple (d.items.map reading)) (.tuple (s.items.map reading)) :=
  reading_eq _

theorem reading_fragmentSpread :
    reading (.fragmentSpread name d) = .fragmentSpread name (.tuple (d.items.map reading)) :=
  reading_eq _

theorem reading_inlineFragment :
    reading (.inlineFragment type d s) =
      .inlineFragment type.reading (.tuple (d.items.map reading)) (.tuple (s.items.map reading)) :=
  reading_eq _

theorem reading_operation :
    reading (.operation name label a d s) = .operation name (label.filter (· ≠ ""))
      (.tuple (a.items.map reading)) (.tuple (d.items.map reading)) (.tuple (s.items.map reading)) :=
  reading_eq _

theorem reading_fragment :
    reading (.fragment name type d s) =
      .fragment name type.reading (.tuple (d.items.map reading)) (.tuple (s.items.map reading)) :=
  reading_eq _

end Executables

theorem ofWord_ne_none (word : String) : ofWord word ≠ .none := by
  unfold ofWord
  split_ifs <;> simp

/-- Only the missing value is read as missing. -/
theorem reading_ne_none {t : Tree} (h : t ≠ .none) : t.reading ≠ .none := by
  rw [reading_eq]
  cases t
  case none => exact absurd rfl h
  all_goals simp [mapChildren, readingNode, dropDescription, ofWord_ne_none]

theorem normal_ne_none {t : Tree} (h : t ≠ .none) : t.normal ≠ .none := by
  rw [normal_eq]
  cases t
  case none => exact absurd rfl h
  all_goals simp [mapChildren, normalNode, dropDescription]

theorem literal_eq_reading {t : Tree} (h : t ≠ .none) : t.literal = t.reading := by
  have hne := reading_ne_none h
  unfold literal given
  split
  · next heq => exact absurd heq hne
  · rfl

/-- The items of a list are read as values. -/
theorem literal_seq (form : SeqForm) (items : List Tree) :
    (Tree.seq ⟨form, items⟩).literal = .seq ⟨.list, items.map literal⟩ := by
  rw [literal, reading_eq]
  show Tree.seq ⟨.list, (items.map reading).map given⟩ = _
  rw [List.map_map]
  rfl

/-! ## Object literals -/

@[simp]
theorem filterMap_argument?_ofEntries (entries : List (String × Tree)) :
    (ofEntries entries).filterMap argument? = entries.map fun e => (.str e.1, e.2) := by
  rw [ofEntries, List.filterMap_map, ← List.filterMap_eq_map]
  rfl

/-- An object literal of arguments says what its arguments say. -/
theorem objectEntries_ofEntries (form : SeqForm) (entries : List (String × Tree)) :
    objectEntries (.inputObject ⟨form, ofEntries entries⟩) = mergeEntries (· == ·) entries := by
  have hmap : mapEntries (.inputObject ⟨form, ofEntries entries⟩) =
      (mergeEntries (· == ·) entries).map fun e => (Key.str e.1, e.2) := by
    show mergeEntries Key.same ((ofEntries entries).filterMap argument?) = _
    rw [filterMap_argument?_ofEntries, mergeEntries_str]
  rw [objectEntries, hmap, List.filterMap_map]
  exact List.filterMap_some

theorem normal_inputObject (form : SeqForm) (entries : List (String × Tree)) :
    normal (.inputObject ⟨form, ofEntries entries⟩) =
      .inputObject ⟨form, ofEntries ((mergeEntries (· == ·) entries).map fun e => (e.1, e.2.normal))⟩ := by
  have hitems : (ofEntries entries).map normal = ofEntries (entries.map fun e => (e.1, e.2.normal)) := by
    simp [ofEntries, normal_eq (.argument _ _), mapChildren, normalNode, dropDescription]
  rw [normal_eq]
  show normalNode (.inputObject ⟨form, (ofEntries entries).map normal⟩) = _
  rw [hitems, normalNode, objectEntries_ofEntries, mergeEntries_mapValues]

theorem reading_inputObject (form : SeqForm) (entries : List (String × Tree)) :
    reading (.inputObject ⟨form, ofEntries entries⟩) =
      .inputObject (.tuple (ofEntries ((mergeEntries (· == ·) entries).map fun e =>
        (e.1, e.2.literal)))) := by
  have hitems : (ofEntries entries).map reading = ofEntries (entries.map fun e => (e.1, e.2.literal)) := by
    simp [ofEntries, reading_eq (.argument _ _), mapChildren, readingNode, literal]
  rw [reading_eq]
  show readingNode (.inputObject ⟨form, (ofEntries entries).map reading⟩) = _
  rw [hitems, readingNode, objectEntries_ofEntries, mergeEntries_mapValues]

theorem reading_map (entries : List (Key × Tree)) :
    reading (.map entries) =
      .inputObject (.tuple (ofEntries ((mergeEntries Key.same entries).map fun e =>
        (e.1.label, e.2.literal)))) := by
  rw [reading_eq]
  show readingNode (.map (entries.map fun e => (e.1, reading e.2))) = _
  rw [readingNode, mergeEntries_mapValues, List.map_map]
  rfl

end Tree

end GraphDoc
