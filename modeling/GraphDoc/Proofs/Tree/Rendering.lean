import GraphDoc.Proofs.Outcome
import GraphDoc.Proofs.Tree.Entries
import GraphDoc.Proofs.Tree.Shape
import GraphDoc.Tree.Render

/-!
# Printing lists and entries

Lists of trees are printed item by item, and entries are merged before they are printed. A derived kind makes no
difference, except that an unknown thing is named by it.
-/

namespace GraphDoc.Tree

variable [Surroundings]

theorem renderAll_eq_mapM (ts : List Tree) (indent : String) : renderAll ts indent = ts.mapM (render · indent) := by
  induction ts with
  | nil => rfl
  | cons t ts ih => rw [renderAll, List.mapM_cons, ih]

theorem renderEntries_eq (entries : List (Key × Tree)) :
    renderEntries entries = entries.map fun e => (e.1, e.2.render "") := by
  induction entries with
  | nil => rfl
  | cons e rest ih => rw [renderEntries, ih, List.map_cons]

theorem renderArguments_eq_mapM (ts : List Tree) : renderArguments ts = ts.mapM renderArgument := by
  induction ts with
  | nil => rfl
  | cons t ts ih => rw [renderArguments, List.mapM_cons, ih]

/-- The text of an entry. -/
def renderEntry (e : Key × Tree) : Rendered String := do
  let key ← e.1.text
  return key ++ ": " ++ (← e.2.render "")

theorem entryTexts_render (entries : List (Key × Tree)) :
    entryTexts (entries.map fun e => (e.1, e.2.render "")) = (mergeEntries Key.same entries).mapM renderEntry := by
  rw [entryTexts, mergeEntries_mapValues (render · ""), List.mapM_map]
  rfl

/-! ## Parts that may be left out -/

/-- The outcome of printing a type condition. -/
def renderCondition (t : Tree) : Rendered String :=
  if t.isGiven then Layout.condition <$> render t "" else pure ""

/-- The outcome of printing a default value. -/
def renderDefault : Tree → Rendered String
  | .none => pure ""
  | t => Layout.default <$> render t ""

theorem render_inlineFragment (type : Tree) (directives selections : Seq Tree) (indent : String) :
    render (.inlineFragment type directives selections) indent = (do
      let condition ← renderCondition type
      let directives ← renderAll directives.items ""
      let selections ← renderAll selections.items (indent ++ Layout.step)
      return indent ++ "..." ++ condition ++ Layout.directives directives ++
        Layout.selections indent selections) := by
  cases hgiven : type.isGiven <;> simp [render, renderCondition, hgiven]

theorem render_fragment (name : String) (type : Tree) (directives selections : Seq Tree) (indent : String) :
    render (.fragment name type directives selections) indent = (do
      let condition ← renderCondition type
      let directives ← renderAll directives.items ""
      let selections ← renderAll selections.items (indent ++ Layout.step)
      return indent ++ "fragment " ++ name ++ condition ++ Layout.directives directives ++
        Layout.selections indent selections) := by
  cases hgiven : type.isGiven <;> simp [render, renderCondition, hgiven]

theorem render_variableDefinition (name : String) (type default : Tree) (indent : String) :
    render (.variableDefinition name type default) indent = (do
      let d ← renderDefault default
      return "$" ++ name ++ ": " ++ (← render type "") ++ d) := by
  cases default <;> rfl

theorem render_inputValue (name : String) (type default : Tree) (directives : Seq Tree) (about : Option String)
    (indent : String) :
    render (.inputValue name type default directives about) indent = (do
      let d ← renderDefault default
      let type ← render type ""
      return name ++ ": " ++ type ++ d ++ Layout.directives (← renderAll directives.items "")) := by
  cases default <;> rfl

/-! ## Derived kinds and arguments -/

/-- An unknown thing is refused under its outermost kind. -/
theorem render_of_base_foreign {t : Tree} {kind : String} {thing : Thing Tree} (h : t.base = .foreign kind thing)
    (indent : String) : t.render indent = .error (.unsupported t.kindName thing.display) := by
  cases t
  case derived d t =>
    have hin : t.base = .foreign kind thing := h
    simp only [render, hin]
    rfl
  case foreign =>
    cases h
    rfl
  all_goals cases h

/-- Otherwise a derived kind makes no difference. -/
theorem render_derived {t : Tree} (h : ∀ kind thing, t.base ≠ .foreign kind thing) (d : Derivation)
    (indent : String) : (Tree.derived d t).render indent = t.render indent := by
  rw [render]
  split
  · next hbase => exact absurd hbase (h _ _)
  · rfl

/-- Of what has a name and a value, the value is printed. -/
theorem renderArgument_of_some {t : Tree} {e : Key × Tree} (h : t.argument? = some e) :
    renderArgument t = .ok (e.1, e.2.render "") := by
  induction t using induction_on_children with
  | step t ih =>
    cases t
    case argument | symbol => cases h; rfl
    case foreign kind thing =>
      obtain ⟨display, isGiven, nameSlot, value⟩ := thing
      cases nameSlot
      case none => cases h
      case some name =>
        cases value
        case none => cases h
        case some value => cases h; rfl
    case derived d t =>
      have hin : t.argument? = some e := h
      rw [← ih t (List.mem_singleton_self t) hin, renderArgument, hin]
    all_goals cases h

/-- What lacks either is refused; the name is asked for first. -/
theorem renderArgument_of_none {t : Tree} (h : t.argument? = Option.none) :
    renderArgument t = .error (.missingPart t.kindName (if t.nameSlot.isSome then "value" else "name")) := by
  cases t
  case argument | symbol => cases h
  case foreign kind thing =>
    obtain ⟨display, isGiven, nameSlot, value⟩ := thing
    cases nameSlot
    case none => rfl
    case some name =>
      cases value
      case none => rfl
      case some value => cases h
  case derived d t =>
    have hin : t.argument? = Option.none := h
    rw [renderArgument, hin]
    rfl
  all_goals rfl

/-- What stands in an object literal is read only if all of it has a name and a value. -/
theorem renderArguments_eq_ok {ts : List Tree} {entries : List (Key × Rendered String)} :
    renderArguments ts = .ok entries ↔ (∀ t ∈ ts, t.argument?.isSome = true) ∧
      entries = (ts.filterMap argument?).map fun e => (e.1, e.2.render "") := by
  rw [renderArguments_eq_mapM]
  induction ts generalizing entries with
  | nil =>
    rw [List.mapM_nil, pure_eq_ok, eq_comm]
    simp
  | cons t ts ih =>
    rw [List.mapM_cons, List.forall_mem_cons, List.filterMap_cons]
    cases hvalue : t.argument? with
    | none => simp [renderArgument_of_none hvalue, bind, Except.bind]
    | some e =>
      simp only [renderArgument_of_some hvalue, bind_eq_ok, pure_eq_ok, ih]
      constructor
      · rintro ⟨_, hfirst, rest, ⟨hsome, rfl⟩, rfl⟩
        cases hfirst
        exact ⟨⟨rfl, hsome⟩, rfl⟩
      · rintro ⟨⟨-, hsome⟩, rfl⟩
        exact ⟨_, rfl, _, ⟨hsome, rfl⟩, rfl⟩

theorem render_inputObject (s : Seq Tree) (indent : String) :
    render (.inputObject s) indent =
      (renderArguments s.items >>= entryTexts) >>= fun texts => pure (Layout.object texts) := by
  rw [bind_assoc]
  rfl

end GraphDoc.Tree
