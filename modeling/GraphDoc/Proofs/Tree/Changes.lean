import GraphDoc.Hook
import GraphDoc.Proofs.Tree.Comparable
import GraphDoc.Proofs.Tree.Rendering
import GraphDoc.Signature
import Mathlib.Logic.Relation

/-!
# Changes that do not show

The text of a tree does not depend on descriptions, on the forms of sequences, on kinds that are derived from others,
on what a symbol's kind was built on, nor on whether a value is given as an object literal or as the map that says the
same. Trees that only differ by such changes, as many as there may be and however deep, print alike or not at all.

Two places ask more of a symbol than its name: a type condition is left out unless it counts as given, and an object
literal prints the value of what stands in it. There, another symbol must agree with the old one in this as well.
-/

namespace GraphDoc

namespace Tree

/-! ## Changes -/

/-- The node with all its sequences in one form. -/
def dropForms : Tree → Tree
  | .seq s => .seq (.tuple s.items)
  | .inputObject s => .inputObject (.tuple s.items)
  | .directive n s => .directive n (.tuple s.items)
  | .field n m a d s => .field n m (.tuple a.items) (.tuple d.items) (.tuple s.items)
  | .fragmentSpread n d => .fragmentSpread n (.tuple d.items)
  | .inlineFragment t d s => .inlineFragment t (.tuple d.items) (.tuple s.items)
  | .operation k n a d s => .operation k n (.tuple a.items) (.tuple d.items) (.tuple s.items)
  | .fragment n t d s => .fragment n t (.tuple d.items) (.tuple s.items)
  | .inputValue n t v d about => .inputValue n t v (.tuple d.items) about
  | .fieldDefinition n t a d about => .fieldDefinition n t (.tuple a.items) (.tuple d.items) about
  | .scalarType n d about => .scalarType n (.tuple d.items) about
  | .objectType n s i d about => .objectType n (.tuple s.items) (.tuple i.items) (.tuple d.items) about
  | .interfaceType n s d about => .interfaceType n (.tuple s.items) (.tuple d.items) about
  | .unionType n s d about => .unionType n (.tuple s.items) (.tuple d.items) about
  | .enumValueDefinition n d about => .enumValueDefinition n (.tuple d.items) about
  | .enumType n s d about => .enumType n (.tuple s.items) (.tuple d.items) about
  | .inputType n s d about => .inputType n (.tuple s.items) (.tuple d.items) about
  | .directiveDefinition n l a about => .directiveDefinition n (.tuple l.items) (.tuple a.items) about
  | .document s => .document (.tuple s.items)
  | t => t

/-- Whether a kind can be derived from that of a tree: not from that of nothing, a truth value or a symbol. -/
def isOpen (t : Tree) : Bool :=
  match t.base with
  | .none | .bool _ | .symbol .. => false
  | _ => true

/-- Whether a tree is an object literal in which everything has a name and a value. -/
def IsObject (t : Tree) : Prop :=
  ∃ s, t.base = .inputObject s ∧ ∀ a ∈ s.items, a.argument?.isSome = true

/-- The map that says the same as an object literal. -/
def toMap (t : Tree) : Tree := .map t.mapEntries

/-- Whether the place of the given number inside a tree is that of an argument's value, a default, an item of a
sequence or a value of a map. -/
def holdsValue : Tree → Nat → Bool
  | .argument .., _ | .seq _, _ | .map _, _ => true
  | .variableDefinition .., i | .inputValue .., i => i == 1
  | _, _ => false

end Tree

/-- What is asked of a tree by the node around it, besides its text and its name. -/
inductive Role
  /-- Nothing else. -/
  | printed
  /-- Whether it counts as given, as of a type condition. -/
  | condition
  /-- Its value, as of what stands in an object literal. -/
  | argument

/-- The role of what stands at the place of the given number inside a tree. A derived kind hands on its own. -/
def Tree.role (own : Role) : Tree → Nat → Role
  | .derived .., _ => own
  | .inlineFragment .., 0 | .fragment .., 0 => .condition
  | .inputObject _, _ => .argument
  | _, _ => .printed

/-- Whether two symbols are the same to whoever asks for what the role asks for. -/
def Symbol.Agrees (role : Role) (a b : Symbol Tree) : Prop :=
  a.name = b.name ∧
    match role with
    | .printed => True
    | .condition => a.isGiven = b.isGiven
    | .argument => a.value = b.value

/-- What a change that does not show is about. -/
inductive ChangeKind
  | description
  | form
  | derivation
  | symbol
  | object

open GraphDoc.Tree in
/-- A change that does not show to surroundings that ask for what the role asks for. -/
inductive Change : Role → ChangeKind → Tree → Tree → Prop
  /-- Another description, or none. -/
  | description {role : Role} {t u : Tree} (h : t.dropDescription = u.dropDescription) : Change role .description t u
  /-- Sequences in the other form. -/
  | form {role : Role} {t u : Tree} (h : t.dropForms = u.dropForms) : Change role .form t u
  /-- A kind derived from that of the tree. -/
  | derivation {role : Role} {t : Tree} (h : t.isOpen = true) (d : Derivation) :
      Change role .derivation t (.derived d t)
  /-- Another symbol of the same name, whatever its kind is built on. -/
  | symbol {role : Role} {member member' : Symbol Tree} (h : member.Agrees role member') (base base' : SymbolBase) :
      Change role .symbol (.symbol base member) (.symbol base' member')
  /-- A map for an object literal, where a value stands. -/
  | object {role : Role} {t c : Tree} (before after : List Tree) (hplace : t.children = before ++ c :: after)
      (hvalue : t.holdsValue before.length = true) (h : c.IsObject) :
      Change role .object t (t.withChildren (before ++ c.toMap :: after))
  /-- A change deeper down. -/
  | inside {role : Role} {kind : ChangeKind} {t c c' : Tree} (before after : List Tree)
      (hplace : t.children = before ++ c :: after) (h : Change (t.role role before.length) kind c c') :
      Change role kind t (t.withChildren (before ++ c' :: after))

/-! ## Outcomes that are alike -/

/-- Whether two outcomes are the same text, or both fail. -/
def SameText {α : Type} (x y : Rendered α) : Prop := x.toOption = y.toOption

namespace SameText

variable {α β : Type}

/-- Every outcome has the same text as itself. -/
theorem refl (x : Rendered α) : SameText x x := rfl

/-- Steps of the same text compose. -/
theorem bind {x y : Rendered α} {f g : α → Rendered β} (h : SameText x y) (hfg : ∀ a, SameText (f a) (g a)) :
    SameText (x >>= f) (y >>= g) := by
  cases x <;> cases y
  case ok.ok a b =>
    cases h
    exact hfg a
  case error.error => rfl
  all_goals cases h

/-- The same further step keeps two outcomes alike. -/
theorem bind_same {x y : Rendered α} (h : SameText x y) (f : α → Rendered β) : SameText (x >>= f) (y >>= f) :=
  h.bind fun a => .refl (f a)

/-- Working on the text keeps two outcomes alike. -/
theorem map {x y : Rendered α} (h : SameText x y) (f : α → β) : SameText (f <$> x) (f <$> y) := by
  rw [map_eq_pure_bind, map_eq_pure_bind]
  exact h.bind_same _

/-- Lists whose items have the same text give the same texts. -/
theorem mapM {γ : Type} {f : α → Rendered γ} {g : β → Rendered γ} {as : List α} {bs : List β}
    (h : List.Forall₂ (fun a b => SameText (f a) (g b)) as bs) : SameText (as.mapM f) (bs.mapM g) := by
  induction h with
  | nil => exact .refl _
  | cons hhead _ ih =>
    rw [List.mapM_cons, List.mapM_cons]
    exact hhead.bind fun _ => ih.bind_same _

/-- Outcomes of the same text give the same results. -/
theorem eq_ok_iff {x y : Rendered α} (h : SameText x y) {a : α} : x = .ok a ↔ y = .ok a := by
  cases x <;> cases y
  case ok.ok => cases h; rfl
  case error.error => simp
  all_goals cases h

end SameText

namespace Tree

/-! ## Lists item by item -/

section Lists

variable {α β : Type}

/-- Keys and values put together again are the entries. -/
theorem zip_keys_values (entries : List (α × β)) :
    (entries.map (·.1)).zip (entries.map (·.2)) = entries := by
  simp [List.zip_map']

/-- Lists that are the same to a function, item by item. -/
theorem map_eq_of_forall₂ (f : α → β) {xs ys : List α} (h : List.Forall₂ (fun x y => f x = f y) xs ys) :
    xs.map f = ys.map f := by
  rw [← List.forall₂_eq_eq_eq, List.forall₂_map_left_iff, List.forall₂_map_right_iff]
  exact h

/-- Where two lists in a row are related to a third one, each is to its part. -/
theorem forall₂_take_drop {R : α → β → Prop} {xs ys : List α} {zs : List β}
    (h : List.Forall₂ R (xs ++ ys) zs) :
    List.Forall₂ R xs (zs.take xs.length) ∧ List.Forall₂ R ys (zs.drop xs.length) := by
  induction xs generalizing zs with
  | nil => exact ⟨.nil, h⟩
  | cons x xs ih =>
    cases h with
    | cons hhead htail => exact ⟨.cons hhead (ih htail).1, (ih htail).2⟩

/-- The places of the items may be forgotten. -/
theorem forall₂_of_zipIdx {R : α → β → Prop} {xs : List α} {ys : List β} {n : Nat}
    (h : List.Forall₂ (fun x y => R x.1 y) (xs.zipIdx n) ys) : List.Forall₂ R xs ys := by
  have hmap := List.forall₂_map_left_iff.2 h
  rwa [List.zipIdx_map_fst] at hmap

/-- One item is replaced, and the others are related to themselves. -/
theorem forall₂_replace {R : Nat → α → α → Prop} (hrefl : ∀ i a, R i a a) {a b : α} (before after : List α)
    (h : R before.length a b) :
    List.Forall₂ (fun x y => R x.2 x.1 y) (before ++ a :: after).zipIdx (before ++ b :: after) := by
  have hsame : ∀ (xs : List α) (n : Nat), List.Forall₂ (fun x y => R x.2 x.1 y) (xs.zipIdx n) xs := by
    intro xs
    induction xs with
    | nil => exact fun n => .nil
    | cons x xs ih => exact fun n => .cons (hrefl n x) (ih (n + 1))
  rw [List.zipIdx_append, List.zipIdx_cons]
  exact List.rel_append (hsame before 0) (.cons (by simpa using h) (hsame after _))

end Lists

/-! ## Trees that are alike -/

/-- The names of union members settle what is printed of them. -/
theorem sameText_memberNames {ts us : List Tree} (h : List.Forall₂ (fun t u => t.nameSlot = u.nameSlot) ts us) :
    SameText (memberNames ts) (memberNames us) := by
  refine SameText.bind_same (.mapM (h.imp fun t u hname => ?_)) _
  rw [memberName, memberName, hname]
  cases u.nameSlot <;> rfl

section Alike

variable [Surroundings]

/-- What an object literal reads of a tree: its name, and the text of its value. -/
def argumentText? (t : Tree) : Option (Key × Option String) :=
  t.argument?.map fun e => (e.1, (e.2.render "").toOption)

/-- Whether two trees print alike and neither is left out as a default where the other is not. -/
structure SameValue (t u : Tree) : Prop where
  text : ∀ indent, SameText (t.render indent) (u.render indent)
  isNone : t = .none ↔ u = .none

/-- Whether two trees print alike and their surroundings see no difference, if they ask for what the role asks for. -/
structure Alike (role : Role) (t u : Tree) : Prop extends SameValue t u where
  name : t.nameSlot = u.nameSlot
  names : t.definitions.map name? = u.definitions.map name?
  isGiven : role = .condition → t.isGiven = u.isGiven
  entry : role = .argument → t.argumentText? = u.argumentText?

/-- Every tree stands for the same value as itself. -/
theorem SameValue.refl (t : Tree) : SameValue t t := ⟨fun _ => .refl _, Iff.rfl⟩

section Laws

variable {role : Role} {t u v : Tree}

/-- In any role a tree is like itself. -/
theorem Alike.refl (role : Role) (t : Tree) : Alike role t t := ⟨.refl t, rfl, rfl, fun _ => rfl, fun _ => rfl⟩

/-- Likeness goes both ways. -/
theorem Alike.symm (h : Alike role t u) : Alike role u t :=
  ⟨⟨fun indent => (h.text indent).symm, h.isNone.symm⟩, h.name.symm, h.names.symm, fun hrole => (h.isGiven hrole).symm,
    fun hrole => (h.entry hrole).symm⟩

/-- Likeness passes along. -/
theorem Alike.trans (h : Alike role t u) (h' : Alike role u v) : Alike role t v :=
  ⟨⟨fun indent => (h.text indent).trans (h'.text indent), h.isNone.trans h'.isNone⟩, h.name.trans h'.name,
    h.names.trans h'.names, fun hrole => (h.isGiven hrole).trans (h'.isGiven hrole),
    fun hrole => (h.entry hrole).trans (h'.entry hrole)⟩

end Laws

/-! ### Parts of a node -/

/-- Lists of the same values print the same texts. -/
theorem sameText_all {ts us : List Tree} (h : List.Forall₂ SameValue ts us) (indent : String) :
    SameText (renderAll ts indent) (renderAll us indent) := by
  rw [renderAll_eq_mapM, renderAll_eq_mapM]
  exact .mapM (h.imp fun _ _ hsame => hsame.text indent)

/-- Trees alike as conditions print the same condition. -/
theorem sameText_condition {t u : Tree} (h : Alike .condition t u) :
    SameText (renderCondition t) (renderCondition u) := by
  rw [renderCondition, renderCondition, h.isGiven rfl]
  split
  · exact (h.text "").map Layout.condition
  · exact .refl _

/-- A default other than `none` is printed as a value. -/
theorem renderDefault_of_ne {t : Tree} (h : t ≠ .none) : renderDefault t = Layout.default <$> t.render "" := by
  cases t
  case none => exact absurd rfl h
  all_goals rfl

/-- The same value prints the same default. -/
theorem sameText_default {t u : Tree} (h : SameValue t u) : SameText (renderDefault t) (renderDefault u) := by
  by_cases hnone : t = .none
  · rw [hnone, h.isNone.1 hnone]
    exact .refl _
  · rw [renderDefault_of_ne hnone, renderDefault_of_ne fun hu => hnone (h.isNone.2 hu)]
    exact (h.text "").map Layout.default

/-- Entries are merged by their keys alone. -/
theorem sameText_entryTexts {entries others : List (Key × Rendered String)}
    (h : entries.map (fun e => (e.1, e.2.toOption)) = others.map fun e => (e.1, e.2.toOption)) :
    SameText (entryTexts entries) (entryTexts others) := by
  have hmerged := congrArg (mergeEntries Key.same) h
  rw [mergeEntries_mapValues Except.toOption, mergeEntries_mapValues Except.toOption] at hmerged
  rw [← List.forall₂_eq_eq_eq, List.forall₂_map_left_iff, List.forall₂_map_right_iff] at hmerged
  refine .mapM (hmerged.imp ?_)
  rintro ⟨key, value⟩ ⟨key', value'⟩ hsame
  obtain ⟨rfl, hvalue⟩ := Prod.mk.injEq .. ▸ hsame
  exact SameText.bind (.refl key.text) fun _ => SameText.bind_same hvalue _

/-- An entry that is no argument makes the object fail. -/
theorem exists_error_of_renderArguments {ts : List Tree} (h : ¬∀ t ∈ ts, t.argument?.isSome = true) :
    ∃ e, renderArguments ts = .error e := by
  cases hread : renderArguments ts with
  | ok entries => exact absurd (renderArguments_eq_ok.1 hread).1 h
  | error e => exact ⟨e, rfl⟩

/-- Arguments of the same names and texts print the same object. -/
theorem sameText_object {ts us : List Tree} (h : ts.map argumentText? = us.map argumentText?) :
    SameText (renderArguments ts >>= entryTexts) (renderArguments us >>= entryTexts) := by
  have hread : ∀ ts : List Tree, (∀ t ∈ ts, t.argument?.isSome = true) ↔ ∀ o ∈ ts.map argumentText?, o.isSome = true := by
    simp [argumentText?]
  have hentries : ∀ ts : List Tree, ((ts.filterMap argument?).map fun e => (e.1, e.2.render "")).map
      (fun e => (e.1, e.2.toOption)) = (ts.map argumentText?).filterMap id := by
    intro ts
    simp [List.map_filterMap, List.filterMap_map, argumentText?, Function.comp_def]
  by_cases hall : ∀ t ∈ ts, t.argument?.isSome = true
  · have hall' : ∀ u ∈ us, u.argument?.isSome = true := by rwa [hread, ← h, ← hread]
    rw [renderArguments_eq_ok.2 ⟨hall, rfl⟩, renderArguments_eq_ok.2 ⟨hall', rfl⟩]
    exact sameText_entryTexts (by rw [hentries, hentries, h])
  · have hall' : ¬∀ u ∈ us, u.argument?.isSome = true := by rwa [hread, ← h, ← hread]
    obtain ⟨e, he⟩ := exists_error_of_renderArguments hall
    obtain ⟨e', he'⟩ := exists_error_of_renderArguments hall'
    rw [he, he']
    rfl

/-! ### Nodes with values inside them -/

/-- A map may take other values that stand for the same. -/
theorem alike_map {role : Role} (keys : List Key) {vs vs' : List Tree} (h : List.Forall₂ SameValue vs vs') :
    Alike role (.map (keys.zip vs)) (.map (keys.zip vs')) := by
  refine ⟨⟨fun indent => ?_, by simp⟩, rfl, rfl, fun _ => ?_, fun _ => rfl⟩
  · have htexts := map_eq_of_forall₂ (fun v => (v.render "").toOption) (h.imp fun _ _ hsame => hsame.text "")
    have hentries : SameText (entryTexts (renderEntries (keys.zip vs))) (entryTexts (renderEntries (keys.zip vs'))) := by
      have hzip := congrArg keys.zip htexts
      rw [List.zip_map_right, List.zip_map_right] at hzip
      rw [renderEntries_eq, renderEntries_eq]
      refine sameText_entryTexts ?_
      rw [List.map_map, List.map_map]
      exact hzip
    exact hentries.bind_same _
  · rw [isGiven, isGiven]
    cases keys
    case nil => rfl
    case cons => cases h <;> rfl

/-- A node that holds values is alike to one with values that print alike. -/
theorem alike_withValues {role : Role} {t : Tree} {cs : List Tree} {i : Nat} (hvalue : t.holdsValue i = true)
    (h : List.Forall₂ SameValue t.children cs) : Alike role t (t.withChildren cs) := by
  cases t
  case seq s =>
    refine ⟨⟨fun indent => (sameText_all h "").bind_same _, by simp [withChildren]⟩, rfl, rfl, fun _ => ?_, fun _ => rfl⟩
    rw [withChildren, isGiven, isGiven]
    obtain ⟨form, items⟩ := s
    cases h <;> rfl
  case map entries =>
    have hmap : Alike role _ _ := alike_map (entries.map (·.1)) h
    rwa [children, zip_keys_values] at hmap
  case argument n v =>
    cases h with
    | cons hv hnil =>
      refine ⟨⟨fun indent => (hv.text "").bind_same _, by simp [withChildren]⟩, rfl, rfl, fun _ => rfl, fun _ => ?_⟩
      exact congrArg (fun text => some (Key.str n, text)) (hv.text "")
  case variableDefinition n t v =>
    cases h with
    | cons ht htail =>
      cases htail with
      | cons hv hnil =>
        refine ⟨⟨fun indent => ?_, by simp [withChildren]⟩, rfl, rfl, fun _ => rfl, fun _ => rfl⟩
        rw [withChildren, render_variableDefinition, render_variableDefinition]
        exact (sameText_default hv).bind fun _ => (ht.text "").bind_same _
  case inputValue n t v d about =>
    cases h with
    | cons ht htail =>
      cases htail with
      | cons hv hds =>
        refine ⟨⟨fun indent => ?_, by simp [withChildren]⟩, rfl, rfl, fun _ => rfl, fun _ => rfl⟩
        rw [withChildren, render_inputValue, render_inputValue]
        exact (sameText_default hv).bind fun _ => (ht.text "").bind fun _ => (sameText_all hds "").bind_same _
  all_goals cases hvalue

/-- A derived kind makes no difference to the text. -/
theorem sameText_derived (d : Derivation) (t : Tree) (indent : String) :
    SameText (t.render indent) ((Tree.derived d t).render indent) := by
  by_cases hforeign : ∃ kind thing, t.base = .foreign kind thing
  · obtain ⟨kind, thing, hbase⟩ := hforeign
    rw [render_of_base_foreign hbase, render_of_base_foreign (t := .derived d t) hbase]
    rfl
  · rw [render_derived (by simpa using hforeign)]
    exact .refl _

/-! ### Changes inside a node -/

/-- A node is alike to one with trees inside it that are alike, each in the role that it has there. -/
theorem alike_withChildren {role : Role} {t : Tree} {cs : List Tree}
    (h : List.Forall₂ (fun c d => Alike (t.role role c.2) c.1 d) t.children.zipIdx cs) :
    Alike role t (t.withChildren cs) := by
  have hvalues : List.Forall₂ SameValue t.children cs := forall₂_of_zipIdx (h.imp fun _ _ halike => halike.toSameValue)
  have hnames : List.Forall₂ (fun c d : Tree => c.nameSlot = d.nameSlot) t.children cs :=
    forall₂_of_zipIdx (h.imp fun _ _ halike => halike.name)
  cases t
  case seq | map | argument | variableDefinition | inputValue => exact alike_withValues (i := 1) rfl hvalues
  case derived d t =>
    cases h with
    | cons ht hnil =>
      refine ⟨⟨fun indent => ?_, by simp [withChildren]⟩, ht.name, ht.names, ht.isGiven, ht.entry⟩
      exact ((sameText_derived d t indent).symm.trans (ht.text indent)).trans (sameText_derived d _ indent)
  case inputObject s =>
    have hentries : s.items.map argumentText? = cs.map argumentText? :=
      map_eq_of_forall₂ argumentText? (forall₂_of_zipIdx (h.imp fun _ _ halike => halike.entry rfl))
    refine ⟨⟨fun indent => ?_, by simp [withChildren]⟩, rfl, rfl, fun _ => rfl, fun _ => rfl⟩
    rw [withChildren, render_inputObject, render_inputObject]
    exact (sameText_object hentries).bind_same _
  case directive n s | fragmentSpread n s | scalarType n s about | enumValueDefinition n s about
      | directiveDefinition n l s about =>
    exact ⟨⟨fun indent => (sameText_all hvalues "").bind_same _, by simp [withChildren]⟩, rfl, rfl, fun _ => rfl,
      fun _ => rfl⟩
  case document s =>
    refine ⟨⟨fun indent => (sameText_all hvalues indent).bind_same _, by simp [withChildren]⟩, rfl, ?_, fun _ => rfl,
      fun _ => rfl⟩
    exact map_eq_of_forall₂ name? (hnames.imp fun _ _ hname => congrArg Option.join hname)
  case listType t | nonNullType t =>
    cases hvalues with
    | cons ht hnil =>
      exact ⟨⟨fun indent => (ht.text "").bind_same _, by simp [withChildren]⟩, rfl, rfl, fun _ => rfl, fun _ => rfl⟩
  case field n m a d s | operation k n a d s =>
    rw [children, List.append_assoc] at hvalues
    obtain ⟨ha, htail⟩ := forall₂_take_drop hvalues
    obtain ⟨hd, hs⟩ := forall₂_take_drop htail
    exact ⟨⟨fun indent => (sameText_all ha "").bind fun _ => (sameText_all hd "").bind fun _ =>
      (sameText_all hs _).bind_same _, by simp [withChildren]⟩, rfl, rfl, fun _ => rfl, fun _ => rfl⟩
  case inlineFragment t d s | fragment n t d s =>
    cases h with
    | cons ht _ =>
      cases hvalues with
      | cons _ htail =>
        obtain ⟨hd, hs⟩ := forall₂_take_drop htail
        refine ⟨⟨fun indent => ?_, by simp [withChildren]⟩, rfl, rfl, fun _ => rfl, fun _ => rfl⟩
        simp only [withChildren, render_inlineFragment, render_fragment]
        exact (sameText_condition ht).bind fun _ => (sameText_all hd "").bind fun _ => (sameText_all hs _).bind_same _
  case fieldDefinition n t a d about =>
    cases hvalues with
    | cons ht htail =>
      obtain ⟨ha, hd⟩ := forall₂_take_drop htail
      exact ⟨⟨fun indent => (sameText_all ha "").bind fun _ => (ht.text "").bind fun _ =>
        (sameText_all hd "").bind_same _, by simp [withChildren]⟩, rfl, rfl, fun _ => rfl, fun _ => rfl⟩
  case objectType n s i d about | interfaceType n s d about | inputType n s d about =>
    obtain ⟨hs, hd⟩ := forall₂_take_drop hvalues
    exact ⟨⟨fun indent => (sameText_all hd "").bind fun _ => (sameText_all hs "").bind_same _, by simp [withChildren]⟩,
      rfl, rfl, fun _ => rfl, fun _ => rfl⟩
  case enumType n s d about =>
    obtain ⟨hs, hd⟩ := forall₂_take_drop hvalues
    exact ⟨⟨fun indent => (sameText_all hs "").bind fun _ => (sameText_all hd "").bind_same _, by simp [withChildren]⟩,
      rfl, rfl, fun _ => rfl, fun _ => rfl⟩
  case unionType n s d about =>
    obtain ⟨-, hd⟩ := forall₂_take_drop hvalues
    obtain ⟨hs, -⟩ := forall₂_take_drop hnames
    exact ⟨⟨fun indent => (sameText_memberNames hs).bind fun _ => (sameText_all hd "").bind_same _,
      by simp [withChildren]⟩, rfl, rfl, fun _ => rfl, fun _ => rfl⟩
  all_goals exact .refl _ _

/-! ### Changes of a node -/

/-- In every role a tree is like itself without its description. -/
theorem alike_dropDescription (role : Role) (t : Tree) : Alike role t t.dropDescription := by
  cases t
  case inputValue =>
    refine ⟨⟨fun indent => ?_, by simp [dropDescription]⟩, rfl, rfl, fun _ => rfl, fun _ => rfl⟩
    rw [dropDescription, render_inputValue, render_inputValue]
    exact .refl _
  all_goals exact ⟨⟨fun _ => .refl _, by simp [dropDescription]⟩, rfl, rfl, fun _ => rfl, fun _ => rfl⟩

/-- In every role lists and tuples do for one another. -/
theorem alike_dropForms (role : Role) (t : Tree) : Alike role t t.dropForms := by
  cases t
  case inputValue =>
    refine ⟨⟨fun indent => ?_, by simp [dropForms]⟩, rfl, rfl, fun _ => rfl, fun _ => rfl⟩
    rw [dropForms, render_inputValue, render_inputValue]
    exact .refl _
  all_goals exact ⟨⟨fun _ => .refl _, by simp [dropForms]⟩, rfl, rfl, fun _ => rfl, fun _ => rfl⟩

/-- In every role a class derived from a node's does for the node. -/
theorem alike_derived {role : Role} {t : Tree} (h : t.isOpen = true) (d : Derivation) :
    Alike role t (.derived d t) := by
  refine ⟨⟨sameText_derived d t, ?_⟩, rfl, rfl, fun _ => rfl, fun _ => rfl⟩
  have hsome : t ≠ .none := by
    rintro rfl
    cases h
  simp [hsome]

/-- What a symbol prints is its name, whatever its kind is built on. -/
theorem alike_symbol {role : Role} {member member' : Symbol Tree} (h : member.Agrees role member')
    (base base' : SymbolBase) : Alike role (.symbol base member) (.symbol base' member') := by
  obtain ⟨hname, hrole⟩ := h
  refine ⟨⟨fun indent => ?_, by simp⟩, congrArg (some <| some ·) hname, rfl, ?_, ?_⟩
  · rw [render, render, hname]
    exact .refl _
  · rintro rfl
    exact hrole
  · rintro rfl
    have hvalue : member.value = member'.value := hrole
    simp only [argumentText?, argument?, Tree.base, hname, hvalue]

/-- A tree prints as its base does. -/
theorem sameText_base (t : Tree) (indent : String) : SameText (t.render indent) (t.base.render indent) := by
  induction t using induction_on_children with
  | step t ih =>
    cases t
    case derived d t => exact (sameText_derived d t indent).symm.trans (ih t (List.mem_singleton_self t))
    all_goals exact .refl _

/-- An object literal is printed as the map that says the same. -/
theorem sameValue_toMap {t : Tree} (h : t.IsObject) : SameValue t t.toMap := by
  obtain ⟨s, hbase, hall⟩ := h
  have hentries : t.mapEntries = mergeEntries Key.same (s.items.filterMap argument?) := by
    rw [mapEntries, hbase]
  refine ⟨fun indent => (sameText_base t indent).trans ?_, ?_⟩
  · -- both print the merged entries, and merging them once more makes no difference
    have hmap := entryTexts_render t.mapEntries
    rw [hentries, mergeEntries_mergeEntries, ← entryTexts_render, ← renderEntries_eq] at hmap
    rw [hbase, render_inputObject, renderArguments_eq_ok.2 ⟨hall, rfl⟩, toMap, hentries]
    exact SameText.bind_same (congrArg Except.toOption hmap.symm) _
  · have hsome : t ≠ .none := by
      rintro rfl
      cases hbase
    simp [hsome, toMap]

/-- Trees that differ by one change are alike. -/
theorem alike_of_change {role : Role} {kind : ChangeKind} {t u : Tree} (h : Change role kind t u) : Alike role t u := by
  induction h with
  | description h => exact (alike_dropDescription _ _).trans (h ▸ (alike_dropDescription _ _).symm)
  | form h => exact (alike_dropForms _ _).trans (h ▸ (alike_dropForms _ _).symm)
  | derivation h d => exact alike_derived h d
  | symbol h base base' => exact alike_symbol h base base'
  | object before after hplace hvalue h =>
    have hchildren := forall₂_replace (R := fun _ => SameValue) (fun _ => .refl) before after (sameValue_toMap h)
    exact alike_withValues hvalue (hplace ▸ forall₂_of_zipIdx hchildren)
  | inside before after hplace h ih =>
    exact alike_withChildren (hplace ▸ forall₂_replace (R := fun i => Alike (Tree.role _ _ i)) (fun _ => .refl _) _ _ ih)

/-- Trees that differ by changes are alike, however many there are. -/
theorem alike_of_changes {role : Role} {t u : Tree}
    (h : Relation.ReflTransGen (fun t u => ∃ kind, Change role kind t u) t u) : Alike role t u := by
  induction h with
  | refl => exact .refl role t
  | tail _ hstep ih =>
    obtain ⟨kind, hchange⟩ := hstep
    exact ih.trans (alike_of_change hchange)

end Alike

/-! ## Descriptions and equality -/

/-- The description is no part of what is compared. -/
theorem content_dropDescription (t : Tree) : t.dropDescription.content = t.content := by
  cases t <;> rfl

/-- Parts of the same content give a node of the same content. -/
theorem content_withChildren {t : Tree} {cs : List Tree}
    (h : List.Forall₂ (fun c d => c.content = d.content) t.children cs) : (t.withChildren cs).content = t.content := by
  have hcontents : ∀ {xs ys : List Tree}, List.Forall₂ (fun c d => c.content = d.content) xs ys →
      contents ys = contents xs := by
    intro xs ys hall
    rw [contents_eq_map, contents_eq_map, map_eq_of_forall₂ content hall]
  cases t
  case seq s | inputObject s | directive n s | fragmentSpread n s | scalarType n s about
      | enumValueDefinition n s about | directiveDefinition n l s about | document s =>
    simp only [withChildren, content, hcontents h, children]
  case map entries =>
    have hzip : ∀ vs, entryContents ((entries.map (·.1)).zip vs) =
        ((entries.map (·.1)).map Key.atom).zip (vs.map content) := by
      intro vs
      rw [entryContents_eq_map, List.zip_map]
      rfl
    have hvalues : (entries.map (·.2)).map content = cs.map content := map_eq_of_forall₂ content h
    have hentries := hzip (entries.map (·.2))
    rw [zip_keys_values, hvalues, ← hzip] at hentries
    rw [withChildren, content, content, hentries]
  case derived d t | argument n t | listType t | nonNullType t =>
    cases h with
    | cons ht hnil => simp only [withChildren, content, List.headD_cons, ht]
  case variableDefinition n t v =>
    cases h with
    | cons ht htail =>
      cases htail with
      | cons hv hnil => simp only [withChildren, content, List.headD_cons, List.tail_cons, ht, hv]
  case inputValue n t v d about =>
    cases h with
    | cons ht htail =>
      cases htail with
      | cons hv hds => simp only [withChildren, content, List.headD_cons, List.tail_cons, ht, hv, hcontents hds]
  case inlineFragment t d s | fragment n t d s | fieldDefinition n t d s about =>
    cases h with
    | cons ht htail =>
      obtain ⟨hd, hs⟩ := forall₂_take_drop htail
      simp only [withChildren, content, List.headD_cons, List.tail_cons, ht, hcontents hd, hcontents hs]
  case field n m a d s | operation k n a d s =>
    rw [children, List.append_assoc] at h
    obtain ⟨ha, htail⟩ := forall₂_take_drop h
    obtain ⟨hd, hs⟩ := forall₂_take_drop htail
    simp only [withChildren, content, hcontents ha, hcontents hd, hcontents hs]
  case objectType n s i d about | interfaceType n s d about | unionType n s d about | enumType n s d about
      | inputType n s d about =>
    obtain ⟨hs, hd⟩ := forall₂_take_drop h
    simp only [withChildren, content, hcontents hs, hcontents hd]
  all_goals rfl

/-- A change of descriptions leaves the content as it is. -/
theorem content_of_change {role : Role} {t u : Tree} (h : Change role .description t u) : t.content = u.content := by
  generalize hkind : ChangeKind.description = kind at h
  induction h with
  | description h => rw [← content_dropDescription, h, content_dropDescription]
  | inside before after hplace h ih =>
    refine (content_withChildren ?_).symm
    rw [hplace]
    exact forall₂_of_zipIdx (forall₂_replace (R := fun _ (c d : Tree) => c.content = d.content) (fun _ _ => rfl) _ _ (ih hkind))
  | _ => cases hkind

/-- A row of such changes leaves it as it is. -/
theorem content_of_changes {role : Role} {t u : Tree} (h : Relation.ReflTransGen (Change role .description) t u) :
    t.content = u.content := by
  induction h with
  | refl => rfl
  | tail _ hstep ih => exact ih.trans (content_of_change hstep)

/-! ## What a text does not depend on -/

/-- A filtered document holds the definitions that pass. -/
theorem definitions_filterDefinitions (keep : Tree → Bool) (t : Tree) :
    (t.filterDefinitions keep).definitions = t.definitions.filter keep := by
  induction t using induction_on_children with
  | step t ih =>
    cases t
    case derived d t => exact ih t (List.mem_singleton_self t)
    all_goals rfl

/-- A filter chooses definitions by their names alone. -/
theorem names_filterDefinitions {t u : Tree} (h : t.definitions.map name? = u.definitions.map name?) (f : NameFilter) :
    (t.filterDefinitions f.keeps).definitions.map name? = (u.filterDefinitions f.keeps).definitions.map name? := by
  have hnames : ∀ ds : List Tree, (ds.filter f.keeps).map name? = (ds.map name?).filter (·.all f.accepts) := by
    intro ds
    rw [List.filter_map]
    rfl
  rw [definitions_filterDefinitions, definitions_filterDefinitions, hnames, hnames, h]

/-- The names of a document depend only on those of its definitions. -/
theorem definitionNames_eq {t u : Tree} (h : t.definitions.map name? = u.definitions.map name?) :
    t.definitionNames = u.definitionNames := by
  have hnames : ∀ v : Tree, v.definitionNames = (v.definitions.map name?).filterMap id := by
    intro v
    rw [List.filterMap_map]
    rfl
  rw [hnames, hnames, h]

/-- Changes that do not show, as many as there may be and however deep, leave a tree with the text and the signature
that it has, or without any. If only descriptions change, the trees are equal, unless a NaN, a symbol or an unknown
thing stands in them, and the definitions have the same names, with or without a filter. -/
theorem render_of_changes [Surroundings] {t u : Tree}
    (h : Relation.ReflTransGen (fun t u => ∃ kind, Change .printed kind t u) t u) :
    (∀ indent text, t.render indent = .ok text ↔ u.render indent = .ok text) ∧
      (∀ signature, t.signature = .ok signature ↔ u.signature = .ok signature) ∧
      (Relation.ReflTransGen (Change .printed .description) t u →
        (IsComparable t → t.same u = true) ∧ t.definitionNames = u.definitionNames ∧
          ∀ f : NameFilter,
            (t.filterDefinitions f.keeps).definitionNames = (u.filterDefinitions f.keeps).definitionNames) := by
  have halike := alike_of_changes h
  refine ⟨fun indent text => (halike.text indent).eq_ok_iff, fun signature => ((halike.text "").map _).eq_ok_iff,
    fun hdescriptions => ⟨fun hcomparable => ?_, definitionNames_eq halike.names,
      fun f => definitionNames_eq (names_filterDefinitions halike.names f)⟩⟩
  rw [Tree.same, ← content_of_changes hdescriptions]
  exact same_self hcomparable

/-- A scalar type with the given description, and with the given value in a directive of it. -/
def scalarWith (about : Option String) (value : Tree) : Tree :=
  .scalarType "A" (.tuple [.directive "d" (.tuple [.argument "x" value])]) about

/-- A description is dropped, a map takes the place of an object literal deep inside, and the whole becomes a thing of a
derived kind. -/
theorem render_of_changes_scalarWith :
    (scalarWith (some "about") (.inputObject (.tuple [.argument "a" .nullValue]))).render "" =
        .ok "scalar A @d(x: \x7ba: null\x7d)" ∧
      (Tree.derived ⟨0, "B"⟩ (scalarWith Option.none (.map [(.str "a", .nullValue)]))).render "" =
        .ok "scalar A @d(x: \x7ba: null\x7d)" ∧
      (scalarWith (some "about") .nullValue).same (scalarWith Option.none .nullValue) = true := by
  have habout : ∀ value, Change .printed .description (scalarWith (some "about") value) (scalarWith Option.none value) :=
    fun _ => .description rfl
  have hliteral : IsObject (.inputObject (.tuple [.argument "a" .nullValue])) :=
    ⟨_, rfl, List.forall_mem_singleton.2 rfl⟩
  have hvalue : Change .printed .object (.argument "x" (.inputObject (.tuple [.argument "a" .nullValue])))
      (.argument "x" (.map [(.str "a", .nullValue)])) :=
    Change.object (t := .argument "x" _) [] [] rfl rfl hliteral
  have hobject : Change .printed .object (scalarWith Option.none (.inputObject (.tuple [.argument "a" .nullValue])))
      (scalarWith Option.none (.map [(.str "a", .nullValue)])) :=
    .inside [] [] rfl (.inside [] [] rfl hvalue)
  have hderived : Change .printed .derivation (scalarWith Option.none (.map [(.str "a", .nullValue)]))
      (.derived ⟨0, "B"⟩ (scalarWith Option.none (.map [(.str "a", .nullValue)]))) := .derivation rfl _
  have hchanges := render_of_changes (.tail (.tail (.single ⟨_, habout _⟩) ⟨_, hobject⟩) ⟨_, hderived⟩)
  have hdescription := render_of_changes (.single ⟨_, habout .nullValue⟩)
  have hcomparable : IsComparable (scalarWith (some "about") .nullValue) := by
    simp [IsComparable, nodes_eq, children, IsComparableNode, scalarWith]
  exact ⟨rfl, (hchanges.1 "" _).1 rfl, (hdescription.2.2 (.single (habout _))).1 hcomparable⟩

/-- Other symbols of the same name are not the same everywhere. One built on integers may count as not given, and is left
out as a type condition; and in an object literal the values are printed. Nor is every symbol printed like the value
whose kind it is derived from: one built on integers is an integer, and is still printed as its name. -/
theorem render_of_other_symbols :
    let zero : Symbol Tree := { name := "A", isGiven := false, value := .int 0 }
    render (.fragment "F" (.symbol .plain "A") (.tuple []) (.tuple [])) "" = .ok "fragment F on A" ∧
      render (.fragment "F" (.symbol .integer zero) (.tuple []) (.tuple [])) "" = .ok "fragment F" ∧
      render (.inputObject (.tuple [.symbol .text "A"])) "" = .ok "\x7bA: \"A\"\x7d" ∧
      render (.inputObject (.tuple [.symbol .integer zero])) "" = .ok "\x7bA: 0\x7d" ∧
      render (.int 1) "" = .ok "1" ∧ render (.symbol .integer { name := "one", value := .int 1 }) "" = .ok "One" :=
  ⟨rfl, rfl, rfl, rfl, rfl, rfl⟩

end Tree

end GraphDoc
