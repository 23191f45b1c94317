import GraphDoc.Tree.Entries

/-!
# The shape of trees

What stands directly and anywhere inside a tree, and the trees that come from changing every node in
the same way, from the leaves up. Descriptions and names are no trees, so they count as parts of the
node that holds them.
-/

namespace GraphDoc

@[simp]
theorem Seq.items_tuple {α : Type} (items : List α) : (Seq.tuple items).items = items := rfl

theorem Seq.tuple_inj {α : Type} {xs ys : List α} : Seq.tuple xs = Seq.tuple ys ↔ xs = ys := by
  simp [Seq.tuple]

/-- The sequence with every item changed. -/
def Seq.map {α β : Type} (g : α → β) (s : Seq α) : Seq β := ⟨s.form, s.items.map g⟩

namespace Tree

/-- The trees that stand directly inside a tree. -/
def children : Tree → List Tree
  | .seq s | .inputObject s | .directive _ s | .fragmentSpread _ s | .scalarType _ s _
  | .enumValueDefinition _ s _ | .directiveDefinition _ _ s _ | .document s => s.items
  | .map entries => entries.map (·.2)
  | .derived _ t | .argument _ t | .listType t | .nonNullType t => [t]
  | .field _ _ a d s => a.items ++ d.items ++ s.items
  | .inlineFragment t d s | .fragment _ t d s => t :: (d.items ++ s.items)
  | .variableDefinition _ t v => [t, v]
  | .operation _ _ a d s => a.items ++ d.items ++ s.items
  | .inputValue _ t v d _ => t :: v :: d.items
  | .fieldDefinition _ t a d _ => t :: (a.items ++ d.items)
  | .objectType _ s _ d _ | .interfaceType _ s d _ | .unionType _ s d _ | .enumType _ s d _
  | .inputType _ s d _ => s.items ++ d.items
  | _ => []

/-- The tree with everything that stands directly inside it changed. -/
def mapChildren (g : Tree → Tree) : Tree → Tree
  | .seq s => .seq (s.map g)
  | .map entries => .map (entries.map fun e => (e.1, g e.2))
  | .derived n t => .derived n (g t)
  | .argument n t => .argument n (g t)
  | .inputObject s => .inputObject (s.map g)
  | .directive n s => .directive n (s.map g)
  | .listType t => .listType (g t)
  | .nonNullType t => .nonNullType (g t)
  | .field n m a d s => .field n m (a.map g) (d.map g) (s.map g)
  | .fragmentSpread n d => .fragmentSpread n (d.map g)
  | .inlineFragment t d s => .inlineFragment (g t) (d.map g) (s.map g)
  | .variableDefinition n t v => .variableDefinition n (g t) (g v)
  | .operation k n a d s => .operation k n (a.map g) (d.map g) (s.map g)
  | .fragment n t d s => .fragment n (g t) (d.map g) (s.map g)
  | .inputValue n t v d about => .inputValue n (g t) (g v) (d.map g) about
  | .fieldDefinition n t a d about => .fieldDefinition n (g t) (a.map g) (d.map g) about
  | .scalarType n d about => .scalarType n (d.map g) about
  | .objectType n s i d about => .objectType n (s.map g) i (d.map g) about
  | .interfaceType n s d about => .interfaceType n (s.map g) (d.map g) about
  | .unionType n s d about => .unionType n (s.map g) (d.map g) about
  | .enumValueDefinition n d about => .enumValueDefinition n (d.map g) about
  | .enumType n s d about => .enumType n (s.map g) (d.map g) about
  | .inputType n s d about => .inputType n (s.map g) (d.map g) about
  | .directiveDefinition n l a about => .directiveDefinition n l (a.map g) about
  | .document s => .document (s.map g)
  | t => t

/-- The tree with other trees in the places of those that stand directly inside it. -/
def withChildren (t : Tree) (cs : List Tree) : Tree :=
  match t with
  | .seq s => .seq ⟨s.form, cs⟩
  | .map entries => .map ((entries.map (·.1)).zip cs)
  | .derived n t => .derived n (cs.headD t)
  | .argument n t => .argument n (cs.headD t)
  | .inputObject s => .inputObject ⟨s.form, cs⟩
  | .directive n s => .directive n ⟨s.form, cs⟩
  | .listType t => .listType (cs.headD t)
  | .nonNullType t => .nonNullType (cs.headD t)
  | .field n m a d s =>
    .field n m ⟨a.form, cs.take a.items.length⟩ ⟨d.form, (cs.drop a.items.length).take d.items.length⟩
      ⟨s.form, (cs.drop a.items.length).drop d.items.length⟩
  | .fragmentSpread n d => .fragmentSpread n ⟨d.form, cs⟩
  | .inlineFragment t d s =>
    .inlineFragment (cs.headD t) ⟨d.form, cs.tail.take d.items.length⟩ ⟨s.form, cs.tail.drop d.items.length⟩
  | .variableDefinition n t v => .variableDefinition n (cs.headD t) (cs.tail.headD v)
  | .operation k n a d s =>
    .operation k n ⟨a.form, cs.take a.items.length⟩ ⟨d.form, (cs.drop a.items.length).take d.items.length⟩
      ⟨s.form, (cs.drop a.items.length).drop d.items.length⟩
  | .fragment n t d s =>
    .fragment n (cs.headD t) ⟨d.form, cs.tail.take d.items.length⟩ ⟨s.form, cs.tail.drop d.items.length⟩
  | .inputValue n t v d about => .inputValue n (cs.headD t) (cs.tail.headD v) ⟨d.form, cs.tail.tail⟩ about
  | .fieldDefinition n t a d about =>
    .fieldDefinition n (cs.headD t) ⟨a.form, cs.tail.take a.items.length⟩ ⟨d.form, cs.tail.drop a.items.length⟩ about
  | .scalarType n d about => .scalarType n ⟨d.form, cs⟩ about
  | .objectType n s i d about =>
    .objectType n ⟨s.form, cs.take s.items.length⟩ i ⟨d.form, cs.drop s.items.length⟩ about
  | .interfaceType n s d about =>
    .interfaceType n ⟨s.form, cs.take s.items.length⟩ ⟨d.form, cs.drop s.items.length⟩ about
  | .unionType n s d about =>
    .unionType n ⟨s.form, cs.take s.items.length⟩ ⟨d.form, cs.drop s.items.length⟩ about
  | .enumValueDefinition n d about => .enumValueDefinition n ⟨d.form, cs⟩ about
  | .enumType n s d about => .enumType n ⟨s.form, cs.take s.items.length⟩ ⟨d.form, cs.drop s.items.length⟩ about
  | .inputType n s d about => .inputType n ⟨s.form, cs.take s.items.length⟩ ⟨d.form, cs.drop s.items.length⟩ about
  | .directiveDefinition n l a about => .directiveDefinition n l ⟨a.form, cs⟩ about
  | .document s => .document ⟨s.form, cs⟩
  | t => t

/-- What stands inside a tree is smaller than the tree. -/
theorem sizeOf_lt_of_mem_children {t c : Tree} (h : c ∈ t.children) : sizeOf c < sizeOf t := by
  -- the item of a sequence is smaller than the sequence
  have hitem : ∀ s : Seq Tree, c ∈ s.items → sizeOf c < sizeOf s := by
    intro s hc
    have := List.sizeOf_lt_of_mem hc
    cases s
    simp only [Seq.mk.sizeOf_spec] at *
    omega
  cases t
  case map entries =>
    obtain ⟨e, he, rfl⟩ := List.mem_map.1 h
    have := List.sizeOf_lt_of_mem he
    cases e
    simp only [Prod.mk.sizeOf_spec, map.sizeOf_spec] at *
    omega
  all_goals simp only [children, List.mem_append, List.mem_cons, List.not_mem_nil, or_false] at h
  all_goals
    simp
    grind

/-- What holds of a tree whenever it holds of everything directly inside it holds of all trees. -/
theorem induction_on_children {P : Tree → Prop} (step : ∀ t, (∀ c ∈ t.children, P c) → P t)
    (t : Tree) : P t :=
  step t fun c hc =>
    have := sizeOf_lt_of_mem_children hc
    induction_on_children step c
termination_by sizeOf t

/-- The tree itself and all trees inside it. -/
def nodes (t : Tree) : List Tree :=
  t :: t.children.attach.flatMap fun c =>
    have := sizeOf_lt_of_mem_children c.2
    c.1.nodes
termination_by sizeOf t

theorem nodes_eq (t : Tree) : t.nodes = t :: t.children.flatMap nodes := by
  rw [nodes]
  simp

theorem mem_nodes {s t : Tree} : s ∈ t.nodes ↔ s = t ∨ ∃ c ∈ t.children, s ∈ c.nodes := by
  simp [nodes_eq t]

theorem mem_nodes_self (t : Tree) : t ∈ t.nodes := mem_nodes.2 (.inl rfl)

theorem mem_nodes_of_child {s c t : Tree} (hc : c ∈ t.children) (hs : s ∈ c.nodes) : s ∈ t.nodes :=
  mem_nodes.2 (.inr ⟨c, hc, hs⟩)

/-- What holds of all nodes holds of the tree itself and of all nodes of what stands inside it. -/
theorem forall_mem_nodes {P : Tree → Prop} {t : Tree} :
    (∀ s ∈ t.nodes, P s) ↔ P t ∧ ∀ c ∈ t.children, ∀ s ∈ c.nodes, P s := by
  simp only [mem_nodes (t := t)]
  constructor
  · intro h
    exact ⟨h t (.inl rfl), fun c hc s hs => h s (.inr ⟨c, hc, hs⟩)⟩
  · rintro ⟨ht, hc⟩ s (rfl | ⟨c, hmem, hs⟩)
    · exact ht
    · exact hc c hmem s hs

/-! ## Changing every node -/

mutual

/-- The tree with every node changed, from the leaves up. -/
def rewrite (f : Tree → Tree) : Tree → Tree
  | .seq ⟨form, items⟩ => f (.seq ⟨form, rewriteAll f items⟩)
  | .map entries => f (.map (rewriteEntries f entries))
  | .derived n t => f (.derived n (rewrite f t))
  | .argument n t => f (.argument n (rewrite f t))
  | .inputObject ⟨form, s⟩ => f (.inputObject ⟨form, rewriteAll f s⟩)
  | .directive n ⟨form, s⟩ => f (.directive n ⟨form, rewriteAll f s⟩)
  | .listType t => f (.listType (rewrite f t))
  | .nonNullType t => f (.nonNullType (rewrite f t))
  | .field n m ⟨fa, a⟩ ⟨fd, d⟩ ⟨fs, s⟩ =>
    f (.field n m ⟨fa, rewriteAll f a⟩ ⟨fd, rewriteAll f d⟩ ⟨fs, rewriteAll f s⟩)
  | .fragmentSpread n ⟨fd, d⟩ => f (.fragmentSpread n ⟨fd, rewriteAll f d⟩)
  | .inlineFragment t ⟨fd, d⟩ ⟨fs, s⟩ =>
    f (.inlineFragment (rewrite f t) ⟨fd, rewriteAll f d⟩ ⟨fs, rewriteAll f s⟩)
  | .variableDefinition n t v => f (.variableDefinition n (rewrite f t) (rewrite f v))
  | .operation k n ⟨fa, a⟩ ⟨fd, d⟩ ⟨fs, s⟩ =>
    f (.operation k n ⟨fa, rewriteAll f a⟩ ⟨fd, rewriteAll f d⟩ ⟨fs, rewriteAll f s⟩)
  | .fragment n t ⟨fd, d⟩ ⟨fs, s⟩ =>
    f (.fragment n (rewrite f t) ⟨fd, rewriteAll f d⟩ ⟨fs, rewriteAll f s⟩)
  | .inputValue n t v ⟨fd, d⟩ about =>
    f (.inputValue n (rewrite f t) (rewrite f v) ⟨fd, rewriteAll f d⟩ about)
  | .fieldDefinition n t ⟨fa, a⟩ ⟨fd, d⟩ about =>
    f (.fieldDefinition n (rewrite f t) ⟨fa, rewriteAll f a⟩ ⟨fd, rewriteAll f d⟩ about)
  | .scalarType n ⟨fd, d⟩ about => f (.scalarType n ⟨fd, rewriteAll f d⟩ about)
  | .objectType n ⟨fs, s⟩ i ⟨fd, d⟩ about =>
    f (.objectType n ⟨fs, rewriteAll f s⟩ i ⟨fd, rewriteAll f d⟩ about)
  | .interfaceType n ⟨fs, s⟩ ⟨fd, d⟩ about =>
    f (.interfaceType n ⟨fs, rewriteAll f s⟩ ⟨fd, rewriteAll f d⟩ about)
  | .unionType n ⟨fs, s⟩ ⟨fd, d⟩ about =>
    f (.unionType n ⟨fs, rewriteAll f s⟩ ⟨fd, rewriteAll f d⟩ about)
  | .enumValueDefinition n ⟨fd, d⟩ about => f (.enumValueDefinition n ⟨fd, rewriteAll f d⟩ about)
  | .enumType n ⟨fs, s⟩ ⟨fd, d⟩ about =>
    f (.enumType n ⟨fs, rewriteAll f s⟩ ⟨fd, rewriteAll f d⟩ about)
  | .inputType n ⟨fs, s⟩ ⟨fd, d⟩ about =>
    f (.inputType n ⟨fs, rewriteAll f s⟩ ⟨fd, rewriteAll f d⟩ about)
  | .directiveDefinition n l ⟨fa, a⟩ about => f (.directiveDefinition n l ⟨fa, rewriteAll f a⟩ about)
  | .document ⟨form, s⟩ => f (.document ⟨form, rewriteAll f s⟩)
  | t => f t

/-- The trees with every node changed. -/
def rewriteAll (f : Tree → Tree) : List Tree → List Tree
  | [] => []
  | t :: rest => rewrite f t :: rewriteAll f rest

/-- The entries with every node of their values changed. -/
def rewriteEntries (f : Tree → Tree) : List (Key × Tree) → List (Key × Tree)
  | [] => []
  | (key, t) :: rest => (key, rewrite f t) :: rewriteEntries f rest

end

theorem rewriteAll_eq_map (f : Tree → Tree) (ts : List Tree) : rewriteAll f ts = ts.map (rewrite f) := by
  induction ts with
  | nil => rfl
  | cons t rest ih => rw [rewriteAll, ih, List.map_cons]

theorem rewriteEntries_eq_map (f : Tree → Tree) (entries : List (Key × Tree)) :
    rewriteEntries f entries = entries.map fun e => (e.1, rewrite f e.2) := by
  induction entries with
  | nil => rfl
  | cons e rest ih => rw [rewriteEntries, ih, List.map_cons]

/-- Changing every node changes what stands inside the tree and then the tree. -/
theorem rewrite_eq (f : Tree → Tree) (t : Tree) : t.rewrite f = f (t.mapChildren (rewrite f)) := by
  cases t <;> simp only [rewrite, mapChildren, Seq.map, rewriteAll_eq_map, rewriteEntries_eq_map]

end Tree

end GraphDoc
