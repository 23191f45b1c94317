import GraphDoc.Proofs.Syntax.Conversion

/-!
# Constants

The parser for constants refuses variables and is otherwise the parser for values: it succeeds exactly where the other
one reads a value that holds no variable, and then the two read the same.
-/

namespace GraphDoc.Parser

variable {α β : Type} {p q : Parser α} {P : α → Prop}

/-- Whether one parser reads exactly what the other one reads and has the given property. -/
def Restricts (p q : Parser α) (P : α → Prop) : Prop :=
  ∀ tape x rest, p tape = .ok (x, rest) ↔ q tape = .ok (x, rest) ∧ P x

theorem bind_run_ok_iff {f : α → Parser β} {tape rest : Tape} {b : β} :
    (p >>= f) tape = .ok (b, rest) ↔ ∃ a mid, p tape = .ok (a, mid) ∧ f a mid = .ok (b, rest) :=
  ⟨bind_run_eq_ok, fun ⟨_, _, hp, hf⟩ => (bind_run hp f).trans hf⟩

namespace Restricts

/-- A parser restricts itself by what all its results have. -/
theorem self (h : ∀ tape x rest, p tape = .ok (x, rest) → P x) : Restricts p p P :=
  fun tape x rest => ⟨fun hp => ⟨hp, h tape x rest hp⟩, And.left⟩

/-- Two parsers may go on differently behind the same start. -/
theorem lead (p : Parser α) {f g : α → Parser β} {Q : β → Prop} (h : ∀ a, Restricts (f a) (g a) Q) :
    Restricts (p >>= f) (p >>= g) Q := by
  intro tape b rest
  simp only [bind_run_ok_iff]
  constructor
  · rintro ⟨a, mid, hp, hf⟩
    obtain ⟨hg, hb⟩ := (h a mid b rest).1 hf
    exact ⟨⟨a, mid, hp, hg⟩, hb⟩
  · rintro ⟨⟨a, mid, hp, hg⟩, hb⟩
    exact ⟨a, mid, hp, (h a mid b rest).2 ⟨hg, hb⟩⟩

/-- Two parsers may start differently in front of the same end, which leaves the result as it is. -/
theorem trail (h : Restricts p q P) (last : Parser Unit) :
    Restricts (p >>= fun a => last >>= fun _ => pure a) (q >>= fun a => last >>= fun _ => pure a) P := by
  intro tape b rest
  simp only [bind_run_ok_iff]
  constructor
  · rintro ⟨a, mid, hp, _, mid', hlast, hpure⟩
    obtain ⟨hq, ha⟩ := (h tape a mid).1 hp
    cases hpure
    exact ⟨⟨b, mid, hq, (), rest, hlast, rfl⟩, ha⟩
  · rintro ⟨⟨a, mid, hq, _, mid', hlast, hpure⟩, hb⟩
    cases hpure
    exact ⟨b, mid, (h tape b mid).2 ⟨hq, hb⟩, (), rest, hlast, rfl⟩

theorem map {f : α → β} {Q : β → Prop} (h : Restricts p q fun a => Q (f a)) : Restricts (f <$> p) (f <$> q) Q := by
  intro tape b rest
  rw [map_eq_pure_bind, map_eq_pure_bind, bind_run_ok_iff, bind_run_ok_iff]
  constructor
  · rintro ⟨a, mid, hp, hpure⟩
    obtain ⟨hq, ha⟩ := (h tape a mid).1 hp
    cases hpure
    exact ⟨⟨a, rest, hq, rfl⟩, ha⟩
  · rintro ⟨⟨a, mid, hq, hpure⟩, hb⟩
    cases hpure
    exact ⟨a, rest, (h tape a rest).2 ⟨hq, hb⟩, rfl⟩

/-- An item and the list behind it. -/
theorem cons (h : Restricts p q P) {ps qs : Parser (List α)} (hs : Restricts ps qs fun xs => ∀ x ∈ xs, P x) :
    Restricts (p >>= fun a => ps >>= fun as => pure (a :: as)) (q >>= fun a => qs >>= fun as => pure (a :: as))
      fun xs => ∀ x ∈ xs, P x := by
  intro tape xs rest
  simp only [bind_run_ok_iff]
  constructor
  · rintro ⟨a, mid, hp, as, mid', hps, hpure⟩
    obtain ⟨hq, ha⟩ := (h tape a mid).1 hp
    obtain ⟨hqs, has⟩ := (hs mid as mid').1 hps
    cases hpure
    exact ⟨⟨a, mid, hq, as, rest, hqs, rfl⟩, List.forall_mem_cons.2 ⟨ha, has⟩⟩
  · rintro ⟨⟨a, mid, hq, as, mid', hqs, hpure⟩, hall⟩
    cases hpure
    obtain ⟨ha, has⟩ := List.forall_mem_cons.1 hall
    exact ⟨a, mid, (h tape a mid).2 ⟨hq, ha⟩, as, rest, (hs mid as rest).2 ⟨hqs, has⟩, rfl⟩

theorem repeatWhile (h : Restricts p q P) (test : Token → Bool) (bound : Tape) :
    Restricts (repeatWhile test p bound) (repeatWhile test q bound) fun xs => ∀ x ∈ xs, P x := by
  have hnil : Restricts (pure [] : Parser (List α)) (pure []) fun xs => ∀ x ∈ xs, P x := by
    refine self fun tape xs rest hpure => ?_
    cases hpure
    simp
  induction bound with
  | finish | fault e =>
    refine lead peek fun t => ?_
    split
    · exact h.cons hnil
    · exact hnil
  | next token place bound ih =>
    refine lead peek fun t => ?_
    split
    · exact h.cons ih
    · exact hnil

theorem any (h : Restricts p q P) (opening close : Punct) :
    Restricts (any opening p close) (any opening q close) fun xs => ∀ x ∈ xs, P x :=
  lead _ fun _ => trail (lead get fun bound => h.repeatWhile _ bound) _

end Restricts

end GraphDoc.Parser

namespace GraphDoc.Syntax

open GraphDoc.Parser

/-! ## Constants -/

/-- A value that holds no variable. -/
inductive Value.IsConstant : Value → Prop
  | mk {v : Value} (hself : ∀ name, v ≠ .variable name) (hparts : ∀ x ∈ v.parts, IsConstant x) : IsConstant v

theorem Value.isConstant_iff {v : Value} :
    v.IsConstant ↔ (∀ name, v ≠ .variable name) ∧ ∀ x ∈ v.parts, x.IsConstant :=
  ⟨fun ⟨hself, hparts⟩ => ⟨hself, hparts⟩, fun ⟨hself, hparts⟩ => ⟨hself, hparts⟩⟩

theorem Value.isConstant_list {values : List Value} :
    (Value.list values).IsConstant ↔ ∀ v ∈ values, v.IsConstant := by
  rw [isConstant_iff]
  simp [parts]

theorem Value.isConstant_object {fields : List (String × Value)} :
    (Value.object fields).IsConstant ↔ ∀ f ∈ fields, f.2.IsConstant := by
  rw [isConstant_iff, parts, List.forall_mem_map]
  simp

/-- A value that takes one token is read by both parsers. -/
private theorem restricts_token {v : Value} (hself : ∀ name, v ≠ .variable name) (hparts : v.parts = []) :
    Restricts (do
      advance
      return v) (do
      advance
      return v) Value.IsConstant := by
  refine .lead _ fun _ => .self fun tape x rest hpure => ?_
  cases hpure
  exact ⟨hself, by simp [hparts]⟩

private theorem restricts_failHere (fault : Token → Fault) (P : Value → Prop) :
    Restricts (failHere fault) (failHere fault) P := by
  refine .self fun tape x rest hfail => ?_
  obtain ⟨_, _, -, hfail⟩ := bind_run_eq_ok hfail
  cases hfail

/-- Where the one parser refuses a variable, the other one reads it. -/
private theorem restricts_variable :
    Restricts refuseVariable (Value.variable <$> variableName) Value.IsConstant := by
  intro tape x rest
  constructor
  · intro h
    obtain ⟨_, _, -, h⟩ := bind_run_eq_ok h
    obtain ⟨_, _, -, h⟩ := bind_run_eq_ok h
    obtain ⟨token, _, -, h⟩ := bind_run_eq_ok h
    cases token <;> cases h
  · rintro ⟨h, hconstant⟩
    rw [map_eq_pure_bind] at h
    obtain ⟨name, _, -, h⟩ := bind_run_eq_ok h
    cases h
    exact absurd rfl ((Value.isConstant_iff.1 hconstant).1 name)

private theorem restricts_objectField {p q : Parser Value} (h : Restricts p q Value.IsConstant) :
    Restricts (objectField p) (objectField q) fun f => f.2.IsConstant := by
  refine .lead _ fun key => .lead _ fun _ => ?_
  rw [← map_eq_pure_bind, ← map_eq_pure_bind]
  exact .map h

private theorem restricts_valueWith {p q : Option (Parser Value)}
    (h : p = none ∧ q = none ∨ ∃ p' q', p = some p' ∧ q = some q' ∧ Restricts p' q' Value.IsConstant) :
    Restricts (valueWith true p) (valueWith false q) Value.IsConstant := by
  refine .lead peek fun token => ?_
  cases token with
  | punct m =>
    cases m with
    | bracketL =>
      obtain ⟨rfl, rfl⟩ | ⟨p, q, rfl, rfl, h⟩ := h
      · exact restricts_failHere _ _
      · refine .map ?_
        simpa only [Value.isConstant_list] using h.any .bracketL .bracketR
    | braceL =>
      obtain ⟨rfl, rfl⟩ | ⟨p, q, rfl, rfl, h⟩ := h
      · exact restricts_failHere _ _
      · refine .map ?_
        simpa only [Value.isConstant_object] using (restricts_objectField h).any .braceL .braceR
    | dollar => exact restricts_variable
    | _ => exact restricts_failHere _ _
  | int text | float text | string value | blockString value => exact restricts_token (by simp) rfl
  | name word =>
    refine restricts_token ?_ ?_ <;> unfold valueOfName <;> split_ifs <;> simp [Value.parts]
  | _ => exact restricts_failHere _ _

/-- A constant is read where a value is read that holds no variable, and as that value. -/
theorem restricts_value (d : Nat) : Restricts (value true d) (value false d) Value.IsConstant := by
  induction d with
  | zero => exact restricts_valueWith (.inl ⟨rfl, rfl⟩)
  | succ d ih => exact restricts_valueWith (.inr ⟨_, _, rfl, rfl, ih⟩)

/-! ## Trees of constants -/

theorem not_mem_nodes_variable_iff {t : Tree} :
    (∀ name, .variable name ∉ t.nodes) ↔
      (∀ name, t ≠ .variable name) ∧ ∀ c ∈ t.children, ∀ name, .variable name ∉ c.nodes := by
  have hself : ∀ u : Tree, (∀ name, .variable name ∉ u.nodes) ↔ ∀ s ∈ u.nodes, ∀ name, s ≠ .variable name :=
    fun u => ⟨fun h s hs name heq => h name (heq ▸ hs), fun h name hmem => h _ hmem name rfl⟩
  simp only [hself]
  exact Tree.forall_mem_nodes

/-- A value holds no variable exactly if its tree does not. -/
theorem Value.isConstant_iff_of_toTree (v : Value) {t : Tree} (h : v.toTree = .ok t) :
    v.IsConstant ↔ ∀ name, .variable name ∉ t.nodes := by
  have ih : ∀ x ∈ v.parts, ∀ u, x.toTree = .ok u → (x.IsConstant ↔ ∀ name, .variable name ∉ u.nodes) := by
    intro x hx u hu
    have := Value.sizeOf_lt_of_mem_parts hx
    exact x.isConstant_iff_of_toTree hu
  rw [not_mem_nodes_variable_iff]
  cases Value.hasTree h with
  | list hts =>
    rw [isConstant_list, forall_mem_iff_of_mapM hts ih]
    simp [Tree.children]
  | @object fields entries hentries =>
    have hfield : ∀ f ∈ fields, ∀ e, fieldEntry f = .ok e →
        (f.2.IsConstant ↔ ∀ name, .variable name ∉ e.2.nodes) := by
      intro f hf e he
      obtain ⟨u, hu, rfl⟩ := map_eq_ok.1 he
      exact ih f.2 (List.mem_map_of_mem hf) u hu
    have hchildren : (Tree.inputObject (.tuple (Tree.ofEntries entries))).children = Tree.ofEntries entries := rfl
    have hargument : ∀ (name : String) (u : Tree),
        (∀ other, .variable other ∉ (Tree.argument name u).nodes) ↔ ∀ other, .variable other ∉ u.nodes := by
      intro name u
      rw [not_mem_nodes_variable_iff]
      simp [Tree.children]
    rw [isConstant_object, forall_mem_iff_of_mapM hentries hfield, hchildren, Tree.ofEntries, List.forall_mem_map]
    simp only [hargument]
    simp
  | _ =>
    rw [isConstant_iff]
    simp [parts, Tree.children]
termination_by sizeOf v

end GraphDoc.Syntax
