import GraphDoc.Proofs.Syntax.Essence
import GraphDoc.Proofs.Syntax.Parsed

/-!
# What conversion keeps

Two documents have one tree exactly if they have one essence. The lemmas go phrase by phrase: whenever two
phrases are both converted, their trees agree exactly if their essences do.
-/

namespace GraphDoc.Syntax

open GraphDoc.Tree (ofEntries)

/-- Whether two phrases have the same trees exactly if they have the same essence. -/
def Agree {α β τ : Type} (conv : α → Converted τ) (essence : α → β) (x y : α) : Prop :=
  ∀ ⦃t u⦄, conv x = .ok t → conv y = .ok u → (t = u ↔ essence x = essence y)

/-- Lists agree if their items do, whichever are set side by side. -/
theorem agree_mapM {α β τ : Type} {conv : α → Converted τ} {essence : α → β} {xs ys : List α}
    (h : ∀ x ∈ xs, ∀ y ∈ ys, Agree conv essence x y) : Agree (List.mapM conv) (List.map essence) xs ys := by
  intro ts us hts hus
  rw [mapM_eq_ok] at hts hus
  induction hts generalizing ys us with
  | nil => cases hus <;> simp
  | cons hx hxs ih =>
    cases hus with
    | nil => simp
    | cons hy hys =>
      have hhead := h _ (by simp) _ (by simp) hx hy
      have htail := ih (fun x hx y hy => h x (List.mem_cons_of_mem _ hx) y (List.mem_cons_of_mem _ hy)) hys
      rw [List.cons.injEq, List.map_cons, List.map_cons, List.cons.injEq, hhead, htail]

/-- Two descriptions are kept alike exactly if their essences are. -/
theorem describe_eq_iff {a b : Option StringLiteral} :
    describe a = describe b ↔ a.map StringLiteral.essence = b.map StringLiteral.essence := by
  cases a <;> cases b <;> simp [describe, StringLiteral.essence]

/-- Integers that can be read are equal exactly if their texts have one essence. -/
theorem eq_iff_integerEssence_eq {s s' : String} {n n' : Int} (h : Integer.read s = .ok n)
    (h' : Integer.read s' = .ok n') : n = n' ↔ integerEssence s = integerEssence s' := by
  simp only [integerEssence, h, h']
  refine ⟨fun heq => by rw [heq], fun heq => ?_⟩
  have hread := Integer.read_text (Integer.isTooLong_of_read h)
  rw [heq, Integer.read_text (Integer.isTooLong_of_read h')] at hread
  exact (Except.ok.inj hread).symm

/-! ## Values and types -/

/-- How a value and its tree hang together. -/
inductive Value.HasTree : Value → Tree → Prop
  | variable {name : String} : HasTree (.variable name) (.variable name)
  | int {text : String} {n : Int} (h : Integer.read text = .ok n) : HasTree (.int text) (.int n)
  | float {text : String} : HasTree (.float text) (.floatValue text)
  | string {s : StringLiteral} : HasTree (.string s) (.str s.value)
  | boolean {b : Bool} : HasTree (.boolean b) (.bool b)
  | null : HasTree .null .nullValue
  | enum {name : String} : HasTree (.enum name) (.enumValue name)
  | list {values : List Value} {ts : List Tree} (h : values.mapM Value.toTree = .ok ts) :
      HasTree (.list values) (.seq ⟨.list, ts⟩)
  | object {fields : List (String × Value)} {entries : List (String × Tree)}
      (h : fields.mapM fieldEntry = .ok entries) :
      HasTree (.object fields) (.inputObject (.tuple (ofEntries entries)))

/-- Whatever tree a value is converted to, the two hang together in one of these ways. -/
theorem Value.hasTree {v : Value} {t : Tree} (h : v.toTree = .ok t) : v.HasTree t := by
  cases v with
  | int text =>
    rw [Value.toTree] at h
    split at h
    · rename_i n hn
      cases h
      exact .int hn
    · cases h
  | list values =>
    obtain ⟨ts, hts, h⟩ := bind_eq_ok.1 h
    cases h
    exact .list (toTrees_eq_mapM values ▸ hts)
  | object fields =>
    obtain ⟨ts, hts, h⟩ := bind_eq_ok.1 h
    cases h
    rw [fieldTrees_eq_mapM] at hts
    obtain ⟨entries, hentries, rfl⟩ := map_eq_ok.1 hts
    exact .object hentries
  | other kind => cases h
  | _ =>
    cases h
    constructor

/-- The arguments of an input object say what its entries are. -/
theorem ofEntries_injective {es es' : List (String × Tree)} : ofEntries es = ofEntries es' ↔ es = es' := by
  rw [ofEntries, ofEntries, List.map_inj_right]
  rintro ⟨n, t⟩ ⟨n', t'⟩ h
  cases h
  rfl

/-- Entries agree if their values do. -/
theorem agree_fieldEntry {f g : String × Value} (h : Agree Value.toTree Value.essence f.2 g.2) :
    Agree fieldEntry (fun f => (f.1, f.2.essence)) f g := by
  intro e e' he he'
  obtain ⟨t, ht, rfl⟩ := map_eq_ok.1 he
  obtain ⟨u, hu, rfl⟩ := map_eq_ok.1 he'
  rw [Prod.mk.injEq, Prod.mk.injEq, h ht hu]

/-- The values right inside a value. -/
def Value.parts : Value → List Value
  | .list values => values
  | .object fields => fields.map (·.2)
  | _ => []

/-- The parts of a value are smaller than it. -/
theorem Value.sizeOf_lt_of_mem_parts {v x : Value} (h : x ∈ v.parts) : sizeOf x < sizeOf v := by
  cases v with
  | list values =>
    have hlt : sizeOf x < sizeOf values := List.sizeOf_lt_of_mem h
    rw [Value.list.sizeOf_spec]
    omega
  | object fields =>
    obtain ⟨⟨name, value⟩, hf, rfl⟩ := List.mem_map.1 h
    have hlt := List.sizeOf_lt_of_mem hf
    rw [Prod.mk.sizeOf_spec] at hlt
    rw [Value.object.sizeOf_spec]
    show sizeOf value < _
    omega
  | _ => cases h

/-- Values of different kinds differ in tree and essence; values of one kind agree as their parts do. -/
theorem agree_value (v w : Value) : Agree Value.toTree Value.essence v w := by
  intro t u ht hu
  -- on the size of the first value; the parts of the second can be anything
  have ih : ∀ x ∈ v.parts, ∀ y, Agree Value.toTree Value.essence x y := by
    intro x hx y
    have := Value.sizeOf_lt_of_mem_parts hx
    exact agree_value x y
  cases Value.hasTree ht with
  | list hts =>
    cases Value.hasTree hu with
    | list hus =>
      have hitems := agree_mapM (fun x (hx : x ∈ Value.parts (.list _)) y _ => ih x hx y) hts hus
      simp [Value.essence, Value.essences_eq_map, hitems, Value.parts]
    | _ => simp [Value.essence]
  | object hts =>
    cases Value.hasTree hu with
    | object hus =>
      have hitems := agree_mapM (fun f hf g _ => agree_fieldEntry (ih f.2 (List.mem_map_of_mem hf) g.2)) hts hus
      simp [Value.essence, Value.fieldEssences_eq_map, Seq.tuple, ofEntries_injective, hitems]
    | _ => simp [Value.essence]
  | int hn =>
    cases Value.hasTree hu with
    | int hm => simp [Value.essence, eq_iff_integerEssence_eq hn hm]
    | _ => simp [Value.essence]
  | _ => cases Value.hasTree hu <;> simp [Value.essence, StringLiteral.essence]
termination_by sizeOf v

/-! ## Arguments and directives -/

/-- Arguments agree. -/
theorem agree_argument (a b : Argument) : Agree Argument.toTree Argument.essence a b := by
  intro t u ht hu
  obtain ⟨x, hx, ht⟩ := bind_eq_ok.1 ht
  obtain ⟨y, hy, hu⟩ := bind_eq_ok.1 hu
  cases ht
  cases hu
  simp [Argument.essence, agree_value _ _ hx hy]

/-- Lists of arguments agree. -/
theorem agree_arguments (as bs : List Argument) :
    Agree (List.mapM Argument.toTree) (List.map Argument.essence) as bs :=
  agree_mapM fun a _ b _ => agree_argument a b

/-- Directives agree. -/
theorem agree_directive (d e : Directive) : Agree Directive.toTree Directive.essence d e := by
  intro t u ht hu
  obtain ⟨x, hx, ht⟩ := bind_eq_ok.1 ht
  obtain ⟨y, hy, hu⟩ := bind_eq_ok.1 hu
  cases ht
  cases hu
  simp [Directive.essence, Seq.tuple, agree_arguments _ _ hx hy]

/-- Lists of directives agree. -/
theorem agree_directives (ds es : List Directive) : Agree directiveTrees (List.map Directive.essence) ds es := by
  intro t u ht hu
  obtain ⟨x, hx, rfl⟩ := map_eq_ok.1 ht
  obtain ⟨y, hy, rfl⟩ := map_eq_ok.1 hu
  simp [Seq.tuple, agree_mapM (fun d _ e _ => agree_directive d e) hx hy]

/-- The tree of a value is not the absent one, so a default can be told from none. -/
theorem toTree_ne_none {v : Value} {t : Tree} (h : v.toTree = .ok t) : t ≠ .none := by
  cases Value.hasTree h <;> simp

/-- No tree of a value stands for a missing default. -/
theorem agree_default (v w : Option Value) : Agree defaultTree (Option.map Value.essence) v w := by
  intro t u ht hu
  cases v with
  | none =>
    cases ht
    cases w with
    | none =>
      cases hu
      simp
    | some w => simpa using (toTree_ne_none hu).symm
  | some v =>
    cases w with
    | none =>
      cases hu
      simpa using toTree_ne_none ht
    | some w => simpa using agree_value v w ht hu

/-- Types agree, as each is its own essence. -/
theorem agree_type (r q : TypeRef) : Agree TypeRef.toTree id r q := by
  induction r generalizing q with
  | named name =>
    intro t u ht hu
    cases ht
    cases q with
    | named => cases hu; simp
    | other => cases hu
    | _ =>
      obtain ⟨y, hy, hu⟩ := bind_eq_ok.1 hu
      cases hu
      simp
  | list of ih =>
    intro t u ht hu
    obtain ⟨x, hx, ht⟩ := bind_eq_ok.1 ht
    cases ht
    cases q with
    | named => cases hu; simp
    | other => cases hu
    | _ =>
      obtain ⟨y, hy, hu⟩ := bind_eq_ok.1 hu
      cases hu
      simp [ih _ hx hy]
  | nonNull of ih =>
    intro t u ht hu
    obtain ⟨x, hx, ht⟩ := bind_eq_ok.1 ht
    cases ht
    cases q with
    | named => cases hu; simp
    | other => cases hu
    | _ =>
      obtain ⟨y, hy, hu⟩ := bind_eq_ok.1 hu
      cases hu
      simp [ih _ hx hy]
  | other kind =>
    intro t u ht
    cases ht

/-! ## Selections -/

/-- The selections right inside a selection. -/
def Selection.parts : Selection → List Selection
  | .field _ _ _ _ set | .inline _ _ set => set.getD []
  | _ => []

/-- The selections inside a selection are smaller than it. -/
theorem Selection.sizeOf_lt_of_mem_parts {s x : Selection} (h : x ∈ s.parts) : sizeOf x < sizeOf s := by
  cases s with
  | field aliasName name args dirs set =>
    cases set with
    | none => cases h
    | some set =>
      have hlt : sizeOf x < sizeOf set := List.sizeOf_lt_of_mem h
      rw [Selection.field.sizeOf_spec, Option.some.sizeOf_spec]
      omega
  | inline type dirs set =>
    cases set with
    | none => cases h
    | some set =>
      have hlt : sizeOf x < sizeOf set := List.sizeOf_lt_of_mem h
      rw [Selection.inline.sizeOf_spec, Option.some.sizeOf_spec]
      omega
  | _ => cases h

/-- Selection sets agree once a missing one counts as empty. -/
theorem agree_set {s r : Option (List Selection)}
    (h : ∀ x ∈ s.getD [], ∀ y ∈ r.getD [], Agree Selection.toTree (Selection.essence true) x y) :
    Agree Selection.setTrees (Selection.setEssence true) s r := by
  -- no set and an empty set have the same tree, and the same essence
  have hget : ∀ {s : Option (List Selection)} {t}, Selection.setTrees s = .ok t →
      ∃ ts, (s.getD []).mapM Selection.toTree = .ok ts ∧ t = .tuple ts := by
    intro s t h
    cases s with
    | none =>
      cases h
      exact ⟨[], rfl, rfl⟩
    | some s =>
      obtain ⟨ts, hts, h⟩ := bind_eq_ok.1 h
      cases h
      exact ⟨ts, selectionTrees_eq_mapM s ▸ hts, rfl⟩
  have hessence : ∀ s, Selection.setEssence true s = some ((s.getD []).map (Selection.essence true)) := by
    intro s
    cases s with
    | none => rfl
    | some s => rw [Selection.setEssence, Selection.essences_eq_map, Option.getD_some]
  intro t u ht hu
  obtain ⟨ts, hts, rfl⟩ := hget ht
  obtain ⟨us, hus, rfl⟩ := hget hu
  rw [hessence, hessence, Option.some.injEq, ← agree_mapM h hts hus]
  simp [Seq.tuple]

/-- A type condition can be told from its tree. -/
theorem conditionTree_eq_iff {a b : Option String} : conditionTree a = conditionTree b ↔ a = b := by
  cases a <;> cases b <;> simp [conditionTree]

/-- How a selection and its tree hang together. -/
inductive Selection.HasTree : Selection → Tree → Prop
  | field {aliasName : Option String} {name : String} {arguments : List Argument} {directives : List Directive}
      {set : Option (List Selection)} {as : List Tree} {ds ss : Seq Tree}
      (hargs : arguments.mapM Argument.toTree = .ok as) (hdirs : directiveTrees directives = .ok ds)
      (hset : Selection.setTrees set = .ok ss) :
      HasTree (.field aliasName name arguments directives set) (.field name aliasName (.tuple as) ds ss)
  | spread {name : String} {directives : List Directive} {ds : Seq Tree} (hdirs : directiveTrees directives = .ok ds) :
      HasTree (.spread name directives) (.fragmentSpread name ds)
  | inline {type : Option String} {directives : List Directive} {set : Option (List Selection)} {ds ss : Seq Tree}
      (hdirs : directiveTrees directives = .ok ds) (hset : Selection.setTrees set = .ok ss) :
      HasTree (.inline type directives set) (.inlineFragment (conditionTree type) ds ss)

/-- Whatever tree a selection is converted to, the two hang together in one of these ways. -/
theorem Selection.hasTree {s : Selection} {t : Tree} (h : s.toTree = .ok t) : s.HasTree t := by
  cases s with
  | field aliasName name args dirs set =>
    rw [Selection.toTree] at h
    obtain ⟨as, has, h⟩ := bind_eq_ok.1 h
    obtain ⟨ds, hds, h⟩ := bind_eq_ok.1 h
    obtain ⟨ss, hss, h⟩ := bind_eq_ok.1 h
    cases h
    exact .field has hds hss
  | spread name dirs =>
    obtain ⟨ds, hds, h⟩ := bind_eq_ok.1 h
    cases h
    exact .spread hds
  | inline type dirs set =>
    rw [Selection.toTree] at h
    obtain ⟨ds, hds, h⟩ := bind_eq_ok.1 h
    obtain ⟨ss, hss, h⟩ := bind_eq_ok.1 h
    cases h
    exact .inline hds hss
  | other kind => cases h

/-- Selections agree, with an empty set filled in where none is given. -/
theorem agree_selection (s r : Selection) : Agree Selection.toTree (Selection.essence true) s r := by
  intro t u ht hu
  -- on the size of the first selection, as for values
  have ih : ∀ x ∈ s.parts, ∀ y, Agree Selection.toTree (Selection.essence true) x y := by
    intro x hx y
    have := Selection.sizeOf_lt_of_mem_parts hx
    exact agree_selection x y
  cases Selection.hasTree ht with
  | field hargs hdirs hset =>
    cases Selection.hasTree hu with
    | field hargs' hdirs' hset' =>
      have harg := agree_arguments _ _ hargs hargs'
      have hdir := agree_directives _ _ hdirs hdirs'
      have hsel := agree_set (fun x hx y _ => ih x hx y) hset hset'
      simp only [Selection.essence, Tree.field.injEq, Selection.field.injEq, Seq.tuple_inj, harg, hdir, hsel]
      tauto
    | _ => simp [Selection.essence]
  | spread hdirs =>
    cases Selection.hasTree hu with
    | spread hdirs' => simp [Selection.essence, agree_directives _ _ hdirs hdirs']
    | _ => simp [Selection.essence]
  | inline hdirs hset =>
    cases Selection.hasTree hu with
    | inline hdirs' hset' =>
      have hdir := agree_directives _ _ hdirs hdirs'
      have hsel := agree_set (fun x hx y _ => ih x hx y) hset hset'
      simp [Selection.essence, conditionTree_eq_iff, hdir, hsel]
    | _ => simp [Selection.essence]
termination_by sizeOf s

/-- Selection sets agree. -/
theorem agree_selections (s r : Option (List Selection)) :
    Agree Selection.setTrees (Selection.setEssence true) s r :=
  agree_set fun x _ y _ => agree_selection x y

/-! ## Parts of definitions -/

/-- Variable definitions agree. -/
theorem agree_variable (v w : VariableDefinition) :
    Agree VariableDefinition.toTree VariableDefinition.essence v w := by
  intro t u ht hu
  rw [VariableDefinition.toTree] at ht hu
  split at ht
  · cases ht
  split at hu
  · cases hu
  obtain ⟨x, hx, ht⟩ := bind_eq_ok.1 ht
  obtain ⟨a, ha, ht⟩ := bind_eq_ok.1 ht
  obtain ⟨y, hy, hu⟩ := bind_eq_ok.1 hu
  obtain ⟨b, hb, hu⟩ := bind_eq_ok.1 hu
  cases ht
  cases hu
  have hdirs : v.directives = [] := by simp_all
  have hdirs' : w.directives = [] := by simp_all
  simp [VariableDefinition.essence, agree_type _ _ hx hy, agree_default _ _ ha hb, hdirs, hdirs']

/-- Input values agree. -/
theorem agree_inputValue (v w : InputValue) : Agree InputValue.toTree InputValue.essence v w := by
  intro t u ht hu
  obtain ⟨x, hx, ht⟩ := bind_eq_ok.1 ht
  obtain ⟨a, ha, ht⟩ := bind_eq_ok.1 ht
  obtain ⟨ds, hds, ht⟩ := bind_eq_ok.1 ht
  obtain ⟨y, hy, hu⟩ := bind_eq_ok.1 hu
  obtain ⟨b, hb, hu⟩ := bind_eq_ok.1 hu
  obtain ⟨es, hes, hu⟩ := bind_eq_ok.1 hu
  cases ht
  cases hu
  simp [InputValue.essence, agree_type _ _ hx hy, agree_default _ _ ha hb, agree_directives _ _ hds hes,
    describe_eq_iff]
  tauto

/-- Field definitions agree. -/
theorem agree_fieldDefinition (f g : FieldDefinition) :
    Agree FieldDefinition.toTree FieldDefinition.essence f g := by
  intro t u ht hu
  obtain ⟨x, hx, ht⟩ := bind_eq_ok.1 ht
  obtain ⟨as, has, ht⟩ := bind_eq_ok.1 ht
  obtain ⟨ds, hds, ht⟩ := bind_eq_ok.1 ht
  obtain ⟨y, hy, hu⟩ := bind_eq_ok.1 hu
  obtain ⟨bs, hbs, hu⟩ := bind_eq_ok.1 hu
  obtain ⟨es, hes, hu⟩ := bind_eq_ok.1 hu
  cases ht
  cases hu
  have hargs := agree_mapM (fun v _ w _ => agree_inputValue v w) has hbs
  simp only [FieldDefinition.essence, Tree.fieldDefinition.injEq, FieldDefinition.mk.injEq, Seq.tuple_inj,
    agree_type _ _ hx hy, hargs, agree_directives _ _ hds hes, describe_eq_iff, id]
  tauto

/-- Enum values agree. -/
theorem agree_enumValue (v w : EnumValueDefinition) :
    Agree EnumValueDefinition.toTree EnumValueDefinition.essence v w := by
  intro t u ht hu
  obtain ⟨ds, hds, ht⟩ := bind_eq_ok.1 ht
  obtain ⟨es, hes, hu⟩ := bind_eq_ok.1 hu
  cases ht
  cases hu
  simp only [EnumValueDefinition.essence, Tree.enumValueDefinition.injEq, EnumValueDefinition.mk.injEq,
    agree_directives _ _ hds hes, describe_eq_iff]
  tauto

/-! ## Definitions -/

/-- The kind of an operation can be told from its keyword. -/
theorem keyword_injective {k l : OperationKind} : k.keyword = l.keyword ↔ k = l := by
  cases k <;> cases l <;> decide

/-- Operations agree. -/
theorem agree_operation (o p : Operation) : Agree Operation.toTree (Operation.essence true) o p := by
  intro t u ht hu
  obtain ⟨vs, hvs, ht⟩ := bind_eq_ok.1 ht
  obtain ⟨ds, hds, ht⟩ := bind_eq_ok.1 ht
  obtain ⟨ss, hss, ht⟩ := bind_eq_ok.1 ht
  obtain ⟨ws, hws, hu⟩ := bind_eq_ok.1 hu
  obtain ⟨es, hes, hu⟩ := bind_eq_ok.1 hu
  obtain ⟨rs, hrs, hu⟩ := bind_eq_ok.1 hu
  cases ht
  cases hu
  have hvars := agree_mapM (fun v _ w _ => agree_variable v w) hvs hws
  simp only [Operation.essence, Tree.operation.injEq, Operation.mk.injEq, Seq.tuple_inj, keyword_injective, hvars,
    agree_directives _ _ hds hes, agree_selections _ _ hss hrs, true_and]

/-- Fragments agree. -/
theorem agree_fragment (f g : Fragment) : Agree Fragment.toTree (Fragment.essence true) f g := by
  intro t u ht hu
  obtain ⟨ds, hds, ht⟩ := bind_eq_ok.1 ht
  obtain ⟨ss, hss, ht⟩ := bind_eq_ok.1 ht
  obtain ⟨es, hes, hu⟩ := bind_eq_ok.1 hu
  obtain ⟨rs, hrs, hu⟩ := bind_eq_ok.1 hu
  cases ht
  cases hu
  simp only [Fragment.essence, Tree.fragment.injEq, Fragment.mk.injEq, conditionTree_eq_iff,
    agree_directives _ _ hds hes, agree_selections _ _ hss hrs, true_and]

/-- The essence of a schema block gives each kind of operation its type. -/
theorem root?_essence (s : Schema) (kind : OperationKind) : s.essence.root? kind = s.root? kind := by
  rw [Schema.root?, Schema.essence]
  cases hq : s.root? .query <;> cases hm : s.root? .mutation <;> cases hs : s.root? .subscription <;>
    cases kind <;> simp [*]

/-- Schema blocks have one essence of roots exactly if they declare the same root for every kind. -/
theorem roots_essence_eq_iff {s r : Schema} :
    s.essence.roots = r.essence.roots ↔ ∀ kind, s.root? kind = r.root? kind := by
  constructor
  · intro h kind
    rw [← root?_essence s, ← root?_essence r, Schema.root?, Schema.root?, h]
  · intro h
    simp only [Schema.essence, h]

/-- Schema blocks agree. -/
theorem agree_schema (s r : Schema) : Agree Schema.toTree Schema.essence s r := by
  intro t u ht hu
  rw [Schema.toTree] at ht hu
  split at ht
  · cases ht
  split at hu
  · cases hu
  cases ht
  cases hu
  have hdirs : s.directives = [] := by simp_all
  have hdirs' : r.directives = [] := by simp_all
  have hroots : (∀ kind, s.root? kind = r.root? kind) ↔ s.root? .query = r.root? .query ∧
      s.root? .mutation = r.root? .mutation ∧ s.root? .subscription = r.root? .subscription := by
    constructor
    · exact fun h => ⟨h _, h _, h _⟩
    · rintro ⟨hq, hm, hs⟩ kind
      cases kind <;> assumption
  have hessence : s.essence = r.essence ↔
      s.essence.description = r.essence.description ∧ s.essence.roots = r.essence.roots := by
    simp [Schema.essence, hdirs, hdirs']
  rw [hessence, roots_essence_eq_iff, hroots, Tree.schema.injEq, describe_eq_iff]
  tauto

/-- Scalar types agree. -/
theorem agree_scalarType (s r : ScalarType) : Agree ScalarType.toTree ScalarType.essence s r := by
  intro t u ht hu
  obtain ⟨ds, hds, ht⟩ := bind_eq_ok.1 ht
  obtain ⟨es, hes, hu⟩ := bind_eq_ok.1 hu
  cases ht
  cases hu
  simp only [ScalarType.essence, Tree.scalarType.injEq, ScalarType.mk.injEq, agree_directives _ _ hds hes,
    describe_eq_iff]
  tauto

/-- Object types agree. -/
theorem agree_objectType (p q : FieldsType) : Agree FieldsType.toObjectTree FieldsType.essence p q := by
  intro t u ht hu
  obtain ⟨fs, hfs, ht⟩ := bind_eq_ok.1 ht
  obtain ⟨ds, hds, ht⟩ := bind_eq_ok.1 ht
  obtain ⟨gs, hgs, hu⟩ := bind_eq_ok.1 hu
  obtain ⟨es, hes, hu⟩ := bind_eq_ok.1 hu
  cases ht
  cases hu
  have hfields := agree_mapM (fun f _ g _ => agree_fieldDefinition f g) hfs hgs
  simp only [FieldsType.essence, Tree.objectType.injEq, FieldsType.mk.injEq, Seq.tuple_inj, hfields,
    agree_directives _ _ hds hes, describe_eq_iff]
  tauto

/-- Interface types agree. -/
theorem agree_interfaceType (p q : FieldsType) : Agree FieldsType.toInterfaceTree FieldsType.essence p q := by
  intro t u ht hu
  rw [FieldsType.toInterfaceTree] at ht hu
  split at ht
  · cases ht
  split at hu
  · cases hu
  obtain ⟨fs, hfs, ht⟩ := bind_eq_ok.1 ht
  obtain ⟨ds, hds, ht⟩ := bind_eq_ok.1 ht
  obtain ⟨gs, hgs, hu⟩ := bind_eq_ok.1 hu
  obtain ⟨es, hes, hu⟩ := bind_eq_ok.1 hu
  cases ht
  cases hu
  have hnone : p.interfaces = [] := by simp_all
  have hnone' : q.interfaces = [] := by simp_all
  have hfields := agree_mapM (fun f _ g _ => agree_fieldDefinition f g) hfs hgs
  simp only [FieldsType.essence, Tree.interfaceType.injEq, FieldsType.mk.injEq, Seq.tuple_inj, hfields,
    agree_directives _ _ hds hes, describe_eq_iff, hnone, hnone', true_and]
  tauto

/-- Unions agree. -/
theorem agree_unionType (p q : UnionType) : Agree UnionType.toTree UnionType.essence p q := by
  intro t u ht hu
  obtain ⟨ds, hds, ht⟩ := bind_eq_ok.1 ht
  obtain ⟨es, hes, hu⟩ := bind_eq_ok.1 hu
  cases ht
  cases hu
  have hmembers : p.members.map Tree.typeName = q.members.map Tree.typeName ↔ p.members = q.members :=
    List.map_inj_right fun _ _ h => Tree.typeName.inj h
  simp only [UnionType.essence, Tree.unionType.injEq, UnionType.mk.injEq, Seq.tuple_inj, hmembers,
    agree_directives _ _ hds hes, describe_eq_iff]
  tauto

/-- Enums agree. -/
theorem agree_enumType (p q : EnumType) : Agree EnumType.toTree EnumType.essence p q := by
  intro t u ht hu
  obtain ⟨vs, hvs, ht⟩ := bind_eq_ok.1 ht
  obtain ⟨ds, hds, ht⟩ := bind_eq_ok.1 ht
  obtain ⟨ws, hws, hu⟩ := bind_eq_ok.1 hu
  obtain ⟨es, hes, hu⟩ := bind_eq_ok.1 hu
  cases ht
  cases hu
  have hvalues := agree_mapM (fun v _ w _ => agree_enumValue v w) hvs hws
  simp only [EnumType.essence, Tree.enumType.injEq, EnumType.mk.injEq, Seq.tuple_inj, hvalues,
    agree_directives _ _ hds hes, describe_eq_iff]
  tauto

/-- Input types agree. -/
theorem agree_inputType (p q : InputType) : Agree InputType.toTree InputType.essence p q := by
  intro t u ht hu
  obtain ⟨fs, hfs, ht⟩ := bind_eq_ok.1 ht
  obtain ⟨ds, hds, ht⟩ := bind_eq_ok.1 ht
  obtain ⟨gs, hgs, hu⟩ := bind_eq_ok.1 hu
  obtain ⟨es, hes, hu⟩ := bind_eq_ok.1 hu
  cases ht
  cases hu
  have hfields := agree_mapM (fun f _ g _ => agree_inputValue f g) hfs hgs
  simp only [InputType.essence, Tree.inputType.injEq, InputType.mk.injEq, Seq.tuple_inj, hfields,
    agree_directives _ _ hds hes, describe_eq_iff]
  tauto

/-- Directives of a directive definition leave no trace, so they have to be the same. -/
theorem agree_directiveDefinition {p q : DirectiveDefinition} (h : p.directives = q.directives) :
    Agree DirectiveDefinition.toTree DirectiveDefinition.essence p q := by
  intro t u ht hu
  rw [DirectiveDefinition.toTree] at ht hu
  split at ht
  · cases ht
  split at hu
  · cases hu
  obtain ⟨as, has, ht⟩ := bind_eq_ok.1 ht
  obtain ⟨bs, hbs, hu⟩ := bind_eq_ok.1 hu
  cases ht
  cases hu
  have honce : p.isRepeatable = q.isRepeatable := by simp_all
  have hargs := agree_mapM (fun v _ w _ => agree_inputValue v w) has hbs
  simp only [DirectiveDefinition.essence, Tree.directiveDefinition.injEq, DirectiveDefinition.mk.injEq,
    Seq.tuple_inj, hargs, describe_eq_iff, honce, h, true_and]
  tauto

/-- Whether the definition has no directives of its own, if it defines one. -/
def Definition.IsUndirected : Definition → Prop
  | .directive d => d.directives = []
  | _ => True

/-- The kind of tree that each kind of definition has. -/
inductive Definition.HasTree : Definition → Tree → Prop
  | operation {o : Operation} {kind : String} {name : Option String} {vars ds ss : Seq Tree} :
      HasTree (.operation o) (.operation kind name vars ds ss)
  | fragment {f : Fragment} {name : String} {type : Tree} {ds ss : Seq Tree} :
      HasTree (.fragment f) (.fragment name type ds ss)
  | schema {s : Schema} {query mutation subscription about : Option String} :
      HasTree (.schema s) (.schema query mutation subscription about)
  | scalar {s : ScalarType} {name : String} {ds : Seq Tree} {about : Option String} :
      HasTree (.scalar s) (.scalarType name ds about)
  | object {p : FieldsType} {name : String} {fields ds : Seq Tree} {interfaces : Seq String}
      {about : Option String} : HasTree (.object p) (.objectType name fields interfaces ds about)
  | interface {p : FieldsType} {name : String} {fields ds : Seq Tree} {about : Option String} :
      HasTree (.interface p) (.interfaceType name fields ds about)
  | union {p : UnionType} {name : String} {members ds : Seq Tree} {about : Option String} :
      HasTree (.union p) (.unionType name members ds about)
  | enum {p : EnumType} {name : String} {values ds : Seq Tree} {about : Option String} :
      HasTree (.enum p) (.enumType name values ds about)
  | input {p : InputType} {name : String} {fields ds : Seq Tree} {about : Option String} :
      HasTree (.input p) (.inputType name fields ds about)
  | directive {p : DirectiveDefinition} {name : String} {locations : Seq String} {args : Seq Tree}
      {about : Option String} : HasTree (.directive p) (.directiveDefinition name locations args about)

/-- Whatever tree a definition is converted to, the two hang together in one of these ways. -/
theorem Definition.hasTree {d : Definition} {t : Tree} (h : d.toTree = .ok t) : d.HasTree t := by
  cases d with
  | operation o =>
    simp only [Definition.toTree, Operation.toTree, bind_eq_ok, pure_eq_ok] at h
    obtain ⟨_, -, _, -, _, -, rfl⟩ := h
    exact .operation
  | fragment f =>
    simp only [Definition.toTree, Fragment.toTree, bind_eq_ok, pure_eq_ok] at h
    obtain ⟨_, -, _, -, rfl⟩ := h
    exact .fragment
  | schema s =>
    rw [Definition.toTree, Schema.toTree] at h
    split at h
    · cases h
    cases h
    exact .schema
  | scalar s =>
    simp only [Definition.toTree, ScalarType.toTree, bind_eq_ok, pure_eq_ok] at h
    obtain ⟨_, -, rfl⟩ := h
    exact .scalar
  | object p =>
    simp only [Definition.toTree, FieldsType.toObjectTree, bind_eq_ok, pure_eq_ok] at h
    obtain ⟨_, -, _, -, rfl⟩ := h
    exact .object
  | interface p =>
    rw [Definition.toTree, FieldsType.toInterfaceTree] at h
    split at h
    · cases h
    simp only [bind_eq_ok, pure_eq_ok] at h
    obtain ⟨_, -, _, -, rfl⟩ := h
    exact .interface
  | union p =>
    simp only [Definition.toTree, UnionType.toTree, bind_eq_ok, pure_eq_ok] at h
    obtain ⟨_, -, rfl⟩ := h
    exact .union
  | enum p =>
    simp only [Definition.toTree, EnumType.toTree, bind_eq_ok, pure_eq_ok] at h
    obtain ⟨_, -, _, -, rfl⟩ := h
    exact .enum
  | input p =>
    simp only [Definition.toTree, InputType.toTree, bind_eq_ok, pure_eq_ok] at h
    obtain ⟨_, -, _, -, rfl⟩ := h
    exact .input
  | directive p =>
    rw [Definition.toTree, DirectiveDefinition.toTree] at h
    split at h
    · cases h
    simp only [bind_eq_ok, pure_eq_ok] at h
    obtain ⟨_, -, rfl⟩ := h
    exact .directive
  | extension kind => cases h
  | other kind => cases h

/-- Definitions agree, whatever their kinds, as long as no directive definition has directives of its own. -/
theorem agree_definition {d e : Definition} (hd : d.IsUndirected) (he : e.IsUndirected) :
    Agree Definition.toTree (Definition.essence true) d e := by
  intro t u ht hu
  cases Definition.hasTree ht with
  | @operation o =>
    cases Definition.hasTree hu with
    | @operation p => simp [Definition.essence, agree_operation o p ht hu]
    | _ => simp [Definition.essence]
  | @fragment f =>
    cases Definition.hasTree hu with
    | @fragment g => simp [Definition.essence, agree_fragment f g ht hu]
    | _ => simp [Definition.essence]
  | @schema s =>
    cases Definition.hasTree hu with
    | @schema r => simp [Definition.essence, agree_schema s r ht hu]
    | _ => simp [Definition.essence]
  | @scalar s =>
    cases Definition.hasTree hu with
    | @scalar r => simp [Definition.essence, agree_scalarType s r ht hu]
    | _ => simp [Definition.essence]
  | @object p =>
    cases Definition.hasTree hu with
    | @object q => simp [Definition.essence, agree_objectType p q ht hu]
    | _ => simp [Definition.essence]
  | @interface p =>
    cases Definition.hasTree hu with
    | @interface q => simp [Definition.essence, agree_interfaceType p q ht hu]
    | _ => simp [Definition.essence]
  | @union p =>
    cases Definition.hasTree hu with
    | @union q => simp [Definition.essence, agree_unionType p q ht hu]
    | _ => simp [Definition.essence]
  | @enum p =>
    cases Definition.hasTree hu with
    | @enum q => simp [Definition.essence, agree_enumType p q ht hu]
    | _ => simp [Definition.essence]
  | @input p =>
    cases Definition.hasTree hu with
    | @input q => simp [Definition.essence, agree_inputType p q ht hu]
    | _ => simp [Definition.essence]
  | @directive p =>
    cases Definition.hasTree hu with
    | @directive q => simp [Definition.essence, agree_directiveDefinition (hd.trans he.symm) ht hu]
    | _ => simp [Definition.essence]

/-- Two documents whose directive definitions have no directives of their own are converted into one tree
exactly if they have one essence. -/
theorem toTree_eq_iff_essence_eq {A B : Document} {t u : Tree} (hA : ∀ d ∈ A.definitions, d.IsUndirected)
    (hB : ∀ d ∈ B.definitions, d.IsUndirected) (ht : A.toTree = .ok t) (hu : B.toTree = .ok u) :
    t = u ↔ A.essence true = B.essence true := by
  obtain ⟨ts, hts, ht⟩ := bind_eq_ok.1 ht
  obtain ⟨us, hus, hu⟩ := bind_eq_ok.1 hu
  cases ht
  cases hu
  have hitems := agree_mapM (fun d hd e he => agree_definition (hA d hd) (hB e he)) hts hus
  simp [Document.essence, Seq.tuple, hitems]

/-- Zero with and without a sign, a block string and a plain one, a description, a root given twice and an empty
selection set leave no trace. -/
theorem toTree_eq_of_spellings :
    let field (zero : String) (isBlock : Bool) (set : Option (List Selection)) : Selection :=
      .field none "a" [⟨"x", .int zero⟩, ⟨"y", .string ⟨"s", isBlock⟩⟩] [] set
    let document (about : Option StringLiteral) (s : Selection) (roots : List (OperationKind × String)) : Document :=
      ⟨[.operation ⟨about, .query, none, [], [], some [s]⟩, .schema ⟨none, [], roots⟩]⟩
    let A := document none (field "0" false none) [(.query, "Q")]
    let B := document (some ⟨"d", false⟩) (field "-0" true (some [])) [(.query, "P"), (.query, "Q")]
    ∃ t, A.toTree = .ok t ∧ B.toTree = .ok t ∧ A.essence true = B.essence true := by
  intro field document A B
  have hA : ∀ d ∈ A.definitions, d.IsUndirected := by simp [A, document, Definition.IsUndirected]
  have hB : ∀ d ∈ B.definitions, d.IsUndirected := by simp [B, document, Definition.IsUndirected]
  exact ⟨_, rfl, rfl, (toTree_eq_iff_essence_eq hA hB rfl rfl).1 rfl⟩

/-- A field without a selection set and one with an empty set are different documents of one tree. -/
theorem toTree_eq_without_set :
    ∃ A B t, Document.read "\x7b a \x7d" = .ok A ∧ Document.read "\x7b a \x7b \x7d \x7d" = .ok B ∧
      A.toTree = .ok t ∧ B.toTree = .ok t ∧ (∀ d ∈ A.definitions ++ B.definitions, d.IsUndirected) ∧
      A.essence false ≠ B.essence false := by
  have htape : Tape.ofSource "\x7b a \x7d" = .next (.punct .braceL) "\x7b a \x7d".toList
      (.next (.name "a") "a \x7d".toList (.next (.punct .braceR) "\x7d".toList .finish)) := by
    show Tape.ofChars ('{' :: ' ' :: ("a".toList ++ ' ' :: '}' :: [])) = _
    rw [Tape.ofChars_punct (m := .braceL) (by decide), Tape.ofChars_space,
      Tape.ofChars_name (by decide) (by simp [isBoundary, isNameChar]), Tape.ofChars_space,
      Tape.ofChars_punct (m := .braceR) (by decide), Tape.ofChars_nil]
    rfl
  have htape' : Tape.ofSource "\x7b a \x7b \x7d \x7d" = .next (.punct .braceL) "\x7b a \x7b \x7d \x7d".toList
      (.next (.name "a") "a \x7b \x7d \x7d".toList (.next (.punct .braceL) "\x7b \x7d \x7d".toList
        (.next (.punct .braceR) "\x7d \x7d".toList (.next (.punct .braceR) "\x7d".toList .finish)))) := by
    show Tape.ofChars ('{' :: ' ' :: ("a".toList ++ ' ' :: '{' :: ' ' :: '}' :: ' ' :: '}' :: [])) = _
    rw [Tape.ofChars_punct (m := .braceL) (by decide), Tape.ofChars_space,
      Tape.ofChars_name (by decide) (by simp [isBoundary, isNameChar]), Tape.ofChars_space,
      Tape.ofChars_punct (m := .braceL) (by decide), Tape.ofChars_space,
      Tape.ofChars_punct (m := .braceR) (by decide), Tape.ofChars_space,
      Tape.ofChars_punct (m := .braceR) (by decide), Tape.ofChars_nil]
    rfl
  refine ⟨⟨[.operation ⟨none, .query, none, [], [], some [.field none "a" [] [] none]⟩]⟩,
    ⟨[.operation ⟨none, .query, none, [], [], some [.field none "a" [] [] (some [])]⟩]⟩, _, ?_, ?_, rfl, rfl, ?_, ?_⟩
  · rw [Document.read, read, htape]
    rfl
  · rw [Document.read, read, htape']
    rfl
  · simp [Definition.IsUndirected]
  · simp [Document.essence, Definition.essence, Operation.essence, Selection.setEssence, Selection.essences,
      Selection.essence]

end GraphDoc.Syntax
