import GraphDoc.Document
import GraphDoc.Proofs.Number
import GraphDoc.Proofs.Outcome
import GraphDoc.Proofs.Syntax.Ensures
import GraphDoc.Proofs.Tree.WellFormed

/-!
# What is read is well-formed

Every phrase of the grammar takes a token at least, and the tree of what it reads is well-formed and is
read back as its normal form. One lemma for each phrase.
-/

namespace GraphDoc

open GraphDoc.Parser GraphDoc.Tree

/-- Whether a tree is well-formed and is read back as its normal form. -/
def IsRead (P : Tree → Prop) (t : Tree) : Prop := P t ∧ t.reading = t.normal

/-- Whether all trees of a phrase are well-formed and read back as their normal forms. -/
def GivesTree {α : Type} (conv : α → Syntax.Converted Tree) (P : Tree → Prop) (x : α) : Prop :=
  ∀ t, conv x = .ok t → IsRead P t

/-- Trees that were read have their normal form as their reading. -/
theorem map_reading_eq_map_normal {P : Tree → Prop} {ts : List Tree} (h : ∀ t ∈ ts, IsRead P t) :
    ts.map reading = ts.map normal :=
  List.map_congr_left fun t ht => (h t ht).2

/-- Items that give trees of a kind give lists of that kind. -/
theorem forall_isRead_of_mapM {α : Type} {conv : α → Syntax.Converted Tree} {P : Tree → Prop}
    {xs : List α} {ts : List Tree} (h : ∀ x ∈ xs, GivesTree conv P x) (hts : xs.mapM conv = .ok ts) :
    ∀ t ∈ ts, IsRead P t := by
  intro t ht
  obtain ⟨x, hx, hxt⟩ := exists_of_mem_of_mapM hts ht
  exact h x hx t hxt

namespace Syntax

/-! ## Types -/

theorem isRead_typeName {d : Nat} {name : String} (h : isName name = true) :
    IsRead (IsType d) (.typeName name) :=
  ⟨.typeName h, by rw [reading_eq, normal_eq]; rfl⟩

theorem isRead_listType {d : Nat} {t : Tree} (h : IsRead (IsType d) t) :
    IsRead (IsType (d + 1)) (.listType t) := by
  refine ⟨.listType h.1, ?_⟩
  rw [reading_eq, normal_eq]
  show Tree.listType t.reading = .listType t.normal
  rw [h.2]

/-- A marked type may be read if the type in it carries no mark. -/
theorem isRead_nonNullType {d : Nat} {t : Tree} (h : IsRead (IsType d) t)
    (hbare : ∀ s, t ≠ .nonNullType s) : IsRead (IsType d) (.nonNullType t) := by
  refine ⟨.nonNullType h.1 hbare, ?_⟩
  rw [reading_eq, normal_eq]
  show Tree.nonNullType t.reading = .nonNullType t.normal
  rw [h.2]

/-- A type without a mark behind it. -/
def IsBareType (d : Nat) (t : Tree) : Prop := IsType d t ∧ ∀ s, t ≠ .nonNullType s

theorem givesTree_named {d : Nat} {name : String} (h : isName name = true) :
    GivesTree TypeRef.toTree (IsBareType d) (.named name) := by
  intro t ht
  cases ht
  have hread := isRead_typeName (d := d) h
  exact ⟨⟨hread.1, by simp⟩, hread.2⟩

theorem givesTree_list {d : Nat} {of : TypeRef} (h : GivesTree TypeRef.toTree (IsType d) of) :
    GivesTree TypeRef.toTree (IsBareType (d + 1)) (.list of) := by
  intro t ht
  obtain ⟨s, hs, ht⟩ := bind_eq_ok.1 ht
  cases ht
  have hread := isRead_listType (h s hs)
  exact ⟨⟨hread.1, by simp⟩, hread.2⟩

theorem givesTree_nonNull {d : Nat} {of : TypeRef} (h : GivesTree TypeRef.toTree (IsBareType d) of) :
    GivesTree TypeRef.toTree (IsType d) (.nonNull of) := by
  intro t ht
  obtain ⟨s, hs, ht⟩ := bind_eq_ok.1 ht
  cases ht
  obtain ⟨⟨htype, hbare⟩, hread⟩ := h s hs
  exact isRead_nonNullType ⟨htype, hread⟩ hbare

/-- A type that is read gives a tree, if the types nested in it do. -/
private theorem ensures_typeRefWith {d : Nat} {inner : Parser TypeRef} {P : TypeRef → Prop}
    (hinner : Ensures 0 inner P) (hlist : ∀ r, P r → GivesTree TypeRef.toTree (IsBareType d) (.list r)) :
    Ensures 1 (typeRefWith inner) (GivesTree TypeRef.toTree (IsType d)) := by
  have hmark : ∀ r, GivesTree TypeRef.toTree (IsBareType d) r →
      Ensures 0 (do if ← skip .bang then return .nonNull r else return r)
        (GivesTree TypeRef.toTree (IsType d)) := by
    intro r hr
    refine (ensures_skip .bang).follow fun b _ => .ite (fun _ => .pure ?_) fun _ => .pure ?_
    · exact givesTree_nonNull hr
    · exact fun t ht => ⟨(hr t ht).1.1, (hr t ht).2⟩
  refine (ensures_skip .bracketL).follow fun b _ => .ite (fun _ => ?_) fun _ => ?_
  · exact hinner.follow fun of hof => (ensures_expect .bracketR).lead fun _ _ => hmark _ (hlist of hof)
  · exact (ensures_name.map fun s hs => givesTree_named hs).lead hmark

/-- Every type that is read gives a tree within the depth. -/
theorem ensures_typeRef (d : Nat) : Ensures 1 (typeRef d) (GivesTree TypeRef.toTree (IsType d)) := by
  induction d with
  | zero => exact ensures_typeRefWith (ensures_failHere _ fun _ => False) fun _ h => h.elim
  | succ d ih => exact ensures_typeRefWith (ih.least (Nat.zero_le 1)) fun _ h => givesTree_list h

/-! ## Values -/

/-- A value as it is read, which is never the missing one. -/
def IsGivenLiteral (isConst : Bool) (d : Nat) (t : Tree) : Prop := IsLiteral isConst d t ∧ t ≠ .none

/-- A literal that was read is its own normal form as a value. -/
theorem literal_eq_normal {isConst : Bool} {d : Nat} {t : Tree}
    (h : IsRead (IsGivenLiteral isConst d) t) : t.literal = t.normal := by
  rw [literal_eq_reading h.1.2, h.2]

/-- A list of values is converted value by value. -/
theorem toTrees_eq_mapM (values : List Value) : Value.toTrees values = values.mapM Value.toTree := by
  induction values with
  | nil => rfl
  | cons v values ih => rw [Value.toTrees, ih, List.mapM_cons]

/-- The entry of an object literal that a field of an object value stands for. -/
def fieldEntry (f : String × Value) : Converted (String × Tree) := (f.1, ·) <$> f.2.toTree

/-- An object is converted entry by entry. -/
theorem fieldTrees_eq_mapM (fields : List (String × Value)) :
    Value.fieldTrees fields = ofEntries <$> fields.mapM fieldEntry := by
  induction fields with
  | nil => rfl
  | cons f fields ih =>
    obtain ⟨name, value⟩ := f
    rw [Value.fieldTrees, ih, List.mapM_cons, fieldEntry]
    cases value.toTree with
    | error e => rfl
    | ok t => cases fields.mapM fieldEntry <;> rfl

theorem isRead_seq {isConst : Bool} {d : Nat} {ts : List Tree}
    (h : ∀ t ∈ ts, IsRead (IsGivenLiteral isConst d) t) :
    IsRead (IsGivenLiteral isConst (d + 1)) (.seq ⟨.list, ts⟩) := by
  refine ⟨⟨.seq fun t ht => (h t ht).1.1, by simp⟩, ?_⟩
  rw [reading_eq, normal_eq]
  show Tree.seq ⟨.list, (ts.map reading).map given⟩ = .seq ⟨.list, ts.map normal⟩
  rw [List.map_map]
  congr 2
  exact List.map_congr_left fun t ht => literal_eq_normal (h t ht)

theorem isRead_inputObject {isConst : Bool} {d : Nat} {entries : List (String × Tree)}
    (hkeys : ∀ e ∈ entries, isName e.1 = true)
    (hvalues : ∀ e ∈ entries, IsRead (IsGivenLiteral isConst d) e.2) :
    IsRead (IsGivenLiteral isConst (d + 1)) (.inputObject (.tuple (ofEntries entries))) := by
  refine ⟨⟨.inputObject hkeys fun e he => (hvalues e he).1.1, by simp⟩, ?_⟩
  show reading (.inputObject ⟨.tuple, ofEntries entries⟩) = normal (.inputObject ⟨.tuple, ofEntries entries⟩)
  rw [reading_inputObject, normal_inputObject]
  show Tree.inputObject (.tuple _) = .inputObject (.tuple _)
  congr 3
  refine List.map_congr_left fun e he => ?_
  obtain ⟨k, hk⟩ := (mem_mergeEntries he).2
  rw [literal_eq_normal (hvalues _ hk)]

/-- A bare word is converted to the literal it stands for. -/
theorem toTree_valueOfName (word : String) : (valueOfName word).toTree = .ok (ofWord word) := by
  unfold valueOfName ofWord
  split_ifs <;> rfl

theorem isRead_ofWord {isConst : Bool} {d : Nat} {word : String} (h : isName word = true) :
    IsRead (IsGivenLiteral isConst d) (ofWord word) := by
  unfold ofWord
  split_ifs with h1 h2 h3
  · exact ⟨⟨.bool true, by simp⟩, by rw [reading_eq, normal_eq]; rfl⟩
  · exact ⟨⟨.bool false, by simp⟩, by rw [reading_eq, normal_eq]; rfl⟩
  · exact ⟨⟨.nullValue, by simp⟩, by rw [reading_eq, normal_eq]; rfl⟩
  · refine ⟨⟨.enumValue h, by simp⟩, ?_⟩
    rw [reading_eq, normal_eq]
    simp [mapChildren, readingNode, normalNode, dropDescription, ofWord, h1, h2, h3]

/-- What stands inside a list or an object is a value at the next level. -/
def InnerEnsures (isConst : Bool) (d : Nat) (inner : Option (Parser Value)) : Prop :=
  ∀ p ∈ inner, ∃ e, d = e + 1 ∧ Ensures 1 p (GivesTree Value.toTree (IsGivenLiteral isConst e))

private theorem givesTree_listValue {isConst : Bool} {d : Nat} {values : List Value}
    (h : ∀ v ∈ values, GivesTree Value.toTree (IsGivenLiteral isConst d) v) :
    GivesTree Value.toTree (IsGivenLiteral isConst (d + 1)) (.list values) := by
  intro t ht
  obtain ⟨ts, hts, ht⟩ := bind_eq_ok.1 ht
  cases ht
  rw [toTrees_eq_mapM] at hts
  exact isRead_seq (forall_isRead_of_mapM h hts)

private theorem givesTree_object {isConst : Bool} {d : Nat} {fields : List (String × Value)}
    (h : ∀ f ∈ fields, isName f.1 = true ∧ GivesTree Value.toTree (IsGivenLiteral isConst d) f.2) :
    GivesTree Value.toTree (IsGivenLiteral isConst (d + 1)) (.object fields) := by
  intro t ht
  obtain ⟨ts, hts, ht⟩ := bind_eq_ok.1 ht
  cases ht
  rw [fieldTrees_eq_mapM] at hts
  obtain ⟨entries, hentries, rfl⟩ := map_eq_ok.1 hts
  have hentries : ∀ e ∈ entries, isName e.1 = true ∧ IsRead (IsGivenLiteral isConst d) e.2 := by
    intro e he
    obtain ⟨f, hf, hfe⟩ := exists_of_mem_of_mapM hentries he
    obtain ⟨t, ht, rfl⟩ := map_eq_ok.1 hfe
    exact ⟨(h f hf).1, (h f hf).2 t ht⟩
  exact isRead_inputObject (fun e he => (hentries e he).1) fun e he => (hentries e he).2

theorem ensures_objectField {isConst : Bool} {d : Nat} {inner : Parser Value}
    (h : Ensures 1 inner (GivesTree Value.toTree (IsGivenLiteral isConst d))) :
    Ensures 1 (objectField inner) fun f =>
      isName f.1 = true ∧ GivesTree Value.toTree (IsGivenLiteral isConst d) f.2 :=
  ensures_name.lead fun _ hkey => (ensures_expect .colon).follow fun _ _ =>
    (h.least (Nat.zero_le 1)).lead fun _ hvalue => .pure ⟨hkey, hvalue⟩

theorem ensures_variableName : Ensures 1 variableName fun s => isName s = true :=
  (ensures_expect .dollar).follow fun _ _ => ensures_name

theorem ensures_refuseVariable {L : Token → Prop} {n : Nat} (P : Value → Prop) :
    EnsuresOn L n refuseVariable P := by
  intro tape x rest _ h
  obtain ⟨found, mid, -, h⟩ := bind_run_eq_ok h
  obtain ⟨_, mid, -, h⟩ := bind_run_eq_ok h
  obtain ⟨token, mid, -, h⟩ := bind_run_eq_ok h
  cases token <;> cases h

/-- A value that takes one token is judged by that token. -/
private theorem ensuresAt_return {isConst : Bool} {d : Nat} {t : Token} {v : Value} {tree : Tree}
    (ht : t ≠ .endOfSource) (hv : v.toTree = .ok tree) (htree : IsRead (IsGivenLiteral isConst d) tree) :
    EnsuresAt t 1 (do
      advance
      return v) (GivesTree Value.toTree (IsGivenLiteral isConst d)) := by
  refine (ensuresAt_advance ht).lead fun _ _ => .pure ?_
  intro s hs
  rw [hv] at hs
  cases hs
  exact htree

/-- A value that is read gives a literal, if the values nested in it do. -/
private theorem ensures_valueWith {isConst : Bool} {d : Nat} {inner : Option (Parser Value)}
    (hinner : InnerEnsures isConst d inner) :
    Ensures 1 (valueWith isConst inner) (GivesTree Value.toTree (IsGivenLiteral isConst d)) := by
  -- the token in front tells which value it is
  refine .peek fun t ht => ?_
  split
  · split
    · next p =>
      obtain ⟨e, rfl, hp⟩ := hinner p rfl
      exact ((ensures_any (hp.least (Nat.zero_le 1))).map fun _ h => givesTree_listValue h).at _
    · exact (ensures_failHere _ _).at _
  · split
    · next p =>
      obtain ⟨e, rfl, hp⟩ := hinner p rfl
      exact ((ensures_any ((ensures_objectField hp).least (Nat.zero_le 1))).map
        fun _ h => givesTree_object h).at _
    · exact (ensures_failHere _ _).at _
  · next text =>
    refine (ensuresAt_advance (by simp)).lead fun _ _ => .pure ?_
    intro s hs
    rw [Value.toTree] at hs
    split at hs
    · next n hn =>
      cases hs
      exact ⟨⟨.int (Integer.isTooLong_of_read hn), by simp⟩, by rw [reading_eq, normal_eq]; rfl⟩
    · cases hs
  · next text =>
    exact ensuresAt_return (by simp) rfl ⟨⟨.floatValue ht, by simp⟩, by rw [reading_eq, normal_eq]; rfl⟩
  · next text =>
    exact ensuresAt_return (by simp) rfl ⟨⟨.str text, by simp⟩, by rw [reading_eq, normal_eq]; rfl⟩
  · next text =>
    exact ensuresAt_return (by simp) rfl ⟨⟨.str text, by simp⟩, by rw [reading_eq, normal_eq]; rfl⟩
  · next word => exact ensuresAt_return (by simp) (toTree_valueOfName word) (isRead_ofWord ht)
  · refine EnsuresOn.at (.ite (fun _ => ?_) fun hconst => ?_) _
    · exact ensures_refuseVariable _
    · refine ensures_variableName.map fun s hs t ht => ?_
      cases ht
      exact ⟨⟨.variable (by simpa using hconst) hs, by simp⟩, by rw [reading_eq, normal_eq]; rfl⟩
  · exact (ensures_failHere _ _).at _

/-- Every value that is read gives a literal within the depth. -/
theorem ensures_value (isConst : Bool) (d : Nat) :
    Ensures 1 (value isConst d) (GivesTree Value.toTree (IsGivenLiteral isConst d)) := by
  induction d with
  | zero =>
    refine ensures_valueWith ?_
    intro p hp
    cases hp
  | succ d ih =>
    refine ensures_valueWith ?_
    intro p hp
    cases hp
    exact ⟨d, rfl, ih⟩

/-! ## Arguments and directives -/

theorem ensures_argument (isConst : Bool) (d : Nat) :
    Ensures 1 (argument isConst d) (GivesTree Argument.toTree (IsArgument isConst d)) := by
  refine ensures_name.lead fun name hname => (ensures_expect .colon).follow fun _ _ =>
    (ensures_value isConst d).follow fun value hvalue => .pure ?_
  intro t ht
  obtain ⟨v, hv, ht⟩ := bind_eq_ok.1 ht
  cases ht
  have hread := hvalue v hv
  refine ⟨.mk hname hread.1.1, ?_⟩
  rw [reading_eq, normal_eq]
  show Tree.argument name v.literal = .argument name v.normal
  rw [literal_eq_normal hread]

/-- Every argument that is read gives an argument. -/
theorem ensures_arguments (isConst : Bool) (d : Nat) :
    Ensures 0 (arguments isConst d) fun as => ∀ a ∈ as, GivesTree Argument.toTree (IsArgument isConst d) a :=
  ensures_optionalMany ((ensures_argument isConst d).least (Nat.zero_le 1))

theorem ensures_directive (isConst : Bool) (d : Nat) :
    Ensures 1 (directive isConst d) (GivesTree Directive.toTree (IsDirective isConst d)) := by
  refine (ensures_expect .at).follow fun _ _ => ensures_name.lead fun name hname =>
    (ensures_arguments isConst d).lead fun args hargs => .pure ?_
  intro t ht
  obtain ⟨ts, hts, ht⟩ := bind_eq_ok.1 ht
  cases ht
  have hall := forall_isRead_of_mapM hargs hts
  refine ⟨.mk hname fun a ha => (hall a ha).1, ?_⟩
  rw [reading_eq, normal_eq]
  show Tree.directive name (.tuple (ts.map reading)) = .directive name (.tuple (ts.map normal))
  rw [map_reading_eq_map_normal hall]

/-- Every directive that is read gives a directive. -/
theorem ensures_directives (isConst : Bool) (d : Nat) :
    Ensures 0 (directives isConst d) fun ds =>
      ∀ x ∈ ds, GivesTree Directive.toTree (IsDirective isConst d) x :=
  ensures_itemsWhile ((ensures_directive isConst d).least (Nat.zero_le 1))

/-- The trees of directives. -/
theorem directiveTrees_eq_ok {isConst : Bool} {d : Nat} {ds : List Directive} {s : Seq Tree}
    (h : ∀ x ∈ ds, GivesTree Directive.toTree (IsDirective isConst d) x)
    (hs : directiveTrees ds = .ok s) :
    ∃ ts, s = .tuple ts ∧ ∀ t ∈ ts, IsRead (IsDirective isConst d) t := by
  obtain ⟨ts, hts, rfl⟩ := map_eq_ok.1 hs
  exact ⟨ts, rfl, forall_isRead_of_mapM h hts⟩

/-! ## Selections -/

/-- A selection set is converted selection by selection. -/
theorem selectionTrees_eq_mapM (selections : List Selection) :
    Selection.toTrees selections = selections.mapM Selection.toTree := by
  induction selections with
  | nil => rfl
  | cons s selections ih => rw [Selection.toTrees, ih, List.mapM_cons]

/-- A fragment that is spread is not called `on`. -/
theorem ensures_fragmentName : Ensures 1 fragmentName fun s => isName s = true ∧ s ≠ "on" := by
  refine .peek fun t ht => ?_
  split
  · exact (ensures_failHere _ _).at t
  · next hon =>
    intro tape x rest hlex hfront hrun
    obtain ⟨hrest, hsize, hx⟩ := ensures_name tape x rest hlex hrun
    refine ⟨hrest, hsize, hx, ?_⟩
    rintro rfl
    rw [front_of_name hrun] at hfront
    cases hfront
    exact hon rfl

/-- Whether the trees of a selection set are selections at the next level. -/
def SetGives (d : Nat) (selections : List Selection) : Prop :=
  0 < d ∧ ∀ s ∈ selections, GivesTree Selection.toTree (IsSelection true (d - 1)) s

/-- The trees of a selection set that may be missing. -/
theorem setTrees_eq_ok {d : Nat} {selections : Option (List Selection)} {s : Seq Tree}
    (h : ∀ ss ∈ selections, SetGives d ss) (hs : Selection.setTrees selections = .ok s) :
    ∃ ts, s = .tuple ts ∧ (ts = [] ∨ 0 < d) ∧ ∀ t ∈ ts, IsRead (IsSelection true (d - 1)) t := by
  cases selections with
  | none =>
    cases hs
    exact ⟨[], rfl, .inl rfl, by simp⟩
  | some ss =>
    obtain ⟨ts, hts, hs⟩ := bind_eq_ok.1 hs
    cases hs
    rw [selectionTrees_eq_mapM] at hts
    obtain ⟨hd, hall⟩ := h ss rfl
    exact ⟨ts, rfl, .inr hd, forall_isRead_of_mapM hall hts⟩

private theorem givesTree_field {d : Nat} {aliasName : Option String} {name : String}
    {args : List Argument} {ds : List Directive} {selections : Option (List Selection)}
    (halias : ∀ s ∈ aliasName, isName s = true) (hname : isName name = true)
    (hargs : ∀ a ∈ args, GivesTree Argument.toTree (IsArgument false d) a)
    (hds : ∀ x ∈ ds, GivesTree Directive.toTree (IsDirective false d) x)
    (hselections : ∀ ss ∈ selections, SetGives d ss) :
    GivesTree Selection.toTree (IsSelection true d) (.field aliasName name args ds selections) := by
  intro t ht
  obtain ⟨as, has, ht⟩ := bind_eq_ok.1 ht
  obtain ⟨dt, hdt, ht⟩ := bind_eq_ok.1 ht
  obtain ⟨st, hst, ht⟩ := bind_eq_ok.1 ht
  cases ht
  have hall := forall_isRead_of_mapM hargs has
  obtain ⟨dts, rfl, hdts⟩ := directiveTrees_eq_ok hds hdt
  obtain ⟨sts, rfl, hdepth, hsts⟩ := setTrees_eq_ok hselections hst
  refine ⟨.field hname (fun s hs => .inr (halias s hs)) (fun a ha => (hall a ha).1)
    (fun x hx => (hdts x hx).1) hdepth fun s hs => (hsts s hs).1, ?_⟩
  have hfilter : aliasName.filter (· ≠ "") = aliasName := by
    cases aliasName with
    | none => rfl
    | some s => simp [Option.filter, ne_empty_of_isName (halias s rfl)]
  rw [reading_eq, normal_eq]
  show Tree.field name (aliasName.filter (· ≠ "")) (.tuple (as.map reading)) (.tuple (dts.map reading))
      (.tuple (sts.map reading)) =
    .field name aliasName (.tuple (as.map normal)) (.tuple (dts.map normal)) (.tuple (sts.map normal))
  rw [hfilter, map_reading_eq_map_normal hall, map_reading_eq_map_normal hdts,
    map_reading_eq_map_normal hsts]

theorem ensures_field {d : Nat} {nested : Parser (List Selection)}
    (hnested : Ensures 1 nested (SetGives d)) :
    Ensures 1 (field d nested) (GivesTree Selection.toTree (IsSelection true d)) := by
  refine ensures_name.lead fun first hfirst => (ensures_skip .colon).follow fun b _ => ?_
  refine EnsuresOn.join (P := fun second => ∀ s ∈ second, isName s = true) (fun _ => ?_) (fun _ => ?_)
    fun second hsecond => ?_
  · exact (ensures_name.least (Nat.zero_le 1)).map fun s hs => by simpa using hs
  · exact .pure (by simp)
  · refine (ensures_arguments false d).lead fun args hargs =>
      (ensures_directives false d).lead fun ds hds => .peek fun t _ => EnsuresOn.at ?_ t
    refine EnsuresOn.join (P := fun selections => ∀ ss ∈ selections, SetGives d ss) (fun _ => ?_)
      (fun _ => ?_) fun selections hselections => ?_
    · exact (hnested.least (Nat.zero_le 1)).map fun ss hss => by simpa using hss
    · exact .pure (by simp)
    · cases second with
      | none => exact .pure (givesTree_field (by simp) hfirst hargs hds hselections)
      | some name =>
        exact .pure (givesTree_field (by simpa using hfirst) (hsecond name rfl) hargs hds hselections)

private theorem givesTree_spread {d : Nat} {name : String} {ds : List Directive}
    (hname : isName name = true ∧ name ≠ "on")
    (hds : ∀ x ∈ ds, GivesTree Directive.toTree (IsDirective false d) x) :
    GivesTree Selection.toTree (IsSelection true d) (.spread name ds) := by
  intro t ht
  obtain ⟨dt, hdt, ht⟩ := bind_eq_ok.1 ht
  cases ht
  obtain ⟨dts, rfl, hdts⟩ := directiveTrees_eq_ok hds hdt
  refine ⟨.spread hname.1 hname.2 fun x hx => (hdts x hx).1, ?_⟩
  rw [reading_eq, normal_eq]
  show Tree.fragmentSpread name (.tuple (dts.map reading)) = .fragmentSpread name (.tuple (dts.map normal))
  rw [map_reading_eq_map_normal hdts]

theorem reading_conditionTree (type : Option String) :
    (conditionTree type).reading = conditionTree type ∧ (conditionTree type).normal = conditionTree type := by
  cases type <;> exact ⟨reading_eq _, normal_eq _⟩

private theorem givesTree_inline {d : Nat} {type : Option String} {ds : List Directive}
    {selections : List Selection} (htype : ∀ s ∈ type, isName s = true)
    (hds : ∀ x ∈ ds, GivesTree Directive.toTree (IsDirective false d) x)
    (hselections : SetGives d selections) :
    GivesTree Selection.toTree (IsSelection true d) (.inline type ds (some selections)) := by
  intro t ht
  obtain ⟨dt, hdt, ht⟩ := bind_eq_ok.1 ht
  obtain ⟨st, hst, ht⟩ := bind_eq_ok.1 ht
  cases ht
  obtain ⟨dts, rfl, hdts⟩ := directiveTrees_eq_ok hds hdt
  obtain ⟨sts, rfl, hdepth, hsts⟩ := setTrees_eq_ok (by simpa using hselections) hst
  have hcondition : IsCondition (conditionTree type) := by
    cases type with
    | none => exact .inl rfl
    | some s => exact .inr ⟨s, rfl, htype s rfl⟩
  refine ⟨.inline hcondition (fun x hx => (hdts x hx).1) (by simp) hdepth fun s hs => (hsts s hs).1, ?_⟩
  rw [reading_eq, normal_eq]
  show Tree.inlineFragment (conditionTree type).reading (.tuple (dts.map reading)) (.tuple (sts.map reading)) =
    .inlineFragment (conditionTree type).normal (.tuple (dts.map normal)) (.tuple (sts.map normal))
  rw [map_reading_eq_map_normal hdts, map_reading_eq_map_normal hsts, (reading_conditionTree type).1,
    (reading_conditionTree type).2]

theorem ensures_spread {d : Nat} {nested : Parser (List Selection)}
    (hnested : Ensures 1 nested (SetGives d)) :
    Ensures 1 (spread d nested) (GivesTree Selection.toTree (IsSelection true d)) := by
  refine (ensures_expect .spread).lead fun _ _ => (ensures_skipKeyword "on").follow fun b _ =>
    .ite (fun _ => ?_) fun _ => ?_
  · exact ensures_name.follow fun type htype => (ensures_directives false d).lead fun ds hds =>
      hnested.follow fun ss hss => .pure (givesTree_inline (by simpa using htype) hds hss)
  · refine .peek fun t _ => ?_
    split
    · exact EnsuresOn.at (ensures_fragmentName.follow fun name hname =>
        (ensures_directives false d).lead fun ds hds => .pure (givesTree_spread hname hds)) _
    · exact EnsuresOn.at ((ensures_directives false d).lead fun ds hds =>
        hnested.follow fun ss hss => .pure (givesTree_inline (by simp) hds hss)) _

/-- A selection that is read gives a selection, if the sets nested in it do. -/
theorem ensures_selection {d : Nat} {nested : Parser (List Selection)}
    (hnested : Ensures 1 nested (SetGives d)) :
    Ensures 1 (selection d nested) (GivesTree Selection.toTree (IsSelection true d)) :=
  .peek fun t _ => EnsuresOn.at (.ite (fun _ => ensures_spread hnested) fun _ => ensures_field hnested) t

/-- Every selection set that is read gives selections within the depth. -/
theorem ensures_selectionSet (d : Nat) : Ensures 1 (selectionSet d) (SetGives d) := by
  induction d with
  | zero =>
    rw [selectionSet]
    exact ensures_failHere _ _
  | succ d ih =>
    exact (ensures_any ((ensures_selection ih).least (Nat.zero_le 1))).mono (Nat.le_refl 1)
      fun ss hss => ⟨Nat.succ_pos d, hss⟩

/-! ## Parts of definitions -/

theorem ensures_description {L : Token → Prop} : EnsuresOn L 0 description fun _ => True := by
  refine .peek fun t _ => ?_
  split
  · exact ((ensuresAt_advance (by simp)).lead fun _ _ => .pure trivial).least (Nat.zero_le 1)
  · exact ((ensuresAt_advance (by simp)).lead fun _ _ => .pure trivial).least (Nat.zero_le 1)
  · exact (EnsuresOn.pure trivial).at _

/-- A default is absent or a constant literal. -/
theorem ensures_defaultValue :
    Ensures 0 defaultValue (GivesTree defaultTree fun t => t = .none ∨ IsGivenLiteral true maxDepth t) := by
  refine (ensures_skip .equals).follow fun b _ => .ite (fun _ => ?_) fun _ => ?_
  · refine ((ensures_value true maxDepth).least (Nat.zero_le 1)).map fun v hv t ht => ?_
    exact ⟨.inr (hv t ht).1, (hv t ht).2⟩
  · refine .pure fun t ht => ?_
    cases ht
    exact ⟨.inl rfl, by rw [reading_eq, normal_eq]; rfl⟩

theorem isDefault_of_given {t : Tree} (h : t = .none ∨ IsGivenLiteral true maxDepth t) : IsDefault t :=
  h.imp_right And.left

theorem ensures_operationKind {L : Token → Prop} : EnsuresOn L 1 operationKind fun _ => True := by
  refine .head fun t place _ => EnsuresOn.at ?_ t
  refine ensuresOn_name.lead fun word _ => .peek fun t _ => EnsuresOn.at ?_ t
  split
  · exact .pure trivial
  · exact ensures_fail _ _ _

theorem ensures_variableDefinition :
    Ensures 1 variableDefinition (GivesTree VariableDefinition.toTree IsVariable) := by
  refine ensures_description.follow fun _ _ => ensures_variableName.lead fun name hname =>
    (ensures_expect .colon).follow fun _ _ => (ensures_typeRef maxDepth).follow fun type htype =>
    ensures_defaultValue.follow fun default hdefault => (ensures_directives true maxDepth).follow
    fun ds _ => .pure ?_
  intro t ht
  rw [VariableDefinition.toTree] at ht
  split at ht
  · cases ht
  · obtain ⟨tt, htt, ht⟩ := bind_eq_ok.1 ht
    obtain ⟨dt, hdt, ht⟩ := bind_eq_ok.1 ht
    cases ht
    refine ⟨.mk hname (htype tt htt).1 (isDefault_of_given (hdefault dt hdt).1), ?_⟩
    rw [reading_eq, normal_eq]
    show Tree.variableDefinition name tt.reading dt.reading = .variableDefinition name tt.normal dt.normal
    rw [(htype tt htt).2, (hdefault dt hdt).2]

theorem ensures_inputValue : Ensures 1 inputValue (GivesTree InputValue.toTree IsInputValue) := by
  refine ensures_description.follow fun about _ => ensures_name.lead fun name hname =>
    (ensures_expect .colon).follow fun _ _ => (ensures_typeRef maxDepth).follow fun type htype =>
    ensures_defaultValue.follow fun default hdefault => (ensures_directives true maxDepth).follow
    fun ds hds => .pure ?_
  intro t ht
  obtain ⟨tt, htt, ht⟩ := bind_eq_ok.1 ht
  obtain ⟨dt, hdt, ht⟩ := bind_eq_ok.1 ht
  obtain ⟨st, hst, ht⟩ := bind_eq_ok.1 ht
  cases ht
  obtain ⟨sts, rfl, hsts⟩ := directiveTrees_eq_ok hds hst
  refine ⟨.mk hname (htype tt htt).1 (isDefault_of_given (hdefault dt hdt).1) fun x hx => (hsts x hx).1, ?_⟩
  rw [reading_eq, normal_eq]
  show Tree.inputValue name tt.reading dt.reading (.tuple (sts.map reading)) none =
    .inputValue name tt.normal dt.normal (.tuple (sts.map normal)) none
  rw [(htype tt htt).2, (hdefault dt hdt).2, map_reading_eq_map_normal hsts]

theorem ensures_fieldDefinition :
    Ensures 1 fieldDefinition (GivesTree FieldDefinition.toTree IsFieldDefinition) := by
  refine ensures_description.follow fun about _ => ensures_name.lead fun name hname =>
    (ensures_optionalMany (ensures_inputValue.least (Nat.zero_le 1))).follow fun args hargs =>
    (ensures_expect .colon).follow fun _ _ => (ensures_typeRef maxDepth).follow fun type htype =>
    (ensures_directives true maxDepth).follow fun ds hds => .pure ?_
  intro t ht
  obtain ⟨tt, htt, ht⟩ := bind_eq_ok.1 ht
  obtain ⟨as, has, ht⟩ := bind_eq_ok.1 ht
  obtain ⟨st, hst, ht⟩ := bind_eq_ok.1 ht
  cases ht
  have hall := forall_isRead_of_mapM hargs has
  obtain ⟨sts, rfl, hsts⟩ := directiveTrees_eq_ok hds hst
  refine ⟨.mk hname (htype tt htt).1 (fun a ha => (hall a ha).1) fun x hx => (hsts x hx).1, ?_⟩
  rw [reading_eq, normal_eq]
  show Tree.fieldDefinition name tt.reading (.tuple (as.map reading)) (.tuple (sts.map reading)) none =
    .fieldDefinition name tt.normal (.tuple (as.map normal)) (.tuple (sts.map normal)) none
  rw [(htype tt htt).2, map_reading_eq_map_normal hall, map_reading_eq_map_normal hsts]

/-- An enum value is none of the three reserved words. -/
theorem ensures_enumValueName :
    Ensures 1 enumValueName fun s => isName s = true ∧ s ∉ ["true", "false", "null"] := by
  refine .peek fun t ht => ?_
  split
  · exact (ensures_failHere _ _).at t
  · next hfree =>
    intro tape x rest hlex hfront hrun
    obtain ⟨hrest, hsize, hx⟩ := ensures_name tape x rest hlex hrun
    refine ⟨hrest, hsize, hx, ?_⟩
    rw [front_of_name hrun] at hfront
    cases hfront
    simpa [Token.value?] using hfree

theorem ensures_enumValueDefinition :
    Ensures 1 enumValueDefinition (GivesTree EnumValueDefinition.toTree IsEnumValue) := by
  refine ensures_description.follow fun about _ => ensures_enumValueName.lead fun name hname =>
    (ensures_directives true maxDepth).follow fun ds hds => .pure ?_
  intro t ht
  obtain ⟨st, hst, ht⟩ := bind_eq_ok.1 ht
  cases ht
  obtain ⟨sts, rfl, hsts⟩ := directiveTrees_eq_ok hds hst
  refine ⟨.mk hname.1 hname.2 fun x hx => (hsts x hx).1, ?_⟩
  rw [reading_eq, normal_eq]
  show Tree.enumValueDefinition name (.tuple (sts.map reading)) none =
    .enumValueDefinition name (.tuple (sts.map normal)) none
  rw [map_reading_eq_map_normal hsts]

/-- The interfaces of a type are names. -/
theorem ensures_interfaces : Ensures 0 interfaces fun names => ∀ n ∈ names, isName n = true := by
  refine (ensures_skipKeyword "implements").follow fun b _ => .ite (fun _ => ?_) fun _ => .pure (by simp)
  exact (ensures_separated ensures_name).mono (Nat.zero_le 1) fun _ h => h.2

/-- The members of a union are names. -/
theorem ensures_members : Ensures 0 members fun names => ∀ n ∈ names, isName n = true := by
  refine (ensures_skip .equals).follow fun b _ => .ite (fun _ => ?_) fun _ => .pure (by simp)
  exact (ensures_separated ensures_name).mono (Nat.zero_le 1) fun _ h => h.2

theorem ensures_root : Ensures 1 root fun r => isName r.2 = true :=
  ensures_operationKind.follow fun _ _ => (ensures_expect .colon).follow fun _ _ =>
    ensures_name.lead fun _ htype => .pure htype

/-- The locations of a directive definition are known ones. -/
theorem ensures_location : Ensures 1 location fun s => s ∈ locationNames := by
  refine .head fun t place _ => EnsuresOn.at ?_ t
  refine ensures_name.lead fun word _ => .peek fun t _ => EnsuresOn.at ?_ t
  refine .ite (fun hword => .pure hword) fun _ => ensures_fail _ _ _

/-! ## Definitions -/

/-- The trees of the selection set of an operation or a fragment. -/
theorem selections_eq_ok {selections : List Selection} {s : Seq Tree} (h : SetGives maxDepth selections)
    (hs : Selection.setTrees (some selections) = .ok s) :
    ∃ ts, s = .tuple ts ∧ AreSelections true ts ∧ ts.map reading = ts.map normal := by
  obtain ⟨ts, rfl, -, hts⟩ := setTrees_eq_ok (d := maxDepth) (by simpa using h) hs
  exact ⟨ts, rfl, ⟨by simp, fun t ht => (hts t ht).1⟩, map_reading_eq_map_normal hts⟩

theorem givesTree_operation {about : Option StringLiteral} {kind : OperationKind} {name : Option String}
    {vars : List VariableDefinition} {ds : List Directive} {selections : List Selection}
    (hname : ∀ s ∈ name, isName s = true)
    (hvars : ∀ v ∈ vars, GivesTree VariableDefinition.toTree IsVariable v)
    (hds : ∀ x ∈ ds, GivesTree Directive.toTree (IsDirective false maxDepth) x)
    (hselections : SetGives maxDepth selections) :
    GivesTree Definition.toTree IsDefinition
      (.operation ⟨about, kind, name, vars, ds, some selections⟩) := by
  intro t ht
  obtain ⟨vt, hvt, ht⟩ := bind_eq_ok.1 (show Operation.toTree _ = _ from ht)
  obtain ⟨dt, hdt, ht⟩ := bind_eq_ok.1 ht
  obtain ⟨st, hst, ht⟩ := bind_eq_ok.1 ht
  cases ht
  have hall := forall_isRead_of_mapM hvars hvt
  obtain ⟨dts, rfl, hdts⟩ := directiveTrees_eq_ok hds hdt
  obtain ⟨sts, rfl, hsts, hread⟩ := selections_eq_ok hselections hst
  refine ⟨.inl (.operation (fun s hs => .inr (hname s hs)) (fun v hv => (hall v hv).1)
    (fun x hx => (hdts x hx).1) hsts), ?_⟩
  have hfilter : name.filter (· ≠ "") = name := by
    cases name with
    | none => rfl
    | some s => simp [Option.filter, ne_empty_of_isName (hname s rfl)]
  rw [reading_eq, normal_eq]
  show Tree.operation kind.keyword (name.filter (· ≠ "")) (.tuple (vt.map reading))
      (.tuple (dts.map reading)) (.tuple (sts.map reading)) =
    .operation kind.keyword name (.tuple (vt.map normal)) (.tuple (dts.map normal))
      (.tuple (sts.map normal))
  rw [hfilter, map_reading_eq_map_normal hall, map_reading_eq_map_normal hdts, hread]

theorem ensures_shorthand : Ensures 1 shorthand (GivesTree Definition.toTree IsDefinition) :=
  (ensures_selectionSet maxDepth).lead fun _ hss =>
    .pure (givesTree_operation (by simp) (by simp) (by simp) hss)

theorem ensures_operation (about : Option StringLiteral) :
    Ensures 1 (operation about) (GivesTree Definition.toTree IsDefinition) := by
  refine ensures_operationKind.lead fun kind _ => .peek fun t _ => ?_
  have hrest : ∀ name : Option String, (∀ s ∈ name, isName s = true) → Ensures 0 (do
      let vars ← optionalMany .parenL variableDefinition .parenR
      let directives ← directives false maxDepth
      let selections ← selectionSet maxDepth
      return Definition.operation ⟨about, kind, name, vars, directives, some selections⟩)
        (GivesTree Definition.toTree IsDefinition) := by
    intro name hname
    exact (ensures_optionalMany (ensures_variableDefinition.least (Nat.zero_le 1))).follow
      fun vars hvars => (ensures_directives false maxDepth).follow fun ds hds =>
      (ensures_selectionSet maxDepth).follow fun ss hss =>
      .pure (givesTree_operation hname hvars hds hss)
  split
  · exact EnsuresOn.at (((ensures_name.least (Nat.zero_le 1)).map fun s hs => by simpa using hs).lead hrest) _
  · exact EnsuresOn.at (hrest none (by simp)) _

theorem ensures_fragment (about : Option StringLiteral) :
    Ensures 1 (fragment about) (GivesTree Definition.toTree IsDefinition) := by
  refine (ensures_keyword "fragment").lead fun _ _ => ensures_fragmentName.follow fun name hname =>
    (ensures_keyword "on").follow fun _ _ => ensures_name.follow fun type htype =>
    (ensures_directives false maxDepth).follow fun ds hds =>
    (ensures_selectionSet maxDepth).follow fun ss hss => .pure ?_
  intro t ht
  obtain ⟨dt, hdt, ht⟩ := bind_eq_ok.1 (show Fragment.toTree _ = _ from ht)
  obtain ⟨st, hst, ht⟩ := bind_eq_ok.1 ht
  cases ht
  obtain ⟨dts, rfl, hdts⟩ := directiveTrees_eq_ok hds hdt
  obtain ⟨sts, rfl, hsts, hread⟩ := selections_eq_ok hss hst
  refine ⟨.inl (.fragment hname.1 hname.2 htype (fun x hx => (hdts x hx).1) hsts), ?_⟩
  rw [reading_eq, normal_eq]
  show Tree.fragment name (reading (.typeName type)) (.tuple (dts.map reading)) (.tuple (sts.map reading)) =
    .fragment name (normal (.typeName type)) (.tuple (dts.map normal)) (.tuple (sts.map normal))
  rw [map_reading_eq_map_normal hdts, hread, (isRead_typeName (d := 0) htype).2]

theorem ensures_schema (about : Option StringLiteral) :
    Ensures 1 (schema about) (GivesTree Definition.toTree IsDefinition) := by
  refine (ensures_keyword "schema").lead fun _ _ => (ensures_directives true maxDepth).follow
    fun ds _ => (ensures_many (ensures_root.least (Nat.zero_le 1))).follow fun roots hroots => .pure ?_
  have hroot : ∀ kind, ∀ n ∈ Schema.root? ⟨about, ds, roots⟩ kind, isName n = true := by
    intro kind n hn
    obtain ⟨r, hr, rfl⟩ := Option.map_eq_some_iff.1 hn
    rw [List.findRev?_eq_find?_reverse] at hr
    exact hroots.2 r (List.mem_reverse.1 (List.mem_of_find?_eq_some hr))
  intro t ht
  change Schema.toTree _ = _ at ht
  rw [Schema.toTree] at ht
  split at ht
  · cases ht
  · cases ht
    exact ⟨.inr (.schema (hroot _) (hroot _) (hroot _)), by rw [reading_eq, normal_eq]; rfl⟩

theorem ensures_scalarType (about : Option StringLiteral) :
    Ensures 1 (scalarType about) (GivesTree Definition.toTree IsDefinition) := by
  refine (ensures_keyword "scalar").lead fun _ _ => ensures_name.follow fun name hname =>
    (ensures_directives true maxDepth).follow fun ds hds => .pure ?_
  intro t ht
  obtain ⟨dt, hdt, ht⟩ := bind_eq_ok.1 (show ScalarType.toTree _ = _ from ht)
  cases ht
  obtain ⟨dts, rfl, hdts⟩ := directiveTrees_eq_ok hds hdt
  refine ⟨.inr (.scalarType hname fun x hx => (hdts x hx).1), ?_⟩
  rw [reading_eq, normal_eq]
  show Tree.scalarType name (.tuple (dts.map reading)) none = .scalarType name (.tuple (dts.map normal)) none
  rw [map_reading_eq_map_normal hdts]

/-- What the parts of an object or interface type give. -/
def PartsGive (parts : FieldsType) : Prop :=
  isName parts.name = true ∧ (∀ n ∈ parts.interfaces, isName n = true) ∧
    (∀ x ∈ parts.directives, GivesTree Directive.toTree (IsDirective true maxDepth) x) ∧
    ∀ f ∈ parts.fields, GivesTree FieldDefinition.toTree IsFieldDefinition f

theorem ensures_fieldsType (about : Option StringLiteral) : Ensures 1 (fieldsType about) PartsGive :=
  ensures_name.lead fun _ hname => ensures_interfaces.follow fun _ hinterfaces =>
    (ensures_directives true maxDepth).follow fun _ hds =>
    (ensures_optionalMany (ensures_fieldDefinition.least (Nat.zero_le 1))).follow fun _ hfields =>
    .pure ⟨hname, hinterfaces, hds, hfields⟩

theorem ensures_objectType (about : Option StringLiteral) :
    Ensures 1 (objectType about) (GivesTree Definition.toTree IsDefinition) := by
  refine (ensures_keyword "type").lead fun _ _ => ((ensures_fieldsType about).least (Nat.zero_le 1)).map
    fun parts hparts => ?_
  obtain ⟨hname, hinterfaces, hds, hfields⟩ := hparts
  intro t ht
  obtain ⟨ft, hft, ht⟩ := bind_eq_ok.1 (show FieldsType.toObjectTree _ = _ from ht)
  obtain ⟨dt, hdt, ht⟩ := bind_eq_ok.1 ht
  cases ht
  have hall := forall_isRead_of_mapM hfields hft
  obtain ⟨dts, rfl, hdts⟩ := directiveTrees_eq_ok hds hdt
  refine ⟨.inr (.objectType hname (fun f hf => (hall f hf).1) hinterfaces fun x hx => (hdts x hx).1), ?_⟩
  rw [reading_eq, normal_eq]
  show Tree.objectType parts.name (.tuple (ft.map reading)) (.tuple parts.interfaces)
      (.tuple (dts.map reading)) none =
    .objectType parts.name (.tuple (ft.map normal)) (.tuple parts.interfaces) (.tuple (dts.map normal)) none
  rw [map_reading_eq_map_normal hall, map_reading_eq_map_normal hdts]

theorem ensures_interfaceType (about : Option StringLiteral) :
    Ensures 1 (interfaceType about) (GivesTree Definition.toTree IsDefinition) := by
  refine (ensures_keyword "interface").lead fun _ _ =>
    ((ensures_fieldsType about).least (Nat.zero_le 1)).map fun parts hparts => ?_
  obtain ⟨hname, -, hds, hfields⟩ := hparts
  intro t ht
  change FieldsType.toInterfaceTree _ = _ at ht
  rw [FieldsType.toInterfaceTree] at ht
  split at ht
  · cases ht
  · obtain ⟨ft, hft, ht⟩ := bind_eq_ok.1 ht
    obtain ⟨dt, hdt, ht⟩ := bind_eq_ok.1 ht
    cases ht
    have hall := forall_isRead_of_mapM hfields hft
    obtain ⟨dts, rfl, hdts⟩ := directiveTrees_eq_ok hds hdt
    refine ⟨.inr (.interfaceType hname (fun f hf => (hall f hf).1) fun x hx => (hdts x hx).1), ?_⟩
    rw [reading_eq, normal_eq]
    show Tree.interfaceType parts.name (.tuple (ft.map reading)) (.tuple (dts.map reading)) none =
      .interfaceType parts.name (.tuple (ft.map normal)) (.tuple (dts.map normal)) none
    rw [map_reading_eq_map_normal hall, map_reading_eq_map_normal hdts]

theorem ensures_unionType (about : Option StringLiteral) :
    Ensures 1 (unionType about) (GivesTree Definition.toTree IsDefinition) := by
  refine (ensures_keyword "union").lead fun _ _ => ensures_name.follow fun name hname =>
    (ensures_directives true maxDepth).follow fun ds hds =>
    ensures_members.follow fun members hmembers => .pure ?_
  intro t ht
  obtain ⟨dt, hdt, ht⟩ := bind_eq_ok.1 (show UnionType.toTree _ = _ from ht)
  cases ht
  obtain ⟨dts, rfl, hdts⟩ := directiveTrees_eq_ok hds hdt
  have hall : ∀ m ∈ members.map Tree.typeName, IsRead (IsType 0) m := by
    intro m hm
    obtain ⟨n, hn, rfl⟩ := List.mem_map.1 hm
    exact isRead_typeName (hmembers n hn)
  refine ⟨.inr (.unionType hname hmembers fun x hx => (hdts x hx).1), ?_⟩
  rw [reading_eq, normal_eq]
  show Tree.unionType name (.tuple ((members.map Tree.typeName).map reading)) (.tuple (dts.map reading)) none =
    .unionType name (.tuple ((members.map Tree.typeName).map normal)) (.tuple (dts.map normal)) none
  rw [map_reading_eq_map_normal hall, map_reading_eq_map_normal hdts]

theorem ensures_enumType (about : Option StringLiteral) :
    Ensures 1 (enumType about) (GivesTree Definition.toTree IsDefinition) := by
  refine (ensures_keyword "enum").lead fun _ _ => ensures_name.follow fun name hname =>
    (ensures_directives true maxDepth).follow fun ds hds =>
    (ensures_optionalMany (ensures_enumValueDefinition.least (Nat.zero_le 1))).follow
    fun values hvalues => .pure ?_
  intro t ht
  obtain ⟨vt, hvt, ht⟩ := bind_eq_ok.1 (show EnumType.toTree _ = _ from ht)
  obtain ⟨dt, hdt, ht⟩ := bind_eq_ok.1 ht
  cases ht
  have hall := forall_isRead_of_mapM hvalues hvt
  obtain ⟨dts, rfl, hdts⟩ := directiveTrees_eq_ok hds hdt
  refine ⟨.inr (.enumType hname (fun v hv => (hall v hv).1) fun x hx => (hdts x hx).1), ?_⟩
  rw [reading_eq, normal_eq]
  show Tree.enumType name (.tuple (vt.map reading)) (.tuple (dts.map reading)) none =
    .enumType name (.tuple (vt.map normal)) (.tuple (dts.map normal)) none
  rw [map_reading_eq_map_normal hall, map_reading_eq_map_normal hdts]

theorem ensures_inputType (about : Option StringLiteral) :
    Ensures 1 (inputType about) (GivesTree Definition.toTree IsDefinition) := by
  refine (ensures_keyword "input").lead fun _ _ => ensures_name.follow fun name hname =>
    (ensures_directives true maxDepth).follow fun ds hds =>
    (ensures_optionalMany (ensures_inputValue.least (Nat.zero_le 1))).follow
    fun fields hfields => .pure ?_
  intro t ht
  obtain ⟨ft, hft, ht⟩ := bind_eq_ok.1 (show InputType.toTree _ = _ from ht)
  obtain ⟨dt, hdt, ht⟩ := bind_eq_ok.1 ht
  cases ht
  have hall := forall_isRead_of_mapM hfields hft
  obtain ⟨dts, rfl, hdts⟩ := directiveTrees_eq_ok hds hdt
  refine ⟨.inr (.inputType hname (fun f hf => (hall f hf).1) fun x hx => (hdts x hx).1), ?_⟩
  rw [reading_eq, normal_eq]
  show Tree.inputType name (.tuple (ft.map reading)) (.tuple (dts.map reading)) none =
    .inputType name (.tuple (ft.map normal)) (.tuple (dts.map normal)) none
  rw [map_reading_eq_map_normal hall, map_reading_eq_map_normal hdts]

theorem ensures_directiveDefinition (about : Option StringLiteral) :
    Ensures 1 (directiveDefinition about) (GivesTree Definition.toTree IsDefinition) := by
  refine (ensures_keyword "directive").lead fun _ _ => (ensures_expect .at).follow fun _ _ =>
    ensures_name.follow fun name hname =>
    (ensures_optionalMany (ensures_inputValue.least (Nat.zero_le 1))).follow fun args hargs =>
    (ensures_directives true maxDepth).follow fun ds _ =>
    (ensures_skipKeyword "repeatable").follow fun isRepeatable _ => (ensures_keyword "on").follow fun _ _ =>
    (ensures_separated ensures_location).follow fun locations hlocations => .pure ?_
  intro t ht
  change DirectiveDefinition.toTree _ = _ at ht
  rw [DirectiveDefinition.toTree] at ht
  split at ht
  · cases ht
  · obtain ⟨at', hat, ht⟩ := bind_eq_ok.1 ht
    cases ht
    have hall := forall_isRead_of_mapM hargs hat
    refine ⟨.inr (.directiveDefinition hname hlocations.1 hlocations.2 fun a ha => (hall a ha).1), ?_⟩
    rw [reading_eq, normal_eq]
    show Tree.directiveDefinition name (.tuple locations) (.tuple (at'.map reading)) none =
      .directiveDefinition name (.tuple locations) (.tuple (at'.map normal)) none
    rw [map_reading_eq_map_normal hall]

theorem ensures_extensionWith (kind : ExtensionKind) {hasPart : Parser Bool}
    (h : Ensures 0 hasPart fun _ => True) {t : Token} (ht : t ≠ .endOfSource) :
    EnsuresAt t 0 (extensionWith kind hasPart) (GivesTree Definition.toTree IsDefinition) := by
  refine ((ensuresAt_advance ht).lead fun _ _ => h.lead fun b _ => ?_).least (Nat.zero_le 1)
  refine .ite (fun _ => .pure ?_) fun _ => ensures_failHere _ _
  -- an extension has no tree
  intro t ht
  cases ht

theorem ensures_extension : Ensures 1 extension (GivesTree Definition.toTree IsDefinition) := by
  refine (ensures_keyword "extend").lead fun _ _ => .peek fun t _ => ?_
  have hds := ensures_directives true maxDepth
  have hparts : Ensures 0 (do
      let parts ← fieldsType none
      return !parts.interfaces.isEmpty || !parts.directives.isEmpty || !parts.fields.isEmpty)
      fun _ => True :=
    ((ensures_fieldsType none).least (Nat.zero_le 1)).lead fun _ _ => .pure trivial
  split
  · exact ensures_extensionWith _ (hds.lead fun _ _ =>
      (ensures_optionalMany (ensures_root.least (Nat.zero_le 1))).lead fun _ _ => .pure trivial) (by simp)
  · exact ensures_extensionWith _ (ensures_name.follow fun _ _ => hds.lead fun _ _ => .pure trivial)
      (by simp)
  · exact ensures_extensionWith _ hparts (by simp)
  · exact ensures_extensionWith _ hparts (by simp)
  · exact ensures_extensionWith _ (ensures_name.follow fun _ _ => hds.lead fun _ _ =>
      ensures_members.lead fun _ _ => .pure trivial) (by simp)
  · exact ensures_extensionWith _ (ensures_name.follow fun _ _ => hds.lead fun _ _ =>
      (ensures_optionalMany (ensures_enumValueDefinition.least (Nat.zero_le 1))).lead
        fun _ _ => .pure trivial) (by simp)
  · exact ensures_extensionWith _ (ensures_name.follow fun _ _ => hds.lead fun _ _ =>
      (ensures_optionalMany (ensures_inputValue.least (Nat.zero_le 1))).lead
        fun _ _ => .pure trivial) (by simp)
  · exact ensures_extensionWith _ ((ensures_expect .at).follow fun _ _ => ensures_name.follow
      fun _ _ => hds.lead fun _ _ => .pure trivial) (by simp)
  · exact (ensures_failHere _ _).at _

/-- Whichever keyword is found, the parser for its definition gives a definition. -/
theorem ensures_definitionOf? {about : Option StringLiteral} {word : String} {p : Parser Definition}
    (h : definitionOf? about word = some p) : Ensures 1 p (GivesTree Definition.toTree IsDefinition) := by
  unfold definitionOf? at h
  split at h <;> cases h
  · exact ensures_operation about
  · exact ensures_operation about
  · exact ensures_operation about
  · exact ensures_fragment about
  · exact ensures_schema about
  · exact ensures_scalarType about
  · exact ensures_objectType about
  · exact ensures_interfaceType about
  · exact ensures_unionType about
  · exact ensures_enumType about
  · exact ensures_inputType about
  · exact ensures_directiveDefinition about

/-- A definition takes a token at least, and its tree is well-formed. -/
theorem ensures_definition : Ensures 1 definition (GivesTree Definition.toTree IsDefinition) := by
  refine .head fun t place _ => EnsuresOn.at (.ite (fun _ => ensures_shorthand) fun _ => ?_) t
  refine ensures_description.follow fun about _ => .peek fun t _ => ?_
  split
  · next word =>
    split
    · next p hp => exact (ensures_definitionOf? hp).at _
    · exact EnsuresOn.at (.ite (fun _ => ensures_fail _ _ _) fun _ =>
        .ite (fun _ => ensures_extension) fun _ => ensures_failHere _ _) _
  · exact (ensures_fail _ _ _).at _
  · exact (ensures_failHere _ _).at _

/-- A document that is read holds at least one definition, and each gives a definition. -/
theorem ensures_document : Ensures 1 document fun d =>
    d.definitions ≠ [] ∧ ∀ x ∈ d.definitions, GivesTree Definition.toTree IsDefinition x := by
  refine ensures_definition.lead fun first hfirst =>
    (ensures_itemsWhile (ensures_definition.least (Nat.zero_le 1))).lead fun rest hrest => .pure ?_
  refine ⟨by simp, fun x hx => ?_⟩
  rcases List.mem_cons.1 hx with rfl | hx
  · exact hfirst
  · exact hrest x hx

end Syntax

/-- A source is read as a phrase if its tape is, up to the end. -/
theorem read_eq_ok {α : Type} {phrase : Parser α} {source : String} {x : α} :
    Syntax.read phrase source = .ok x ↔
      ∃ rest, phrase (Tape.ofChars source.toList) = .ok (x, rest) ∧ rest.front = some .endOfSource := by
  constructor
  · intro h
    obtain ⟨⟨y, last⟩, hrun, h⟩ := bind_eq_ok.1 h
    cases h
    obtain ⟨y, rest, hphrase, hrun⟩ := bind_run_eq_ok hrun
    obtain ⟨_, mid, hend, hrun⟩ := bind_run_eq_ok hrun
    cases hrun
    obtain ⟨token, mid, hpeek, hcheck⟩ := bind_run_eq_ok hend
    obtain ⟨rfl, hfront⟩ := front_of_peek hpeek
    refine ⟨mid, hphrase, ?_⟩
    -- the end of the source is there, or the reader has failed
    split at hcheck
    · next htoken => rw [hfront, htoken]
    · obtain ⟨_, _, -, hcheck⟩ := bind_run_eq_ok hcheck
      cases hcheck
  · rintro ⟨rest, hphrase, hfront⟩
    have hend : endOfSource rest = .ok ((), rest) := by
      rw [endOfSource, bind_run (peek_run hfront), if_pos rfl]
      rfl
    refine bind_eq_ok.2 ⟨(x, rest), ?_, rfl⟩
    show (phrase >>= fun result => endOfSource >>= fun _ => pure result) (Tape.ofChars source.toList) = _
    rw [bind_run hphrase, bind_run hend]
    rfl

/-- A source gives a tree if its tape is read as a phrase, up to the end, and the phrase gives the tree. -/
theorem parseWith_eq_ok {α : Type} {phrase : Parser α} {conv : α → Syntax.Converted Tree} {source : String} {t : Tree} :
    parseWith (Syntax.read phrase) conv source = .ok t ↔
      ∃ x rest, phrase (Tape.ofChars source.toList) = .ok (x, rest) ∧ rest.front = some .endOfSource ∧
        conv x = .ok t := by
  rw [parseWith]
  simp only [bind_eq_ok, mapError_eq_ok]
  constructor
  · rintro ⟨x, hread, ht⟩
    obtain ⟨rest, hrun, hfront⟩ := read_eq_ok.1 hread
    exact ⟨x, rest, hrun, hfront, ht⟩
  · rintro ⟨x, rest, hrun, hfront, ht⟩
    exact ⟨x, read_eq_ok.2 ⟨rest, hrun, hfront⟩, ht⟩

/-- Parsing succeeds when a document is read up to the end of the source and then converted. -/
theorem parseDocument_eq_ok {source : String} {t : Tree} :
    parseDocument source = .ok t ↔ ∃ d rest, Syntax.document (Tape.ofChars source.toList) = .ok (d, rest) ∧
      rest.front = some .endOfSource ∧ d.toTree = .ok t :=
  parseWith_eq_ok

/-- A document that is read has one definition or more, all well-formed. -/
theorem exists_definitions_of_parseDocument {source : String} {t : Tree}
    (h : parseDocument source = .ok t) :
    ∃ ds, t = .document (.tuple ds) ∧ ds ≠ [] ∧ ∀ d ∈ ds, IsRead IsDefinition d := by
  obtain ⟨d, rest, hrun, -, ht⟩ := parseDocument_eq_ok.1 h
  obtain ⟨-, -, hne, hall⟩ := Syntax.ensures_document _ d rest (Tape.lexical_ofChars _) hrun
  obtain ⟨ds, hds, ht⟩ := bind_eq_ok.1 ht
  cases ht
  refine ⟨ds, rfl, ?_, forall_isRead_of_mapM hall hds⟩
  rintro rfl
  exact hne (List.forall₂_nil_right_iff.1 (mapM_eq_ok.1 hds))

end GraphDoc
