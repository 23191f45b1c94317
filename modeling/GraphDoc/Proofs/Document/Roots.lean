import GraphDoc.Proofs.Document.RoundTrip

/-!
# Root operation types

A document says which types its operations start from: in its schema block, or by object types with the default
names. A schema block that is suppressed in print names default roots only, so no root is lost without it. But a
root that the block leaves out on purpose comes back if an object type happens to have its default name.
-/

namespace GraphDoc

open GraphDoc.Tree
open Syntax (OperationKind)

/-- The name of the type that an operation starts from unless a schema block says otherwise. -/
def Syntax.OperationKind.usualRoot : OperationKind → String
  | .query => "Query"
  | .mutation => "Mutation"
  | .subscription => "Subscription"

namespace Tree

/-- The root that a schema block declares for an operation. -/
def declaredRoot? : Tree → OperationKind → Option String
  | .schema query _ _ _, .query => query
  | .schema _ mutation _ _, .mutation => mutation
  | .schema _ _ subscription _, .subscription => subscription
  | _, _ => Option.none

/-- Whether a definition is a schema block. -/
def isSchema : Tree → Bool
  | .schema .. => true
  | _ => false

/-- Whether a definition is the object type of the given name. -/
def isObjectType (name : String) : Tree → Bool
  | .objectType n .. => n == name
  | _ => false

/-- Whether a document defines an object type of the given name. -/
def hasObjectType (t : Tree) (name : String) : Bool := t.definitions.any (isObjectType name)

/-- The type that an operation starts from: what the schema block declares, or without a block the object type of
the default name. -/
def root? (t : Tree) (kind : OperationKind) : Option String :=
  match t.definitions.find? isSchema with
  | some block => block.declaredRoot? kind
  | Option.none => if t.hasObjectType kind.usualRoot then some kind.usualRoot else Option.none

end Tree

/-- A suppressed block declares no root but the default one. -/
theorem declaredRoot?_of_isSuppressed {block : Tree} (h : block.isSuppressed = true) (kind : OperationKind) :
    block.declaredRoot? kind = Option.none ∨ block.declaredRoot? kind = some kind.usualRoot := by
  cases block with
  | schema query mutation subscription description =>
    simp only [isSuppressed, Bool.and_eq_true, Bool.or_eq_true, Option.isNone_iff_eq_none, beq_iff_eq] at h
    obtain ⟨⟨hquery, hmutation⟩, hsubscription⟩ := h
    cases kind with
    | query => exact hquery
    | mutation => exact hmutation
    | subscription => exact hsubscription
  | _ => cases h

/-- No object type is suppressed. -/
theorem hasObjectType_shown (ds : List Tree) (name : String) :
    (Tree.document (.tuple (shown ds))).hasObjectType name = (Tree.document (.tuple ds)).hasObjectType name := by
  show (shown ds).any (isObjectType name) = ds.any (isObjectType name)
  rw [shown, List.any_filter]
  congr 1
  funext d
  cases d <;> simp [isSuppressed, isObjectType]

/-- The schema block of a document that has one at most: it is the one that prints, if it shows. -/
theorem find?_isSchema_cases {ds : List Tree} (h : (ds.filter isSchema).length ≤ 1) :
    ((∀ block ∈ ds, block.isSchema = false) ∧ ds.find? isSchema = Option.none ∧
        (shown ds).find? isSchema = Option.none) ∨
      ∃ block ∈ ds, block.isSchema = true ∧ (∀ other ∈ ds, other.isSchema = true → other = block) ∧
        ds.find? isSchema = some block ∧
        (shown ds).find? isSchema = if block.isSuppressed then Option.none else some block := by
  have hshown : (shown ds).filter isSchema = (ds.filter isSchema).filter fun d => !d.isSuppressed :=
    List.filter_comm ..
  rw [← List.head?_filter, ← List.head?_filter, hshown]
  cases hblocks : ds.filter isSchema with
  | nil =>
    refine .inl ⟨fun block hblock => ?_, rfl, rfl⟩
    simpa using List.filter_eq_nil_iff.1 hblocks block hblock
  | cons block others =>
    rw [hblocks, List.length_cons] at h
    obtain rfl : others = [] := List.length_eq_zero_iff.1 (by omega)
    obtain ⟨hmem, hschema⟩ := List.mem_filter.1 (hblocks ▸ List.mem_singleton_self block)
    refine .inr ⟨block, hmem, hschema, fun other hother hother' => ?_, rfl, ?_⟩
    · have hin := List.mem_filter.2 ⟨hother, hother'⟩
      rw [hblocks] at hin
      exact List.mem_singleton.1 hin
    · cases hsup : block.isSuppressed <;> simp [hsup]

/-- With a schema block the root is the one the first block declares. -/
theorem root?_of_block {ds : List Tree} {block : Tree} (h : ds.find? isSchema = some block) (kind : OperationKind) :
    (Tree.document (.tuple ds)).root? kind = block.declaredRoot? kind := by
  have hfind : (Tree.document (.tuple ds)).definitions.find? isSchema = some block := h
  rw [root?, hfind]

/-- Without a block the root is the object type of the usual name, if there is one. -/
theorem root?_of_no_block {ds : List Tree} (h : ds.find? isSchema = Option.none) (kind : OperationKind) :
    (Tree.document (.tuple ds)).root? kind =
      if (Tree.document (.tuple ds)).hasObjectType kind.usualRoot then some kind.usualRoot else Option.none := by
  have hfind : (Tree.document (.tuple ds)).definitions.find? isSchema = Option.none := h
  rw [root?, hfind]

/-- What becomes of a root when the suppressed definitions are left out. -/
theorem root?_shown_iff {ds : List Tree} (hone : (ds.filter isSchema).length ≤ 1) {kind : OperationKind}
    (hdefined : ∀ block ∈ ds, block.isSchema = true → ∀ root ∈ block.declaredRoot? kind,
      (Tree.document (.tuple ds)).hasObjectType root = true) :
    (∀ root ∈ (Tree.document (.tuple ds)).root? kind, (Tree.document (.tuple (shown ds))).root? kind = some root) ∧
      ((Tree.document (.tuple (shown ds))).root? kind = (Tree.document (.tuple ds)).root? kind ↔
        ∀ block ∈ ds, block.isSchema = true → block.isSuppressed = true → block.declaredRoot? kind = Option.none →
          (Tree.document (.tuple ds)).hasObjectType kind.usualRoot = false) := by
  obtain ⟨hnone, hfind, hfind'⟩ | ⟨block, hmem, hschema, hunique, hfind, hfind'⟩ := find?_isSchema_cases hone
  · -- without a block nothing is left out
    rw [root?_of_no_block hfind, root?_of_no_block hfind', hasObjectType_shown]
    refine ⟨fun root hroot => hroot, iff_of_true rfl fun block hblock hschema => ?_⟩
    rw [hnone block hblock] at hschema
    cases hschema
  · have hblocks : (∀ b ∈ ds, b.isSchema = true → b.isSuppressed = true → b.declaredRoot? kind = Option.none →
          (Tree.document (.tuple ds)).hasObjectType kind.usualRoot = false) ↔
        (block.isSuppressed = true → block.declaredRoot? kind = Option.none →
          (Tree.document (.tuple ds)).hasObjectType kind.usualRoot = false) := by
      constructor
      · exact fun hall => hall block hmem hschema
      · intro hblock b hb hb'
        rw [hunique b hb hb']
        exact hblock
    rw [hblocks, root?_of_block hfind]
    cases hsup : block.isSuppressed with
    | false =>
      -- the block shows, so it says what it said before
      rw [hsup, if_neg Bool.false_ne_true] at hfind'
      rw [root?_of_block hfind']
      exact ⟨fun root hroot => hroot, iff_of_true rfl fun hfalse => absurd hfalse Bool.false_ne_true⟩
    | true =>
      rw [hsup, if_pos rfl] at hfind'
      rw [root?_of_no_block hfind', hasObjectType_shown]
      rcases declaredRoot?_of_isSuppressed hsup kind with hdeclared | hdeclared
      · rw [hdeclared]
        cases (Tree.document (.tuple ds)).hasObjectType kind.usualRoot <;> simp
      · have htype := hdefined block hmem hschema _ hdeclared
        rw [hdeclared, htype]
        simp

/-- In a document that was read, with one schema block at most and all of whose declared roots are object types, no
root is lost or changed by leaving out what prints as nothing. And no root is gained exactly if a block that prints
as nothing leaves out a root only where there is no object type of the default name. -/
theorem root?_printed_iff {trees : List Tree} (h : ∀ t ∈ trees, ∃ source, parseDocument source = .ok t)
    (hone : ((trees.flatMap definitions).filter isSchema).length ≤ 1)
    (hdefined : ∀ block ∈ trees.flatMap definitions, block.isSchema = true →
      ∀ kind, ∀ root ∈ block.declaredRoot? kind,
        (Tree.document (.tuple (trees.flatMap definitions))).hasObjectType root = true) (kind : OperationKind) :
    let document := Tree.document (.tuple (trees.flatMap definitions))
    let printed := document.filterDefinitions fun d => !d.isSilent
    (∀ root ∈ document.root? kind, printed.root? kind = some root) ∧
      (printed.root? kind = document.root? kind ↔
        ∀ block ∈ document.definitions, block.isSchema = true → block.isSilent = true →
          block.declaredRoot? kind = Option.none → document.hasObjectType kind.usualRoot = false) := by
  intro document printed
  have hdefs : ∀ d ∈ trees.flatMap definitions, IsDefinition d := fun d hd => (read_definitions h d hd).1.1
  have hprinted : printed = .document (.tuple (shown (trees.flatMap definitions))) := filterDefinitions_isSilent hdefs
  obtain ⟨hkept, hiff⟩ := root?_shown_iff hone fun block hblock hschema => hdefined block hblock hschema kind
  rw [hprinted]
  refine ⟨hkept, hiff.trans (forall₂_congr fun block hblock => ?_)⟩
  rw [isSilent_eq_isSuppressed (hdefs block hblock)]

/-- An object type with a field of its own type. -/
def ownType (name : String) : Tree :=
  .objectType name (.tuple [.fieldDefinition "a" (.typeName name) (.tuple []) (.tuple []) Option.none]) (.tuple [])
    (.tuple []) Option.none

/-- A schema that has an object type of the name `Mutation` but declares no mutations. -/
def readOnlySchema : Tree :=
  .document (.tuple [.schema (some "Query") Option.none Option.none Option.none, ownType "Query", ownType "Mutation"])

/-- A schema that declares a query root, beside an object type called `Mutation`. -/
private theorem parse_readOnlySchema :
    parseDocument "schema\x7bquery:Query\x7dtype Query\x7ba:Query\x7dtype Mutation\x7ba:Mutation\x7d" =
      .ok readOnlySchema := by
  have hchars : "schema\x7bquery:Query\x7dtype Query\x7ba:Query\x7dtype Mutation\x7ba:Mutation\x7d".toList =
      "schema".toList ++ '{' :: ("query".toList ++ ':' :: ("Query".toList ++ '}' ::
        ("type".toList ++ ' ' :: ("Query".toList ++ '{' :: ("a".toList ++ ':' :: ("Query".toList ++ '}' ::
        ("type".toList ++ ' ' :: ("Mutation".toList ++ '{' :: ("a".toList ++ ':' ::
          ("Mutation".toList ++ '}' :: [])))))))))) := rfl
  rw [parseDocument, parseWith, Syntax.Document.read, Syntax.read, Tape.ofSource, hchars,
    Tape.ofChars_name (by decide) (by simp [isBoundary, isNameChar]), Tape.ofChars_punct (m := .braceL) (by decide),
    Tape.ofChars_name (by decide) (by simp [isBoundary, isNameChar]), Tape.ofChars_punct (m := .colon) (by decide),
    Tape.ofChars_name (by decide) (by simp [isBoundary, isNameChar]), Tape.ofChars_punct (m := .braceR) (by decide),
    Tape.ofChars_name (by decide) (by simp [isBoundary, isNameChar]), Tape.ofChars_space,
    Tape.ofChars_name (by decide) (by simp [isBoundary, isNameChar]), Tape.ofChars_punct (m := .braceL) (by decide),
    Tape.ofChars_name (by decide) (by simp [isBoundary, isNameChar]), Tape.ofChars_punct (m := .colon) (by decide),
    Tape.ofChars_name (by decide) (by simp [isBoundary, isNameChar]), Tape.ofChars_punct (m := .braceR) (by decide),
    Tape.ofChars_name (by decide) (by simp [isBoundary, isNameChar]), Tape.ofChars_space,
    Tape.ofChars_name (by decide) (by simp [isBoundary, isNameChar]), Tape.ofChars_punct (m := .braceL) (by decide),
    Tape.ofChars_name (by decide) (by simp [isBoundary, isNameChar]), Tape.ofChars_punct (m := .colon) (by decide),
    Tape.ofChars_name (by decide) (by simp [isBoundary, isNameChar]), Tape.ofChars_punct (m := .braceR) (by decide),
    Tape.ofChars_nil]
  rfl

/-- Every root the block of that schema declares is one of its object types. -/
private theorem hasObjectType_of_declaredRoot :
    ∀ block ∈ readOnlySchema.definitions, block.isSchema = true → ∀ kind, ∀ root ∈ block.declaredRoot? kind,
      readOnlySchema.hasObjectType root = true := by
  intro block hblock hschema kind root hroot
  simp only [readOnlySchema, definitions, Seq.items_tuple, List.mem_cons, List.not_mem_nil, or_false] at hblock
  obtain rfl | rfl | rfl := hblock
  · -- the query root is the only one
    cases kind with
    | query =>
      obtain rfl : "Query" = root := Option.some.inj hroot
      rfl
    | mutation => cases hroot
    | subscription => cases hroot
  · cases hschema
  · cases hschema

/-- The roots that are declared, and those that neither the block nor a type names, stay as they are. -/
theorem root?_printed_of_readOnlySchema :
    parseDocument "schema\x7bquery:Query\x7dtype Query\x7ba:Query\x7dtype Mutation\x7ba:Mutation\x7d" =
        .ok readOnlySchema ∧
      (readOnlySchema.filterDefinitions fun d => !d.isSilent).root? .query = some "Query" ∧
      (readOnlySchema.filterDefinitions fun d => !d.isSilent).root? .subscription =
        readOnlySchema.root? .subscription := by
  have hread : ∀ t ∈ [readOnlySchema], ∃ source, parseDocument source = .ok t := by
    intro t ht
    rw [List.mem_singleton.1 ht]
    exact ⟨_, parse_readOnlySchema⟩
  have hone : (([readOnlySchema].flatMap definitions).filter isSchema).length ≤ 1 := by decide
  refine ⟨parse_readOnlySchema, (root?_printed_iff hread hone hasObjectType_of_declaredRoot .query).1 "Query" rfl, ?_⟩
  exact (root?_printed_iff hread hone hasObjectType_of_declaredRoot .subscription).2.2 fun _ _ _ _ _ => rfl

/-- Without its schema block, which prints as nothing, a document can have a root that it did not have. -/
theorem root?_gained_without_block :
    parseDocument "schema\x7bquery:Query\x7dtype Query\x7ba:Query\x7dtype Mutation\x7ba:Mutation\x7d" =
        .ok readOnlySchema ∧
      (readOnlySchema.definitions.filter isSchema).length = 1 ∧
      (∀ block ∈ readOnlySchema.definitions, block.isSchema = true → ∀ kind, ∀ root ∈ block.declaredRoot? kind,
        readOnlySchema.hasObjectType root = true) ∧
      readOnlySchema.root? .mutation = Option.none ∧
      (readOnlySchema.filterDefinitions fun d => !d.isSilent).root? .mutation = some "Mutation" :=
  ⟨parse_readOnlySchema, rfl, hasObjectType_of_declaredRoot, rfl, rfl⟩

end GraphDoc
