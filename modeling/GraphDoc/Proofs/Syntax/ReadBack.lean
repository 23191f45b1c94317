import GraphDoc.Proofs.Syntax.Settles
import GraphDoc.Proofs.Syntax.Written

/-!
# One selection in print

An inline fragment without selections is printed without braces, so that its text runs into what stands
behind it. `ReadBack` says what printed selections are read back as, such cases included. The lemmas here
follow the parser through one selection, given what is known of the selection sets inside it.
-/

namespace GraphDoc

open GraphDoc.Parser GraphDoc.Tree
open Syntax (Argument Directive Selection)
open Tape (ofChars)

/-! ## What selections are read back as -/

/-- Whether the selections on the left, once printed, are read back as those on the right. The last two
rules are for an inline fragment that is printed as three dots only: it takes the name of the field
behind it for its own. -/
inductive ReadBack : List Tree → List Tree → Prop
  | nil : ReadBack [] []
  | field {name : String} {aliasName : Option String} {args dirs : Seq Tree} {fs : SeqForm}
      {sels rest rs rrest : List Tree} (hsels : ReadBack sels rs) (hrest : ReadBack rest rrest) :
    ReadBack (.field name aliasName args dirs ⟨fs, sels⟩ :: rest)
      (.field name (aliasName.filter (· ≠ "")) (.tuple (args.items.map reading))
        (.tuple (dirs.items.map reading)) (.tuple rs) :: rrest)
  | spread {name : String} {dirs : Seq Tree} {rest rrest : List Tree} (hrest : ReadBack rest rrest) :
    ReadBack (.fragmentSpread name dirs :: rest)
      (.fragmentSpread name (.tuple (dirs.items.map reading)) :: rrest)
  | inline {type : Tree} {dirs : Seq Tree} {fs : SeqForm} {sels rest rs rrest : List Tree}
      (hsome : sels ≠ []) (hsels : ReadBack sels rs) (hrest : ReadBack rest rrest) :
    ReadBack (.inlineFragment type dirs ⟨fs, sels⟩ :: rest)
      (.inlineFragment type.reading (.tuple (dirs.items.map reading)) (.tuple rs) :: rrest)
  | asSpread {fd fs fa fs' : SeqForm} {name : String} {aliasName : Option String} {dirs : Seq Tree}
      {rest rrest : List Tree} (hon : name ≠ "on") (halias : aliasName.filter (· ≠ "") = Option.none)
      (hrest : ReadBack rest rrest) :
    ReadBack (.inlineFragment .none ⟨fd, []⟩ ⟨fs, []⟩ :: .field name aliasName ⟨fa, []⟩ dirs ⟨fs', []⟩ :: rest)
      (.fragmentSpread name (.tuple (dirs.items.map reading)) :: rrest)
  | asCondition {fd fs fa fd' fs' fa' fs'' : SeqForm} {aliasName aliasName' : Option String} {name : String}
      {dirs : Seq Tree} {sels rest rs rrest : List Tree} (halias : aliasName.filter (· ≠ "") = Option.none)
      (halias' : aliasName'.filter (· ≠ "") = Option.none) (hsome : sels ≠ []) (hsels : ReadBack sels rs)
      (hrest : ReadBack rest rrest) :
    ReadBack (.inlineFragment .none ⟨fd, []⟩ ⟨fs, []⟩ :: .field "on" aliasName ⟨fa, []⟩ ⟨fd', []⟩ ⟨fs', []⟩ ::
        .field name aliasName' ⟨fa', []⟩ dirs ⟨fs'', sels⟩ :: rest)
      (.inlineFragment (.typeName name) (.tuple (dirs.items.map reading)) (.tuple rs) :: rrest)

/-! ## The head of a field -/

/-- A selection set that may be missing, and the field that it completes. -/
def completed (nested : Parser (List Selection)) (finish : Option (List Selection) → Selection) :
    Parser Selection := do
  let set ← do if (← peek) = .punct .braceL then some <$> nested else pure none
  return finish set

/-- The arguments and directives of a field in print. -/
def partsText (args dirs : List Tree) : List Char :=
  parensText args ++ directivesText dirs

/-- What stands in front of the selections of a field. -/
def fieldHead (name : String) (aliasName : Option String) (args dirs : List Tree) : List Char :=
  (labelText aliasName).toList ++ (name.toList ++ partsText args dirs)

theorem front_arguments {args : List Tree} (h : args ≠ []) (dirs : List Tree) (k : List Char) :
    (ofChars (partsText args dirs ++ k)).front = some (.punct .parenL) := by
  rw [partsText, List.append_assoc]
  exact (opens_parens args).front (by decide) (parensText_ne_nil h) _

theorem front_directives {d : Nat} {dirs : List Tree} (hdirs : ∀ t ∈ dirs, IsDirective false d t) (h : dirs ≠ [])
    (k : List Char) : (ofChars (partsText [] dirs ++ k)).front = some (.punct .at) :=
  (opens_directives hdirs).front (by decide) (directivesText_ne_nil h) k

theorem clear_partsText {d : Nat} {dirs : List Tree} (hdirs : ∀ t ∈ dirs, IsDirective false d t)
    (args : List Tree) {bad : List Punct} (hbad : .parenL ∉ bad ∧ .at ∉ bad) {k : List Char} (hk : Clear bad k) :
    Clear bad (partsText args dirs ++ k) := by
  rw [partsText, List.append_assoc]
  exact (opens_parens _).clear (m := .parenL) (by decide) hbad.1
    ((opens_directives hdirs).clear (m := .at) (by decide) hbad.2 hk)

private theorem parts_run {α : Type} {f : List Argument → List Directive → Parser α} {d : Nat}
    {args dirs : List Tree} (hargs : ∀ a ∈ args, IsArgument false d a)
    (hdirs : ∀ t ∈ dirs, IsDirective false d t) {k : List Char} (hk : Clear [.parenL, .at] k) :
    ∃ as ds, as.mapM Argument.toTree = .ok (args.map reading) ∧
      Syntax.directiveTrees ds = .ok (.tuple (dirs.map reading)) ∧
      (do let as ← Syntax.arguments false d
          let ds ← Syntax.directives false d
          f as ds : Parser α) (ofChars (partsText args dirs ++ k)) = f as ds (ofChars k) := by
  have hclear : Clear [.parenL] (directivesText dirs ++ k) :=
    (opens_directives hdirs).clear (m := .at) (by decide) (by simp) (hk.mono (by simp))
  obtain ⟨as, harun, has⟩ := reads_arguments hargs _ hclear
  obtain ⟨ds, hdrun, hds⟩ := reads_directives hdirs k (hk.mono (by simp))
  exact ⟨as, ds, has, hds, by rw [partsText, List.append_assoc, bind_run harun, bind_run hdrun]⟩

/-- The field that is read, given the name in front and the one behind a colon. -/
def fieldOf (first : String) : Option String → List Argument → List Directive → Option (List Selection) → Selection
  | some name => .field (some first) name
  | Option.none => .field Option.none first

/-- What is read of a field behind its names. -/
def fieldBody (d : Nat) (nested : Parser (List Selection)) (first : String) (second : Option String) :
    Parser Selection := do
  let as ← Syntax.arguments false d
  let ds ← Syntax.directives false d
  completed nested (fieldOf first second as ds)

theorem field_eq (d : Nat) (nested : Parser (List Selection)) :
    Syntax.field d nested = (do
      let first ← name
      if ← skip .colon then
        let second ← some <$> name
        fieldBody d nested first second
      else fieldBody d nested first Option.none) := by
  refine bind_congr fun first => bind_congr fun isAlias => ?_
  cases isAlias with
  | false => rfl
  | true =>
    refine bind_congr fun second => ?_
    cases second <;> rfl

theorem isLabel_cases {label : Option String} (h : IsLabel label) :
    labelText label = "" ∧ label.filter (· ≠ "") = Option.none ∨
      ∃ s, isName s = true ∧ labelText label = s ++ ": " ∧ label.filter (· ≠ "") = some s := by
  cases label with
  | none => exact .inl ⟨rfl, rfl⟩
  | some s =>
    by_cases hs : s = ""
    · subst hs
      exact .inl ⟨rfl, rfl⟩
    · have hname := (h s rfl).resolve_left hs
      exact .inr ⟨s, hname, if_neg hs, by simp [Option.filter, hs]⟩

theorem fieldHead_unlabelled {aliasName : Option String} (h : labelText aliasName = "") (name : String)
    (args dirs : List Tree) (k : List Char) :
    fieldHead name aliasName args dirs ++ k = name.toList ++ (partsText args dirs ++ k) := by
  rw [fieldHead, h]
  simp

theorem fieldHead_labelled {aliasName : Option String} {label : String} (h : labelText aliasName = label ++ ": ")
    (name : String) (args dirs : List Tree) (k : List Char) :
    fieldHead name aliasName args dirs ++ k =
      label.toList ++ ':' :: ' ' :: (name.toList ++ (partsText args dirs ++ k)) := by
  rw [fieldHead, h]
  simp

/-- The names, arguments and directives of a field are read. -/
theorem field_run {d : Nat} {nested : Parser (List Selection)} {name : String} {aliasName : Option String}
    {args dirs : List Tree} (hname : isName name = true) (halias : IsLabel aliasName)
    (hargs : ∀ a ∈ args, IsArgument false d a) (hdirs : ∀ t ∈ dirs, IsDirective false d t) {k : List Char}
    (hk : Clear [.colon, .parenL, .at] k) :
    ∃ as ds, as.mapM Argument.toTree = .ok (args.map reading) ∧
      Syntax.directiveTrees ds = .ok (.tuple (dirs.map reading)) ∧
      Syntax.field d nested (ofChars (fieldHead name aliasName args dirs ++ k)) =
        completed nested (.field (aliasName.filter (· ≠ "")) name as ds) (ofChars k) := by
  have hbody : ∀ (first : String) (second : Option String), ∃ as ds,
      as.mapM Argument.toTree = .ok (args.map reading) ∧
      Syntax.directiveTrees ds = .ok (.tuple (dirs.map reading)) ∧
      fieldBody d nested first second (ofChars (partsText args dirs ++ k)) =
        completed nested (fieldOf first second as ds) (ofChars k) :=
    fun first second => parts_run hargs hdirs (hk.mono (by simp))
  have hclear : Clear [.colon] (partsText args dirs ++ k) :=
    clear_partsText hdirs args (by simp) (hk.mono (by simp))
  -- the first name is the label if a colon follows, and the name of the field otherwise
  rcases isLabel_cases halias with ⟨htext, hfilter⟩ | ⟨label, hlabel, htext, hfilter⟩
  · obtain ⟨as, ds, has, hds, hrun⟩ := hbody name Option.none
    obtain ⟨t, hfront, ht⟩ := hclear.2
    refine ⟨as, ds, has, hds, ?_⟩
    rw [fieldHead_unlabelled htext, hfilter, Tape.ofChars_name hname hclear.1, field_eq, bind_run (name_run ..),
      bind_run (skip_pass hfront (ht .colon (by simp)))]
    exact hrun
  · obtain ⟨as, ds, has, hds, hrun⟩ := hbody label (some name)
    refine ⟨as, ds, has, hds, ?_⟩
    rw [fieldHead_labelled htext, hfilter, Tape.ofChars_name hlabel (by simp [isBoundary, isNameChar]), field_eq,
      bind_run (name_run ..), Tape.ofChars_punct (m := .colon) (by decide), bind_run (skip_run ..),
      Tape.ofChars_space, Tape.ofChars_name hname hclear.1, if_pos rfl, bind_run (map_run (name_run ..) some)]
    exact hrun

/-! ## The parts of a selection -/

/-- Selections in print, a line each. -/
def rows (indent : String) (sels : List Tree) : List Char := series (chars · indent) [] [] ['\n'] sels

/-- A selection set in print, without the space in front of it. -/
def setBody (indent : String) (sels : List Tree) : List Char :=
  '{' :: '\n' :: (rows (indent ++ Layout.step) sels ++ (indent.toList ++ ['}']))

/-- A selection set in print, left out when it is empty. -/
def setText (indent : String) (sels : List Tree) : List Char :=
  if sels = [] then [] else ' ' :: setBody indent sels

theorem toList_selections_printed (indent : String) (sels : List Tree) :
    (Layout.selections indent (sels.map (·.printed (indent ++ Layout.step)))).toList = setText indent sels := by
  rw [Layout.toList_selections, series_map, setText]
  cases sels with
  | nil => rfl
  | cons s sels =>
    rw [if_neg (by simp), if_neg (by simp)]
    simp [setBody, bracketed, rows, series, chars]

theorem opens_setText (indent : String) (sels : List Tree) : Opens '{' (setText indent sels) := by
  rw [← toList_selections_printed]
  exact opens_selections indent _

theorem front_setText {sels : List Tree} (h : sels ≠ []) (indent : String) (k : List Char) :
    (ofChars (setText indent sels ++ k)).front = some (.punct .braceL) :=
  (opens_setText indent sels).front (by decide) (by simp [setText, h]) k

/-- Arguments, directives and selections, of which there are some, start with a punctuator. -/
theorem front_parts {d : Nat} {args dirs sels : List Tree} (hdirs : ∀ t ∈ dirs, IsDirective false d t)
    (hsome : ¬(args = [] ∧ dirs = [] ∧ sels = [])) (indent : String) (k : List Char) :
    ∃ m, (ofChars (partsText args dirs ++ (setText indent sels ++ k))).front = some (.punct m) := by
  by_cases hargs : args = []
  · subst hargs
    by_cases hempty : dirs = []
    · subst hempty
      exact ⟨.braceL, front_setText (fun hsels => hsome ⟨rfl, rfl, hsels⟩) indent k⟩
    · exact ⟨.at, front_directives hdirs hempty _⟩
  · exact ⟨.parenL, front_arguments hargs dirs _⟩

/-- What is known of the parser for the selection sets inside a selection. -/
structure Nests (d : Nat) (nested : Parser (List Selection)) : Prop where
  ensures : Ensures 1 nested (Syntax.SetGives d)
  fails : ∀ {tape : Tape} {t : Token}, tape.front = some t → t ≠ .punct .braceL → Fails nested tape
  settles : ∀ {sels : List Tree} {indent : String}, IsBlank indent.toList → 0 < d →
    (∀ s ∈ sels, IsSelection true (d - 1) s) → ∀ k,
    Settles nested (·.mapM Selection.toTree) (ofChars (setBody indent sels ++ k)) (ofChars k) (ReadBack sels)

section Parts

variable {d : Nat} {nested : Parser (List Selection)} {dirs sels : List Tree} {indent : String} {k : List Char}

private theorem settles_completed (hn : Nests d nested) (hindent : IsBlank indent.toList)
    (hdepth : sels = [] ∨ 0 < d) (hsels : ∀ s ∈ sels, IsSelection true (d - 1) s) (hk : Clear [.braceL] k)
    {finish : Option (List Selection) → Selection} {g : List Tree → Tree}
    (hfinish : ∀ set rs, Selection.setTrees set = .ok (.tuple rs) → (finish set).toTree = .ok (g rs)) :
    Settles (completed nested finish) Selection.toTree (ofChars (setText indent sels ++ k)) (ofChars k)
      fun r => ∃ rs, ReadBack sels rs ∧ r = g rs := by
  -- no brace follows: the field has no set, and nothing is left to read back
  by_cases hempty : sels = []
  · subst hempty
    obtain ⟨t, hfront, ht⟩ := hk.2
    constructor
    · rintro _ ⟨rs, hrs, rfl⟩
      cases hrs
      refine ⟨finish none, ?_, hfinish none [] rfl⟩
      rw [setText, if_pos rfl, List.nil_append, completed, bind_run (peek_run hfront),
        if_neg (ht .braceL (by simp))]
      rfl
    · intro hnone
      exact absurd ⟨[], .nil, rfl⟩ (hnone (g []))
  · have hset := hn.settles hindent (hdepth.resolve_left hempty) hsels k
    have htext : ofChars (setText indent sels ++ k) = ofChars (setBody indent sels ++ k) := by
      rw [setText, if_neg hempty, List.cons_append, Tape.ofChars_space]
    have hfront : (ofChars (setBody indent sels ++ k)).front = some (.punct .braceL) := by
      rw [setBody, List.cons_append, Tape.ofChars_punct (m := .braceL) (by decide)]
      rfl
    rw [htext]
    refine Settles.of_run ?_ (bind_run (peek_run hfront) _)
    rw [if_pos rfl, bind_map_left]
    refine hset.map fun set rs hrs => ⟨finish (some set), rfl, hfinish (some set) rs ?_⟩
    rw [Selection.setTrees, Syntax.selectionTrees_eq_mapM, hrs]
    rfl

/-- A field in print. -/
theorem settles_field (hn : Nests d nested) {name : String} {aliasName : Option String} {args : List Tree}
    (hname : isName name = true) (halias : IsLabel aliasName) (hargs : ∀ a ∈ args, IsArgument false d a)
    (hdirs : ∀ t ∈ dirs, IsDirective false d t) (hindent : IsBlank indent.toList)
    (hdepth : sels = [] ∨ 0 < d) (hsels : ∀ s ∈ sels, IsSelection true (d - 1) s)
    (hk : Clear [.colon, .parenL, .at, .braceL] k) :
    Settles (Syntax.field d nested) Selection.toTree
      (ofChars (fieldHead name aliasName args dirs ++ (setText indent sels ++ k))) (ofChars k) fun r =>
        ∃ rs, ReadBack sels rs ∧ r = .field name (aliasName.filter (· ≠ "")) (.tuple (args.map reading))
          (.tuple (dirs.map reading)) (.tuple rs) := by
  have hclear : Clear [.colon, .parenL, .at] (setText indent sels ++ k) :=
    (opens_setText indent sels).clear (m := .braceL) (by decide) (by simp) (hk.mono (by simp))
  obtain ⟨as, ds, has, hds, hrun⟩ := field_run hname halias hargs hdirs hclear
  refine (settles_completed hn hindent hdepth hsels (hk.mono (by simp)) ?_).of_run hrun
  intro set rs hset
  rw [Selection.toTree, has, hds, hset]
  rfl

/-! ## Spreads -/

theorem spread_run_name {w : String} (hw : w ≠ "on") (place place' : List Char) (rest : Tape) :
    Syntax.spread d nested (.next (.punct .spread) place (.next (.name w) place' rest)) = (do
      let ds ← Syntax.directives false d
      return .spread w ds : Parser Selection) rest := by
  have hfront : (Tape.next (.name w) place' rest).front = some (.name w) := rfl
  have hvalue : (Token.name w).value? ≠ some "on" := by simpa [Token.value?] using hw
  rw [Syntax.spread, bind_run (expect_run ..), bind_run (skipKeyword_pass hfront (by simpa using hw)),
    if_neg (by simp), bind_run (peek_run hfront)]
  show (Syntax.fragmentName >>= _) _ = _
  rw [Syntax.fragmentName, bind_assoc, bind_run (peek_run hfront), if_neg hvalue, bind_run (name_run ..)]

theorem spread_run_on (place place' : List Char) (rest : Tape) :
    Syntax.spread d nested (.next (.punct .spread) place (.next (.name "on") place' rest)) = (do
      let type ← name
      let ds ← Syntax.directives false d
      let set ← nested
      return .inline (some type) ds (some set) : Parser Selection) rest := rfl

theorem spread_run_bare {rest : Tape} {t : Token} (hfront : rest.front = some t) (ht : ∀ w, t ≠ .name w)
    (place : List Char) :
    Syntax.spread d nested (.next (.punct .spread) place rest) = (do
      let ds ← Syntax.directives false d
      let set ← nested
      return .inline Option.none ds (some set) : Parser Selection) rest := by
  rw [Syntax.spread, bind_run (expect_run ..), bind_run (skipKeyword_pass hfront (ht "on")),
    if_neg (by simp), bind_run (peek_run hfront)]
  cases t with
  | name w => exact absurd rfl (ht w)
  | _ => rfl

theorem selection_run_spread (place : List Char) (rest : Tape) :
    Syntax.selection d nested (.next (.punct .spread) place rest) =
      Syntax.spread d nested (.next (.punct .spread) place rest) := rfl

/-- What is read of an inline fragment behind its type condition. -/
def inlineBody (d : Nat) (nested : Parser (List Selection)) (type : Option String) : Parser Selection := do
  let ds ← Syntax.directives false d
  let set ← nested
  return .inline type ds (some set)

theorem settles_inlineBody (hn : Nests d nested) (hdirs : ∀ t ∈ dirs, IsDirective false d t)
    (hindent : IsBlank indent.toList) (hdepth : 0 < d) (hsels : ∀ s ∈ sels, IsSelection true (d - 1) s)
    (type : Option String) (k : List Char) :
    Settles (inlineBody d nested type) Selection.toTree
      (ofChars (directivesText dirs ++ ' ' :: (setBody indent sels ++ k)))
      (ofChars k) fun r => ∃ rs, ReadBack sels rs ∧
        r = .inlineFragment (Syntax.conditionTree type) (.tuple (dirs.map reading)) (.tuple rs) := by
  have hclear : Clear [.at, .parenL] (' ' :: (setBody indent sels ++ k)) :=
    clear_blank isBlank_space (clear_punct (m := .braceL) (by decide) (by simp) _)
  obtain ⟨ds, hrun, hds⟩ := reads_directives hdirs _ hclear
  refine Settles.of_run ?_ (bind_run hrun _)
  rw [Tape.ofChars_space]
  refine (hn.settles hindent hdepth hsels k).map fun set rs hrs => ⟨_, rfl, ?_⟩
  rw [Selection.toTree, hds, Selection.setTrees, Syntax.selectionTrees_eq_mapM, hrs]
  rfl

theorem inlineBody_fails (hn : Nests d nested) (hdirs : ∀ t ∈ dirs, IsDirective false d t)
    (hk : Clear [.at, .parenL, .braceL] k) (type : Option String) :
    Fails (inlineBody d nested type)
      (ofChars (directivesText dirs ++ k)) := by
  obtain ⟨ds, hrun, hds⟩ := reads_directives hdirs k (hk.mono (by simp))
  obtain ⟨t, hfront, ht⟩ := hk.2
  exact Fails.of_bind hrun ((hn.fails hfront (ht .braceL (by simp))).bind _)

/-- The name of a type condition. -/
def conditionName : Tree → Option String
  | .typeName name => some name
  | _ => Option.none

theorem conditionTree_conditionName {type : Tree} (h : IsCondition type) :
    Syntax.conditionTree (conditionName type) = type.reading := by
  rcases h with rfl | ⟨name, rfl, -⟩ <;> rw [reading_eq] <;> rfl

/-- The three dots of an inline fragment and its type condition. Without one, no name may stand
behind. -/
theorem inline_run {type : Tree} (htype : IsCondition type) (hk : Boundary k)
    (hfree : type = .none → ∃ t, (ofChars k).front = some t ∧ ∀ w, t ≠ .name w) :
    Syntax.selection d nested (ofChars ('.' :: '.' :: '.' :: ((conditionText type).toList ++ k))) =
      inlineBody d nested (conditionName type) (ofChars k) := by
  rw [Tape.ofChars_spread, selection_run_spread]
  rcases htype with rfl | ⟨name, rfl, hname⟩
  · obtain ⟨t, hfront, ht⟩ := hfree rfl
    exact spread_run_bare hfront ht _
  · have htext : (conditionText (.typeName name)).toList ++ k =
        ' ' :: ("on".toList ++ ' ' :: (name.toList ++ k)) := by
      have hgiven : conditionText (.typeName name) = " on " ++ name := rfl
      rw [hgiven]
      simp
    rw [htext, Tape.ofChars_space, Tape.ofChars_name (by decide) (by simp [isBoundary, isNameChar]),
      Tape.ofChars_space, Tape.ofChars_name hname hk, spread_run_on, bind_run (name_run ..)]
    rfl

/-- Three dots in front of a name. -/
theorem settles_spread {name : String} (hname : isName name = true) (hon : name ≠ "on")
    (hdirs : ∀ t ∈ dirs, IsDirective false d t) (hk : Clear [.at, .parenL] k) (place : List Char) :
    Settles (Syntax.selection d nested) Selection.toTree
      (.next (.punct .spread) place
        (ofChars (name.toList ++ (directivesText dirs ++ k))))
      (ofChars k) (· = .fragmentSpread name (.tuple (dirs.map reading))) := by
  have hclear := (opens_directives hdirs).boundary (m := .at) (by decide) hk.1
  obtain ⟨ds, hrun, hds⟩ := reads_directives hdirs k hk
  rw [Tape.ofChars_name hname hclear]
  constructor
  · rintro _ rfl
    refine ⟨.spread name ds, ?_, ?_⟩
    · rw [selection_run_spread, spread_run_name hon, bind_run hrun]
      rfl
    · rw [Selection.toTree, hds]
      rfl
  · exact fun hnone => absurd rfl (hnone _)

end Parts

end GraphDoc
