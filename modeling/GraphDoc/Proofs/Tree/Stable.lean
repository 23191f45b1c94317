import GraphDoc.Proofs.Tree.Rendering
import GraphDoc.Proofs.Tree.Text

/-!
# Well-formed phrases can be printed

Every well-formed value, type, directive, selection or part of a definition has a text, and its normal
form has the same one. One lemma for each kind of node gives the text in terms of the texts inside it.
-/

namespace GraphDoc.Tree

/-! ## Values -/

/-- An argument prints its name, a colon and its value. -/
theorem printsAs_argument {v : Tree} (h : Stable "" v) (indent name : String) :
    PrintsAs indent (.argument name v) (name ++ ": " ++ v.printed "") := by
  have hrender : ∀ t, render (.argument name t) indent = (do return name ++ ": " ++ (← render t "")) :=
    fun _ => rfl
  constructor
  · rw [hrender, h.self]
    rfl
  · rw [normal_eq]
    show render (.argument name v.normal) indent = _
    rw [hrender, h.normal]
    rfl

/-- A list prints its items between brackets. -/
theorem printsAs_seq {items : List Tree} (h : ∀ t ∈ items, Stable "" t) (indent : String)
    (form : SeqForm) :
    PrintsAs indent (.seq ⟨form, items⟩) ("[" ++ Layout.commaList (items.map (·.printed "")) ++ "]") := by
  have hrender : ∀ ts, render (.seq ⟨form, ts⟩) indent =
      (do return "[" ++ Layout.commaList (← renderAll ts "") ++ "]") := fun _ => rfl
  constructor
  · rw [hrender, (renderAll_eq h).1]
    rfl
  · rw [normal_eq]
    show render (.seq ⟨form, items.map normal⟩) indent = _
    rw [hrender, (renderAll_eq h).2]
    rfl

/-- A key that is a name prints as it stands. -/
theorem text_eq_label {key : Key} (h : isName key.label = true) : key.text = .ok key.label := by
  unfold Key.label at h ⊢
  cases hkey : key.text with
  | ok s => rfl
  | error e =>
    rw [hkey] at h
    exact absurd rfl (ne_empty_of_isName h)

/-- The entries of a map in print. -/
def entryText (name : String) (value : Tree) : String := name ++ ": " ++ value.printed ""

/-- The entries of a map print once for each key, with the last value given to it. -/
theorem entryTexts_eq (entries : List (Key × Tree)) (out : Tree → Rendered String)
    (hkeys : ∀ e ∈ entries, isName e.1.label = true)
    (hvalues : ∀ e ∈ entries, out e.2 = .ok (e.2.printed "")) :
    entryTexts (entries.map fun e => (e.1, out e.2)) =
      .ok ((mergeEntries Key.same entries).map fun e => entryText e.1.label e.2) := by
  rw [entryTexts, mergeEntries_mapValues out, List.mapM_map]
  refine mapM_of_forall fun e he => ?_
  obtain ⟨⟨v, hv⟩, ⟨k, hk⟩⟩ := mem_mergeEntries he
  have hkey : e.1.text = .ok e.1.label := text_eq_label (hkeys (e.1, v) hv)
  have hvalue : out e.2 = .ok (e.2.printed "") := hvalues (k, e.2) hk
  simp only [Function.comp, hkey, hvalue]
  rfl

/-- A map prints its entries between braces. -/
theorem printsAs_map {entries : List (Key × Tree)} (hkeys : ∀ e ∈ entries, isName e.1.label = true)
    (hvalues : ∀ e ∈ entries, Stable "" e.2) (indent : String) :
    PrintsAs indent (.map entries)
      (Layout.object ((mergeEntries Key.same entries).map fun e => entryText e.1.label e.2)) := by
  have hrender : ∀ es, render (.map es) indent =
      (do return Layout.object (← entryTexts (renderEntries es))) := fun _ => rfl
  constructor
  · rw [hrender, renderEntries_eq, entryTexts_eq entries (render · "") hkeys fun e he => (hvalues e he).self]
    rfl
  · rw [normal_eq]
    show render (.map (entries.map fun e => (e.1, e.2.normal))) indent = _
    rw [hrender, renderEntries_eq, List.map_map]
    show (entryTexts (entries.map fun e => (e.1, e.2.normal.render "")) >>= _) = _
    rw [entryTexts_eq entries (normal · |>.render "") hkeys fun e he => (hvalues e he).normal]
    rfl

/-- The entries of an input object are printed as arguments. -/
theorem renderArguments_ofEntries (entries : List (String × Tree)) :
    renderArguments (ofEntries entries) = .ok (entries.map fun e => (.str e.1, e.2.render "")) := by
  induction entries with
  | nil => rfl
  | cons e entries ih =>
    show (do return (Key.str e.1, e.2.render "") :: (← renderArguments (ofEntries entries))) = _
    rw [ih]
    rfl

/-- An input object prints its entries between braces, once for each name. -/
theorem printsAs_inputObject {entries : List (String × Tree)} (hkeys : ∀ e ∈ entries, isName e.1 = true)
    (hvalues : ∀ e ∈ entries, Stable "" e.2) (indent : String) (form : SeqForm) :
    PrintsAs indent (.inputObject ⟨form, ofEntries entries⟩)
      (Layout.object ((mergeEntries (· == ·) entries).map fun e => entryText e.1 e.2)) := by
  -- the texts of the entries are merged as the entries are, whatever prints the values
  have htexts : ∀ (es : List (String × Tree)) (out : Tree → Rendered String),
      (∀ e ∈ es, isName e.1 = true) → (∀ e ∈ es, out e.2 = .ok (e.2.printed "")) →
      entryTexts (es.map fun e => (.str e.1, out e.2)) =
        .ok ((mergeEntries (· == ·) es).map fun e => entryText e.1 e.2) := by
    intro es out hk hv
    have h := entryTexts_eq (es.map fun e => (Key.str e.1, e.2)) out ?_ ?_
    · rw [List.map_map, mergeEntries_str, List.map_map] at h
      exact h
    · intro e he
      obtain ⟨f, hf, rfl⟩ := List.mem_map.1 he
      exact hk f hf
    · intro e he
      obtain ⟨f, hf, rfl⟩ := List.mem_map.1 he
      exact hv f hf
  have hrender : ∀ es : List (String × Tree), render (.inputObject ⟨form, ofEntries es⟩) indent = (do
      let entries ← renderArguments (ofEntries es)
      return Layout.object (← entryTexts entries)) := fun _ => rfl
  constructor
  · rw [hrender, renderArguments_ofEntries]
    show (entryTexts (entries.map fun e => (.str e.1, e.2.render "")) >>= _) = _
    rw [htexts entries (render · "") hkeys fun e he => (hvalues e he).self]
    rfl
  · rw [normal_inputObject, hrender, renderArguments_ofEntries, List.map_map]
    show (entryTexts ((mergeEntries (· == ·) entries).map fun e => (.str e.1, e.2.normal.render "")) >>= _) = _
    rw [htexts (mergeEntries (· == ·) entries) (normal · |>.render ""), mergeEntries_mergeEntries]
    · rfl
    · intro e he
      obtain ⟨v, hv⟩ := (mem_mergeEntries he).1
      exact hkeys (e.1, v) hv
    · intro e he
      obtain ⟨k, hk⟩ := (mem_mergeEntries he).2
      exact (hvalues (k, e.2) hk).normal

/-- An integer within the digit limit prints its digits. -/
theorem printsAs_int {n : Int} (h : Integer.isTooLong n = false) (indent : String) :
    PrintsAs indent (.int n) (Integer.text n) := by
  have hrender : render (.int n) indent = .ok (Integer.text n) := by
    show (if Integer.isTooLong n then throw RenderError.tooManyDigits else return Integer.text n) = _
    rw [if_neg (by simp [h])]
    rfl
  exact ⟨hrender, by rw [normal_eq]; exact hrender⟩

/-- A finite float prints its shortest text. -/
theorem printsAs_float {x : Binary64} (h : x.isFinite = true) (indent : String) :
    PrintsAs indent (.float x) x.text := by
  have hrender : render (.float x) indent = .ok x.text := by
    show (if x.isFinite then return x.text else throw RenderError.notFinite) = _
    rw [if_pos h]
    rfl
  exact ⟨hrender, by rw [normal_eq]; exact hrender⟩

/-- A value can be printed. -/
theorem stable_literal {isConst : Bool} {d : Nat} {t : Tree} (h : IsLiteral isConst d t) : Stable "" t := by
  induction h with
  | none | nullValue => exact PrintsAs.stable ⟨rfl, by rw [normal_eq]; rfl⟩
  | bool b => exact PrintsAs.stable ⟨rfl, by rw [normal_eq]; rfl⟩
  | int h => exact (printsAs_int h "").stable
  | float h => exact (printsAs_float h "").stable
  | str s | floatValue h | enumValue h | «variable» hconst h | symbol h =>
    exact PrintsAs.stable ⟨rfl, by rw [normal_eq]; rfl⟩
  | seq h ih => exact (printsAs_seq ih "" _).stable
  | map hkeys hvalues ih => exact (printsAs_map hkeys ih "").stable
  | inputObject hkeys hvalues ih => exact (printsAs_inputObject hkeys ih "" _).stable

/-! ## Types -/

/-- A named type prints its name. -/
theorem printsAs_typeName (indent name : String) : PrintsAs indent (.typeName name) name :=
  ⟨rfl, by rw [normal_eq]; rfl⟩

/-- A list type prints its item between brackets. -/
theorem printsAs_listType {t : Tree} (h : Stable "" t) (indent : String) :
    PrintsAs indent (.listType t) ("[" ++ t.printed "" ++ "]") := by
  have hrender : ∀ s, render (.listType s) indent = (do return "[" ++ (← render s "") ++ "]") :=
    fun _ => rfl
  constructor
  · rw [hrender, h.self]
    rfl
  · rw [normal_eq]
    show render (.listType t.normal) indent = _
    rw [hrender, h.normal]
    rfl

/-- A marked type prints its type with the mark. -/
theorem printsAs_nonNullType {t : Tree} (h : Stable "" t) (indent : String) :
    PrintsAs indent (.nonNullType t) (t.printed "" ++ "!") := by
  have hrender : ∀ s, render (.nonNullType s) indent = (do return (← render s "") ++ "!") :=
    fun _ => rfl
  constructor
  · rw [hrender, h.self]
    rfl
  · rw [normal_eq]
    show render (.nonNullType t.normal) indent = _
    rw [hrender, h.normal]
    rfl

/-- The characters of a list type. -/
theorem chars_listType {t : Tree} (h : Stable "" t) : (Tree.listType t).chars "" = '[' :: (t.chars "" ++ [']']) := by
  rw [(printsAs_listType h "").chars_eq]
  simp [chars]

/-- The characters of a marked type. -/
theorem chars_nonNullType {t : Tree} (h : Stable "" t) : (Tree.nonNullType t).chars "" = t.chars "" ++ ['!'] := by
  rw [(printsAs_nonNullType h "").chars_eq]
  simp [chars]

/-- Types print a text of their own. -/
theorem stable_type {d : Nat} {t : Tree} (h : IsType d t) : Stable "" t := by
  induction h with
  | typeName h => exact (printsAs_typeName "" _).stable
  | listType h ih => exact (printsAs_listType ih "").stable
  | nonNullType h hbare ih => exact (printsAs_nonNullType ih "").stable

/-! ## Arguments and directives -/

/-- Arguments print a text of their own. -/
theorem stable_argument {isConst : Bool} {d : Nat} {t : Tree} (h : IsArgument isConst d t) :
    Stable "" t := by
  obtain ⟨hname, hvalue⟩ := h
  exact (printsAs_argument (stable_literal hvalue) "" _).stable

/-- A directive prints its name behind `@` and its arguments in parentheses. -/
theorem printsAs_directive {args : List Tree} (h : ∀ a ∈ args, Stable "" a) (indent name : String)
    (form : SeqForm) :
    PrintsAs indent (.directive name ⟨form, args⟩)
      ("@" ++ name ++ Layout.parens (args.map (·.printed ""))) := by
  have hrender : ∀ as, render (.directive name ⟨form, as⟩) indent =
      (do return "@" ++ name ++ Layout.parens (← renderAll as "")) := fun _ => rfl
  constructor
  · rw [hrender, (renderAll_eq h).1]
    rfl
  · rw [normal_eq]
    show render (.directive name ⟨form, args.map normal⟩) indent = _
    rw [hrender, (renderAll_eq h).2]
    rfl

/-- Directives print a text of their own. -/
theorem stable_directive {isConst : Bool} {d : Nat} {t : Tree} (h : IsDirective isConst d t) :
    Stable "" t := by
  obtain ⟨hname, hargs⟩ := h
  exact (printsAs_directive (fun a ha => stable_argument (hargs a ha)) "" _ _).stable

/-! ## Selections -/

/-- A label in front of a colon, left out when it is empty. -/
def labelText : Option String → String
  | some s => if s = "" then "" else s ++ ": "
  | Option.none => ""

/-- A field prints its alias, name, arguments, directives and selections. -/
theorem printsAs_field {args dirs sels : List Tree} {indent : String} (hargs : ∀ a ∈ args, Stable "" a)
    (hdirs : ∀ t ∈ dirs, Stable "" t) (hsels : ∀ s ∈ sels, Stable (indent ++ Layout.step) s)
    (name : String) (aliasName : Option String) (fa fd fs : SeqForm) :
    PrintsAs indent (.field name aliasName ⟨fa, args⟩ ⟨fd, dirs⟩ ⟨fs, sels⟩)
      (indent ++ labelText aliasName ++ name ++ Layout.parens (args.map (·.printed "")) ++
        Layout.directives (dirs.map (·.printed "")) ++
        Layout.selections indent (sels.map (·.printed (indent ++ Layout.step)))) := by
  have hrender : ∀ as ds ss, render (.field name aliasName ⟨fa, as⟩ ⟨fd, ds⟩ ⟨fs, ss⟩) indent = (do
      let arguments ← renderAll as ""
      let directives ← renderAll ds ""
      let selections ← renderAll ss (indent ++ Layout.step)
      return indent ++ labelText aliasName ++ name ++ Layout.parens arguments ++
        Layout.directives directives ++ Layout.selections indent selections) := by
    intro as ds ss
    cases aliasName <;> rfl
  constructor
  · rw [hrender, (renderAll_eq hargs).1, (renderAll_eq hdirs).1, (renderAll_eq hsels).1]
    rfl
  · rw [normal_eq]
    show render (.field name aliasName ⟨fa, args.map normal⟩ ⟨fd, dirs.map normal⟩ ⟨fs, sels.map normal⟩)
      indent = _
    rw [hrender, (renderAll_eq hargs).2, (renderAll_eq hdirs).2, (renderAll_eq hsels).2]
    rfl

/-- A spread prints three dots, its name and its directives. -/
theorem printsAs_fragmentSpread {dirs : List Tree} (hdirs : ∀ t ∈ dirs, Stable "" t)
    (indent name : String) (fd : SeqForm) :
    PrintsAs indent (.fragmentSpread name ⟨fd, dirs⟩)
      (indent ++ "..." ++ name ++ Layout.directives (dirs.map (·.printed ""))) := by
  have hrender : ∀ ds, render (.fragmentSpread name ⟨fd, ds⟩) indent =
      (do return indent ++ "..." ++ name ++ Layout.directives (← renderAll ds "")) := fun _ => rfl
  constructor
  · rw [hrender, (renderAll_eq hdirs).1]
    rfl
  · rw [normal_eq]
    show render (.fragmentSpread name ⟨fd, dirs.map normal⟩) indent = _
    rw [hrender, (renderAll_eq hdirs).2]
    rfl

/-- A type condition, left out when there is none. -/
def conditionText (t : Tree) : String := if t.isGiven then Layout.condition (t.printed "") else ""

/-- An inline fragment prints three dots, its condition, directives and selections. -/
theorem printsAs_inlineFragment {type : Tree} {dirs sels : List Tree} {indent : String}
    (htype : IsCondition type) (hdirs : ∀ t ∈ dirs, Stable "" t)
    (hsels : ∀ s ∈ sels, Stable (indent ++ Layout.step) s) (fd fs : SeqForm) :
    PrintsAs indent (.inlineFragment type ⟨fd, dirs⟩ ⟨fs, sels⟩)
      (indent ++ "..." ++ conditionText type ++ Layout.directives (dirs.map (·.printed "")) ++
        Layout.selections indent (sels.map (·.printed (indent ++ Layout.step)))) := by
  have hself : type.normal = type := by
    rcases htype with rfl | ⟨name, rfl, -⟩ <;> exact normal_eq _
  have hrender : ∀ ds ss, render (.inlineFragment type ⟨fd, ds⟩ ⟨fs, ss⟩) indent = (do
      let directives ← renderAll ds ""
      let selections ← renderAll ss (indent ++ Layout.step)
      return indent ++ "..." ++ conditionText type ++ Layout.directives directives ++
        Layout.selections indent selections) := by
    intro ds ss
    rcases htype with rfl | ⟨name, rfl, -⟩ <;> rfl
  constructor
  · rw [hrender, (renderAll_eq hdirs).1, (renderAll_eq hsels).1]
    rfl
  · rw [normal_eq]
    show render (.inlineFragment type.normal ⟨fd, dirs.map normal⟩ ⟨fs, sels.map normal⟩) indent = _
    rw [hself, hrender, (renderAll_eq hdirs).2, (renderAll_eq hsels).2]
    rfl

/-- Selections print a text of their own at every indent. -/
theorem stable_selection {loose : Bool} {d : Nat} {t : Tree} (h : IsSelection loose d t)
    (indent : String) : Stable indent t := by
  induction h generalizing indent with
  | field hname halias hargs hdirs hdepth hsels ih =>
    exact (printsAs_field (fun a ha => stable_argument (hargs a ha))
      (fun t ht => stable_directive (hdirs t ht)) (fun s hs => ih s hs _) _ _ _ _ _).stable
  | spread hname hon hdirs =>
    exact (printsAs_fragmentSpread (fun t ht => stable_directive (hdirs t ht)) _ _ _).stable
  | inline htype hdirs hsome hdepth hsels ih =>
    exact (printsAs_inlineFragment htype (fun t ht => stable_directive (hdirs t ht))
      (fun s hs => ih s hs _) _ _).stable

/-! ## Parts of definitions -/

/-- A default value, left out when there is none. -/
def defaultText : Tree → String
  | .none => ""
  | t => Layout.default (t.printed "")

/-- A default prints as its normal form does. -/
theorem renderDefault_eq {t : Tree} (h : IsDefault t) :
    renderDefault t = .ok (defaultText t) ∧ renderDefault t.normal = .ok (defaultText t) := by
  by_cases hnone : t = .none
  · subst hnone
    exact ⟨rfl, by rw [normal_eq]; rfl⟩
  · have hgiven : ∀ s : Tree, s ≠ .none → renderDefault s = Layout.default <$> render s "" := by
      intro s hs
      cases s
      case none => exact absurd rfl hs
      all_goals rfl
    have htext : defaultText t = Layout.default (t.printed "") := by
      cases t
      case none => exact absurd rfl hnone
      all_goals rfl
    have hstable := stable_literal (h.resolve_left hnone)
    rw [hgiven t hnone, hgiven t.normal (normal_ne_none hnone), hstable.self, hstable.normal, htext]
    exact ⟨rfl, rfl⟩

/-- A variable definition prints its name behind `$`, its type and its default. -/
theorem printsAs_variableDefinition {type default : Tree} (htype : Stable "" type)
    (hdefault : IsDefault default) (indent name : String) :
    PrintsAs indent (.variableDefinition name type default)
      ("$" ++ name ++ ": " ++ type.printed "" ++ defaultText default) := by
  constructor
  · rw [render_variableDefinition, (renderDefault_eq hdefault).1, htype.self]
    rfl
  · rw [normal_eq]
    show render (.variableDefinition name type.normal default.normal) indent = _
    rw [render_variableDefinition, (renderDefault_eq hdefault).2, htype.normal]
    rfl

/-- Variable definitions print a text of their own. -/
theorem stable_variable {t : Tree} (h : IsVariable t) : Stable "" t := by
  obtain ⟨hname, htype, hdefault⟩ := h
  exact (printsAs_variableDefinition (stable_type htype) hdefault "" _).stable

/-- An input value prints its name, type, default and directives. -/
theorem printsAs_inputValue {type default : Tree} {dirs : List Tree} (htype : Stable "" type)
    (hdefault : IsDefault default) (hdirs : ∀ t ∈ dirs, Stable "" t) (indent name : String)
    (description : Option String) :
    PrintsAs indent (.inputValue name type default (.tuple dirs) description)
      (name ++ ": " ++ type.printed "" ++ defaultText default ++
        Layout.directives (dirs.map (·.printed ""))) := by
  constructor
  · rw [render_inputValue, (renderDefault_eq hdefault).1, htype.self, Seq.items_tuple, (renderAll_eq hdirs).1]
    rfl
  · rw [normal_eq]
    show render (.inputValue name type.normal default.normal (.tuple (dirs.map normal)) Option.none) indent = _
    rw [render_inputValue, (renderDefault_eq hdefault).2, htype.normal, Seq.items_tuple, (renderAll_eq hdirs).2]
    rfl

/-- Input values print a text of their own. -/
theorem stable_inputValue {t : Tree} (h : IsInputValue t) : Stable "" t := by
  obtain ⟨hname, htype, hdefault, hdirs⟩ := h
  exact (printsAs_inputValue (stable_type htype) hdefault (fun t ht => stable_directive (hdirs t ht))
    "" _ _).stable

/-- A field definition prints its name, arguments, type and directives. -/
theorem printsAs_fieldDefinition {type : Tree} {args dirs : List Tree} (htype : Stable "" type)
    (hargs : ∀ a ∈ args, Stable "" a) (hdirs : ∀ t ∈ dirs, Stable "" t) (indent name : String)
    (description : Option String) :
    PrintsAs indent (.fieldDefinition name type (.tuple args) (.tuple dirs) description)
      (name ++ Layout.parens (args.map (·.printed "")) ++ ": " ++ type.printed "" ++
        Layout.directives (dirs.map (·.printed ""))) := by
  have hrender : ∀ ty as ds about,
      render (.fieldDefinition name ty (.tuple as) (.tuple ds) about) indent = (do
        let arguments ← renderAll as ""
        let type ← render ty ""
        return name ++ Layout.parens arguments ++ ": " ++ type ++
          Layout.directives (← renderAll ds "")) := fun _ _ _ _ => rfl
  constructor
  · rw [hrender, htype.self, (renderAll_eq hargs).1, (renderAll_eq hdirs).1]
    rfl
  · rw [normal_eq]
    show render (.fieldDefinition name type.normal (.tuple (args.map normal)) (.tuple (dirs.map normal))
      Option.none) indent = _
    rw [hrender, htype.normal, (renderAll_eq hargs).2, (renderAll_eq hdirs).2]
    rfl

/-- Field definitions print a text of their own. -/
theorem stable_fieldDefinition {t : Tree} (h : IsFieldDefinition t) : Stable "" t := by
  obtain ⟨hname, htype, hargs, hdirs⟩ := h
  exact (printsAs_fieldDefinition (stable_type htype) (fun a ha => stable_inputValue (hargs a ha))
    (fun t ht => stable_directive (hdirs t ht)) "" _ _).stable

/-- An enum value prints its name and directives on a line of its own. -/
theorem printsAs_enumValueDefinition {dirs : List Tree} (hdirs : ∀ t ∈ dirs, Stable "" t)
    (indent name : String) (description : Option String) :
    PrintsAs indent (.enumValueDefinition name (.tuple dirs) description)
      (Layout.step ++ name ++ Layout.directives (dirs.map (·.printed "")) ++ "\n") := by
  have hrender : ∀ ds about, render (.enumValueDefinition name (.tuple ds) about) indent =
      (do return Layout.step ++ name ++ Layout.directives (← renderAll ds "") ++ "\n") := fun _ _ => rfl
  constructor
  · rw [hrender, (renderAll_eq hdirs).1]
    rfl
  · rw [normal_eq]
    show render (.enumValueDefinition name (.tuple (dirs.map normal)) Option.none) indent = _
    rw [hrender, (renderAll_eq hdirs).2]
    rfl

/-- Enum values print a text of their own. -/
theorem stable_enumValue {t : Tree} (h : IsEnumValue t) : Stable "" t := by
  obtain ⟨hname, hfree, hdirs⟩ := h
  exact (printsAs_enumValueDefinition (fun t ht => stable_directive (hdirs t ht)) "" _ _).stable

end GraphDoc.Tree
