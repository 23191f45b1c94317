import GraphDoc.Proofs.Tree.Stable

/-!
# Well-formed definitions can be printed

Every well-formed definition has a text, and its normal form has the same one.
-/

namespace GraphDoc.Tree

/-! ## Operations and fragments -/

/-- A label behind a space, left out when it is empty. -/
def nameText : Option String → String
  | some s => if s = "" then "" else " " ++ s
  | Option.none => ""

/-- An operation prints its kind, name, variables, directives and selections. -/
theorem printsAs_operation {vars dirs sels : List Tree} {indent : String}
    (hvars : ∀ v ∈ vars, Stable "" v) (hdirs : ∀ t ∈ dirs, Stable "" t)
    (hsels : ∀ s ∈ sels, Stable (indent ++ Layout.step) s) (kind : String) (name : Option String)
    (fv fd fs : SeqForm) :
    PrintsAs indent (.operation kind name ⟨fv, vars⟩ ⟨fd, dirs⟩ ⟨fs, sels⟩)
      (indent ++ kind ++ nameText name ++ Layout.parens (vars.map (·.printed "")) ++
        Layout.directives (dirs.map (·.printed "")) ++
        Layout.selections indent (sels.map (·.printed (indent ++ Layout.step)))) := by
  have hrender : ∀ vs ds ss, render (.operation kind name ⟨fv, vs⟩ ⟨fd, ds⟩ ⟨fs, ss⟩) indent = (do
      let vars ← renderAll vs ""
      let directives ← renderAll ds ""
      let selections ← renderAll ss (indent ++ Layout.step)
      return indent ++ kind ++ nameText name ++ Layout.parens vars ++ Layout.directives directives ++
        Layout.selections indent selections) := by
    intro vs ds ss
    cases name <;> rfl
  constructor
  · rw [hrender, (renderAll_eq hvars).1, (renderAll_eq hdirs).1, (renderAll_eq hsels).1]
    rfl
  · rw [normal_eq]
    show render (.operation kind name ⟨fv, vars.map normal⟩ ⟨fd, dirs.map normal⟩ ⟨fs, sels.map normal⟩)
      indent = _
    rw [hrender, (renderAll_eq hvars).2, (renderAll_eq hdirs).2, (renderAll_eq hsels).2]
    rfl

/-- A fragment prints its name, its type, directives and selections. -/
theorem printsAs_fragment {dirs sels : List Tree} {indent : String} (hdirs : ∀ t ∈ dirs, Stable "" t)
    (hsels : ∀ s ∈ sels, Stable (indent ++ Layout.step) s) (name type : String) (fd fs : SeqForm) :
    PrintsAs indent (.fragment name (.typeName type) ⟨fd, dirs⟩ ⟨fs, sels⟩)
      (indent ++ "fragment " ++ name ++ " on " ++ type ++ Layout.directives (dirs.map (·.printed "")) ++
        Layout.selections indent (sels.map (·.printed (indent ++ Layout.step)))) := by
  have hrender : ∀ ds ss : List Tree, render (.fragment name (.typeName type) ⟨fd, ds⟩ ⟨fs, ss⟩) indent = (do
      let directives ← renderAll ds ""
      let selections ← renderAll ss (indent ++ Layout.step)
      return indent ++ "fragment " ++ name ++ (" on " ++ type) ++ Layout.directives directives ++
        Layout.selections indent selections) := fun _ _ => rfl
  constructor
  · rw [hrender, (renderAll_eq hdirs).1, (renderAll_eq hsels).1]
    simp [pure, Except.pure, bind, Except.bind, String.append_assoc]
  · rw [normal_eq]
    show render (.fragment name (.typeName type) ⟨fd, dirs.map normal⟩ ⟨fs, sels.map normal⟩) indent = _
    rw [hrender, (renderAll_eq hdirs).2, (renderAll_eq hsels).2]
    simp [pure, Except.pure, bind, Except.bind, String.append_assoc]

/-- Operations and fragments print a text of their own. -/
theorem stable_executable {loose : Bool} {t : Tree} (h : IsExecutable loose t) (indent : String) :
    Stable indent t := by
  cases h with
  | operation hname hvars hdirs hsels =>
    exact (printsAs_operation (fun v hv => stable_variable (hvars v hv))
      (fun t ht => stable_directive (hdirs t ht)) (fun s hs => stable_selection (hsels.2 s hs) _)
      _ _ _ _ _).stable
  | fragment hname hon htype hdirs hsels =>
    exact (printsAs_fragment (fun t ht => stable_directive (hdirs t ht))
      (fun s hs => stable_selection (hsels.2 s hs) _) _ _ _ _).stable

/-! ## The type system -/

/-- A schema block prints the roots it declares. -/
theorem printsAs_schema (query mutation subscription description : Option String) (indent : String) :
    PrintsAs indent (.schema query mutation subscription description)
      (Layout.schema query mutation subscription) :=
  ⟨rfl, by rw [normal_eq]; rfl⟩

/-- A scalar type prints its name and directives. -/
theorem printsAs_scalarType {dirs : List Tree} (hdirs : ∀ t ∈ dirs, Stable "" t) (indent name : String)
    (description : Option String) :
    PrintsAs indent (.scalarType name (.tuple dirs) description)
      ("scalar " ++ name ++ Layout.directives (dirs.map (·.printed ""))) := by
  have hrender : ∀ ds about, render (.scalarType name (.tuple ds) about) indent =
      (do return "scalar " ++ name ++ Layout.directives (← renderAll ds "")) := fun _ _ => rfl
  constructor
  · rw [hrender, (renderAll_eq hdirs).1]
    rfl
  · rw [normal_eq]
    show render (.scalarType name (.tuple (dirs.map normal)) Option.none) indent = _
    rw [hrender, (renderAll_eq hdirs).2]
    rfl

/-- The interfaces of an object type, left out when there are none. -/
def interfacesText (interfaces : List String) : String :=
  if interfaces.isEmpty then "" else " implements " ++ Layout.commaList interfaces

/-- An object type prints its name, interfaces, directives and fields. -/
theorem printsAs_objectType {fields dirs : List Tree} (hfields : ∀ f ∈ fields, Stable "" f)
    (hdirs : ∀ t ∈ dirs, Stable "" t) (indent name : String) (interfaces : List String)
    (description : Option String) :
    PrintsAs indent (.objectType name (.tuple fields) (.tuple interfaces) (.tuple dirs) description)
      ("type " ++ name ++ Layout.directives (dirs.map (·.printed "")) ++ interfacesText interfaces ++
        Layout.fields (fields.map (·.printed ""))) := by
  have hrender : ∀ fs ds about,
      render (.objectType name (.tuple fs) (.tuple interfaces) (.tuple ds) about) indent = (do
        let directives ← renderAll ds ""
        let fields ← renderAll fs ""
        return "type " ++ name ++ Layout.directives directives ++ interfacesText interfaces ++
          Layout.fields fields) := fun _ _ _ => rfl
  constructor
  · rw [hrender, (renderAll_eq hdirs).1, (renderAll_eq hfields).1]
    rfl
  · rw [normal_eq]
    show render (.objectType name (.tuple (fields.map normal)) (.tuple interfaces)
      (.tuple (dirs.map normal)) Option.none) indent = _
    rw [hrender, (renderAll_eq hdirs).2, (renderAll_eq hfields).2]
    rfl

/-- An interface type prints its name, directives and fields. -/
theorem printsAs_interfaceType {fields dirs : List Tree} (hfields : ∀ f ∈ fields, Stable "" f)
    (hdirs : ∀ t ∈ dirs, Stable "" t) (indent name : String) (description : Option String) :
    PrintsAs indent (.interfaceType name (.tuple fields) (.tuple dirs) description)
      ("interface " ++ name ++ Layout.directives (dirs.map (·.printed "")) ++
        Layout.fields (fields.map (·.printed ""))) := by
  have hrender : ∀ fs ds about, render (.interfaceType name (.tuple fs) (.tuple ds) about) indent = (do
      let directives ← renderAll ds ""
      return "interface " ++ name ++ Layout.directives directives ++ Layout.fields (← renderAll fs "")) :=
    fun _ _ _ => rfl
  constructor
  · rw [hrender, (renderAll_eq hdirs).1, (renderAll_eq hfields).1]
    rfl
  · rw [normal_eq]
    show render (.interfaceType name (.tuple (fields.map normal)) (.tuple (dirs.map normal)) Option.none)
      indent = _
    rw [hrender, (renderAll_eq hdirs).2, (renderAll_eq hfields).2]
    rfl

/-- The members of a union are printed by their names. -/
theorem memberNames_typeNames (members : List String) :
    memberNames (members.map .typeName) = .ok members := by
  have hnames : (members.map Tree.typeName).mapM memberName = .ok (members.map some) := by
    rw [List.mapM_map]
    exact mapM_of_forall fun _ _ => rfl
  have hindexed : ∀ (ms : List String) (n : Nat), ((ms.map some).zipIdx n).mapM
      (fun x : Option String × Nat => match x.1 with
        | some name => (.ok name : Rendered String)
        | Option.none => .error (.unnamedMember x.2)) = .ok ms := by
    intro ms
    induction ms with
    | nil => exact fun _ => rfl
    | cons m ms ih =>
      intro n
      rw [List.map_cons, List.zipIdx_cons, List.mapM_cons, ih]
      rfl
  rw [memberNames, hnames]
  exact hindexed members 0

/-- A union prints its name, directives and members. -/
theorem printsAs_unionType {dirs : List Tree} (hdirs : ∀ t ∈ dirs, Stable "" t) (indent name : String)
    (members : List String) (description : Option String) :
    PrintsAs indent (.unionType name (.tuple (members.map .typeName)) (.tuple dirs) description)
      ("union " ++ name ++ Layout.directives (dirs.map (·.printed "")) ++ " = " ++
        " | ".intercalate members) := by
  have hself : (members.map Tree.typeName).map normal = members.map .typeName := by
    rw [List.map_map]
    exact List.map_congr_left fun m _ => normal_eq (.typeName m)
  have hrender : ∀ ms ds about, render (.unionType name (.tuple ms) (.tuple ds) about) indent = (do
      let members ← memberNames ms
      return "union " ++ name ++ Layout.directives (← renderAll ds "") ++ " = " ++
        " | ".intercalate members) := fun _ _ _ => rfl
  constructor
  · rw [hrender, memberNames_typeNames, (renderAll_eq hdirs).1]
    rfl
  · rw [normal_eq]
    show render (.unionType name (.tuple ((members.map Tree.typeName).map normal))
      (.tuple (dirs.map normal)) Option.none) indent = _
    rw [hself, hrender, memberNames_typeNames, (renderAll_eq hdirs).2]
    rfl

/-- An enum prints its name, directives and values. -/
theorem printsAs_enumType {values dirs : List Tree} (hvalues : ∀ v ∈ values, Stable "" v)
    (hdirs : ∀ t ∈ dirs, Stable "" t) (indent name : String) (description : Option String) :
    PrintsAs indent (.enumType name (.tuple values) (.tuple dirs) description)
      ("enum " ++ name ++ Layout.directives (dirs.map (·.printed "")) ++ " \x7b\n" ++
        String.join (values.map (·.printed "")) ++ "\x7d") := by
  have hrender : ∀ vs ds about, render (.enumType name (.tuple vs) (.tuple ds) about) indent = (do
      let values ← renderAll vs ""
      return "enum " ++ name ++ Layout.directives (← renderAll ds "") ++ " \x7b\n" ++
        String.join values ++ "\x7d") := fun _ _ _ => rfl
  constructor
  · rw [hrender, (renderAll_eq hdirs).1, (renderAll_eq hvalues).1]
    rfl
  · rw [normal_eq]
    show render (.enumType name (.tuple (values.map normal)) (.tuple (dirs.map normal)) Option.none)
      indent = _
    rw [hrender, (renderAll_eq hdirs).2, (renderAll_eq hvalues).2]
    rfl

/-- An input type prints its name, directives and fields. -/
theorem printsAs_inputType {fields dirs : List Tree} (hfields : ∀ f ∈ fields, Stable "" f)
    (hdirs : ∀ t ∈ dirs, Stable "" t) (indent name : String) (description : Option String) :
    PrintsAs indent (.inputType name (.tuple fields) (.tuple dirs) description)
      ("input " ++ name ++ Layout.directives (dirs.map (·.printed "")) ++
        Layout.fields (fields.map (·.printed ""))) := by
  have hrender : ∀ fs ds about, render (.inputType name (.tuple fs) (.tuple ds) about) indent = (do
      let directives ← renderAll ds ""
      return "input " ++ name ++ Layout.directives directives ++ Layout.fields (← renderAll fs "")) :=
    fun _ _ _ => rfl
  constructor
  · rw [hrender, (renderAll_eq hdirs).1, (renderAll_eq hfields).1]
    rfl
  · rw [normal_eq]
    show render (.inputType name (.tuple (fields.map normal)) (.tuple (dirs.map normal)) Option.none)
      indent = _
    rw [hrender, (renderAll_eq hdirs).2, (renderAll_eq hfields).2]
    rfl

/-- A directive definition prints its name, arguments and locations. -/
theorem printsAs_directiveDefinition {args : List Tree} (hargs : ∀ a ∈ args, Stable "" a)
    (indent name : String) (locations : List String) (description : Option String) :
    PrintsAs indent (.directiveDefinition name (.tuple locations) (.tuple args) description)
      ("directive @" ++ name ++ Layout.parens (args.map (·.printed "")) ++ " on " ++
        " | ".intercalate locations) := by
  have hrender : ∀ as about,
      render (.directiveDefinition name (.tuple locations) (.tuple as) about) indent =
        (do return "directive @" ++ name ++ Layout.parens (← renderAll as "") ++ " on " ++
          " | ".intercalate locations) := fun _ _ => rfl
  constructor
  · rw [hrender, (renderAll_eq hargs).1]
    rfl
  · rw [normal_eq]
    show render (.directiveDefinition name (.tuple locations) (.tuple (args.map normal)) Option.none)
      indent = _
    rw [hrender, (renderAll_eq hargs).2]
    rfl

/-- Type system definitions print a text of their own. -/
theorem stable_typeSystem {t : Tree} (h : IsTypeSystem t) (indent : String) : Stable indent t := by
  cases h with
  | schema => exact (printsAs_schema _ _ _ _ indent).stable
  | scalarType hname hdirs =>
    exact (printsAs_scalarType (fun t ht => stable_directive (hdirs t ht)) indent _ _).stable
  | objectType hname hfields hinterfaces hdirs =>
    exact (printsAs_objectType (fun f hf => stable_fieldDefinition (hfields f hf))
      (fun t ht => stable_directive (hdirs t ht)) indent _ _ _).stable
  | interfaceType hname hfields hdirs =>
    exact (printsAs_interfaceType (fun f hf => stable_fieldDefinition (hfields f hf))
      (fun t ht => stable_directive (hdirs t ht)) indent _ _).stable
  | unionType hname hmembers hdirs =>
    exact (printsAs_unionType (fun t ht => stable_directive (hdirs t ht)) indent _ _ _).stable
  | enumType hname hvalues hdirs =>
    exact (printsAs_enumType (fun v hv => stable_enumValue (hvalues v hv))
      (fun t ht => stable_directive (hdirs t ht)) indent _ _).stable
  | inputType hname hfields hdirs =>
    exact (printsAs_inputType (fun f hf => stable_inputValue (hfields f hf))
      (fun t ht => stable_directive (hdirs t ht)) indent _ _).stable
  | directiveDefinition hname hsome hlocations hargs =>
    exact (printsAs_directiveDefinition (fun a ha => stable_inputValue (hargs a ha)) indent _ _ _).stable

/-- A definition can be printed, and its normal form has the same text. -/
theorem stable_definition {t : Tree} (h : IsDefinition t) (indent : String) : Stable indent t :=
  h.elim (fun h => stable_executable h indent) fun h => stable_typeSystem h indent

end GraphDoc.Tree
