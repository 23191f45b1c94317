import GraphDoc.Proofs.Syntax.Reads
import GraphDoc.Proofs.Tree.WellFormed
import GraphDoc.Tree.Render

/-!
# The characters of a tree

`Tree.chars` is the printed text of a tree as a list of characters. The layouts of printed lists are
series of blanks and items.
-/

namespace GraphDoc

/-! ## Layouts -/

theorem series_map {σ τ : Type} (text : τ → List Char) (g : σ → τ) (first glue post : List Char)
    (ts : List σ) :
    series text first glue post (ts.map g) = series (fun t => text (g t)) first glue post ts := by
  induction ts generalizing first with
  | nil => rfl
  | cons t ts ih => rw [List.map_cons, series, series, ih]

theorem toList_intercalate_eq_series (glue : String) (items : List String) :
    (glue.intercalate items).toList = series String.toList [] glue.toList [] items := by
  induction items with
  | nil => rfl
  | cons s items ih =>
    cases items with
    | nil => simp [series]
    | cons r items =>
      rw [String.intercalate_cons_cons, String.toList_append, String.toList_append, ih]
      simp [series]

theorem toList_join_eq_series (items : List String) :
    (String.join items).toList = series String.toList [] [] [] items := by
  rw [String.toList_join]
  induction items with
  | nil => rfl
  | cons s items ih =>
    rw [List.flatMap_cons, ih, series]
    simp

namespace Layout

theorem toList_commaList (items : List String) :
    (commaList items).toList = series String.toList [] [',', ' '] [] items :=
  toList_intercalate_eq_series ", " items

theorem toList_parens (items : List String) :
    (parens items).toList =
      if items = [] then [] else bracketed '(' ')' [] (series String.toList [] [',', ' '] [] items) := by
  unfold parens
  cases items with
  | nil => rfl
  | cons s items =>
    rw [if_neg (by simp), if_neg (by simp), String.toList_append, String.toList_append, toList_commaList]
    simp [bracketed]

theorem toList_directives (items : List String) :
    (directives items).toList = series String.toList [' '] [' '] [] items := by
  unfold directives
  rw [String.toList_join]
  induction items with
  | nil => rfl
  | cons s items ih =>
    rw [series, ← ih]
    simp

theorem toList_selections (indent : String) (items : List String) :
    (selections indent items).toList =
      if items = [] then []
      else ' ' :: bracketed '{' '}' indent.toList (series String.toList ['\n'] [] ['\n'] items) := by
  have hrows : ∀ items : List String,
      (items.map (· ++ "\n")).flatMap String.toList = series String.toList [] [] ['\n'] items := by
    intro items
    induction items with
    | nil => rfl
    | cons s items ih =>
      rw [List.map_cons, List.flatMap_cons, ih, series]
      simp
  unfold selections
  cases items with
  | nil => rfl
  | cons s items =>
    rw [if_neg (by simp), if_neg (by simp)]
    simp only [String.toList_append, String.toList_join, hrows]
    simp [bracketed, series]

/-- The block of a type definition with a line at least. -/
theorem toList_fields {items : List String} (h : items ≠ []) :
    (fields items).toList =
      ' ' :: bracketed '{' '}' [] (series String.toList ['\n', ' ', ' '] [' ', ' '] ['\n'] items) := by
  have hrows : ∀ items : List String, (items.map (step ++ · ++ "\n")).flatMap String.toList =
      series String.toList [' ', ' '] [' ', ' '] ['\n'] items := by
    intro items
    induction items with
    | nil => rfl
    | cons s items ih =>
      rw [List.map_cons, List.flatMap_cons, ih, series]
      simp [step]
  unfold fields
  cases items with
  | nil => exact absurd rfl h
  | cons s items =>
    simp only [String.toList_append, String.toList_join, hrows]
    simp [bracketed, series]

end Layout

/-! ## Trees -/

namespace Tree

/-- The printed text of a tree; nothing for a tree that cannot be printed. -/
def printed (t : Tree) (indent : String) : String := (t.render indent).toOption.getD ""

/-- The characters of the printed text. -/
def chars (t : Tree) (indent : String) : List Char := (t.printed indent).toList

/-- Whether a tree is printed as the given text, and its normal form is too. -/
structure PrintsAs (indent : String) (t : Tree) (s : String) : Prop where
  self : t.render indent = .ok s
  normal : t.normal.render indent = .ok s

/-- Whether a tree can be printed, and its normal form has the same text. -/
def Stable (indent : String) (t : Tree) : Prop := PrintsAs indent t (t.printed indent)

namespace PrintsAs

variable {indent s : String} {t : Tree}

theorem printed_eq (h : PrintsAs indent t s) : t.printed indent = s := by
  rw [printed, h.self]
  rfl

theorem chars_eq (h : PrintsAs indent t s) : t.chars indent = s.toList := by
  rw [chars, h.printed_eq]

theorem stable (h : PrintsAs indent t s) : Stable indent t := by
  rw [Stable, h.printed_eq]
  exact h

end PrintsAs

theorem renderAll_eq {ts : List Tree} {indent : String} (h : ∀ t ∈ ts, Stable indent t) :
    renderAll ts indent = .ok (ts.map (·.printed indent)) ∧
      renderAll (ts.map normal) indent = .ok (ts.map (·.printed indent)) := by
  induction ts with
  | nil => exact ⟨rfl, rfl⟩
  | cons t ts ih =>
    obtain ⟨h1, h2⟩ := ih fun s hs => h s (List.mem_cons_of_mem _ hs)
    obtain ⟨ht1, ht2⟩ := h t (by simp)
    constructor
    · show (do return (← render t indent) :: (← renderAll ts indent)) = _
      rw [ht1, h1]
      rfl
    · show (do return (← render t.normal indent) :: (← renderAll (ts.map normal) indent)) = _
      rw [ht2, h2]
      rfl

end Tree

end GraphDoc
