import GraphDoc.Disk.Path
import Mathlib.Data.String.Basic

/-!
# Paths in writing

A path is settled by its written form as long as no part holds a slash, paths below one folder are ordered as what
stands behind it is, and a written path ends as its last part does. A path is resolved part by part.
-/

namespace GraphDoc.Path

/-- Whether a path has parts, none of which holds a slash. -/
structure IsPlain (p : Path) : Prop where
  ne_nil : p ≠ []
  slashFree : ∀ part ∈ p, '/' ∉ part.toList

namespace IsPlain

/-- What leads to a plain path is plain. -/
theorem of_initial {p q : Path} (h : q.IsPlain) (hpq : p <+: q) (hp : p ≠ []) : p.IsPlain :=
  ⟨hp, fun part hpart => h.slashFree part (hpq.subset hpart)⟩

/-- A plain path stays plain with more parts without slashes. -/
theorem append {p q : Path} (hp : p.IsPlain) (hq : ∀ part ∈ q, '/' ∉ part.toList) : (p ++ q).IsPlain := by
  refine ⟨by simp [hp.ne_nil], fun part hpart => ?_⟩
  rcases List.mem_append.1 hpart with hpart | hpart
  · exact hp.slashFree part hpart
  · exact hq part hpart

end IsPlain

/-! ## Written paths -/

/-- A path is written part by part, with slashes between. -/
theorem toList_text (p : Path) : p.text.toList = ['/'].intercalate (p.map String.toList) := by
  rw [text, String.toList_intercalate]
  rfl

/-- Different plain paths are written differently. -/
theorem eq_of_text_eq {p q : Path} (hp : p.IsPlain) (hq : q.IsPlain) (h : p.text = q.text) : p = q := by
  have hparts : ∀ {r : Path}, r.IsPlain → r.text.toList.splitOn '/' = r.map String.toList := by
    intro r hr
    rw [toList_text]
    refine List.splitOn_intercalate '/' ?_ (by simpa using hr.ne_nil)
    simpa using hr.slashFree
  have hmap : p.map String.toList = q.map String.toList := by rw [← hparts hp, ← hparts hq, h]
  exact List.map_injective_iff.2 (fun _ _ => String.toList_inj.1) hmap

/-- Paths one behind the other are written with a slash between. -/
theorem text_append {p q : Path} (hp : p ≠ []) (hq : q ≠ []) : (p ++ q).text = p.text ++ "/" ++ q.text := by
  have hinter : ∀ {xs ys : List (List Char)}, xs ≠ [] → ys ≠ [] →
      ['/'].intercalate (xs ++ ys) = ['/'].intercalate xs ++ '/' :: ['/'].intercalate ys := by
    intro xs ys hxs hys
    induction xs with
    | nil => exact absurd rfl hxs
    | cons x xs ih =>
      cases xs with
      | nil =>
        obtain ⟨y, ys, rfl⟩ := List.exists_cons_of_ne_nil hys
        simp [List.intercalate]
      | cons x' xs =>
        have hrest := ih (by simp)
        simp only [List.intercalate, List.cons_append, List.intersperse_cons_cons, List.flatten_cons] at hrest ⊢
        simp [hrest]
  rw [← String.toList_inj, toList_text, List.map_append, hinter (by simpa using hp) (by simpa using hq)]
  simp [toList_text]

/-- A written path has the parts that it is written with. -/
theorem text_parts (written : String) : text (parts written) = written := by
  have hmap : (parts written).map String.toList = written.toList.splitOn '/' := by
    rw [parts, List.map_map]
    exact List.map_id'' (fun _ => String.toList_ofList) _
  rw [← String.toList_inj, toList_text, hmap, List.intercalate_splitOn]

/-- Paths below one folder are ordered as what stands behind it. -/
theorem text_append_lt_iff (p : Path) {a b : Path} (ha : a ≠ []) (hb : b ≠ []) :
    (p ++ a).text < (p ++ b).text ↔ a.text < b.text := by
  have hlist : ∀ (xs : List Char) {ys zs : List Char}, xs ++ ys < xs ++ zs ↔ ys < zs := by
    intro xs ys zs
    induction xs with
    | nil => rfl
    | cons x xs ih => simp [ih]
  by_cases hp : p = []
  · rw [hp, List.nil_append, List.nil_append]
  · rw [text_append hp ha, text_append hp hb, String.lt_iff_toList_lt, String.lt_iff_toList_lt, String.toList_append,
      String.toList_append (t := b.text), hlist]

/-! ## Endings -/

@[simp] theorem name_append_singleton (p : Path) (part : String) : (p ++ [part]).name = part := by
  simp [name]

/-- An ending without a slash is one of the last part, also where letters are taken as others. -/
theorem suffix_text_iff {ending : List Char} (h : '/' ∉ ending) {f : Char → Char} (hf : f '/' = '/') (p : Path) :
    ending <:+ p.text.toList.map f ↔ ending <:+ p.name.toList.map f := by
  rcases List.eq_nil_or_concat' p with rfl | ⟨p, part, rfl⟩
  · rfl
  · rw [name_append_singleton]
    by_cases hp : p = []
    · rw [hp, List.nil_append]
      simp [toList_text, List.intercalate]
    · have hpart : text [part] = part := by simp [← String.toList_inj, toList_text, List.intercalate]
      rw [text_append hp (by simp), hpart, String.toList_append, String.toList_append, List.map_append, List.map_append]
      have hslash : "/".toList.map f = ['/'] := by simp [hf]
      rw [hslash, List.append_assoc, List.singleton_append]
      constructor
      · intro hend
        rcases List.suffix_or_suffix_of_suffix hend (List.suffix_append _ _) with hend | hend
        · rcases List.suffix_cons_iff.1 hend with heq | hend
          · exact absurd (heq ▸ List.mem_cons_self) h
          · exact hend
        · exact absurd (hend.subset List.mem_cons_self) h
      · intro hend
        exact hend.trans ((List.suffix_cons _ _).trans (List.suffix_append _ _))

/-! ## Resolving -/

/-- No part of a written path holds a slash. -/
theorem slashFree_of_mem_parts {written part : String} (h : part ∈ parts written) : '/' ∉ part.toList := by
  have hsplit : ∀ (cs : List Char), ∀ piece ∈ cs.splitOn '/', '/' ∉ piece := by
    intro cs
    induction cs with
    | nil => simp [List.splitOn_nil]
    | cons c cs ih =>
      rw [List.splitOn, List.splitOnP_cons_eq_if_modifyHead]
      obtain ⟨first, rest, hpieces⟩ := List.exists_cons_of_ne_nil (List.splitOnP_ne_nil (· == '/') cs)
      rw [List.splitOn, hpieces] at ih
      rw [hpieces]
      split
      · intro piece hpiece
        rcases List.mem_cons.1 hpiece with rfl | hpiece
        · simp
        · exact ih piece hpiece
      · next hc =>
        intro piece hpiece
        rcases List.mem_cons.1 hpiece with rfl | hpiece
        · rw [List.mem_cons]
          rintro (rfl | hslash)
          · exact hc rfl
          · exact ih first List.mem_cons_self hslash
        · exact ih piece (List.mem_cons_of_mem _ hpiece)
  obtain ⟨piece, hpiece, rfl⟩ := List.mem_map.1 h
  rw [String.toList_ofList]
  exact hsplit _ _ hpiece

/-- A step keeps a path plain. -/
theorem isPlain_step {here : Path} (h : here.IsPlain) {part : String} (hpart : '/' ∉ part.toList) :
    (here.step part).IsPlain := by
  rw [step]
  split
  · exact h
  · split
    · split
      · exact h
      · next hlen =>
        refine h.of_initial ( List.dropLast_prefix here) fun hnil => hlen ?_
        have := congrArg List.length hnil
        rw [List.length_dropLast, List.length_nil] at this
        omega
    · exact h.append (by simpa using hpart)

theorem isPlain_foldl_step {here : Path} (h : here.IsPlain) {ps : List String} (hps : ∀ part ∈ ps, '/' ∉ part.toList) :
    (ps.foldl step here).IsPlain := by
  induction ps generalizing here with
  | nil => exact h
  | cons part ps ih =>
    exact ih (isPlain_step h (hps part List.mem_cons_self)) fun p hp => hps p (List.mem_cons_of_mem _ hp)

theorem isPlain_start {folder : Path} (h : folder.IsPlain) (written : String) : (start folder written).IsPlain := by
  rw [start]
  split
  · exact ⟨by simp, by simp⟩
  · exact h

/-- From a plain folder, every written path leads to a plain one. -/
theorem isPlain_resolve {folder : Path} (h : folder.IsPlain) (written : String) : (resolve folder written).IsPlain :=
  isPlain_foldl_step (isPlain_start h written) fun _ => slashFree_of_mem_parts

/-- Whether a part of a written path is a name and leads one step down. -/
structure IsName (part : String) : Prop where
  ne_empty : part ≠ ""
  ne_point : part ≠ "."
  ne_points : part ≠ ".."

/-- A step by a name goes down. -/
theorem step_of_isName {part : String} (h : IsName part) (here : Path) : here.step part = here ++ [part] := by
  rw [step, if_neg (not_or.2 ⟨h.ne_empty, h.ne_point⟩), if_neg h.ne_points]

/-- A step that does not go up stays below. -/
theorem prefix_step {part : String} (h : part ≠ "..") (here : Path) : here <+: here.step part := by
  rw [step, if_neg h]
  split
  · exact List.prefix_refl here
  · exact List.prefix_append _ _

/-- Without two points, the parts of a written path lead down or nowhere. -/
theorem prefix_foldl_step {ps : List String} (h : ∀ part ∈ ps, part ≠ "..") (here : Path) :
    here <+: ps.foldl step here := by
  induction ps generalizing here with
  | nil => exact List.prefix_refl here
  | cons part ps ih =>
    have hrest := ih (fun p hp => h p (List.mem_cons_of_mem _ hp)) (here.step part)
    exact (prefix_step (h part List.mem_cons_self) here).trans hrest

/-- A written path with an ending longer than two points has a name as its last part, with the same ending. -/
theorem exists_last_name {ending : List Char} (hslash : '/' ∉ ending) (hlong : 2 < ending.length) {written : String}
    (h : ending <:+ written.toList) :
    ∃ before last, parts written = before ++ [last] ∧ IsName last ∧ ending <:+ last.toList := by
  have hname : ending <:+ (name (parts written)).toList := by
    have hiff := suffix_text_iff hslash (f := id) rfl (parts written)
    rw [List.map_id, List.map_id, text_parts] at hiff
    exact hiff.1 h
  rcases List.eq_nil_or_concat' (parts written) with hnil | ⟨before, last, hparts⟩
  · rw [hnil] at hname
    rw [List.eq_nil_of_suffix_nil hname] at hlong
    simp at hlong
  · rw [hparts, name_append_singleton] at hname
    have hlast : 2 < last.toList.length := Nat.lt_of_lt_of_le hlong hname.length_le
    have hne : ∀ short : String, short.toList.length ≤ 2 → last ≠ short := by
      rintro short hshort rfl
      omega
    exact ⟨before, last, hparts, ⟨hne "" (by decide), hne "." (by decide), hne ".." (by decide)⟩, hname⟩

/-- A written path that ends with a name leads to something of that name. -/
theorem resolve_eq_append {written last : String} {before : List String} (hparts : parts written = before ++ [last])
    (hlast : IsName last) (folder : Path) :
    resolve folder written = before.foldl step (start folder written) ++ [last] := by
  rw [resolve, hparts, List.foldl_append, List.foldl_cons, List.foldl_nil, step_of_isName hlast]

end GraphDoc.Path
