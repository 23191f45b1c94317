import GraphDoc.Proofs.Tree.Comparable
import Mathlib.Data.List.Perm.Subperm

/-!
# Equality is an equivalence

Among trees without a NaN, a symbol or an unknown thing, equality is reflexive, symmetric and transitive. What takes an
argument is that it is symmetric on maps, since these are compared one way only: each entry of the first with the one
that the second has for its key. No entry of the second is left out, because the keys of a map are distinct and there
are as many on both sides.
-/

namespace GraphDoc

namespace Content

/-! ## What is equal has the same form -/

theorem same_atom_iff {a : Atom} {c : Content} : same (.atom a) c = true ↔ c = .atom a ∧ a.same a = true := by
  constructor
  · intro h
    obtain rfl := (isStrict_atom a).eq_of_same c h
    exact ⟨rfl, h⟩
  · rintro ⟨rfl, h⟩
    exact h

theorem same_seq_iff {form : SeqForm} {items : List Content} {c : Content} :
    same (.seq form items) c = true ↔ ∃ others, c = .seq form others ∧ sameAll items others = true := by
  constructor
  · intro h
    cases c with
    | seq form' others =>
      rw [same, Bool.and_eq_true, beq_iff_eq] at h
      exact ⟨others, by rw [h.1], h.2⟩
    | _ => cases h
  · rintro ⟨others, rfl, h⟩
    simp [same, h]

theorem same_node_iff {kind : NodeClass} {parts : List Content} {c : Content} :
    same (.node kind parts) c = true ↔ ∃ others, c = .node kind others ∧ sameAll parts others = true := by
  constructor
  · intro h
    cases c with
    | node kind' others =>
      rw [same, Bool.and_eq_true, beq_iff_eq] at h
      exact ⟨others, by rw [h.1], h.2⟩
    | _ => cases h
  · rintro ⟨others, rfl, h⟩
    simp [same, h]

theorem same_map_iff {entries : List (Atom × Content)} {c : Content} :
    same (.map entries) c = true ↔ ∃ others, c = .map others ∧ entries.length = others.length ∧
      ∀ e ∈ entries, ∃ other, find? e.1 others = some other ∧ same e.2 other = true := by
  cases c <;> simp [same, sameEntries_iff]

/-! ## Maps with distinct keys -/

/-- Whether all maps in a content have distinct keys. -/
inductive IsProper : Content → Prop
  | atom (value : Atom) : IsProper (.atom value)
  | seq (form : SeqForm) {items : List Content} (hitems : ∀ c ∈ items, IsProper c) : IsProper (.seq form items)
  | map {entries : List (Atom × Content)} (hkeys : DistinctKeys Atom.same entries)
      (hvalues : ∀ e ∈ entries, IsProper e.2) : IsProper (.map entries)
  | node (kind : NodeClass) {parts : List Content} (hparts : ∀ c ∈ parts, IsProper c) : IsProper (.node kind parts)
  | lone : IsProper .lone

theorem isProper_text (s : String) : IsProper (text s) := .atom _

theorem isProper_text? (s : Option String) : IsProper (text? s) := by
  cases s <;> exact .atom _

theorem isProper_texts (s : Seq String) : IsProper (texts s) :=
  .seq s.form (List.forall_mem_map.2 fun t _ => isProper_text t)

theorem IsProper.derive {c : Content} (h : IsProper c) (d : Derivation) : IsProper (c.derive d) := by
  cases h with
  | node kind hparts => exact .node _ hparts
  | atom | seq | map | lone => constructor <;> assumption

theorem mem_of_find? {key : Atom} {value : Content} {entries : List (Atom × Content)}
    (h : find? key entries = some value) : key.same key = true ∧ (key, value) ∈ entries := by
  obtain ⟨e, he, rfl⟩ := Option.map_eq_some_iff.1 h
  have hsame := List.find?_some he
  obtain rfl : key = e.1 := eq_of_same_atom hsame
  exact ⟨hsame, List.mem_of_find?_eq_some he⟩

/-- Distinct keys that are equal to themselves are no two the same. -/
theorem nodup_keys {entries : List (Atom × Content)} (hdistinct : DistinctKeys Atom.same entries)
    (hself : ∀ e ∈ entries, e.1.same e.1 = true) : (entries.map (·.1)).Nodup := by
  rw [List.Nodup, List.pairwise_map]
  refine List.Pairwise.imp_of_mem (fun {a b} ha _ hab heq => ?_) hdistinct
  rw [← heq, hself a ha] at hab
  cases hab

/-- Distinct keys that are all found among as many others are these others. -/
theorem mem_keys_of_length {entries others : List (Atom × Content)} (hdistinct : DistinctKeys Atom.same entries)
    (hlength : entries.length = others.length) (h : ∀ e ∈ entries, ∃ other, find? e.1 others = some other)
    {key : Atom} (hkey : key ∈ others.map (·.1)) : key ∈ entries.map (·.1) := by
  have hmem : ∀ e ∈ entries, e.1.same e.1 = true ∧ e.1 ∈ others.map (·.1) := by
    intro e he
    obtain ⟨other, hfind⟩ := h e he
    obtain ⟨hself, hother⟩ := mem_of_find? hfind
    exact ⟨hself, List.mem_map.2 ⟨_, hother, rfl⟩⟩
  have hsubperm := List.subperm_of_subset (nodup_keys hdistinct fun e he => (hmem e he).1)
    (List.forall_mem_map.2 fun e he => (hmem e he).2)
  exact (hsubperm.perm_of_length_le (by simp [hlength])).mem_iff.2 hkey

/-! ## The laws -/

theorem sameAll_symm {cs ds : List Content} (h : sameAll cs ds = true)
    (ih : ∀ c ∈ cs, ∀ d ∈ ds, same c d = true → same d c = true) : sameAll ds cs = true := by
  rw [sameAll_iff] at h ⊢
  induction h with
  | nil => exact .nil
  | cons hhead _ hrest =>
    exact .cons (ih _ (by simp) _ (by simp) hhead)
      (hrest fun c hc d hd => ih c (List.mem_cons_of_mem _ hc) d (List.mem_cons_of_mem _ hd))

theorem sameAll_trans {bs cs ds : List Content} (hbc : sameAll bs cs = true) (hcd : sameAll cs ds = true)
    (ih : ∀ b ∈ bs, ∀ c d, same b c = true → same c d = true → same b d = true) : sameAll bs ds = true := by
  rw [sameAll_iff] at hbc hcd ⊢
  induction hbc generalizing ds with
  | nil =>
    cases hcd
    exact .nil
  | cons hhead _ hrest =>
    obtain ⟨d, ds, hhead', hrest', rfl⟩ := List.forall₂_cons_left_iff.1 hcd
    exact .cons (ih _ (by simp) _ _ hhead hhead') (hrest hrest' fun b hb => ih b (List.mem_cons_of_mem _ hb))

theorem same_symm {c d : Content} (hc : IsProper c) (hd : IsProper d) (h : same c d = true) : same d c = true := by
  induction hc generalizing d with
  | atom a =>
    obtain ⟨rfl, hself⟩ := same_atom_iff.1 h
    exact hself
  | seq form _ ih =>
    obtain ⟨others, rfl, hitems⟩ := same_seq_iff.1 h
    cases hd with
    | seq _ hothers =>
      exact same_seq_iff.2 ⟨_, rfl, sameAll_symm hitems fun c hc d hd => ih c hc (hothers d hd)⟩
  | node kind _ ih =>
    obtain ⟨others, rfl, hparts⟩ := same_node_iff.1 h
    cases hd with
    | node _ hothers =>
      exact same_node_iff.2 ⟨_, rfl, sameAll_symm hparts fun c hc d hd => ih c hc (hothers d hd)⟩
  | @map entries hkeys _ ih =>
    obtain ⟨others, rfl, hlength, hentries⟩ := same_map_iff.1 h
    cases hd with
    | map hkeys' hvalues' =>
      refine same_map_iff.2 ⟨_, rfl, hlength.symm, fun f hf => ?_⟩
      have hmem : f.1 ∈ entries.map (·.1) :=
        mem_keys_of_length hkeys hlength (fun e he => (hentries e he).imp fun _ h => h.1) (List.mem_map_of_mem hf)
      obtain ⟨e, he, hkey⟩ := List.mem_map.1 hmem
      -- what the second map has for the key of `e` is `f` itself
      obtain ⟨other, hfind, hsame⟩ := hentries e he
      have hself := (mem_of_find? hfind).1
      rw [hkey] at hfind hself
      obtain rfl : f.2 = other := Option.some.inj ((find?_eq_some hkeys' hf hself).symm.trans hfind)
      refine ⟨e.2, ?_, ih e he (hvalues' f hf) hsame⟩
      rw [← hkey] at hself ⊢
      exact find?_eq_some hkeys he hself
  | lone => cases h

theorem same_trans {b c d : Content} (hb : IsProper b) (hbc : same b c = true) (hcd : same c d = true) :
    same b d = true := by
  induction hb generalizing c d with
  | atom a =>
    obtain ⟨rfl, -⟩ := same_atom_iff.1 hbc
    exact hcd
  | seq form _ ih =>
    obtain ⟨others, rfl, hitems⟩ := same_seq_iff.1 hbc
    obtain ⟨others', rfl, hitems'⟩ := same_seq_iff.1 hcd
    exact same_seq_iff.2 ⟨_, rfl, sameAll_trans hitems hitems' fun b hb c d => ih b hb⟩
  | node kind _ ih =>
    obtain ⟨others, rfl, hparts⟩ := same_node_iff.1 hbc
    obtain ⟨others', rfl, hparts'⟩ := same_node_iff.1 hcd
    exact same_node_iff.2 ⟨_, rfl, sameAll_trans hparts hparts' fun b hb c d => ih b hb⟩
  | map _ _ ih =>
    obtain ⟨others, rfl, hlength, hentries⟩ := same_map_iff.1 hbc
    obtain ⟨others', rfl, hlength', hentries'⟩ := same_map_iff.1 hcd
    refine same_map_iff.2 ⟨_, rfl, hlength.trans hlength', fun e he => ?_⟩
    obtain ⟨other, hfind, hsame⟩ := hentries e he
    obtain ⟨other', hfind', hsame'⟩ := hentries' _ (mem_of_find? hfind).2
    exact ⟨other', hfind', ih e he hsame hsame'⟩
  | lone => cases hbc

end Content

namespace Tree

open Content

theorem isProper_content (t : Tree) : IsProper t.content := by
  induction t using induction_on_children with
  | step t ih =>
    have hseq : ∀ {s : Seq Tree}, (∀ c ∈ s.items, IsProper c.content) → IsProper (.seq s.form (contents s.items)) := by
      intro s hs
      rw [contents_eq_map]
      exact .seq _ (List.forall_mem_map.2 hs)
    cases t
    case none | bool | int | float | str => exact .atom _
    case symbol | foreign => exact .lone
    case seq s => exact hseq ih
    case derived d t => exact (ih t (List.mem_singleton_self t)).derive d
    case map entries =>
      refine .map (distinctKeys_mergeEntries _) fun e he => ?_
      obtain ⟨-, k, hk⟩ := mem_mergeEntries he
      rw [entryContents_eq_map, List.mem_map] at hk
      obtain ⟨f, hf, hvalue⟩ := hk
      rw [← (Prod.ext_iff.1 hvalue).2]
      exact ih f.2 (List.mem_map_of_mem hf)
    all_goals
      simp only [children, List.forall_mem_append, List.forall_mem_cons] at ih
      refine .node _ ?_
      simp_all [isProper_text, isProper_text?, isProper_texts]

/-- Equality is an equivalence of trees without a NaN, a symbol or an unknown thing. -/
theorem equivalence_same : Equivalence fun t u : {t : Tree // IsComparable t} => t.1.same u.1 = true where
  refl t := same_self t.2
  symm {t u} h := Content.same_symm t.1.isProper_content u.1.isProper_content h
  trans {t _ _} h h' := Content.same_trans t.1.isProper_content h h'

end Tree

end GraphDoc
