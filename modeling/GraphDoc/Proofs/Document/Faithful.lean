import GraphDoc.Proofs.Document.Printed
import GraphDoc.Proofs.Tree.FromSource
import GraphDoc.Proofs.Tree.Strict

/-!
# Texts that are read back faithfully

A definition is sound when its text lacks nothing: then it is read back as its reading. Conversely, what is
read back as an equal definition was sound: no misreading gives back what was printed.
-/

namespace GraphDoc

open GraphDoc.Tree
open Syntax (maxDepth)

/-! ## Sound definitions are read back -/

/-- Where each selection reads back in front of anything, the whole list does. -/
theorem readBack_of_forall {sels : List Tree} (h : ∀ s ∈ sels, ∀ {rest rrest : List Tree},
    ReadBack rest rrest → ReadBack (s :: rest) (s.reading :: rrest)) : ReadBack sels (sels.map reading) := by
  induction sels with
  | nil => exact .nil
  | cons s sels ih =>
    have hrest := ih fun t ht => h t (List.mem_cons_of_mem _ ht)
    exact h s (by simp) hrest

/-- A selection whose fields all have a name reads back in front of any others. -/
theorem readBack_cons_of_strict {d : Nat} {s : Tree} (h : IsSelection false d s) :
    ∀ {rest rrest : List Tree}, ReadBack rest rrest → ReadBack (s :: rest) (s.reading :: rrest) := by
  induction h with
  | field hname halias hargs hdirs hdepth hsels ih =>
    intro rest rrest hrest
    rw [reading_field]
    exact .field (readBack_of_forall ih) hrest
  | spread hname hon hdirs =>
    intro rest rrest hrest
    rw [reading_fragmentSpread]
    exact .spread hrest
  | inline htype hdirs hsome hdepth hsels ih =>
    intro rest rrest hrest
    rw [reading_inlineFragment]
    exact .inline (hsome rfl) (readBack_of_forall ih) hrest

/-- Selections without gaps are read back one by one. -/
theorem readBack_of_strict {d : Nat} {sels : List Tree} (h : ∀ s ∈ sels, IsSelection false d s) :
    ReadBack sels (sels.map reading) :=
  readBack_of_forall fun s hs => readBack_cons_of_strict (h s hs)

/-- Whether the text of a definition lacks nothing. -/
def IsSound (d : Tree) : Prop := IsExecutable false d ∨ IsTypeSystem d ∧ d.IsWhole

/-- A definition is sound if it is whole and none of its selection sets is empty. -/
theorem isSound_iff {d : Tree} (h : IsDefinition d) : IsSound d ↔ d.IsWhole ∧ NoEmptySets d := by
  constructor
  · rintro (hexec | ⟨htype, hwhole⟩)
    · refine ⟨?_, (isExecutable_false_iff.1 hexec).2⟩
      cases hexec <;> trivial
    · exact ⟨hwhole, htype.isFlat.noEmptySets⟩
  · rintro ⟨hwhole, hsets⟩
    rcases h with hexec | htype
    · exact .inl (isExecutable_false_iff.2 ⟨hexec, hsets⟩)
    · exact .inr ⟨htype, hwhole⟩

/-- A sound definition reads back as its reading, whatever follows it. -/
theorem definitionReadsBack_of_sound {d : Tree} (h : IsSound d) : DefinitionReadsBack d d.reading := by
  rcases h with h | ⟨htype, hwhole⟩
  · cases h with
    | operation hname hvars hdirs hsels =>
      rw [reading_operation]
      exact .operation (hsels.1 rfl) (readBack_of_strict hsels.2)
    | fragment hname hon htype hdirs hsels =>
      rw [reading_fragment, reading_eq (.typeName _)]
      exact .fragment (hsels.1 rfl) (readBack_of_strict hsels.2)
  · exact .typeSystem htype hwhole

/-- Sound definitions are read back one by one. -/
theorem documentReadsBack_of_sound {ds : List Tree} (h : ∀ d ∈ ds, IsSound d) :
    DocumentReadsBack ds (ds.map reading) := by
  induction ds with
  | nil => exact .nil
  | cons d ds ih =>
    exact .cons (definitionReadsBack_of_sound (h d (by simp))) (ih fun t ht => h t (List.mem_cons_of_mem _ ht))

/-! ## What is read back as an equal definition is sound -/

/-- Whether a relation between what was read back and what was printed rules out the ways in which a text can be
misread: equal selections have equal selections inside, and no name, member or interface more or less. -/
structure Discerns (R : Tree → Tree → Prop) : Prop where
  field : ∀ {n n' : String} {m m' : Option String} {a d s a' d' s' : Seq Tree},
    R (.field n m a d s) (.field n' m' a' d' s') → List.Forall₂ R s.items s'.items
  inlineFragment : ∀ {t t' : Tree} {d s d' s' : Seq Tree},
    R (.inlineFragment t d s) (.inlineFragment t' d' s') → List.Forall₂ R s.items s'.items
  condition : ∀ {n : String} {d s d' s' : Seq Tree},
    ¬R (.inlineFragment (.typeName n) d s) (.inlineFragment .none d' s')
  spread : ∀ {n : String} {t : Tree} {d d' s : Seq Tree}, ¬R (.fragmentSpread n d) (.inlineFragment t d' s)
  operation : ∀ {k k' : String} {n n' : Option String} {a d s a' d' s' : Seq Tree},
    R (.operation k n a d s) (.operation k' n' a' d' s') → n = n' ∧ List.Forall₂ R s.items s'.items
  fragment : ∀ {n n' : String} {t t' : Tree} {d s d' s' : Seq Tree},
    R (.fragment n t d s) (.fragment n' t' d' s') → List.Forall₂ R s.items s'.items
  unionType : ∀ {n n' : String} {m d m' d' : Seq Tree} {x x' : Option String},
    R (.unionType n m d x) (.unionType n' m' d' x') → m.items.length = m'.items.length
  objectType : ∀ {n n' : String} {f d f' d' : Seq Tree} {i i' : Seq String} {x x' : Option String},
    R (.objectType n f i d x) (.objectType n' f' i' d' x') → i.items.length = i'.items.length

/-- Equality of trees tells the kinds of definition apart and looks at their parts one by one. -/
theorem discerns_same : Discerns fun r d => r.same d = true where
  field := same_selections_of_field
  inlineFragment := same_selections_of_inlineFragment
  condition := by simp [Tree.same, content, Content.sameAll, Content.plain, Content.same]
  spread := by simp [Tree.same, content]
  operation := fun h => ⟨eq_of_same_operation h, same_selections_of_operation h⟩
  fragment := same_selections_of_fragment
  unionType := by
    intro n n' m d m' d' x x' h
    simp only [Tree.same, content, Content.same_plain, Content.sameAll, Content.same, Bool.and_eq_true] at h
    exact (sameAll_contents.1 h.2.2.1.2).length_eq
  objectType := by
    intro n n' f d f' d' i i' x x' h
    simp only [Tree.same, content, Content.same_plain, Content.sameAll, Content.texts, Content.same,
      Bool.and_eq_true] at h
    simpa using (Content.sameAll_iff.1 h.2.2.2.1.2).length_eq

/-- Lists of one normal form agree in it item by item. -/
theorem forall₂_normal {s s' : Seq Tree} (h : s.map normal = s'.map normal) :
    List.Forall₂ (fun t u : Tree => t.normal = u.normal) s.items s'.items := by
  have hitems : s.items.map normal = s'.items.map normal := congrArg Seq.items h
  rwa [← List.forall₂_eq_eq_eq, List.forall₂_map_left_iff, List.forall₂_map_right_iff] at hitems

/-- Normal forms tell the kinds of definition apart and look at their parts one by one. -/
theorem discerns_normal : Discerns fun r d => r.normal = d.normal := by
  -- nodes with one normal form are the same node, up to normal forms inside
  have hnode : ∀ {t u : Tree}, t.normal = u.normal →
      normalNode (t.mapChildren normal) = normalNode (u.mapChildren normal) := by
    intro t u h
    rwa [normal_eq t, normal_eq u] at h
  constructor
  case field =>
    intro _ _ _ _ _ _ _ _ _ _ h
    exact forall₂_normal (Tree.field.inj (hnode h)).2.2.2.2
  case inlineFragment =>
    intro _ _ _ _ _ _ h
    exact forall₂_normal (Tree.inlineFragment.inj (hnode h)).2.2
  case condition =>
    intro _ _ _ _ _ h
    have htype := (Tree.inlineFragment.inj (hnode h)).1
    rw [normal_eq, normal_eq] at htype
    cases htype
  case spread =>
    intro _ _ _ _ _ h
    cases hnode h
  case operation =>
    intro _ _ _ _ _ _ _ _ _ _ h
    have hparts := Tree.operation.inj (hnode h)
    exact ⟨hparts.2.1, forall₂_normal hparts.2.2.2.2⟩
  case fragment =>
    intro _ _ _ _ _ _ _ _ h
    exact forall₂_normal (Tree.fragment.inj (hnode h)).2.2.2
  case unionType =>
    intro _ _ _ _ _ _ _ _ h
    exact (forall₂_normal (Tree.unionType.inj (hnode h)).2.1).length_eq
  case objectType =>
    intro _ _ _ _ _ _ _ _ _ _ h
    exact congrArg (fun i : Seq String => i.items.length) (Tree.objectType.inj (hnode h)).2.2.1

/-- No misreading of selections gives back what was printed. -/
theorem strict_of_readBack {R : Tree → Tree → Prop} (hR : Discerns R) {sels rs : List Tree} (h : ReadBack sels rs)
    {d : Nat} (hsels : ∀ s ∈ sels, IsSelection true d s) (hsame : List.Forall₂ R rs sels) :
    (∀ s ∈ sels, IsSelection false d s) ∧ rs = sels.map reading := by
  -- on how the selections were read; the misreadings are ruled out by what they give
  induction h generalizing d with
  | nil => simp
  | field hread hrest ih ihrest =>
    obtain ⟨hhead, htail⟩ := List.forall₂_cons.1 hsame
    obtain ⟨hstrict, hrs⟩ := ihrest (fun s hs => hsels s (List.mem_cons_of_mem _ hs)) htail
    cases hsels _ (List.mem_cons_self ..) with
    | field hname halias hargs hdirs hdepth hin =>
      obtain ⟨hset, hset'⟩ := ih hin (hR.field hhead)
      refine ⟨List.forall_mem_cons.2 ⟨.field hname halias hargs hdirs hdepth hset, hstrict⟩, ?_⟩
      rw [hrs, hset', List.map_cons, reading_field]
  | spread hrest ihrest =>
    obtain ⟨-, htail⟩ := List.forall₂_cons.1 hsame
    obtain ⟨hstrict, hrs⟩ := ihrest (fun s hs => hsels s (List.mem_cons_of_mem _ hs)) htail
    cases hsels _ (List.mem_cons_self ..) with
    | spread hname hon hdirs =>
      refine ⟨List.forall_mem_cons.2 ⟨.spread hname hon hdirs, hstrict⟩, ?_⟩
      rw [hrs, List.map_cons, reading_fragmentSpread]
  | inline hsome hread hrest ih ihrest =>
    obtain ⟨hhead, htail⟩ := List.forall₂_cons.1 hsame
    obtain ⟨hstrict, hrs⟩ := ihrest (fun s hs => hsels s (List.mem_cons_of_mem _ hs)) htail
    cases hsels _ (List.mem_cons_self ..) with
    | inline htype hdirs _ hdepth hin =>
      obtain ⟨hset, hset'⟩ := ih hin (hR.inlineFragment hhead)
      refine ⟨List.forall_mem_cons.2 ⟨.inline htype hdirs (fun _ => hsome) hdepth hset, hstrict⟩, ?_⟩
      rw [hrs, hset', List.map_cons, reading_inlineFragment]
  | asSpread => exact absurd (List.forall₂_cons.1 hsame).1 hR.spread
  | asCondition => exact absurd (List.forall₂_cons.1 hsame).1 hR.condition

/-- No misreading of a definition gives back what was printed. -/
theorem sound_of_definitionReadsBack {R : Tree → Tree → Prop} (hR : Discerns R) {d r : Tree}
    (h : DefinitionReadsBack d r) (hd : IsDefinition d) (hsame : R r d) : IsSound d ∧ r = d.reading := by
  rcases hd with hd | hd
  · cases hd with
    | operation hname hvars hdirs hsels =>
      obtain ⟨hsome, rs, hread, rfl⟩ := definitionReadsBack_operation.1 h
      obtain ⟨hstrict, hrs⟩ := strict_of_readBack hR hread hsels.2 (hR.operation hsame).2
      exact ⟨.inl (.operation hname hvars hdirs ⟨fun _ => hsome, hstrict⟩), by rw [hrs, reading_operation]⟩
    | fragment hname hon htype hdirs hsels =>
      obtain ⟨hsome, rs, hread, rfl⟩ := definitionReadsBack_fragment.1 h
      obtain ⟨hstrict, hrs⟩ := strict_of_readBack hR hread hsels.2 (hR.fragment hsame)
      refine ⟨.inl (.fragment hname hon htype hdirs ⟨fun _ => hsome, hstrict⟩), ?_⟩
      rw [hrs, reading_fragment, reading_eq (.typeName _)]
      rfl
  · obtain ⟨hwhole, hr⟩ := (definitionReadsBack_typeSystem hd).1 h
    exact ⟨.inr ⟨hd, hwhole⟩, hr⟩

/-- Every definition opens with a keyword. -/
theorem keyword_ne_empty {d : Tree} (h : IsDefinition d) : d.keyword ≠ "" := by
  rcases h with h | h
  · cases h with
    | operation => exact ne_empty_of_isName (isName_keyword _)
    | fragment => simp [Tree.keyword]
  · cases h <;> simp [Tree.keyword]

/-- A definition that shows is read back as one that shows. -/
theorem not_isSuppressed_of_readsBack {d r : Tree} (h : DefinitionReadsBack d r) (hd : IsShown d) :
    r.isSuppressed = false := by
  cases h with
  | operation | fragment => rfl
  | typeSystem htype =>
    cases htype with
    | schema =>
      rw [reading_eq]
      exact hd.2
    | _ =>
      rw [reading_eq]
      rfl

/-- A definition that is not suppressed stays at the head of the list. -/
theorem shown_cons {d : Tree} (h : d.isSuppressed = false) (ds : List Tree) : shown (d :: ds) = d :: shown ds :=
  List.filter_cons_of_pos (by simp [h])

/-- No misreading of a document gives back what was printed. -/
theorem sound_of_documentReadsBack {R : Tree → Tree → Prop} (hR : Discerns R) {ds rs : List Tree}
    (h : DocumentReadsBack ds rs) (hds : ∀ d ∈ ds, IsShown d) (hsame : List.Forall₂ R (shown rs) ds) :
    (∀ d ∈ ds, IsSound d) ∧ rs = ds.map reading := by
  induction h with
  | nil => simp
  | cons h hrest ih =>
    have hd := hds _ (List.mem_cons_self ..)
    rw [shown_cons (not_isSuppressed_of_readsBack h hd)] at hsame
    obtain ⟨hhead, htail⟩ := List.forall₂_cons.1 hsame
    obtain ⟨hsound, hr⟩ := sound_of_definitionReadsBack hR h hd.1 hhead
    obtain ⟨hall, hrs⟩ := ih (fun d hd => hds d (List.mem_cons_of_mem _ hd)) htail
    exact ⟨List.forall_mem_cons.2 ⟨hsound, hall⟩, by rw [hr, hrs, List.map_cons]⟩
  | bareOperation hname =>
    -- what came back has a name
    have hword := keyword_ne_empty (hds _ (List.mem_cons_of_mem _ (List.mem_cons_self ..))).1
    rw [shown_cons rfl] at hsame
    rw [← (hR.operation (List.forall₂_cons.1 hsame).1).1] at hname
    simp [Option.filter, hword] at hname
  | emptyUnion =>
    rw [shown_cons rfl] at hsame
    exact absurd (hR.unionType (List.forall₂_cons.1 hsame).1) (by simp)
  | manyInterfaces =>
    rw [shown_cons rfl] at hsame
    exact absurd (hR.objectType (List.forall₂_cons.1 hsame).1) (by simp)

/-- What is equal to definitions that show shows too. -/
theorem shown_eq_self_of_same {ds rs : List Tree} (hds : ∀ d ∈ ds, IsShown d)
    (h : List.Forall₂ (fun r d => r.same d = true) rs ds) : shown rs = rs := by
  have hone : ∀ {r d : Tree}, IsShown d → r.same d = true → r.isSuppressed = false := by
    intro r d hd hsame
    cases r with
    | schema query mutation subscription description =>
      obtain ⟨hd | hd, hshown⟩ := hd
      · cases hd <;> simp [Tree.same, content] at hsame
      · cases hd with
        | schema =>
          simp only [Tree.same, content, Content.same_plain, Content.sameAll, Content.same_text?_iff,
            Bool.and_eq_true, and_true] at hsame
          obtain ⟨-, rfl, rfl, rfl⟩ := hsame
          exact hshown
        | _ => simp [Tree.same, content] at hsame
    | _ => rfl
  induction h with
  | nil => rfl
  | cons hhead _ ih =>
    rw [shown_cons (hone (hds _ (by simp)) hhead), ih fun d hd => hds d (List.mem_cons_of_mem _ hd)]

end GraphDoc
