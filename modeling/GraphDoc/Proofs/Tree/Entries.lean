import GraphDoc.Tree.Entries
import Mathlib.Data.List.Basic

/-!
# Merged entries

Merging keeps each key once. Entries whose keys are distinct already are left alone, and these are the
only ones that keep their number.
-/

namespace GraphDoc

section Merge

variable {κ β : Type} {same : κ → κ → Bool}

/-- Whether no key of the entries comes again later on. -/
def DistinctKeys (same : κ → κ → Bool) (entries : List (κ × β)) : Prop :=
  entries.Pairwise fun a b => same a.1 b.1 = false

/-- A new key is put at the end. -/
theorem putEntry_of_new {key : κ} {entries : List (κ × β)} (h : ∀ e ∈ entries, same e.1 key = false)
    (value : β) : putEntry same key value entries = entries ++ [(key, value)] := by
  induction entries with
  | nil => rfl
  | cons e rest ih =>
    obtain ⟨k, v⟩ := e
    have hk : same k key = false := h (k, v) (by simp)
    rw [putEntry, hk, if_neg Bool.false_ne_true, ih fun e he => h e (List.mem_cons_of_mem _ he),
      List.cons_append]

/-- An old key keeps its place. -/
theorem keys_putEntry_of_old {key : κ} {entries : List (κ × β)}
    (h : ¬∀ e ∈ entries, same e.1 key = false) (value : β) :
    (putEntry same key value entries).map (·.1) = entries.map (·.1) := by
  induction entries with
  | nil => exact absurd (by simp) h
  | cons e rest ih =>
    obtain ⟨k, v⟩ := e
    rw [putEntry]
    split
    · rfl
    · next hk =>
      have hrest : ¬∀ e ∈ rest, same e.1 key = false := by
        intro hall
        refine h fun e he => ?_
        rcases List.mem_cons.1 he with rfl | he
        · simpa using hk
        · exact hall e he
      rw [List.map_cons, ih hrest, List.map_cons]

theorem mem_putEntry {key : κ} {value : β} {entries : List (κ × β)} {e : κ × β}
    (h : e ∈ putEntry same key value entries) :
    (e.1 = key ∨ ∃ v, (e.1, v) ∈ entries) ∧ (e.2 = value ∨ ∃ k, (k, e.2) ∈ entries) := by
  induction entries with
  | nil =>
    rw [putEntry, List.mem_singleton] at h
    subst h
    exact ⟨.inl rfl, .inl rfl⟩
  | cons f rest ih =>
    obtain ⟨k, v⟩ := f
    rw [putEntry] at h
    split at h
    · rcases List.mem_cons.1 h with rfl | h
      · exact ⟨.inr ⟨v, by simp⟩, .inl rfl⟩
      · exact ⟨.inr ⟨e.2, List.mem_cons_of_mem _ h⟩, .inr ⟨e.1, List.mem_cons_of_mem _ h⟩⟩
    · rcases List.mem_cons.1 h with rfl | h
      · exact ⟨.inr ⟨v, by simp⟩, .inr ⟨k, by simp⟩⟩
      · obtain ⟨hkey, hvalue⟩ := ih h
        refine ⟨hkey.imp_right ?_, hvalue.imp_right ?_⟩
        · rintro ⟨v, hv⟩
          exact ⟨v, List.mem_cons_of_mem _ hv⟩
        · rintro ⟨k, hk⟩
          exact ⟨k, List.mem_cons_of_mem _ hk⟩

/-! ## A run of entries -/

/-- The entries with further ones set one after the other. -/
private def putEntries (same : κ → κ → Bool) (entries further : List (κ × β)) : List (κ × β) :=
  further.foldl (fun merged e => putEntry same e.1 e.2 merged) entries

private theorem putEntries_cons (entries further : List (κ × β)) (e : κ × β) :
    putEntries same entries (e :: further) =
      putEntries same (putEntry same e.1 e.2 entries) further := rfl

private theorem distinctKeys_putEntries (further : List (κ × β)) {entries : List (κ × β)}
    (h : DistinctKeys same entries) : DistinctKeys same (putEntries same entries further) := by
  induction further generalizing entries with
  | nil => exact h
  | cons e further ih =>
    rw [putEntries_cons]
    refine ih ?_
    by_cases hnew : ∀ f ∈ entries, same f.1 e.1 = false
    · rw [putEntry_of_new hnew, DistinctKeys, List.pairwise_append]
      refine ⟨h, List.pairwise_singleton _ _, fun a ha b hb => ?_⟩
      rw [List.mem_singleton.1 hb]
      exact hnew a ha
    · -- only the keys matter, and they are the same
      have hkeys := keys_putEntry_of_old hnew e.2
      have hmap : (entries.map (·.1)).Pairwise fun a b => same a b = false := List.pairwise_map.2 h
      rw [← hkeys] at hmap
      exact List.pairwise_map.1 hmap

private theorem putEntries_of_distinctKeys (further : List (κ × β)) {entries : List (κ × β)}
    (h : DistinctKeys same (entries ++ further)) :
    putEntries same entries further = entries ++ further := by
  induction further generalizing entries with
  | nil => rw [List.append_nil]; rfl
  | cons e further ih =>
    have hnew : ∀ f ∈ entries, same f.1 e.1 = false := by
      intro f hf
      exact (List.pairwise_append.1 h).2.2 f hf e (by simp)
    rw [putEntries_cons, putEntry_of_new hnew]
    have hassoc : entries ++ e :: further = entries ++ [e] ++ further := by simp
    rw [hassoc] at h ⊢
    exact ih h

/-- As long as no entry takes an old place, the entries are put behind each other. -/
private theorem putEntries_length (further entries : List (κ × β)) :
    (putEntries same entries further).length ≤ entries.length + further.length ∧
      ((putEntries same entries further).length = entries.length + further.length →
        putEntries same entries further = entries ++ further) := by
  induction further generalizing entries with
  | nil => exact ⟨Nat.le_refl _, fun _ => by rw [List.append_nil]; rfl⟩
  | cons e further ih =>
    rw [putEntries_cons]
    obtain ⟨hle, heq⟩ := ih (putEntry same e.1 e.2 entries)
    by_cases hnew : ∀ f ∈ entries, same f.1 e.1 = false
    · rw [putEntry_of_new hnew, List.length_append, List.length_singleton] at *
      refine ⟨by rw [List.length_cons]; omega, fun h => ?_⟩
      rw [heq (by rw [List.length_cons] at h; omega), List.append_assoc, List.singleton_append]
    · have hlen : (putEntry same e.1 e.2 entries).length = entries.length := by
        have hkeys := congrArg List.length (keys_putEntry_of_old hnew e.2)
        simpa using hkeys
      rw [hlen] at hle
      rw [List.length_cons]
      exact ⟨by omega, fun h => by omega⟩

private theorem mem_putEntries (further : List (κ × β)) {entries : List (κ × β)} {e : κ × β}
    (h : e ∈ putEntries same entries further) :
    (∃ v, (e.1, v) ∈ entries ++ further) ∧ ∃ k, (k, e.2) ∈ entries ++ further := by
  induction further generalizing entries with
  | nil =>
    rw [List.append_nil]
    exact ⟨⟨e.2, h⟩, ⟨e.1, h⟩⟩
  | cons f further ih =>
    rw [putEntries_cons] at h
    obtain ⟨⟨v, hv⟩, ⟨k, hk⟩⟩ := ih h
    constructor
    · rcases List.mem_append.1 hv with hv | hv
      · rcases (mem_putEntry hv).1 with hkey | ⟨w, hw⟩
        · exact ⟨f.2, by simp [show e.1 = f.1 from hkey]⟩
        · exact ⟨w, by simp [hw]⟩
      · exact ⟨v, by simp [hv]⟩
    · rcases List.mem_append.1 hk with hk | hk
      · rcases (mem_putEntry hk).2 with hvalue | ⟨w, hw⟩
        · exact ⟨f.1, by simp [show e.2 = f.2 from hvalue]⟩
        · exact ⟨w, by simp [hw]⟩
      · exact ⟨k, by simp [hk]⟩

/-! ## Merging -/

/-- Merged entries have distinct keys. -/
theorem distinctKeys_mergeEntries (entries : List (κ × β)) :
    DistinctKeys same (mergeEntries same entries) :=
  distinctKeys_putEntries entries List.Pairwise.nil

/-- Entries with distinct keys are merged already. -/
theorem mergeEntries_eq_self {entries : List (κ × β)} (h : DistinctKeys same entries) :
    mergeEntries same entries = entries :=
  putEntries_of_distinctKeys entries h

theorem mergeEntries_mergeEntries (entries : List (κ × β)) :
    mergeEntries same (mergeEntries same entries) = mergeEntries same entries :=
  mergeEntries_eq_self (distinctKeys_mergeEntries entries)

/-- Entries that keep their number have distinct keys. -/
theorem distinctKeys_of_length {entries : List (κ × β)}
    (h : (mergeEntries same entries).length = entries.length) : DistinctKeys same entries := by
  have heq : mergeEntries same entries = entries :=
    (putEntries_length entries []).2 (by rw [List.length_nil, Nat.zero_add]; exact h)
  rw [← heq]
  exact distinctKeys_mergeEntries entries

/-- Merging brings in no key and no value. -/
theorem mem_mergeEntries {entries : List (κ × β)} {e : κ × β} (h : e ∈ mergeEntries same entries) :
    (∃ v, (e.1, v) ∈ entries) ∧ ∃ k, (k, e.2) ∈ entries :=
  mem_putEntries entries h

/-- Merging commutes with a change of keys and values that keeps keys apart. -/
theorem mergeEntries_map {κ' β' : Type} {same' : κ' → κ' → Bool} (f : κ → κ') (g : β → β')
    (hf : ∀ a b, same' (f a) (f b) = same a b) (entries : List (κ × β)) :
    mergeEntries same' (entries.map fun e => (f e.1, g e.2)) =
      (mergeEntries same entries).map fun e => (f e.1, g e.2) := by
  have hput : ∀ key value (es : List (κ × β)),
      putEntry same' (f key) (g value) (es.map fun e => (f e.1, g e.2)) =
        (putEntry same key value es).map fun e => (f e.1, g e.2) := by
    intro key value es
    induction es with
    | nil => rfl
    | cons e es ih =>
      obtain ⟨k, v⟩ := e
      rw [List.map_cons, putEntry, putEntry, hf]
      split
      · rfl
      · rw [ih, List.map_cons]
  -- one entry after the other, from any start
  have hrun : ∀ further es : List (κ × β),
      putEntries same' (es.map fun e => (f e.1, g e.2)) (further.map fun e => (f e.1, g e.2)) =
        (putEntries same es further).map fun e => (f e.1, g e.2) := by
    intro further
    induction further with
    | nil => exact fun es => rfl
    | cons e further ih =>
      intro es
      rw [List.map_cons, putEntries_cons, hput, ih, putEntries_cons]
  exact hrun entries []

/-- Merging looks at no value. -/
theorem mergeEntries_mapValues {β' : Type} (g : β → β') (entries : List (κ × β)) :
    mergeEntries same (entries.map fun e => (e.1, g e.2)) =
      (mergeEntries same entries).map fun e => (e.1, g e.2) :=
  mergeEntries_map id g (fun _ _ => rfl) entries

end Merge

/-- Texts are told apart as keys as they are by themselves. -/
theorem mergeEntries_str {β : Type} (entries : List (String × β)) :
    mergeEntries Key.same (entries.map fun e => (Key.str e.1, e.2)) =
      (mergeEntries (· == ·) entries).map fun e => (Key.str e.1, e.2) :=
  mergeEntries_map Key.str id (fun _ _ => rfl) entries

end GraphDoc
