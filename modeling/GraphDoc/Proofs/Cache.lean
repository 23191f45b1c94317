import GraphDoc.Signature
import Mathlib.Data.Finset.Card

/-!
# Runs of a cache

A cache answers requests one after the other. What it holds after a run is settled by the texts of the trees that
were added: every text stands under its digest, and of texts with one digest the first stays.
-/

namespace GraphDoc

namespace Cache

/-- A text that was added is found under its digest. -/
theorem contains_insert (cache : Cache) (text : String) : (cache.insert text).contains (Sha256.hex text) = true := by
  rw [insert]
  split_ifs with hstored
  · exact hstored
  · simp [contains, get?]

/-- A text is stored once. -/
theorem insert_insert (cache : Cache) (text : String) : (cache.insert text).insert text = cache.insert text := by
  have hstored := cache.contains_insert text
  generalize cache.insert text = stored at hstored
  rw [insert, if_pos hstored]

/-- Adding a tree that prints inserts its text. -/
theorem add_eq {t : Tree} {text : String} (h : t.render "" = .ok text) (cache : Cache) :
    cache.add t = .ok (Sha256.hex text, cache.insert text) := by
  rw [add, h]
  rfl

/-! ## Requests and answers -/

/-- What a cache can be asked. -/
inductive Request
  | add (t : Tree)
  | get (signature : String)
  | has (signature : String)

/-- What a cache answers. -/
inductive Answer
  | added (signature : String)
  | failed (error : RenderError)
  | text (found : Option String)
  | known (stored : Bool)

/-- The answer to a request, and the cache after it. -/
def serve (cache : Cache) : Request → Answer × Cache
  | .add t =>
    match cache.add t with
    | .ok (signature, next) => (.added signature, next)
    | .error e => (.failed e, cache)
  | .get signature => (.text (cache.get? signature), cache)
  | .has signature => (.known (cache.contains signature), cache)

/-- The answers to requests in a row, and the cache after them. -/
def serveAll (cache : Cache) : List Request → List Answer × Cache
  | [] => ([], cache)
  | request :: rest =>
    let served := cache.serve request
    let others := served.2.serveAll rest
    (served.1 :: others.1, others.2)

/-- The signature that an answer gives to a tree that was added. -/
def Answer.signature? : Answer → Option String
  | .added signature => some signature
  | _ => none

/-- The signatures that were given in a run on an empty cache. -/
def given (requests : List Request) : List String := (serveAll {} requests).1.filterMap Answer.signature?

/-- The cache after a run on an empty one. -/
def after (requests : List Request) : Cache := (serveAll {} requests).2

/-- The text that a request asks to store. -/
def Request.text? : Request → Option String
  | .add t => (t.render "").toOption
  | _ => none

theorem serve_add {t : Tree} {text : String} (h : t.render "" = .ok text) (cache : Cache) :
    cache.serve (.add t) = (.added (Sha256.hex text), cache.insert text) := by
  rw [serve, add_eq h]

/-- A tree that does not print leaves the cache as it was. -/
theorem serve_add_error {t : Tree} {e : RenderError} (h : t.render "" = .error e) (cache : Cache) :
    cache.serve (.add t) = (.failed e, cache) := by
  have hadd : cache.add t = .error e := by
    rw [add, h]
    rfl
  rw [serve, hadd]

/-- What a request does: it stores the text that it brings, under the signature that it is answered with, or it
changes nothing. -/
theorem serve_cases (cache : Cache) (request : Request) :
    (∃ text, request.text? = some text ∧ cache.serve request = (.added (Sha256.hex text), cache.insert text)) ∨
      (request.text? = none ∧ (cache.serve request).1.signature? = none ∧ (cache.serve request).2 = cache) := by
  cases request with
  | add t =>
    cases hrender : t.render "" with
    | ok text => exact .inl ⟨text, by rw [Request.text?, hrender]; rfl, serve_add hrender cache⟩
    | error e =>
      rw [serve_add_error hrender]
      exact .inr ⟨by rw [Request.text?, hrender]; rfl, rfl, rfl⟩
  | get signature => exact .inr ⟨rfl, rfl, rfl⟩
  | has signature => exact .inr ⟨rfl, rfl, rfl⟩

/-- A run stores the texts that its requests bring, in order, and is answered with their digests. -/
theorem serveAll_eq (cache : Cache) (requests : List Request) :
    (cache.serveAll requests).2 = (requests.filterMap Request.text?).foldl insert cache ∧
      (cache.serveAll requests).1.filterMap Answer.signature? =
        (requests.filterMap Request.text?).map Sha256.hex := by
  induction requests generalizing cache with
  | nil => exact ⟨rfl, rfl⟩
  | cons request rest ih =>
    obtain ⟨text, htext, hserve⟩ | ⟨htext, hanswer, hkept⟩ := cache.serve_cases request
    · obtain ⟨hlast, hgiven⟩ := ih (cache.insert text)
      simp only [serveAll, hserve, List.filterMap_cons_some htext]
      have hanswer : Answer.signature? (.added (Sha256.hex text)) = some (Sha256.hex text) := rfl
      refine ⟨hlast, ?_⟩
      rw [List.filterMap_cons_some hanswer, hgiven, List.map_cons]
    · obtain ⟨hlast, hgiven⟩ := ih cache
      simp only [serveAll, hkept, List.filterMap_cons_none htext]
      refine ⟨hlast, ?_⟩
      rw [List.filterMap_cons_none hanswer, hgiven]

/-- The cache after a run is settled by the texts of the trees that were added, in their order. -/
theorem after_eq (requests : List Request) : after requests = (requests.filterMap Request.text?).foldl insert {} :=
  (serveAll_eq {} requests).1

/-- The signatures that a run gives out are the digests of these texts. -/
theorem given_eq (requests : List Request) : given requests = (requests.filterMap Request.text?).map Sha256.hex :=
  (serveAll_eq {} requests).2

/-- The texts of a run are those of the trees that print. -/
theorem mem_texts {requests : List Request} {text : String} :
    text ∈ requests.filterMap Request.text? ↔ ∃ t, .add t ∈ requests ∧ t.render "" = .ok text := by
  rw [List.mem_filterMap]
  constructor
  · rintro ⟨request, hmem, htext⟩
    cases request with
    | add t =>
      refine ⟨t, hmem, ?_⟩
      cases hrender : t.render "" with
      | ok found =>
        rw [Request.text?, hrender] at htext
        rw [Option.some.inj htext]
      | error e =>
        rw [Request.text?, hrender] at htext
        cases htext
    | get signature => cases htext
    | has signature => cases htext
  · rintro ⟨t, hmem, hrender⟩
    exact ⟨.add t, hmem, by rw [Request.text?, hrender]; rfl⟩

/-! ## What is stored -/

/-- Storing a text does not touch what is stored already. -/
theorem get?_insert (cache : Cache) (text signature : String) :
    (cache.insert text).get? signature =
      (cache.get? signature).or (if Sha256.hex text = signature then some text else none) := by
  rw [insert]
  split_ifs with hstored heq heq
  · -- the digest is taken, so there is an older text
    rw [heq, contains] at hstored
    rw [Option.or_of_isSome hstored]
  · simp
  · simp [get?, List.lookup_append, heq]
  · have hne : (signature == Sha256.hex text) = false := by simpa using Ne.symm heq
    simp [get?, List.lookup_append, List.lookup_cons, hne]

/-- Of the texts with one digest, that which is stored is the oldest. -/
theorem get?_foldl_insert (cache : Cache) (texts : List String) (signature : String) :
    (texts.foldl insert cache).get? signature =
      (cache.get? signature).or (texts.find? fun text => Sha256.hex text = signature) := by
  induction texts generalizing cache with
  | nil => simp
  | cons text texts ih =>
    rw [List.foldl_cons, ih, get?_insert, Option.or_assoc, List.find?_cons]
    by_cases heq : Sha256.hex text = signature <;> simp [heq]

/-- What is found under a signature is the first text with that digest. -/
theorem get?_after (requests : List Request) (signature : String) :
    (after requests).get? signature =
      (requests.filterMap Request.text?).find? fun text => Sha256.hex text = signature := by
  rw [after_eq, get?_foldl_insert]
  rfl

/-- A cache in which every text stands under its digest, and no digest twice. -/
structure IsSound (cache : Cache) : Prop where
  digests : ∀ entry ∈ cache.entries, entry.1 = Sha256.hex entry.2
  distinct : (cache.entries.map Prod.fst).Nodup

theorem contains_iff_mem {cache : Cache} {signature : String} :
    cache.contains signature = true ↔ signature ∈ cache.entries.map Prod.fst := by
  rw [contains, get?, List.lookup_isSome_iff]
  simp

/-- An insertion keeps a cache sound. -/
theorem IsSound.insert {cache : Cache} (h : cache.IsSound) (text : String) : (cache.insert text).IsSound := by
  rw [Cache.insert]
  split_ifs with hstored
  · exact h
  · have hnew : Sha256.hex text ∉ cache.entries.map Prod.fst := by rwa [← contains_iff_mem]
    constructor
    · intro entry hentry
      rcases List.mem_append.1 hentry with hold | hlast
      · exact h.digests entry hold
      · rw [List.mem_singleton.1 hlast]
    · simp only [List.map_append, List.map_cons, List.map_nil]
      rw [← List.concat_eq_append]
      exact h.distinct.concat hnew

/-- Every run leaves a sound cache. -/
theorem isSound_after (requests : List Request) : (after requests).IsSound := by
  have hrun : ∀ (texts : List String) (cache : Cache), cache.IsSound → (texts.foldl Cache.insert cache).IsSound := by
    intro texts
    induction texts with
    | nil => exact fun _ h => h
    | cons text texts ih => exact fun cache h => ih _ (h.insert text)
  rw [after_eq]
  exact hrun _ _ ⟨by simp, by simp⟩

/-- The signatures that are stored are those that were given. -/
theorem contains_after (requests : List Request) (signature : String) :
    (after requests).contains signature = true ↔ signature ∈ given requests := by
  rw [contains, get?_after, List.find?_isSome, given_eq, List.mem_map]
  simp

/-- The cache has one entry for each signature that was given out. -/
theorem size_after (requests : List Request) : (after requests).size = (given requests).toFinset.card := by
  have hkeys : ((after requests).entries.map Prod.fst).toFinset = (given requests).toFinset := by
    ext signature
    rw [List.mem_toFinset, List.mem_toFinset, ← contains_iff_mem, contains_after]
  rw [← hkeys, List.toFinset_card_of_nodup (isSound_after requests).distinct, List.length_map]
  rfl

/-- The text of the first addition that gave a signature stays. -/
theorem get?_after_of_first {before rest : List Request} {t : Tree} {text : String} (h : t.render "" = .ok text)
    (hfirst : Sha256.hex text ∉ given before) :
    (after (before ++ .add t :: rest)).get? (Sha256.hex text) = some text := by
  have htext : Request.text? (.add t) = some text := by rw [Request.text?, h]; rfl
  have hnone : (before.filterMap Request.text?).find? (fun u => Sha256.hex u = Sha256.hex text) = none := by
    rw [List.find?_eq_none]
    intro u hu heq
    rw [given_eq] at hfirst
    exact hfirst (List.mem_map.2 ⟨u, hu, by simpa using heq⟩)
  rw [get?_after, List.filterMap_append, List.filterMap_cons_some htext, List.find?_append, hnone]
  simp

/-- What is stored after an addition is the text that was added, unless a different text with the same digest was
added before. -/
theorem get?_insert_after (requests : List Request) (text : String) :
    ((after requests).insert text).get? (Sha256.hex text) = some text ∨
      ∃ u other, .add u ∈ requests ∧ u.render "" = .ok other ∧ other ≠ text ∧ Sha256.hex other = Sha256.hex text := by
  rw [get?_insert, if_pos rfl]
  cases hold : (after requests).get? (Sha256.hex text) with
  | none => exact .inl rfl
  | some other =>
    rw [get?_after] at hold
    obtain ⟨u, hu, hrender⟩ := mem_texts.1 (List.mem_of_find?_eq_some hold)
    by_cases heq : other = text
    · exact .inl (by rw [heq]; rfl)
    · exact .inr ⟨u, other, hu, hrender, heq, by simpa using List.find?_some hold⟩

/-- The signatures that are given do not depend on the order of the requests. -/
theorem mem_given_of_perm {requests others : List Request} (h : requests.Perm others) (signature : String) :
    signature ∈ given requests ↔ signature ∈ given others := by
  rw [given_eq, given_eq]
  exact ((h.filterMap Request.text?).map Sha256.hex).mem_iff

/-- The state of a cache after any run of requests: every text stands under its digest; there are as many as
different signatures were given; a signature is known if it was given, and the text of the first addition that gave
it stays; only an addition that succeeds changes anything, and it stores its own text unless a different text has
taken the digest; and the order of the requests makes no difference to the signatures. -/
theorem run_invariant (requests : List Request) :
    let cache := after requests
    (∀ entry ∈ cache.entries, entry.1 = Sha256.hex entry.2) ∧
      cache.size = (given requests).toFinset.card ∧
      (∀ s, cache.serve (.has s) = (.known (decide (s ∈ given requests)), cache)) ∧
      (∀ s, cache.serve (.get s) = (.text (cache.get? s), cache) ∧
        ((cache.get? s).isSome ↔ s ∈ given requests)) ∧
      (∀ before t rest text, requests = before ++ .add t :: rest → t.render "" = .ok text →
        Sha256.hex text ∉ given before → cache.get? (Sha256.hex text) = some text) ∧
      (∀ t e, t.render "" = .error e → cache.serve (.add t) = (.failed e, cache)) ∧
      (∀ t text, t.render "" = .ok text → ∃ next, cache.serve (.add t) = (.added (Sha256.hex text), next) ∧
        t.signature = .ok (Sha256.hex text) ∧
        (next.get? (Sha256.hex text) = some text ∨ ∃ u other, .add u ∈ requests ∧ u.render "" = .ok other ∧
          other ≠ text ∧ Sha256.hex other = Sha256.hex text)) ∧
      ∀ others : List Request, others.Perm requests →
        (after others).size = cache.size ∧ ∀ s, (after others).contains s = cache.contains s := by
  intro cache
  refine ⟨(isSound_after requests).digests, size_after requests, fun s => ?_, fun s => ⟨rfl, contains_after requests s⟩,
    ?_, fun t e h => serve_add_error h cache, fun t text h => ?_, fun others hperm => ⟨?_, fun s => ?_⟩⟩
  · have hknown : cache.contains s = decide (s ∈ given requests) := by
      rw [Bool.eq_iff_iff, contains_after, decide_eq_true_iff]
    rw [serve, hknown]
  · rintro before t rest text rfl h hfirst
    exact get?_after_of_first h hfirst
  · exact ⟨_, serve_add h cache, by rw [Tree.signature, h]; rfl, get?_insert_after requests text⟩
  · rw [size_after, size_after]
    congr 1
    ext s
    rw [List.mem_toFinset, List.mem_toFinset, mem_given_of_perm hperm]
  · rw [Bool.eq_iff_iff, contains_after, contains_after, mem_given_of_perm hperm]

end Cache

end GraphDoc
