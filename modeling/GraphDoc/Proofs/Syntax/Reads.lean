import GraphDoc.Proofs.Outcome
import GraphDoc.Proofs.Syntax.Ensures
import GraphDoc.Tree.OfSyntax

/-!
# Reading written phrases

`Reads p conv bad cs r` says that the parser `p` takes exactly the characters `cs`, and that `conv`
makes `r` of what it reads. What stands behind must be clear: it starts with a boundary, and its first
token is none of the punctuators `bad`, which would go on with the phrase.

The rules follow the steps of a parser from left to right. A series is a list of phrases with blanks
around them.
-/

namespace GraphDoc

open GraphDoc.Parser
open Syntax (Converted)
open Tape (ofChars)

/-! ## What stands behind a phrase -/

/-- Whether a token stands in front that is none of the given punctuators. -/
def Front (bad : List Punct) (k : List Char) : Prop :=
  ∃ t, (ofChars k).front = some t ∧ ∀ m ∈ bad, t ≠ .punct m

/-- Whether a phrase that does not go on with one of the given punctuators ends here. -/
def Clear (bad : List Punct) (k : List Char) : Prop := Boundary k ∧ Front bad k

theorem Front.mono {bad bad' : List Punct} {k : List Char} (h : Front bad k) (hsub : bad' ⊆ bad) :
    Front bad' k := by
  obtain ⟨t, ht, hne⟩ := h
  exact ⟨t, ht, fun m hm => hne m (hsub hm)⟩

theorem Clear.mono {bad bad' : List Punct} {k : List Char} (h : Clear bad k) (hsub : bad' ⊆ bad) :
    Clear bad' k :=
  ⟨h.1, h.2.mono hsub⟩

theorem clear_nil (bad : List Punct) : Clear bad [] :=
  ⟨boundary_nil, .endOfSource, by rw [Tape.ofChars_nil]; rfl, by simp⟩

theorem isBoundary_of_isIgnored {c : Char} (h : Tape.isIgnored c = true) : isBoundary c = true := by
  simp only [Tape.isIgnored, Bool.or_eq_true, beq_iff_eq] at h
  rcases h with ((((h | h) | h) | h) | h) | h <;> subst h <;> decide

theorem isBoundary_of_punct {c : Char} {m : Punct} (h : Punct.ofChar? c = some m) :
    isBoundary c = true := by
  by_contra hc
  have hne : ∀ d, isBoundary d = true → c ≠ d := by
    rintro d hd rfl
    exact hc hd
  unfold Punct.ofChar? at h
  repeat rw [if_neg (hne _ (by decide))] at h
  cases h

theorem front_ignored {c : Char} (hc : Tape.isIgnored c = true) (bad : List Punct) (k : List Char) :
    Front bad (c :: k) ↔ Front bad k := by
  rw [Front, Front, Tape.ofChars_ignored hc]

theorem clear_ignored {c : Char} (hc : Tape.isIgnored c = true) {bad : List Punct} {k : List Char}
    (h : Front bad k) : Clear bad (c :: k) :=
  ⟨(boundary_cons c k).2 (isBoundary_of_isIgnored hc), (front_ignored hc bad k).2 h⟩

theorem clear_punct {c : Char} {m : Punct} (hc : Punct.ofChar? c = some m) {bad : List Punct}
    (hm : m ∉ bad) (k : List Char) : Clear bad (c :: k) := by
  refine ⟨(boundary_cons c k).2 (isBoundary_of_punct hc), .punct m, ?_, ?_⟩
  · rw [Tape.ofChars_punct hc]
    rfl
  · rintro m' hm' h
    cases h
    exact hm hm'

theorem front_name {s : String} (hs : isName s = true) (bad : List Punct) {k : List Char}
    (hk : Boundary k) : Front bad (s.toList ++ k) := by
  refine ⟨.name s, ?_, by simp⟩
  rw [Tape.ofChars_name hs hk]
  rfl

theorem front_spread {bad : List Punct} (h : Punct.spread ∉ bad) (k : List Char) :
    Front bad ('.' :: '.' :: '.' :: k) := by
  refine ⟨.punct .spread, ?_, ?_⟩
  · rw [Tape.ofChars_spread]
    rfl
  · rintro m hm heq
    cases heq
    exact h hm

/-! ## Reading -/

variable {α β γ : Type}

/-- Whether a parser reads the given characters, with the given result, wherever what stands behind is
clear. -/
def Reads (p : Parser α) (conv : α → Converted β) (bad : List Punct) (cs : List Char) (r : β) : Prop :=
  ∀ k, Clear bad k → ∃ x, p (ofChars (cs ++ k)) = .ok (x, ofChars k) ∧ conv x = .ok r

/-- Whether the first token of the given characters satisfies the test, wherever what stands behind is
clear. -/
def Starts (start : Token → Prop) (bad : List Punct) (cs : List Char) : Prop :=
  ∀ k, Clear bad k → ∃ t, (ofChars (cs ++ k)).front = some t ∧ start t

namespace Reads

variable {p : Parser α} {f : α → Parser β} {conv : α → Converted γ} {conv' : β → Converted γ}
  {bad : List Punct} {cs : List Char} {r : γ}

theorem mono {bad' : List Punct} (h : Reads p conv bad cs r) (hsub : bad ⊆ bad') :
    Reads p conv bad' cs r :=
  fun k hk => h k (hk.mono hsub)

/-- What is made of a phrase may be made into something else. -/
theorem imp {δ : Type} {conv₂ : α → Converted δ} {r₂ : δ} (h : Reads p conv bad cs r)
    (hconv : ∀ x, conv x = .ok r → conv₂ x = .ok r₂) : Reads p conv₂ bad cs r₂ := by
  intro k hk
  obtain ⟨x, hrun, hx⟩ := h k hk
  exact ⟨x, hrun, hconv x hx⟩

/-- Two phrases behind each other. -/
theorem bind {γ' : Type} {conv₁ : α → Converted γ'} {bad₁ : List Punct} {ds : List Char} {r₁ : γ'}
    (hp : Reads p conv₁ bad₁ cs r₁) (hclear : ∀ k, Clear bad k → Clear bad₁ (ds ++ k))
    (hf : ∀ x, conv₁ x = .ok r₁ → Reads (f x) conv' bad ds r) : Reads (p >>= f) conv' bad (cs ++ ds) r := by
  intro k hk
  rw [List.append_assoc]
  obtain ⟨x, hrun, hx⟩ := hp (ds ++ k) (hclear k hk)
  rw [bind_run hrun]
  exact hf x hx k hk

theorem pure {x : β} (h : conv' x = .ok r) : Reads (Pure.pure x) conv' bad [] r :=
  fun _ _ => ⟨x, rfl, h⟩

theorem map {g : α → β} (h : Reads p (fun x => conv' (g x)) bad cs r) : Reads (g <$> p) conv' bad cs r := by
  intro k hk
  obtain ⟨x, hrun, hx⟩ := h k hk
  exact ⟨g x, map_run hrun g, hx⟩

theorem ignored {c : Char} (hc : Tape.isIgnored c = true) (h : Reads p conv bad cs r) :
    Reads p conv bad (c :: cs) r := by
  intro k hk
  rw [List.cons_append, Tape.ofChars_ignored hc]
  exact h k hk

theorem space (h : Reads p conv bad cs r) : Reads p conv bad (' ' :: cs) r := h.ignored (by decide)

theorem ignoredBehind {c : Char} (hc : Tape.isIgnored c = true) (h : Reads p conv bad cs r) :
    Reads p conv bad (cs ++ [c]) r := by
  intro k hk
  rw [List.append_assoc, ← Tape.ofChars_ignored hc k]
  exact h (c :: k) (clear_ignored hc hk.2)

theorem expect {f : Unit → Parser β} {c : Char} {m : Punct} (hc : Punct.ofChar? c = some m)
    (h : Reads (f ()) conv' bad cs r) : Reads (Parser.expect m >>= f) conv' bad (c :: cs) r := by
  intro k hk
  rw [List.cons_append, Tape.ofChars_punct hc, bind_run (expect_run ..)]
  exact h k hk

/-- A punctuator that is there is skipped. -/
theorem skip {f : Bool → Parser β} {c : Char} {m : Punct} (hc : Punct.ofChar? c = some m)
    (h : Reads (f true) conv' bad cs r) : Reads (Parser.skip m >>= f) conv' bad (c :: cs) r := by
  intro k hk
  rw [List.cons_append, Tape.ofChars_punct hc, bind_run (skip_run ..)]
  exact h k hk

/-- A punctuator that is not there is passed over. -/
theorem pass {f : Bool → Parser β} {m : Punct} (hclear : ∀ k, Clear bad k → Front [m] (cs ++ k))
    (h : Reads (f false) conv' bad cs r) : Reads (Parser.skip m >>= f) conv' bad cs r := by
  intro k hk
  obtain ⟨t, hfront, ht⟩ := hclear k hk
  rw [bind_run (skip_pass hfront (ht m (by simp)))]
  exact h k hk

theorem name {f : String → Parser β} {s : String} (hs : isName s = true)
    (hclear : ∀ k, Clear bad k → Boundary (cs ++ k)) (h : Reads (f s) conv' bad cs r) :
    Reads (Parser.name >>= f) conv' bad (s.toList ++ cs) r := by
  intro k hk
  rw [List.append_assoc, Tape.ofChars_name hs (hclear k hk), bind_run (name_run ..)]
  exact h k hk

/-- A look at the token in front. -/
theorem peek {f : Token → Parser β} {start : Token → Prop} (hstart : Starts start bad cs)
    (h : ∀ t, start t → Reads (f t) conv' bad cs r) : Reads (Parser.peek >>= f) conv' bad cs r := by
  intro k hk
  obtain ⟨t, hfront, ht⟩ := hstart k hk
  rw [bind_run (peek_run hfront)]
  exact h t ht k hk

end Reads

/-! ## Blanks -/

/-- Whether the characters are all ignored. -/
def IsBlank (cs : List Char) : Prop := ∀ c ∈ cs, Tape.isIgnored c = true

theorem ofChars_blank {cs : List Char} (h : IsBlank cs) (k : List Char) : ofChars (cs ++ k) = ofChars k := by
  induction cs with
  | nil => rfl
  | cons c cs ih =>
    rw [List.cons_append, Tape.ofChars_ignored (h c (by simp))]
    exact ih fun d hd => h d (List.mem_cons_of_mem _ hd)

theorem front_blank {cs : List Char} (h : IsBlank cs) (bad : List Punct) (k : List Char) :
    Front bad (cs ++ k) ↔ Front bad k := by
  rw [Front, Front, ofChars_blank h]

theorem clear_blank {cs : List Char} (h : IsBlank cs) {bad : List Punct} {k : List Char}
    (hk : Clear bad k) : Clear bad (cs ++ k) := by
  cases cs with
  | nil => exact hk
  | cons c cs =>
    have hcs : IsBlank cs := fun d hd => h d (List.mem_cons_of_mem _ hd)
    exact clear_ignored (h c (by simp)) ((front_blank hcs bad k).2 hk.2)

theorem Reads.blank {p : Parser α} {conv : α → Converted γ} {bad : List Punct} {bs cs : List Char} {r : γ}
    (hb : IsBlank bs) (h : Reads p conv bad cs r) : Reads p conv bad (bs ++ cs) r := by
  intro k hk
  rw [List.append_assoc, ofChars_blank hb]
  exact h k hk

/-! ## Series -/

/-- Phrases in a row: blanks in front of the first, other blanks in front of the others, and more behind
each. -/
def series {τ : Type} (text : τ → List Char) (first glue post : List Char) : List τ → List Char
  | [] => []
  | t :: rest => first ++ (text t ++ (post ++ series text glue glue post rest))

/-- Whether the given things can be read in a row. Their first tokens satisfy `start`, and that is how
`test` tells them from what ends the row. -/
structure IsSeries {τ : Type} (item : Parser α) (conv : α → Converted β) (test : Token → Bool)
    (start : Token → Prop) (bad : List Punct) (glue post : List Char) (text : τ → List Char) (res : τ → β)
    (ts : List τ) : Prop where
  one : ∃ P, Ensures 1 item P
  blank_glue : IsBlank glue
  blank_post : IsBlank post
  reads : ∀ t ∈ ts, Reads item conv bad (text t) (res t)
  starts : ∀ t ∈ ts, Starts start bad (text t)
  clear : ∀ tok, start tok → ∀ m ∈ bad, tok ≠ .punct m
  goes : ∀ tok, start tok → test tok = true
  boundary : ∀ t ∈ ts, ∀ k, Boundary (post ++ (glue ++ (text t ++ k)))

namespace IsSeries

variable {τ : Type} {item : Parser α} {conv : α → Converted β} {test : Token → Bool}
  {start : Token → Prop} {bad : List Punct} {glue post : List Char} {text : τ → List Char} {res : τ → β}

theorem tail {t : τ} {ts : List τ} (h : IsSeries item conv test start bad glue post text res (t :: ts)) :
    IsSeries item conv test start bad glue post text res ts :=
  { h with
    reads := fun s hs => h.reads s (List.mem_cons_of_mem _ hs)
    starts := fun s hs => h.starts s (List.mem_cons_of_mem _ hs)
    boundary := fun s hs => h.boundary s (List.mem_cons_of_mem _ hs) }

/-- What stands behind an item of a row is clear. -/
theorem clear_rest {ts : List τ} (h : IsSeries item conv test start bad glue post text res ts)
    {k : List Char} (hk : Clear bad (post ++ k)) :
    Clear bad (post ++ (series text glue glue post ts ++ k)) := by
  induction ts with
  | nil => exact hk
  | cons t ts ih =>
    have hrest := ih h.tail
    have hassoc : post ++ (series text glue glue post (t :: ts) ++ k) =
        post ++ (glue ++ (text t ++ (post ++ (series text glue glue post ts ++ k)))) := by
      simp [series]
    rw [hassoc]
    -- the token in front is the first one of the next item
    refine ⟨h.boundary t (by simp) _, ?_⟩
    rw [front_blank h.blank_post, front_blank h.blank_glue]
    obtain ⟨tok, hfront, htok⟩ := h.starts t (by simp) _ hrest
    exact ⟨tok, hfront, h.clear tok htok⟩

/-- A row is read item by item. -/
theorem run {ts : List τ} (h : IsSeries item conv test start bad glue post text res ts)
    {first : List Char} (hfirst : IsBlank first) {k : List Char} (hk : Clear bad (post ++ k))
    (hstop : ∃ tok, (ofChars k).front = some tok ∧ test tok = false) :
    ∃ xs, itemsWhile test item (ofChars (series text first glue post ts ++ k)) = .ok (xs, ofChars k) ∧
      xs.mapM conv = .ok (ts.map res) := by
  -- on the items; only the first of them has `first` in front, the others have the glue
  induction ts generalizing first with
  | nil =>
    obtain ⟨tok, hfront, htok⟩ := hstop
    exact ⟨[], itemsWhile_stop hfront htok, rfl⟩
  | cons t ts ih =>
    have hassoc : series text first glue post (t :: ts) ++ k =
        first ++ (text t ++ (post ++ (series text glue glue post ts ++ k))) := by
      simp [series]
    have hrest := h.tail.clear_rest hk
    obtain ⟨tok, hfront, htok⟩ := h.starts t (by simp) _ hrest
    obtain ⟨x, hx, hconv⟩ := h.reads t (by simp) _ hrest
    obtain ⟨xs, hxs, hconvs⟩ := ih h.tail h.blank_glue
    obtain ⟨P, hone⟩ := h.one
    refine ⟨x :: xs, ?_, ?_⟩
    · rw [hassoc, ofChars_blank hfirst,
        itemsWhile_step hone (Tape.lexical_ofChars _) hfront (h.goes tok htok), bind_run hx,
        ofChars_blank h.blank_post, bind_run hxs]
      rfl
    · rw [List.mapM_cons, hconv, hconvs]
      rfl

end IsSeries

/-! ## Bracketed lists -/

section Brackets

variable {τ : Type} {item : Parser α} {conv : α → Converted β} {start : Token → Prop}
  {bad : List Punct} {glue post first last : List Char} {text : τ → List Char} {res : τ → β}
  {opening close : Punct} {o c : Char} {ts : List τ}

/-- The written form of a bracketed list. -/
def bracketed (o c : Char) (last body : List Char) : List Char := o :: (body ++ (last ++ [c]))

theorem Reads.itemsUntil (h : IsSeries item conv (· ≠ .punct close) start bad glue post text res ts)
    (hfirst : IsBlank first) (hlast : IsBlank last) (hc : Punct.ofChar? c = some close)
    (hclose : close ∉ bad) :
    Reads (itemsUntil close item) (·.mapM conv) []
      (series text first glue post ts ++ (last ++ [c])) (ts.map res) := by
  intro k _
  have hassoc : series text first glue post ts ++ (last ++ [c]) ++ k =
      series text first glue post ts ++ (last ++ c :: k) := by simp
  have hfront : (ofChars (last ++ c :: k)).front = some (.punct close) := by
    rw [ofChars_blank hlast, Tape.ofChars_punct hc]
    rfl
  have hclear : Clear bad (post ++ (last ++ c :: k)) :=
    clear_blank h.blank_post (clear_blank hlast (clear_punct hc hclose k))
  obtain ⟨xs, hrun, hxs⟩ := h.run hfirst hclear ⟨_, hfront, by simp⟩
  refine ⟨xs, ?_, hxs⟩
  rw [hassoc, Parser.itemsUntil, bind_run hrun, ofChars_blank hlast, Tape.ofChars_punct hc,
    bind_run (expect_run ..)]
  rfl

/-- A bracketed list, possibly empty. -/
theorem Reads.any (h : IsSeries item conv (· ≠ .punct close) start bad glue post text res ts)
    (hfirst : IsBlank first) (hlast : IsBlank last) (ho : Punct.ofChar? o = some opening)
    (hc : Punct.ofChar? c = some close) (hclose : close ∉ bad) :
    Reads (any opening item close) (·.mapM conv) []
      (bracketed o c last (series text first glue post ts)) (ts.map res) :=
  .expect ho (.itemsUntil h hfirst hlast hc hclose)

/-- A bracketed list that is not empty. -/
theorem Reads.many {t : τ} (h : IsSeries item conv (· ≠ .punct close) start bad glue post text res (t :: ts))
    (hfirst : IsBlank first) (hlast : IsBlank last) (ho : Punct.ofChar? o = some opening)
    (hc : Punct.ofChar? c = some close) (hclose : close ∉ bad) :
    Reads (many opening item close) (·.mapM conv) []
      (bracketed o c last (series text first glue post (t :: ts))) ((t :: ts).map res) := by
  have hassoc : bracketed o c last (series text first glue post (t :: ts)) =
      o :: (first ++ (text t ++ (post ++ (series text glue glue post ts ++ (last ++ [c]))))) := by
    simp [bracketed, series]
  rw [hassoc]
  refine .expect ho (.blank hfirst ((h.reads t (by simp)).bind ?_ fun x hx => .blank h.blank_post ?_))
  · intro k _
    have hend : Clear bad (post ++ (last ++ c :: k)) :=
      clear_blank h.blank_post (clear_blank hlast (clear_punct hc hclose k))
    have hrest := h.tail.clear_rest hend
    simpa using hrest
  · rw [← List.append_nil (series text glue glue post ts ++ (last ++ [c]))]
    refine (Reads.itemsUntil h.tail h.blank_glue hlast hc hclose).bind (by simp) fun xs hxs => .pure ?_
    rw [List.mapM_cons, hx, hxs]
    rfl

/-- A bracketed list that is left out when there are no items. -/
theorem Reads.optionalMany (h : IsSeries item conv (· ≠ .punct close) start bad glue post text res ts)
    (hfirst : IsBlank first) (hlast : IsBlank last) (ho : Punct.ofChar? o = some opening)
    (hc : Punct.ofChar? c = some close) (hclose : close ∉ bad) :
    Reads (optionalMany opening item close) (·.mapM conv) [opening]
      (if ts = [] then [] else bracketed o c last (series text first glue post ts)) (ts.map res) := by
  -- without items there is no bracket, and none follows
  cases ts with
  | nil =>
    intro k hk
    obtain ⟨t, hfront, ht⟩ := hk.2
    refine ⟨[], ?_, rfl⟩
    rw [if_pos rfl, List.nil_append, Parser.optionalMany, bind_run (peek_run hfront),
      if_neg (ht opening (by simp))]
    rfl
  | cons t ts =>
    rw [if_neg (by simp)]
    have hstart : Starts (· = .punct opening) [opening]
        (bracketed o c last (series text first glue post (t :: ts))) := by
      intro k _
      refine ⟨.punct opening, ?_, rfl⟩
      rw [bracketed, List.cons_append, Tape.ofChars_punct ho]
      rfl
    refine Reads.peek hstart ?_
    rintro _ rfl
    rw [if_pos rfl]
    exact (Reads.many h hfirst hlast ho hc hclose).mono (by simp)

end Brackets

end GraphDoc
