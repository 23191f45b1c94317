import GraphDoc.Proofs.Syntax.Run

/-!
# What parsers ensure

`Parser.Ensures n p P` says of every successful run of `p` that it takes at least `n` tokens and that
its result satisfies `P`. The rules for it follow the way parsers are put together. A list whose items
take a token each can be unrolled item by item, so the bound that its definition carries is never met.
The rules hold for any property `L` of the tokens of a tape, which a run hands on to what it leaves.
-/

namespace GraphDoc.Parser

variable {α β : Type} {L : Token → Prop}

/-- Every successful run on tokens with the property `L` takes at least `n` of them, and its result
satisfies `P`. -/
def EnsuresOn (L : Token → Prop) (n : Nat) (p : Parser α) (P : α → Prop) : Prop :=
  ∀ tape x rest, tape.All L → p tape = .ok (x, rest) →
    rest.All L ∧ rest.size + n ≤ tape.size ∧ P x

/-- The same of the runs on tapes with the given token in front. -/
def EnsuresOnAt (L : Token → Prop) (t : Token) (n : Nat) (p : Parser α) (P : α → Prop) : Prop :=
  ∀ tape x rest, tape.All L → tape.front = some t → p tape = .ok (x, rest) →
    rest.All L ∧ rest.size + n ≤ tape.size ∧ P x

/-- The same of the runs on what is read from a source. -/
abbrev Ensures (n : Nat) (p : Parser α) (P : α → Prop) : Prop := EnsuresOn Token.Lexical n p P

abbrev EnsuresAt (t : Token) (n : Nat) (p : Parser α) (P : α → Prop) : Prop := EnsuresOnAt Token.Lexical t n p P

/-- A sequence of two steps succeeds only if both do. -/
theorem bind_run_eq_ok {p : Parser α} {f : α → Parser β} {tape rest : Tape} {b : β}
    (h : (p >>= f) tape = .ok (b, rest)) : ∃ a mid, p tape = .ok (a, mid) ∧ f a mid = .ok (b, rest) := by
  obtain ⟨⟨a, mid⟩, hp, hf⟩ := bind_eq_ok.1 (show (p tape >>= fun x => f x.1 x.2) = _ from h)
  exact ⟨a, mid, hp, hf⟩

/-- A mapped parser succeeds when the parser does, and stops at the same place. -/
theorem map_run_eq_ok {p : Parser α} {g : α → β} {tape rest : Tape} {b : β}
    (h : (g <$> p) tape = .ok (b, rest)) : ∃ a, p tape = .ok (a, rest) ∧ g a = b := by
  obtain ⟨⟨a, mid⟩, hp, hg⟩ := bind_eq_ok.1
    (show (p tape >>= fun x => (pure (g x.1, x.2) : Except SyntaxError (β × Tape))) = _ from h)
  obtain ⟨rfl, rfl⟩ := Prod.mk.inj (pure_eq_ok.1 hg)
  exact ⟨a, hp, rfl⟩

/-! ## Rules -/

/-- Two parsers in a row consume what both consume, and the second may use what the first ensures. -/
theorem EnsuresOn.bind {n m k : Nat} {p : Parser α} {f : α → Parser β} {P : α → Prop} {Q : β → Prop}
    (hp : EnsuresOn L n p P) (hf : ∀ a, P a → EnsuresOn L m (f a) Q) (hk : k ≤ n + m) :
    EnsuresOn L k (p >>= f) Q := by
  intro tape x rest ht h
  obtain ⟨a, mid, hpa, hfa⟩ := bind_run_eq_ok h
  obtain ⟨hmid, hsize, ha⟩ := hp tape a mid ht hpa
  obtain ⟨hrest, hsize', hx⟩ := hf a ha mid x rest hmid hfa
  exact ⟨hrest, by omega, hx⟩

/-- The first of two steps takes the tokens. -/
theorem EnsuresOn.lead {n : Nat} {p : Parser α} {f : α → Parser β} {P : α → Prop} {Q : β → Prop}
    (hp : EnsuresOn L n p P) (hf : ∀ a, P a → EnsuresOn L 0 (f a) Q) : EnsuresOn L n (p >>= f) Q :=
  hp.bind hf (Nat.le_refl n)

/-- The second of two steps takes the tokens. -/
theorem EnsuresOn.follow {n m : Nat} {p : Parser α} {f : α → Parser β} {P : α → Prop} {Q : β → Prop}
    (hp : EnsuresOn L n p P) (hf : ∀ a, P a → EnsuresOn L m (f a) Q) : EnsuresOn L m (p >>= f) Q :=
  hp.bind hf (Nat.le_add_left m n)

/-- A parser that is known on tapes with a given front alone may be followed by one that is known on all. -/
theorem EnsuresOnAt.lead {t : Token} {n : Nat} {p : Parser α} {f : α → Parser β} {P : α → Prop}
    {Q : β → Prop} (hp : EnsuresOnAt L t n p P) (hf : ∀ a, P a → EnsuresOn L 0 (f a) Q) :
    EnsuresOnAt L t n (p >>= f) Q := by
  intro tape x rest ht hfront h
  obtain ⟨a, mid, hpa, hfa⟩ := bind_run_eq_ok h
  obtain ⟨hmid, hsize, ha⟩ := hp tape a mid ht hfront hpa
  obtain ⟨hrest, hsize', hx⟩ := hf a ha mid x rest hmid hfa
  exact ⟨hrest, by omega, hx⟩

/-- A given result consumes nothing. -/
theorem EnsuresOn.pure {a : α} {P : α → Prop} (h : P a) : EnsuresOn L 0 (pure a) P := by
  intro tape x rest ht hp
  cases hp
  exact ⟨ht, Nat.le_refl _, h⟩

/-- Working on the result changes what is ensured of it and nothing else. -/
theorem EnsuresOn.map {n : Nat} {p : Parser α} {g : α → β} {P : α → Prop} {Q : β → Prop}
    (hp : EnsuresOn L n p P) (hg : ∀ a, P a → Q (g a)) : EnsuresOn L n (g <$> p) Q := by
  intro tape x rest ht h
  obtain ⟨a, hpa, rfl⟩ := map_run_eq_ok h
  obtain ⟨hrest, hsize, ha⟩ := hp tape a rest ht hpa
  exact ⟨hrest, hsize, hg a ha⟩

/-- Less may be promised, of the tokens consumed and of the result. -/
theorem EnsuresOn.mono {n m : Nat} {p : Parser α} {P Q : α → Prop} (hp : EnsuresOn L n p P) (hm : m ≤ n)
    (h : ∀ a, P a → Q a) : EnsuresOn L m p Q := by
  intro tape x rest ht hrun
  obtain ⟨hrest, hsize, hx⟩ := hp tape x rest ht hrun
  exact ⟨hrest, by omega, h x hx⟩

/-- Fewer tokens may be promised. -/
theorem EnsuresOn.least {n m : Nat} {p : Parser α} {P : α → Prop} (hp : EnsuresOn L n p P) (hm : m ≤ n) :
    EnsuresOn L m p P :=
  hp.mono hm fun _ h => h

/-- What holds on every tape holds on those with a given front. -/
theorem EnsuresOn.at {n : Nat} {p : Parser α} {P : α → Prop} (hp : EnsuresOn L n p P) (t : Token) :
    EnsuresOnAt L t n p P :=
  fun tape x rest ht _ h => hp tape x rest ht h

/-- Fewer tokens may be promised on tapes with a given front. -/
theorem EnsuresOnAt.least {t : Token} {n m : Nat} {p : Parser α} {P : α → Prop}
    (hp : EnsuresOnAt L t n p P) (hm : m ≤ n) : EnsuresOnAt L t m p P := by
  intro tape x rest ht hfront hrun
  obtain ⟨hrest, hsize, hx⟩ := hp tape x rest ht hfront hrun
  exact ⟨hrest, by omega, hx⟩

/-- Each branch may use the condition that led to it. -/
theorem EnsuresOn.ite {n : Nat} {c : Prop} [Decidable c] {p q : Parser α} {P : α → Prop}
    (hp : c → EnsuresOn L n p P) (hq : ¬c → EnsuresOn L n q P) : EnsuresOn L n (if c then p else q) P := by
  split
  · next hc => exact hp hc
  · next hc => exact hq hc

/-- Two ways to the same continuation. -/
theorem EnsuresOn.join {c : Prop} [Decidable c] {p q : Parser α} {f : α → Parser β} {P : α → Prop}
    {Q : β → Prop} (hp : c → EnsuresOn L 0 p P) (hq : ¬c → EnsuresOn L 0 q P)
    (hf : ∀ a, P a → EnsuresOn L 0 (f a) Q) : EnsuresOn L 0 (if c then p >>= f else q >>= f) Q :=
  .ite (fun hc => (hp hc).lead hf) fun hc => (hq hc).lead hf

/-- A parser that fails ensures anything. -/
theorem ensures_fail {n : Nat} (place : List Char) (fault : Fault) (P : α → Prop) :
    EnsuresOn L n (fail place fault) P := by
  intro tape x rest ht h
  cases h

/-- A parser that always fails ensures everything. -/
theorem ensures_failHere {n : Nat} (fault : Token → Fault) (P : α → Prop) :
    EnsuresOn L n (failHere fault) P := by
  intro tape x rest ht h
  obtain ⟨a, mid, -, hf⟩ := bind_run_eq_ok h
  cases hf

/-! ## Single steps -/

/-- Looking at the next token and its place leaves the tape as it is. -/
theorem front_of_head {tape rest : Tape} {x : Token × List Char} (h : head tape = .ok (x, rest)) :
    rest = tape ∧ tape.front = some x.1 := by
  cases tape with
  | finish =>
    cases h
    exact ⟨rfl, rfl⟩
  | fault e => cases h
  | next token place rest =>
    cases h
    exact ⟨rfl, rfl⟩

/-- Looking at the next token leaves the tape as it is. -/
theorem front_of_peek {tape rest : Tape} {t : Token} (h : peek tape = .ok (t, rest)) :
    rest = tape ∧ tape.front = some t := by
  obtain ⟨⟨a, place⟩, mid, hhead, hp⟩ := bind_run_eq_ok h
  cases hp
  exact front_of_head hhead

/-- The token in front has the property of the tape. -/
theorem all_front {tape : Tape} {t : Token} (ht : tape.All L) (h : tape.front = some t) : L t := by
  cases tape with
  | finish =>
    cases h
    exact ht
  | fault e => cases h
  | next token place rest =>
    cases h
    exact ht.1

/-- What is done after a look at the token in front may be judged token by token. -/
theorem EnsuresOn.peek {n : Nat} {f : Token → Parser β} {Q : β → Prop}
    (hf : ∀ t, L t → EnsuresOnAt L t n (f t) Q) : EnsuresOn L n (Parser.peek >>= f) Q := by
  intro tape x rest ht h
  obtain ⟨t, mid, hpeek, hft⟩ := bind_run_eq_ok h
  obtain ⟨rfl, hfront⟩ := front_of_peek hpeek
  exact hf t (all_front ht hfront) mid x rest ht hfront hft

/-- A parser that looks ahead may be judged for each token it may see. -/
theorem EnsuresOn.head {n : Nat} {f : Token × List Char → Parser β} {Q : β → Prop}
    (hf : ∀ t place, L t → EnsuresOnAt L t n (f (t, place)) Q) : EnsuresOn L n (Parser.head >>= f) Q := by
  intro tape x rest ht h
  obtain ⟨⟨t, place⟩, mid, hhead, hft⟩ := bind_run_eq_ok h
  obtain ⟨rfl, hfront⟩ := front_of_head hhead
  exact hf t place (all_front ht hfront) mid x rest ht hfront hft

/-- Taking a token that is there takes one token. -/
theorem ensuresAt_advance {t : Token} (h : t ≠ .endOfSource) :
    EnsuresOnAt L t 1 advance fun _ => True := by
  intro tape x rest ht hfront hrun
  cases tape with
  | finish =>
    cases hfront
    exact absurd rfl h
  | fault e => cases hfront
  | next token place tail =>
    cases hrun
    exact ⟨ht.2, Nat.le_refl _, trivial⟩

/-- A mark that has to stand here is consumed. -/
theorem ensures_expect (m : Punct) : EnsuresOn L 1 (expect m) fun _ => True := by
  refine .peek fun t _ => ?_
  split
  · next ht =>
    subst ht
    exact ensuresAt_advance (by simp)
  · exact (ensures_failHere _ _).at t

/-- A mark that may stand here consumes nothing for certain. -/
theorem ensures_skip (m : Punct) : EnsuresOn L 0 (skip m) fun _ => True := by
  refine .peek fun t _ => ?_
  split
  · next ht =>
    subst ht
    exact ((ensuresAt_advance (by simp)).lead fun _ _ => .pure trivial).least (Nat.zero_le 1)
  · exact (EnsuresOn.pure trivial).at t

/-- A name that was read is one of the tokens of the tape. -/
theorem ensuresOn_name : EnsuresOn L 1 name fun s => L (.name s) := by
  refine .peek fun t ht => ?_
  split
  · next s =>
    exact (ensuresAt_advance (t := .name s) (by simp)).lead fun _ _ => EnsuresOn.pure ht
  · exact (ensures_failHere _ _).at t

/-- A name that was read is a name. -/
theorem ensures_name : Ensures 1 name fun s => isName s = true := ensuresOn_name

/-- A name that is read stood in front. -/
theorem front_of_name {tape rest : Tape} {s : String} (h : name tape = .ok (s, rest)) :
    tape.front = some (.name s) := by
  obtain ⟨t, mid, hpeek, h⟩ := bind_run_eq_ok h
  obtain ⟨rfl, hfront⟩ := front_of_peek hpeek
  cases t with
  | name text =>
    obtain ⟨_, _, -, h⟩ := bind_run_eq_ok h
    cases h
    exact hfront
  | _ =>
    obtain ⟨_, _, -, h⟩ := bind_run_eq_ok h
    cases h

/-- A word that has to stand here is consumed. -/
theorem ensures_keyword (word : String) : EnsuresOn L 1 (keyword word) fun _ => True := by
  refine .peek fun t _ => ?_
  split
  · next ht =>
    subst ht
    exact ensuresAt_advance (by simp)
  · exact (ensures_failHere _ _).at t

/-- A word that may stand here consumes nothing for certain. -/
theorem ensures_skipKeyword (word : String) : EnsuresOn L 0 (skipKeyword word) fun _ => True := by
  refine .peek fun t _ => ?_
  split
  · next ht =>
    subst ht
    exact ((ensuresAt_advance (by simp)).lead fun _ _ => .pure trivial).least (Nat.zero_le 1)
  · exact (EnsuresOn.pure trivial).at t

/-! ## Lists -/

/-- What every item ensures holds of all that were read. -/
theorem ensures_repeatWhile {test : Token → Bool} {item : Parser α} {P : α → Prop}
    (hitem : EnsuresOn L 0 item P) (bound : Tape) :
    EnsuresOn L 0 (repeatWhile test item bound) fun xs => ∀ x ∈ xs, P x := by
  induction bound with
  | finish | fault _ =>
    refine .peek fun t _ => ?_
    split
    · exact (hitem.lead fun x hx => .pure (by simpa using hx)).at t
    · exact (EnsuresOn.pure (by simp)).at t
  | next token place bound ih =>
    refine .peek fun t _ => ?_
    split
    · refine (hitem.lead fun x hx => ih.lead fun xs hxs => .pure ?_).at t
      intro y hy
      rcases List.mem_cons.1 hy with rfl | hy
      · exact hx
      · exact hxs y hy
    · exact (EnsuresOn.pure (by simp)).at t

/-- What every item ensures holds of those read while a test holds. -/
theorem ensures_itemsWhile {test : Token → Bool} {item : Parser α} {P : α → Prop}
    (hitem : EnsuresOn L 0 item P) : EnsuresOn L 0 (itemsWhile test item) fun xs => ∀ x ∈ xs, P x :=
  fun tape => ensures_repeatWhile hitem tape tape

/-- Items up to a closing mark consume at least that mark. -/
theorem ensures_itemsUntil {close : Punct} {item : Parser α} {P : α → Prop} (hitem : EnsuresOn L 0 item P) :
    EnsuresOn L 1 (itemsUntil close item) fun xs => ∀ x ∈ xs, P x :=
  (ensures_itemsWhile hitem).follow fun _ hxs => (ensures_expect close).lead fun _ _ => .pure hxs

/-- Items between marks consume at least the opening one. -/
theorem ensures_any {opening close : Punct} {item : Parser α} {P : α → Prop} (hitem : EnsuresOn L 0 item P) :
    EnsuresOn L 1 (any opening item close) fun xs => ∀ x ∈ xs, P x :=
  (ensures_expect opening).follow fun _ _ => ensures_itemsUntil hitem

/-- Items between marks consume at least the opening one, and there is at least one item. -/
theorem ensures_many {opening close : Punct} {item : Parser α} {P : α → Prop} (hitem : EnsuresOn L 0 item P) :
    EnsuresOn L 1 (many opening item close) fun xs => xs ≠ [] ∧ ∀ x ∈ xs, P x := by
  refine (ensures_expect opening).follow fun _ _ => hitem.follow fun x hx =>
    (ensures_itemsUntil hitem).lead fun xs hxs => .pure ⟨by simp, ?_⟩
  intro y hy
  rcases List.mem_cons.1 hy with rfl | hy
  · exact hx
  · exact hxs y hy

/-- Items between marks that may be left out altogether consume nothing for certain. -/
theorem ensures_optionalMany {opening close : Punct} {item : Parser α} {P : α → Prop}
    (hitem : EnsuresOn L 0 item P) : EnsuresOn L 0 (optionalMany opening item close) fun xs => ∀ x ∈ xs, P x := by
  refine .peek fun t _ => ?_
  split
  · exact ((ensures_many hitem).mono (Nat.zero_le 1) fun xs hxs => hxs.2).at t
  · exact (EnsuresOn.pure (by simp)).at t

/-- A token passed over is not counted, since it may be missing. -/
theorem ensures_advance {item : Parser α} {P : α → Prop} {n : Nat} (hitem : EnsuresOn L n item P) :
    EnsuresOn L n (do advance; item) P := by
  intro tape y rest ht h
  obtain ⟨u, mid, hadvance, hy⟩ := bind_run_eq_ok h
  cases tape with
  | finish | fault _ =>
    cases hadvance
    exact hitem _ y rest ht hy
  | next token place tail =>
    cases hadvance
    obtain ⟨h1, h2, h3⟩ := hitem _ y rest ht.2 hy
    exact ⟨h1, by simp only [Tape.size]; omega, h3⟩

/-- Items between separating marks, of which there is at least one. -/
theorem ensures_separated {mark : Punct} {item : Parser α} {P : α → Prop} {n : Nat}
    (hitem : EnsuresOn L n item P) :
    EnsuresOn L n (separated mark item) fun xs => xs ≠ [] ∧ ∀ x ∈ xs, P x := by
  refine (ensures_skip mark).follow fun _ _ => hitem.lead fun x hx =>
    (ensures_itemsWhile ((ensures_advance hitem).least (Nat.zero_le n))).lead fun xs hxs => .pure ⟨by simp, ?_⟩
  intro y hy
  rcases List.mem_cons.1 hy with rfl | hy
  · exact hx
  · exact hxs y hy

/-! ## Unrolling a list -/

/-- An item that takes a token finds none on an empty tape. -/
theorem item_on_empty {item : Parser α} {P : α → Prop} (hitem : EnsuresOn L 1 item P) {tape : Tape}
    (ht : tape.All L) (hsize : tape.size = 0) : ∃ e, item tape = .error e := by
  cases h : item tape with
  | error e => exact ⟨e, rfl⟩
  | ok found =>
    obtain ⟨x, rest⟩ := found
    have := (hitem tape x rest ht h).2.1
    omega

/-- The bound of a list does not matter as long as it has the tokens that are left. -/
theorem repeatWhile_bound {test : Token → Bool} {item : Parser α} {P : α → Prop}
    (hitem : EnsuresOn L 1 item P) (b c tape : Tape) (ht : tape.All L) (hb : tape.size ≤ b.size)
    (hc : tape.size ≤ c.size) : repeatWhile test item b tape = repeatWhile test item c tape := by
  -- on the first bound: each item takes a token, so neither bound is used up before the tape is
  induction b generalizing c tape with
  | finish | fault _ =>
    obtain ⟨e, he⟩ := item_on_empty hitem ht (Nat.le_zero.1 hb)
    cases hpeek : peek tape with
    | error e => cases c <;> simp only [repeatWhile, bind, StateT.bind, hpeek, Except.bind]
    | ok found =>
      cases hf : test found.1 <;> cases c <;>
        simp [repeatWhile, bind, StateT.bind, hpeek, Except.bind, hf, (front_of_peek hpeek).1, he]
  | next token place b ih =>
    cases hpeek : peek tape with
    | error e => cases c <;> simp only [repeatWhile, bind, StateT.bind, hpeek, Except.bind]
    | ok found =>
      obtain ⟨t, mid⟩ := found
      obtain ⟨rfl, -⟩ := front_of_peek hpeek
      cases hf : test t with
      | false => cases c <;> simp [repeatWhile, bind, StateT.bind, hpeek, Except.bind, hf]
      | true =>
        cases hrun : item mid with
        | error e => cases c <;> simp [repeatWhile, bind, StateT.bind, hpeek, Except.bind, hf, hrun]
        | ok found =>
          obtain ⟨x, rest⟩ := found
          obtain ⟨hrest, hsize, -⟩ := hitem mid x rest ht hrun
          cases c with
          | finish | fault _ =>
            simp only [Tape.size] at hc
            omega
          | next token' place' c =>
            have := ih c rest hrest (by simp only [Tape.size] at hb; omega)
              (by simp only [Tape.size] at hc; omega)
            simp [repeatWhile, bind, StateT.bind, hpeek, Except.bind, hf, hrun, this]

/-- A list is over when the token in front fails the test. -/
theorem itemsWhile_stop {test : Token → Bool} {item : Parser α} {tape : Tape} {t : Token}
    (hfront : tape.front = some t) (ht : test t = false) :
    itemsWhile test item tape = .ok ([], tape) := by
  show repeatWhile test item tape tape = _
  have hpeek := peek_run hfront
  cases tape <;> simp [repeatWhile, bind, StateT.bind, hpeek, Except.bind, ht] <;> rfl

/-- A list whose front passes the test is one item and the list behind it. -/
theorem itemsWhile_step {test : Token → Bool} {item : Parser α} {P : α → Prop}
    (hitem : EnsuresOn L 1 item P) {tape : Tape} {t : Token} (hlex : tape.All L)
    (hfront : tape.front = some t) (ht : test t = true) :
    itemsWhile test item tape = (do
      let first ← item
      let rest ← itemsWhile test item
      return first :: rest : Parser (List α)) tape := by
  show repeatWhile test item tape tape = _
  have hpeek := peek_run hfront
  cases hrun : item tape with
  | error e => cases tape <;> simp [repeatWhile, bind, StateT.bind, hpeek, Except.bind, ht, hrun]
  | ok found =>
    obtain ⟨x, rest⟩ := found
    obtain ⟨hrest, hsize, -⟩ := hitem tape x rest hlex hrun
    cases tape with
    | finish | fault _ =>
      simp only [Tape.size] at hsize
      omega
    | next token place tail =>
      -- the list behind the first item runs with the old bound, which is as good as its own
      have hbound : repeatWhile test item tail rest = repeatWhile test item rest rest :=
        repeatWhile_bound hitem tail rest rest hrest (by simp only [Tape.size] at hsize; omega)
          (Nat.le_refl _)
      simp only [repeatWhile, bind, StateT.bind, hpeek, Except.bind, ht, hrun, if_true, hbound]
      rfl

end GraphDoc.Parser
