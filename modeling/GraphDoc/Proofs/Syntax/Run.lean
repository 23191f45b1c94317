import GraphDoc.Proofs.Source.Numeral
import GraphDoc.Syntax.Parser

/-!
# Running parsers

How a run of a parser goes on from the tape in front of it: one lemma for each way a single step can
go. The tape of a source is `Lexical`: its names are names and its floats are numerals.
-/

namespace GraphDoc

namespace Tape

/-- The number of tokens of a tape. -/
def size : Tape → Nat
  | .finish | .fault _ => 0
  | .next _ _ rest => rest.size + 1

end Tape

/-- Whether a token is one that can be read from a source: a name is a name, and a number is a numeral. -/
def Token.Lexical : Token → Prop
  | .name s => isName s = true
  | .int s => IsIntegerText s
  | .float s => IsFloatText s
  | _ => True

namespace Tape

/-- Whether all tokens of a tape have a property, the end of the source among them. -/
def All (L : Token → Prop) : Tape → Prop
  | .finish => L .endOfSource
  | .fault _ => True
  | .next token _ rest => L token ∧ rest.All L

/-- Whether all tokens of a tape can be read from a source. -/
abbrev Lexical : Tape → Prop := All Token.Lexical

/-- A token that was read is well formed. -/
theorem lexical_of_readToken {c : Char} {cs rest : List Char} {t : Token}
    (h : readToken c cs = .ok (t, rest)) : t.Lexical := by
  unfold readToken at h
  split at h
  · obtain ⟨rfl, -⟩ := by simpa using h
    trivial
  · split_ifs at h with h1 h2 h3 h4 h5
    · unfold readPoints at h
      split at h
      · obtain ⟨rfl, -⟩ := by simpa using h
        trivial
      · simp at h
      · simp at h
    · unfold Literal.readQuoted at h
      split at h
      · obtain ⟨found, -, h⟩ := bind_eq_ok.1 h
        obtain ⟨rfl, -⟩ := Prod.mk.inj (pure_eq_ok.1 h)
        trivial
      · obtain ⟨found, -, h⟩ := bind_eq_ok.1 h
        obtain ⟨rfl, -⟩ := Prod.mk.inj (pure_eq_ok.1 h)
        trivial
    · obtain ⟨n, rfl⟩ := Literal.exists_numeral_of_readNumber h
      -- a numeral is an integer or a float, never a name
      unfold Token.Lexical
      split
      · next heq =>
        unfold Numeral.token at heq
        split at heq <;> cases heq
      · next s heq => exact ⟨n, heq⟩
      · next s heq => exact ⟨n, heq⟩
      · trivial
    · obtain ⟨rfl, -⟩ := by simpa using h
      show isName _ = true
      rw [isName_iff]
      refine ⟨c, cs.takeWhile isNameChar, by simp, h4, fun d hd => List.mem_takeWhile_imp hd⟩

/-- The tokens of a source can be read from a source. -/
theorem lexical_ofChars (cs : List Char) : (ofChars cs).Lexical := by
  rw [ofChars_eq]
  cases h : readNext cs with
  | error e => trivial
  | ok found =>
    cases found with
    | none => trivial
    | some found =>
      obtain ⟨t, place, rest⟩ := found
      have hlt : rest.length < cs.length := readNext_lt h
      refine ⟨?_, lexical_ofChars rest⟩
      unfold readNext at h
      split at h
      · simp at h
      · next c behind heq =>
        cases ht : readToken c behind with
        | error e => simp [ht, Except.map] at h
        | ok found =>
          obtain ⟨rfl, -, rfl⟩ := by simpa [ht, Except.map] using h
          exact lexical_of_readToken ht
termination_by cs.length

end Tape

namespace Parser

variable {α β : Type}

/-! ## Single steps -/

/-- After a parser that succeeds the next runs where it stopped. -/
theorem bind_run {p : Parser α} {tape rest : Tape} {a : α} (h : p tape = .ok (a, rest))
    (f : α → Parser β) : (p >>= f) tape = f a rest := by
  show (p tape >>= fun x => f x.1 x.2) = _
  rw [h]
  rfl

/-- Working on the result does not move the tape. -/
theorem map_run {p : Parser α} {tape rest : Tape} {a : α} (h : p tape = .ok (a, rest)) (g : α → β) :
    (g <$> p) tape = .ok (g a, rest) := by
  show (p tape >>= fun x => pure (g x.1, x.2)) = _
  rw [h]
  rfl

/-- Looking at the next token gives it with its place. -/
theorem head_run {tape : Tape} {t : Token} (h : tape.front = some t) :
    ∃ place, head tape = .ok ((t, place), tape) := by
  cases tape with
  | finish =>
    cases h
    exact ⟨[], rfl⟩
  | fault e => cases h
  | next token place rest =>
    cases h
    exact ⟨place, rfl⟩

/-- Looking at the next token gives it. -/
theorem peek_run {tape : Tape} {t : Token} (h : tape.front = some t) : peek tape = .ok (t, tape) := by
  obtain ⟨place, hp⟩ := head_run h
  rw [peek, bind_run hp]
  rfl

/-- Passing over a token leaves the rest. -/
theorem advance_run (t : Token) (place : List Char) (rest : Tape) :
    advance (.next t place rest) = .ok ((), rest) := rfl

/-- A mark that has to stand here, and does, is consumed. -/
theorem expect_run (m : Punct) (place : List Char) (rest : Tape) :
    expect m (.next (.punct m) place rest) = .ok ((), rest) := by
  rw [expect, bind_run (peek_run rfl), if_pos rfl, advance_run]

/-- A mark that may stand here, and does, is consumed. -/
theorem skip_run (m : Punct) (place : List Char) (rest : Tape) :
    skip m (.next (.punct m) place rest) = .ok (true, rest) := by
  rw [skip, bind_run (peek_run rfl), if_pos rfl, bind_run (advance_run ..)]
  rfl

/-- A mark that may stand here, and does not, is passed by. -/
theorem skip_pass {m : Punct} {tape : Tape} {t : Token} (h : tape.front = some t)
    (ht : t ≠ .punct m) : skip m tape = .ok (false, tape) := by
  rw [skip, bind_run (peek_run h), if_neg ht]
  rfl

/-- A name that has to stand here, and does, is the result. -/
theorem name_run (s : String) (place : List Char) (rest : Tape) :
    name (.next (.name s) place rest) = .ok (s, rest) := by
  rw [name, bind_run (peek_run rfl)]
  rfl

/-- A word that has to stand here, and does, is consumed. -/
theorem keyword_run (word : String) (place : List Char) (rest : Tape) :
    keyword word (.next (.name word) place rest) = .ok ((), rest) := by
  rw [keyword, bind_run (peek_run rfl), if_pos rfl, advance_run]

/-- A word that may stand here, and does, is consumed. -/
theorem skipKeyword_run (word : String) (place : List Char) (rest : Tape) :
    skipKeyword word (.next (.name word) place rest) = .ok (true, rest) := by
  rw [skipKeyword, bind_run (peek_run rfl), if_pos rfl, bind_run (advance_run ..)]
  rfl

/-- A word that may stand here, and does not, is passed by. -/
theorem skipKeyword_pass {word : String} {tape : Tape} {t : Token} (h : tape.front = some t)
    (ht : t ≠ .name word) : skipKeyword word tape = .ok (false, tape) := by
  rw [skipKeyword, bind_run (peek_run h), if_neg ht]
  rfl

/-! ## Failure -/

/-- Whether a parser fails on a tape. -/
def Fails (p : Parser α) (tape : Tape) : Prop := ∃ e, p tape = .error e

/-- Nothing mends a failure. -/
theorem Fails.bind {p : Parser α} {tape : Tape} (h : Fails p tape) (f : α → Parser β) :
    Fails (p >>= f) tape := by
  obtain ⟨e, he⟩ := h
  refine ⟨e, ?_⟩
  show (p tape >>= fun x => f x.1 x.2) = _
  rw [he]
  rfl

/-- A failure after a success is a failure. -/
theorem Fails.of_bind {p : Parser α} {f : α → Parser β} {tape rest : Tape} {a : α}
    (h : p tape = .ok (a, rest)) (hf : Fails (f a) rest) : Fails (p >>= f) tape := by
  obtain ⟨e, he⟩ := hf
  exact ⟨e, by rw [bind_run h, he]⟩

/-- What succeeds does not fail. -/
theorem not_fails_of_ok {p : Parser α} {tape rest : Tape} {a : α} (h : p tape = .ok (a, rest)) :
    ¬Fails p tape := by
  rintro ⟨e, he⟩
  rw [h] at he
  cases he

/-- A parser that always fails does so at any token. -/
theorem failHere_fails {tape : Tape} {t : Token} (h : tape.front = some t) (fault : Token → Fault) :
    Fails (failHere fault : Parser α) tape := by
  obtain ⟨place, hp⟩ := head_run h
  refine ⟨.before place (fault t), ?_⟩
  rw [failHere, bind_run hp]
  rfl

/-- A missing mark is a failure. -/
theorem expect_fails {m : Punct} {tape : Tape} {t : Token} (h : tape.front = some t)
    (ht : t ≠ .punct m) : Fails (expect m) tape := by
  refine Fails.of_bind (peek_run h) ?_
  rw [if_neg ht]
  exact failHere_fails h _

/-- A missing name is a failure. -/
theorem name_fails {tape : Tape} {t : Token} (h : tape.front = some t) (ht : ∀ s, t ≠ .name s) :
    Fails name tape := by
  refine Fails.of_bind (peek_run h) ?_
  cases t with
  | name s => exact absurd rfl (ht s)
  | _ => exact failHere_fails h _

end Parser

end GraphDoc
