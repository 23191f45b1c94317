import GraphDoc.Source.Tape
import GraphDoc.Text.Quoted
import Mathlib.Tactic.IntervalCases

/-!
# Lexemes

The written form of a token in front of other characters is read as that token, and what is left is
the tape of the other characters. Names, numbers and strings need a boundary behind them; punctuators
and ignored characters do not.
-/

namespace GraphDoc

/-- Whether a name, a number or a string in front of the character ends there. -/
def isBoundary (c : Char) : Bool := !isNameChar c && c != '.' && c != '"'

/-- Whether a name, a number or a string ends in front of these characters. -/
def Boundary (k : List Char) : Prop := ∀ c ∈ k.head?, isBoundary c = true

/-- The end of a text is a boundary. -/
@[simp]
theorem boundary_nil : Boundary [] := by
  intro c hc
  simp at hc

/-- Otherwise the next character decides. -/
@[simp]
theorem boundary_cons (c : Char) (k : List Char) : Boundary (c :: k) ↔ isBoundary c = true := by
  simp [Boundary]

/-- Whether a text is a name. -/
def isName (s : String) : Bool :=
  match s.toList with
  | [] => false
  | c :: cs => isNameStart c && cs.all isNameChar

/-- A name is a letter or an underscore, with letters, digits and underscores after it. -/
theorem isName_iff {s : String} :
    isName s = true ↔ ∃ c cs, s.toList = c :: cs ∧ isNameStart c = true ∧ ∀ d ∈ cs, isNameChar d = true := by
  unfold isName
  cases h : s.toList with
  | nil => simp
  | cons c cs => simp [List.all_eq_true]

/-- Every character of a name can continue one. -/
theorem isNameChar_of_isName {s : String} (h : isName s = true) : ∀ c ∈ s.toList, isNameChar c = true := by
  obtain ⟨c, cs, hs, hc, hcs⟩ := isName_iff.1 h
  have hchar : isNameChar c = true := by
    rw [isNameStart, Bool.or_eq_true] at hc
    rcases hc with hc | hc <;> simp [isNameChar, hc]
  rw [hs, List.forall_mem_cons]
  exact ⟨hchar, hcs⟩

/-- A name is not empty. -/
theorem ne_empty_of_isName {s : String} (h : isName s = true) : s ≠ "" := by
  rintro rfl
  simp [isName] at h

/-- A character that starts a name starts no other token. -/
theorem isNameStart_ne {c d : Char} (hc : isNameStart c = true) (hd : isNameStart d = false) : c ≠ d := by
  rintro rfl
  rw [hc] at hd
  exact Bool.noConfusion hd

/-- No punctuator is a character a name can start with. -/
theorem ofChar?_of_isNameStart {c : Char} (h : isNameStart c = true) : Punct.ofChar? c = none := by
  unfold Punct.ofChar?
  repeat rw [if_neg (isNameStart_ne h (by decide))]

/-- No digit is a character a name can start with. -/
theorem isDigit_of_isNameStart {c : Char} (h : isNameStart c = true) : c.isDigit = false := by
  rw [Bool.eq_false_iff]
  intro hd
  -- letters stand behind the digits in the order of characters, and so does the underscore
  have hletter : isNameStart c = ((decide (c.val ≥ 'A'.val ∧ c.val ≤ 'Z'.val) ||
      decide (c.val ≥ 'a'.val) && decide (c.val ≤ 'z'.val)) || c == '_') := rfl
  simp only [hletter, Char.isDigit, Bool.or_eq_true, Bool.and_eq_true, decide_eq_true_eq, beq_iff_eq] at h hd
  rcases h with (h | h) | h
  · exact absurd (UInt32.le_trans h.1 hd.2) (by decide)
  · exact absurd (UInt32.le_trans h.1 hd.2) (by decide)
  · subst h
    exact absurd hd.2 (by decide)

namespace Tape

/-- The token in front of a tape; nothing at a fault. -/
def front : Tape → Option Token
  | .finish => some .endOfSource
  | .fault _ => none
  | .next token _ _ => some token

/-- The front of a tape is its next token. -/
@[simp]
theorem front_next (t : Token) (place : List Char) (rest : Tape) :
    (next t place rest).front = some t := rfl

/-- An ignored character is passed over. -/
theorem readNext_ignored {c : Char} (h : isIgnored c = true) (k : List Char) :
    readNext (c :: k) = readNext k := by
  unfold readNext
  rw [skipIgnored]
  simp [h]

/-- A tape is its first token and the tape of what is behind it. -/
theorem ofChars_eq (cs : List Char) :
    ofChars cs = match readNext cs with
      | .ok none => .finish
      | .ok (some (t, place, rest)) => .next t place (ofChars rest)
      | .error e => .fault e := by
  rw [ofChars]
  split <;> next h => rw [h]

/-- A tape depends only on what is read next. -/
theorem ofChars_congr {cs ds : List Char} (h : readNext cs = readNext ds) :
    ofChars cs = ofChars ds := by
  rw [ofChars_eq, ofChars_eq, h]

/-- An ignored character leaves no trace. -/
theorem ofChars_ignored {c : Char} (h : isIgnored c = true) (k : List Char) :
    ofChars (c :: k) = ofChars k :=
  ofChars_congr (readNext_ignored h k)

/-- A space in front gives no token. -/
@[simp]
theorem ofChars_space (k : List Char) : ofChars (' ' :: k) = ofChars k :=
  ofChars_ignored (by decide) k

/-- A line feed in front gives no token. -/
@[simp]
theorem ofChars_newline (k : List Char) : ofChars ('\n' :: k) = ofChars k :=
  ofChars_ignored (by decide) k

/-- A comment leaves no trace, with the end of its line. -/
theorem ofChars_comment {cs : List Char} (hfeed : '\n' ∉ cs) (hreturn : '\r' ∉ cs) (k : List Char) :
    ofChars ('#' :: (cs ++ '\n' :: k)) = ofChars k := by
  have hskip : skipIgnored true (cs ++ '\n' :: k) = skipIgnored false k := by
    induction cs with
    | nil => rfl
    | cons c cs ih =>
      rw [List.mem_cons, not_or] at hfeed hreturn
      have hc : (c != '\n' && c != '\r') = true := by simp [Ne.symm hfeed.1, Ne.symm hreturn.1]
      rw [List.cons_append, skipIgnored, if_pos rfl, hc, ih hfeed.2 hreturn.2]
  have hopen : skipIgnored false ('#' :: (cs ++ '\n' :: k)) = skipIgnored false k := by
    rw [skipIgnored, if_neg Bool.false_ne_true, if_neg (by decide), if_pos rfl, hskip]
  refine ofChars_congr ?_
  rw [readNext, readNext, hopen]

/-- The empty text has no token. -/
@[simp]
theorem ofChars_nil : ofChars [] = .finish := by
  rw [ofChars_eq]
  rfl

/-- A token that is read at the front is the front of the tape. -/
theorem ofChars_token {c : Char} {cs rest : List Char} {t : Token} (hi : isIgnored c = false)
    (hc : c ≠ '#') (h : readToken c cs = .ok (t, rest)) :
    ofChars (c :: cs) = .next t (c :: cs) (ofChars rest) := by
  have hn : readNext (c :: cs) = .ok (some (t, c :: cs, rest)) := by
    unfold readNext
    rw [skipIgnored]
    simp [hi, hc, h, Except.map]
  rw [ofChars_eq, hn]

/-- A punctuator is read as itself, whatever is behind it. -/
theorem ofChars_punct {c : Char} {m : Punct} (h : Punct.ofChar? c = some m) (k : List Char) :
    ofChars (c :: k) = .next (.punct m) (c :: k) (ofChars k) := by
  have hi : isIgnored c = false := by
    rw [Bool.eq_false_iff]
    intro hi
    simp only [isIgnored, Bool.or_eq_true, beq_iff_eq] at hi
    rcases hi with ((((hi | hi) | hi) | hi) | hi) | hi <;> subst hi <;> simp [Punct.ofChar?] at h
  refine ofChars_token hi ?_ ?_
  · rintro rfl
    simp [Punct.ofChar?] at h
  · simp [readToken, h]

/-- The spread is read as itself, whatever is behind it. -/
theorem ofChars_spread (k : List Char) :
    ofChars ('.' :: '.' :: '.' :: k) = .next (.punct .spread) ('.' :: '.' :: '.' :: k) (ofChars k) := by
  refine ofChars_token (by decide) (by decide) ?_
  simp [readToken, readPoints, Punct.ofChar?]

/-- At a boundary a name does not go on. -/
private theorem not_isNameChar_of_boundary {k : List Char} (hk : Boundary k) :
    k.takeWhile isNameChar = [] ∧ k.dropWhile isNameChar = k := by
  cases k with
  | nil => simp
  | cons c k =>
    have hc : isNameChar c = false := by
      simp only [boundary_cons, isBoundary, Bool.and_eq_true, Bool.not_eq_true'] at hk
      exact hk.1.1
    simp [hc]

/-- A name in front of a boundary is read as itself. -/
theorem ofChars_name {s : String} {k : List Char} (hs : isName s = true) (hk : Boundary k) :
    ofChars (s.toList ++ k) = .next (.name s) (s.toList ++ k) (ofChars k) := by
  obtain ⟨c, cs, hcs, hc, hall⟩ := isName_iff.1 hs
  obtain ⟨htake, hdrop⟩ := not_isNameChar_of_boundary hk
  rw [hcs, List.cons_append]
  refine ofChars_token ?_ (isNameStart_ne hc (by decide)) ?_
  · rw [Bool.eq_false_iff]
    intro hi
    simp only [isIgnored, Bool.or_eq_true, beq_iff_eq] at hi
    rcases hi with ((((hi | hi) | hi) | hi) | hi) | hi <;> subst hi <;> exact absurd hc (by decide)
  · have hname : String.ofList (c :: (cs ++ k).takeWhile isNameChar) = s := by
      rw [List.takeWhile_append_of_pos hall, htake, List.append_nil, ← hcs, String.ofList_toList]
    rw [readToken, ofChar?_of_isNameStart hc]
    simp only [isNameStart_ne hc (d := '.') (by decide), isNameStart_ne hc (d := '"') (by decide),
      isNameStart_ne hc (d := '-') (by decide), isDigit_of_isNameStart hc, hc, or_self, if_true,
      if_false, Bool.false_eq_true]
    rw [hname, List.dropWhile_append_of_pos hall, hdrop]

end Tape

/-! ## Strings -/

namespace Literal

/-- A control character that is written by its number is read back. -/
theorem readEscape_hexDigits {n : Nat} (hn : n < 0x20) (k : List Char) :
    readEscape ('u' :: (Text.hexDigits 4 n ++ k)) = .ok (Char.ofNat n, 5) := by
  interval_cases n <;> rfl

/-- One escaped character at the front of a string is read as that character. -/
theorem readString_escape (c : Char) (k : List Char) :
    readString (Text.escape c ++ k) = (readString k).map fun found => (c :: found.1, found.2) := by
  have hbind : ∀ d : Char, (do
      let found ← readString k
      return (d :: found.1, found.2)) =
        (readString k).map fun found => (d :: found.1, found.2) := by
    intro d
    cases readString k <;> rfl
  -- the escapes that stand for one letter each
  have hsimple : ∀ {e d : Char}, e ≠ 'u' → simpleEscape? e = some d →
      readString ('\\' :: e :: k) = (readString k).map fun found => (d :: found.1, found.2) := by
    intro e d hu hd
    have he : readEscape (e :: k) = .ok (d, 1) := by
      unfold readEscape
      split
      · next h => exact absurd (List.cons.inj h).1 hu
      · next h => exact absurd (List.cons.inj h).1 hu
      · next h =>
        cases h
        simp [hd]
      · next h => cases h
    rw [readString]
    simp only [he, Char.reduceEq, or_self, if_false, if_true]
    exact hbind d
  unfold Text.escape
  split_ifs with h1 h2 h3 h4 h5 h6 h7 h8
  · subst h1
    exact hsimple (by decide) rfl
  · subst h2
    exact hsimple (by decide) rfl
  · subst h3
    exact hsimple (by decide) rfl
  · subst h4
    exact hsimple (by decide) rfl
  · subst h5
    exact hsimple (by decide) rfl
  · subst h6
    exact hsimple (by decide) rfl
  · subst h7
    exact hsimple (by decide) rfl
  · rw [List.cons_append, List.cons_append, readString]
    simp only [readEscape_hexDigits h8, Char.reduceEq, or_self, if_false, if_true]
    have hdrop : ('u' :: (Text.hexDigits 4 c.toNat ++ k)).drop 5 = k := rfl
    rw [hdrop, Char.ofNat_toNat]
    exact hbind c
  · rw [List.cons_append, List.nil_append, readString]
    simp only [h1, h2, h3, h4, or_self, if_false]
    exact hbind c

/-- An escaped text in front of a quote is read back. -/
theorem readString_escaped (s k : List Char) :
    readString (s.flatMap Text.escape ++ '"' :: k) = .ok (s, k) := by
  induction s with
  | nil =>
    rw [List.flatMap_nil, List.nil_append, readString]
    simp
  | cons c s ih =>
    rw [List.flatMap_cons, List.append_assoc, readString_escape, ih]
    rfl

/-- An escaped character does not start with a quote. -/
theorem escape_ne_quote (c : Char) : ∃ d ds, Text.escape c = d :: ds ∧ d ≠ '"' := by
  unfold Text.escape
  split_ifs
  all_goals exact ⟨_, _, rfl, by simp_all⟩

/-- A quoted text is read as a string and never as a block string. -/
theorem readQuoted_escaped {k : List Char} (hk : Boundary k) (s : List Char) :
    readQuoted (s.flatMap Text.escape ++ '"' :: k) = .ok (.string (String.ofList s), k) := by
  have hstring : ∀ cs, (∀ ds, cs ≠ '"' :: '"' :: ds) → readString cs = .ok (s, k) →
      readQuoted cs = .ok (.string (String.ofList s), k) := by
    intro cs hne hread
    unfold readQuoted
    split
    · next ds => exact absurd rfl (hne ds)
    · rw [hread]
      rfl
  refine hstring _ ?_ (readString_escaped s k)
  intro ds h
  cases s with
  | nil =>
    simp only [List.flatMap_nil, List.nil_append, List.cons.injEq, true_and] at h
    rw [h, boundary_cons] at hk
    exact absurd hk (by decide)
  | cons c s =>
    obtain ⟨d, es, hesc, hd⟩ := escape_ne_quote c
    rw [List.flatMap_cons, hesc] at h
    exact hd (List.cons.inj h).1

end Literal

/-- A quoted text in front of a boundary is read as the text. -/
theorem Tape.ofChars_quote {k : List Char} (hk : Boundary k) (s : String) :
    ofChars ((Text.quote s).toList ++ k) =
      .next (.string s) ((Text.quote s).toList ++ k) (ofChars k) := by
  have hq : (Text.quote s).toList ++ k = '"' :: (s.toList.flatMap Text.escape ++ '"' :: k) := by
    simp [Text.quote]
  rw [hq]
  refine ofChars_token (by decide) (by decide) ?_
  have hp : Punct.ofChar? '"' = none := by decide
  rw [readToken, hp]
  simp only [Char.reduceEq, if_false, if_true]
  rw [Literal.readQuoted_escaped hk, String.ofList_toList]

end GraphDoc
