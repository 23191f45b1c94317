import GraphDoc.Number.Integer
import GraphDoc.Number.Shortest
import GraphDoc.Proofs.Source.Lexeme
import Mathlib.Data.List.TakeWhile

/-!
# Numerals

A numeral is a number as it is written: a sign, a whole part without leading zeros, a fraction and an
exponent, of which only the whole part must be there. The number reader accepts exactly the numerals,
and every number that is printed is one: integers without a fraction or an exponent, finite doubles
with at least one of them.
-/

namespace GraphDoc

/-- One digit or more. -/
def IsDigits (ds : List Char) : Prop := ds ≠ [] ∧ ∀ c ∈ ds, c.isDigit = true

/-- A number as it is written. -/
structure Numeral where
  sign : List Char
  whole : List Char
  fraction : List Char
  exponent : List Char
  sign_ok : sign = [] ∨ sign = ['-']
  whole_ok : IsDigits whole ∧ (whole.head? = some '0' → whole = ['0'])
  fraction_ok : fraction = [] ∨ ∃ ds, fraction = '.' :: ds ∧ IsDigits ds
  exponent_ok : exponent = [] ∨ ∃ mark sign ds, exponent = mark :: (sign ++ ds) ∧
    (mark = 'e' ∨ mark = 'E') ∧ (sign = [] ∨ sign = ['+'] ∨ sign = ['-']) ∧ IsDigits ds

namespace Numeral

/-- The characters of a numeral. -/
def chars (n : Numeral) : List Char := n.sign ++ n.whole ++ n.fraction ++ n.exponent

/-- The token that a numeral is read as: a float if it has a fraction or an exponent. -/
def token (n : Numeral) : Token :=
  if n.fraction.isEmpty && n.exponent.isEmpty then .int (String.ofList n.chars)
  else .float (String.ofList n.chars)

end Numeral

/-- Whether a text is a numeral without a fraction and an exponent. -/
def IsIntegerText (s : String) : Prop := ∃ n : Numeral, n.token = .int s

/-- Whether a text is a numeral with a fraction or an exponent. -/
def IsFloatText (s : String) : Prop := ∃ n : Numeral, n.token = .float s

namespace Literal

/-- Whether the characters do not start with a digit. -/
def NoDigit (k : List Char) : Prop := ∀ c ∈ k.head?, c.isDigit = false

/-- At a boundary no digit follows. -/
theorem noDigit_of_boundary {k : List Char} (hk : Boundary k) : NoDigit k := by
  intro c hc
  have hb := hk c hc
  simp only [isBoundary, isNameChar, Bool.and_eq_true, Bool.not_eq_true', Bool.or_eq_false_iff] at hb
  exact hb.1.1.1.2

/-- A run of digits is read up to the first other character. -/
theorem readDigits_append {ds k : List Char} (hds : IsDigits ds) (hk : NoDigit k) :
    readDigits (ds ++ k) = .ok (ds, k) := by
  obtain ⟨hne, hall⟩ := hds
  have hhead : ((ds ++ k).head?.map Char.isDigit).getD false = true := by
    cases ds with
    | nil => exact absurd rfl hne
    | cons d ds => simp [hall d (by simp)]
  have hk' : k.takeWhile Char.isDigit = [] ∧ k.dropWhile Char.isDigit = k := by
    cases k with
    | nil => simp
    | cons c k => simp [hk c (by simp)]
  rw [readDigits, if_pos hhead, List.takeWhile_append_of_pos hall, List.dropWhile_append_of_pos hall,
    hk'.1, hk'.2, List.append_nil]

/-- What is read as digits is digits, and no digit is left behind them. -/
theorem readDigits_eq_ok {cs ds k : List Char} (h : readDigits cs = .ok (ds, k)) : IsDigits ds := by
  unfold readDigits at h
  split at h
  · next hd =>
    obtain ⟨rfl, -⟩ := by simpa using h
    refine ⟨?_, fun c hc => List.mem_takeWhile_imp hc⟩
    cases cs with
    | nil => simp at hd
    | cons c cs =>
      have hc : c.isDigit = true := by simpa using hd
      simp [hc]
  · simp at h

/-- Digits without a leading zero are read up to where they end. -/
theorem readWhole_append {ds k : List Char} (hds : IsDigits ds ∧ (ds.head? = some '0' → ds = ['0']))
    (hk : NoDigit k) : readWhole (ds ++ k) = .ok (ds, k) := by
  obtain ⟨hd, hz⟩ := hds
  unfold readWhole
  split
  · next c cs heq =>
    have hzero : ds = ['0'] := by
      apply hz
      cases ds with
      | nil => exact absurd rfl hd.1
      | cons d ds => rw [List.cons_append] at heq; simp [(List.cons.inj heq).1]
    subst hzero
    obtain rfl : k = c :: cs := by simpa using heq
    rw [hk c (by simp)]
    rfl
  · exact readDigits_append hd hk

/-- What is read as a whole part is a run of digits without a leading zero. -/
theorem readWhole_eq_ok {cs ds k : List Char} (h : readWhole cs = .ok (ds, k)) :
    IsDigits ds ∧ (ds.head? = some '0' → ds = ['0']) := by
  unfold readWhole at h
  split at h
  · next c cs =>
    split at h
    · simp at h
    · obtain ⟨rfl, -⟩ := by simpa using h
      exact ⟨⟨by simp, by simp⟩, fun _ => rfl⟩
  · next hcs =>
    refine ⟨readDigits_eq_ok h, fun hz => ?_⟩
    -- only a lone zero gets here
    unfold readDigits at h
    split at h
    · obtain ⟨rfl, -⟩ := by simpa using h
      cases cs with
      | nil => simp at hz
      | cons c cs =>
        cases cs with
        | nil =>
          by_cases hc : c.isDigit = true
          · simp [hc] at hz ⊢
            exact hz
          · simp [hc] at hz
        | cons d cs =>
          by_cases hc : c.isDigit = true
          · simp only [List.takeWhile_cons, hc, if_true, List.head?_cons, Option.some.injEq] at hz
            subst hz
            exact absurd rfl (hcs d cs)
          · simp [hc] at hz
    · simp at h

/-- A fraction, or none, is read up to where its digits end. -/
theorem readFraction_append {ds k : List Char}
    (hds : ds = [] ∨ ∃ es, ds = '.' :: es ∧ IsDigits es) (hk : NoDigit k)
    (hp : ∀ c ∈ k.head?, c ≠ '.') : readFraction (ds ++ k) = .ok (ds, k) := by
  rcases hds with rfl | ⟨es, rfl, hes⟩
  · rw [List.nil_append]
    unfold readFraction
    split
    · exact absurd rfl (hp '.' (by simp))
    · rfl
  · rw [List.cons_append, readFraction, readDigits_append hes hk]
    rfl

/-- What is read as a fraction is empty or a point with digits. -/
theorem readFraction_eq_ok {cs ds k : List Char} (h : readFraction cs = .ok (ds, k)) :
    ds = [] ∨ ∃ es, ds = '.' :: es ∧ IsDigits es := by
  unfold readFraction at h
  split at h
  · obtain ⟨found, hd, h⟩ := bind_eq_ok.1 h
    obtain ⟨rfl, -⟩ := Prod.mk.inj (pure_eq_ok.1 h)
    exact .inr ⟨found.1, rfl, readDigits_eq_ok hd⟩
  · obtain ⟨rfl, -⟩ := Prod.mk.inj (pure_eq_ok.1 h)
    exact .inl rfl

/-- A sign, or none, is read in front of digits. -/
theorem readSign_append {sign ds : List Char} (k : List Char)
    (hsign : sign = [] ∨ sign = ['+'] ∨ sign = ['-']) (hds : IsDigits ds) :
    readSign (sign ++ ds ++ k) = (sign, ds ++ k) := by
  rcases hsign with rfl | rfl | rfl
  · -- a digit is no sign
    obtain ⟨hne, hall⟩ := hds
    cases ds with
    | nil => exact absurd rfl hne
    | cons d ds =>
      have hd := hall d (by simp)
      rw [List.nil_append, List.cons_append]
      unfold readSign
      split
      · next heq => rw [(List.cons.inj heq).1] at hd; exact absurd hd (by decide)
      · next heq => rw [(List.cons.inj heq).1] at hd; exact absurd hd (by decide)
      · rfl
  · rfl
  · rfl

/-- What is read as a sign is empty, a plus or a minus. -/
theorem readSign_fst (cs : List Char) :
    (readSign cs).1 = [] ∨ (readSign cs).1 = ['+'] ∨ (readSign cs).1 = ['-'] := by
  unfold readSign
  split <;> simp

/-- An exponent, or none, is read up to a boundary. -/
theorem readExponent_append {es k : List Char}
    (hes : es = [] ∨ ∃ mark sign ds, es = mark :: (sign ++ ds) ∧ (mark = 'e' ∨ mark = 'E') ∧
      (sign = [] ∨ sign = ['+'] ∨ sign = ['-']) ∧ IsDigits ds) (hk : Boundary k) :
    readExponent (es ++ k) = .ok (es, k) := by
  rcases hes with rfl | ⟨mark, sign, ds, rfl, hmark, hsign, hds⟩
  · rw [List.nil_append]
    cases k with
    | nil => rfl
    | cons c k =>
      rw [boundary_cons] at hk
      have hc : ¬(c = 'e' ∨ c = 'E') := by
        rintro (rfl | rfl) <;> exact absurd hk (by decide)
      rw [readExponent, if_neg hc]
      rfl
  · rw [List.cons_append, readExponent, if_pos hmark]
    simp only [readSign_append k hsign hds, readDigits_append hds (noDigit_of_boundary hk)]
    rfl

/-- What is read as an exponent is empty, or a mark, a sign and digits. -/
theorem readExponent_eq_ok {cs es k : List Char} (h : readExponent cs = .ok (es, k)) :
    es = [] ∨ ∃ mark sign ds, es = mark :: (sign ++ ds) ∧ (mark = 'e' ∨ mark = 'E') ∧
      (sign = [] ∨ sign = ['+'] ∨ sign = ['-']) ∧ IsDigits ds := by
  unfold readExponent at h
  split at h
  · obtain ⟨rfl, -⟩ := Prod.mk.inj (pure_eq_ok.1 h)
    exact .inl rfl
  · next c cs =>
    split at h
    · next hc =>
      obtain ⟨found, hd, h⟩ := bind_eq_ok.1 h
      obtain ⟨rfl, -⟩ := Prod.mk.inj (pure_eq_ok.1 h)
      exact .inr ⟨c, (readSign cs).1, found.1, rfl, hc, readSign_fst cs, readDigits_eq_ok hd⟩
    · obtain ⟨rfl, -⟩ := Prod.mk.inj (pure_eq_ok.1 h)
      exact .inl rfl

/-- A number may end at a boundary. -/
theorem endsNumber_of_boundary {k : List Char} (hk : Boundary k) : endsNumber k = true := by
  cases k with
  | nil => rfl
  | cons c k =>
    simp only [boundary_cons, isBoundary, isNameChar, Bool.and_eq_true, Bool.not_eq_true',
      Bool.or_eq_false_iff] at hk
    simp [endsNumber, isNameStart, hk.1.1.1.1, hk.1.1.2, hk.1.2]

/-- A minus, or none, is read in front of digits. -/
theorem readMinus_append {sign ds : List Char} (k : List Char) (hsign : sign = [] ∨ sign = ['-'])
    (hds : IsDigits ds) : readMinus (sign ++ ds ++ k) = (sign, ds ++ k) := by
  rcases hsign with rfl | rfl
  · obtain ⟨hne, hall⟩ := hds
    cases ds with
    | nil => exact absurd rfl hne
    | cons d ds =>
      have hd := hall d (by simp)
      rw [List.nil_append, List.cons_append]
      unfold readMinus
      split
      · next heq => rw [(List.cons.inj heq).1] at hd; exact absurd hd (by decide)
      · rfl
  · rfl

/-- What is read as a minus is empty or a minus. -/
theorem readMinus_fst (cs : List Char) : (readMinus cs).1 = [] ∨ (readMinus cs).1 = ['-'] := by
  unfold readMinus
  split <;> simp

/-- Behind the whole part of a numeral stands no digit. -/
theorem noDigit_fraction_append (n : Numeral) {k : List Char} (hk : Boundary k) :
    NoDigit (n.fraction ++ (n.exponent ++ k)) := by
  rcases n.fraction_ok with hf | ⟨ds, hf, -⟩
  · rcases n.exponent_ok with he | ⟨mark, sign, ds, he, hmark, -⟩
    · rw [hf, he]
      exact noDigit_of_boundary hk
    · rw [hf, he]
      intro c hc
      obtain rfl : mark = c := by simpa using hc
      rcases hmark with rfl | rfl <;> decide
  · rw [hf]
    intro c hc
    obtain rfl : '.' = c := by simpa using hc
    decide

/-- Behind the fraction of a numeral stand neither a digit nor a point. -/
theorem noDigit_exponent_append (n : Numeral) {k : List Char} (hk : Boundary k) :
    NoDigit (n.exponent ++ k) ∧ ∀ c ∈ (n.exponent ++ k).head?, c ≠ '.' := by
  rcases n.exponent_ok with he | ⟨mark, sign, ds, he, hmark, -⟩
  · rw [he]
    refine ⟨noDigit_of_boundary hk, fun c hc => ?_⟩
    rintro rfl
    exact absurd (hk '.' hc) (by decide)
  · have hhead : ∀ c ∈ (n.exponent ++ k).head?, c = 'e' ∨ c = 'E' := by
      intro c hc
      rw [he] at hc
      obtain rfl : mark = c := by simpa using hc
      exact hmark
    refine ⟨fun c hc => ?_, fun c hc => ?_⟩
    · rcases hhead c hc with rfl | rfl <;> decide
    · rcases hhead c hc with rfl | rfl <;> decide

/-- A numeral in front of a boundary is read whole. -/
theorem readNumber_chars (n : Numeral) {k : List Char} (hk : Boundary k) :
    readNumber (n.chars ++ k) = .ok (n.token, k) := by
  have hassoc : n.chars ++ k = n.sign ++ n.whole ++ (n.fraction ++ (n.exponent ++ k)) := by
    simp [Numeral.chars]
  obtain ⟨hdigit, hpoint⟩ := noDigit_exponent_append n hk
  rw [hassoc, readNumber, readMinus_append _ n.sign_ok n.whole_ok.1]
  simp only [readWhole_append n.whole_ok (noDigit_fraction_append n hk),
    readFraction_append n.fraction_ok hdigit hpoint, readExponent_append n.exponent_ok hk, bind,
    Except.bind, endsNumber_of_boundary hk, if_true]
  rfl

/-- What is read as a number is a numeral. -/
theorem exists_numeral_of_readNumber {cs k : List Char} {t : Token} (h : readNumber cs = .ok (t, k)) :
    ∃ n : Numeral, t = n.token := by
  unfold readNumber at h
  obtain ⟨whole, hw, h⟩ := bind_eq_ok.1 h
  obtain ⟨fraction, hf, h⟩ := bind_eq_ok.1 h
  obtain ⟨exponent, he, h⟩ := bind_eq_ok.1 h
  dsimp only at h
  split at h
  · obtain ⟨rfl, -⟩ := Prod.mk.inj (pure_eq_ok.1 h)
    exact ⟨⟨(readMinus cs).1, whole.1, fraction.1, exponent.1, readMinus_fst cs, readWhole_eq_ok hw,
      readFraction_eq_ok hf, readExponent_eq_ok he⟩, rfl⟩
  · simp [throw, throwThe, MonadExceptOf.throw] at h

end Literal

/-- A numeral in front of a boundary is read as its token. -/
theorem Tape.ofChars_numeral (n : Numeral) {k : List Char} (hk : Boundary k) :
    ofChars (n.chars ++ k) = .next n.token (n.chars ++ k) (ofChars k) := by
  -- the first character is a minus sign or a digit
  obtain ⟨c, cs, hcs, hc⟩ : ∃ c cs, n.chars = c :: cs ∧ (c = '-' ∨ c.isDigit = true) := by
    obtain ⟨hne, hall⟩ := n.whole_ok.1
    obtain ⟨d, ds, hd⟩ := List.exists_cons_of_ne_nil hne
    unfold Numeral.chars
    rcases n.sign_ok with hs | hs
    · exact ⟨d, ds ++ n.fraction ++ n.exponent, by rw [hs, hd]; simp, .inr (hall d (by simp [hd]))⟩
    · exact ⟨'-', n.whole ++ n.fraction ++ n.exponent, by rw [hs]; simp, .inl rfl⟩
  have hread := Literal.readNumber_chars n hk
  have hne : ∀ d : Char, d ≠ '-' → d.isDigit = false → c ≠ d := by
    rintro d hminus hdigit rfl
    rcases hc with rfl | hc
    · exact hminus rfl
    · rw [hc] at hdigit
      exact Bool.noConfusion hdigit
  rw [hcs, List.cons_append] at hread ⊢
  refine ofChars_token ?_ (hne _ (by decide) (by decide)) ?_
  · rw [Bool.eq_false_iff]
    intro hi
    simp only [isIgnored, Bool.or_eq_true, beq_iff_eq] at hi
    rcases hi with ((((hi | hi) | hi) | hi) | hi) | hi <;>
      exact hne _ (by decide) (by decide) hi
  · have hp : Punct.ofChar? c = none := by
      unfold Punct.ofChar?
      repeat rw [if_neg (hne _ (by decide) (by decide))]
    rw [readToken, hp]
    simp only [hne '.' (by decide) (by decide), hne '"' (by decide) (by decide), hc, if_true, if_false]
    exact hread

end GraphDoc
