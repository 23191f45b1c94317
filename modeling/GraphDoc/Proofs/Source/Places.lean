import GraphDoc.Proofs.Source.Lexeme

/-!
# Places in a source

Where reading fails, the fault is reported at a place in the source: of the characters from there on, there are no more
than the source has. So is the fault at which a tape ends, and the place of every token on it.
-/

namespace GraphDoc

/-- Whether a reading that fails does so with at most `n` characters left, and one that succeeds has the given
property. -/
def SyntaxError.Reports {α : Type} (n : Nat) (P : α → Prop) : Except SyntaxError α → Prop
  | .ok a => P a
  | .error e => e.left ≤ n

namespace SyntaxError.Reports

variable {α β : Type} {n : Nat} {P : α → Prop} {Q : β → Prop}

/-- Two steps report within the bound when each does. -/
theorem bind {x : Except SyntaxError α} {f : α → Except SyntaxError β} (hx : Reports n P x)
    (hf : ∀ a, x = .ok a → P a → Reports n Q (f a)) : Reports n Q (x >>= f) := by
  cases x with
  | error e => exact hx
  | ok a => exact hf a rfl hx

/-- A bound may be raised. -/
theorem mono {m : Nat} {x : Except SyntaxError α} (hx : Reports n P x) (hm : n ≤ m) : Reports m P x := by
  cases x with
  | error e => exact Nat.le_trans hx hm
  | ok a => exact hx

/-- A result has the property promised. -/
theorem ok {x : Except SyntaxError α} (hx : Reports n P x) {a : α} (h : x = .ok a) : P a := by
  rwa [h] at hx

/-- An error lies within the bound. -/
theorem error {x : Except SyntaxError α} (hx : Reports n P x) {e : SyntaxError} (h : x = .error e) : e.left ≤ n := by
  rwa [h] at hx

end SyntaxError.Reports

open SyntaxError (Reports)

/-! ## Literals -/

namespace Literal

/-- Whether a reader of the given characters fails at a place among them, if it fails. -/
def FailsAmong {α : Type} (cs : List Char) (x : Except SyntaxError α) : Prop := Reports cs.length (fun _ => True) x

/-- A missing digit is reported inside the text that was to be read. -/
theorem failsAmong_readDigits (cs : List Char) : FailsAmong cs (readDigits cs) := by
  rw [readDigits]
  split
  · trivial
  · exact Nat.le_refl cs.length

/-- A wrong whole part is reported inside the text that was to be read. -/
theorem failsAmong_readWhole (cs : List Char) : FailsAmong cs (readWhole cs) := by
  unfold readWhole
  split
  · split
    · exact Nat.le_succ _
    · trivial
  · exact failsAmong_readDigits cs

/-- A wrong fraction is reported inside the text that was to be read. -/
theorem failsAmong_readFraction (cs : List Char) : FailsAmong cs (readFraction cs) := by
  unfold readFraction
  split
  · next cs =>
    exact ((failsAmong_readDigits cs).mono (Nat.le_succ _)).bind fun _ _ _ => trivial
  · trivial

/-- A wrong exponent is reported inside the text that was to be read. -/
theorem failsAmong_readExponent (cs : List Char) : FailsAmong cs (readExponent cs) := by
  unfold readExponent
  split
  · trivial
  · next c cs =>
    split
    · have hsign : (readSign cs).2.length ≤ (c :: cs).length := Nat.le_succ_of_le (readSign_le cs)
      exact ((failsAmong_readDigits (readSign cs).2).mono hsign).bind fun _ _ _ => trivial
    · trivial

/-- A number is reported inside its text, whichever of its parts is wrong. -/
theorem failsAmong_readNumber (cs : List Char) : FailsAmong cs (readNumber cs) := by
  rw [readNumber]
  have hminus := readMinus_le cs
  refine ((failsAmong_readWhole _).mono hminus).bind fun whole hwhole _ => ?_
  have hwhole' : whole.2.length ≤ cs.length := Nat.le_trans (Nat.le_of_lt (readWhole_lt hwhole)) hminus
  refine ((failsAmong_readFraction _).mono hwhole').bind fun fraction hfraction _ => ?_
  have hfraction' : fraction.2.length ≤ cs.length := Nat.le_trans (readFraction_le hfraction) hwhole'
  refine ((failsAmong_readExponent _).mono hfraction').bind fun exponent hexponent _ => ?_
  dsimp only
  split
  · trivial
  · exact Nat.le_trans (readExponent_le hexponent) hfraction'

/-- A string that breaks off, or holds a bad escape, is reported inside its text. -/
theorem failsAmong_readString (cs : List Char) : FailsAmong cs (readString cs) := by
  fun_induction readString cs with
  | case1 => exact Nat.le_refl 0
  | case2 => trivial
  | case3 c cs => exact Nat.le_refl _
  | case4 cs fault => exact Nat.le_refl _
  | case5 cs d count _ _ _ ih =>
    refine (ih.mono ?_).bind fun _ _ _ => trivial
    simp only [List.length_drop, List.length_cons]
    omega
  | case6 c cs _ _ _ ih => exact (ih.mono (Nat.le_succ _)).bind fun _ _ _ => trivial

/-- A block string that breaks off is reported inside its text. -/
theorem failsAmong_readRawBlock (cs : List Char) : FailsAmong cs (readRawBlock cs) := by
  fun_induction readRawBlock cs with
  | case1 => exact Nat.le_refl 0
  | case2 => trivial
  | case3 cs ih =>
    refine (ih.mono ?_).bind fun _ _ _ => trivial
    simp only [List.length_cons]
    omega
  | case4 c cs _ _ ih => exact (ih.mono (Nat.le_succ _)).bind fun _ _ _ => trivial

/-- Both kinds of string report inside their text. -/
theorem failsAmong_readQuoted (cs : List Char) : FailsAmong cs (readQuoted cs) := by
  unfold readQuoted
  split
  · next cs =>
    refine ((failsAmong_readRawBlock cs).mono ?_).bind fun _ _ _ => trivial
    simp only [List.length_cons]
    omega
  · exact (failsAmong_readString _).bind fun _ _ _ => trivial

end Literal

/-! ## Tapes -/

namespace Tape

open Literal (FailsAmong)

/-- Points that are no spread are reported where they stand. -/
theorem failsAmong_readPoints (cs : List Char) : FailsAmong ('.' :: cs) (readPoints cs) := by
  unfold readPoints
  split
  · trivial
  · exact Nat.le_refl _
  · exact Nat.le_refl _

/-- Whatever token is tried, its error is reported inside the text. -/
theorem failsAmong_readToken (c : Char) (cs : List Char) : FailsAmong (c :: cs) (readToken c cs) := by
  unfold readToken
  split
  · trivial
  · split_ifs with hpoint hquote hnumber hname hsingle
    · subst hpoint
      exact failsAmong_readPoints cs
    · exact (Literal.failsAmong_readQuoted cs).mono (Nat.le_succ _)
    · exact Literal.failsAmong_readNumber (c :: cs)
    · trivial
    · exact Nat.le_refl _
    · exact Nat.le_refl _

/-- Whether all places on a tape, and the fault that it ends at, have at most `n` characters left. -/
def Within (n : Nat) : Tape → Prop
  | .finish => True
  | .fault e => e.left ≤ n
  | .next _ place rest => place.length ≤ n ∧ rest.Within n

/-- A tape that lies within a bound lies within a larger one. -/
theorem Within.mono {n m : Nat} {tape : Tape} (h : tape.Within n) (hm : n ≤ m) : tape.Within m := by
  induction tape with
  | finish => trivial
  | fault e => exact Nat.le_trans h hm
  | next token place rest ih => exact ⟨Nat.le_trans h.1 hm, ih h.2⟩

/-- The next token of a source stands in the source, and so does a fault that is met instead. -/
theorem reports_readNext (cs : List Char) :
    Reports cs.length (fun found => ∀ next ∈ found, next.2.1.length ≤ cs.length) (readNext cs) := by
  have hskip := skipIgnored_le false cs
  unfold readNext
  split
  · exact fun next hnext => by cases hnext
  · next c rest heq =>
    rw [heq] at hskip
    have htoken := failsAmong_readToken c rest
    cases h : readToken c rest with
    | error e =>
      rw [h] at htoken
      exact Nat.le_trans htoken hskip
    | ok found =>
      intro next hnext
      obtain rfl := Option.some.inj hnext
      exact hskip

/-- All that is on the tape of a source stands in the source. -/
theorem within_ofChars (cs : List Char) : (ofChars cs).Within cs.length := by
  have hnext := reports_readNext cs
  rw [ofChars_eq]
  cases h : readNext cs with
  | error e => exact hnext.error h
  | ok found =>
    cases found with
    | none => trivial
    | some found =>
      obtain ⟨token, place, rest⟩ := found
      have hlt : rest.length < cs.length := readNext_lt h
      exact ⟨hnext.ok h _ rfl, (within_ofChars rest).mono (Nat.le_of_lt hlt)⟩
termination_by cs.length

end Tape

end GraphDoc
