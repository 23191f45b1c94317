import GraphDoc.Source.SyntaxError
import GraphDoc.Text.Parts

/-!
# Literals

Reading the numbers and strings of a document off the front of the remaining characters. Every reader
gives back what it leaves. For the readers that the tape needs, a lemma says that this is no longer
than what they were given.
-/

namespace GraphDoc

/-! ## Outcomes -/

/-- A sequence of two steps succeeds only if the first does and the second does on its result. -/
theorem bind_eq_ok {ε α β : Type} {x : Except ε α} {f : α → Except ε β} {b : β} :
    x >>= f = .ok b ↔ ∃ a, x = .ok a ∧ f a = .ok b := by
  cases x <;> simp [bind, Except.bind]

/-- A returned value is the value of the run. -/
theorem pure_eq_ok {ε α : Type} {a b : α} : (pure a : Except ε α) = .ok b ↔ a = b := by
  simp [pure, Except.pure]

namespace Literal

/-! ## Numbers -/

/-- One digit or more. -/
def readDigits (cs : List Char) : Except SyntaxError (List Char × List Char) :=
  if (cs.head?.map Char.isDigit).getD false then
    .ok (cs.takeWhile Char.isDigit, cs.dropWhile Char.isDigit)
  else .error (.before cs (.digitMissing cs.head?))

/-- The part before the point: a lone zero, or digits that do not start with one. -/
def readWhole : List Char → Except SyntaxError (List Char × List Char)
  | '0' :: c :: cs =>
    if c.isDigit then .error (.before (c :: cs) (.digitAfterZero c)) else .ok (['0'], c :: cs)
  | cs => readDigits cs

/-- The part from the point on, if there is one. -/
def readFraction : List Char → Except SyntaxError (List Char × List Char)
  | '.' :: cs => do
    let (digits, rest) ← readDigits cs
    return ('.' :: digits, rest)
  | cs => return ([], cs)

/-- A sign, if there is one. -/
def readSign : List Char → List Char × List Char
  | '+' :: cs => (['+'], cs)
  | '-' :: cs => (['-'], cs)
  | cs => ([], cs)

/-- The exponent, if there is one. -/
def readExponent : List Char → Except SyntaxError (List Char × List Char)
  | [] => return ([], [])
  | c :: cs =>
    if c = 'e' ∨ c = 'E' then do
      let (sign, cs) := readSign cs
      let (digits, rest) ← readDigits cs
      return (c :: sign ++ digits, rest)
    else return ([], c :: cs)

/-- Whether a number may end in front of these characters. -/
def endsNumber (rest : List Char) : Bool :=
  match rest with
  | [] => true
  | c :: _ => c != '.' && !isNameStart c

/-- A minus sign, if there is one. -/
def readMinus : List Char → List Char × List Char
  | '-' :: cs => (['-'], cs)
  | cs => ([], cs)

/-- A number. It is a float if it has a fraction or an exponent. -/
def readNumber (cs : List Char) : Except SyntaxError (Token × List Char) := do
  let (sign, cs) := readMinus cs
  let (whole, cs) ← readWhole cs
  let (fraction, cs) ← readFraction cs
  let (exponent, cs) ← readExponent cs
  let text := String.ofList (sign ++ whole ++ fraction ++ exponent)
  if endsNumber cs then
    return (if fraction.isEmpty && exponent.isEmpty then .int text else .float text, cs)
  else throw (.before cs (.digitMissing cs.head?))

/-! ## Strings -/

/-- The value of a hexadecimal digit. -/
def hexValue? (c : Char) : Option Nat :=
  if c.isDigit then some (c.toNat - '0'.toNat)
  else if 'a' ≤ c ∧ c ≤ 'f' then some (c.toNat - 'a'.toNat + 10)
  else if 'A' ≤ c ∧ c ≤ 'F' then some (c.toNat - 'A'.toNat + 10)
  else none

/-- The number that four hexadecimal digits at the front write. -/
def readHex4? : List Char → Option Nat
  | a :: b :: c :: d :: _ => do
    let a ← hexValue? a
    let b ← hexValue? b
    let c ← hexValue? c
    let d ← hexValue? d
    return ((a * 16 + b) * 16 + c) * 16 + d
  | _ => none

/-- Whether a number is the code point of a character. -/
def isScalar (n : Nat) : Bool := n < 0xd800 || (0xe000 ≤ n && n < 0x110000)

/-- The character that a high and a low surrogate stand for together. -/
def joinSurrogates? (high low : Nat) : Option Char :=
  if 0xd800 ≤ high ∧ high < 0xdc00 ∧ 0xdc00 ≤ low ∧ low < 0xe000 then
    some (Char.ofNat (0x10000 + (high - 0xd800) * 0x400 + (low - 0xdc00)))
  else none

/-- Reads the digits of a braced escape up to its closing brace. Gives the character and the number
of characters read, or else the number read up to the failure. -/
def readBraced (point count : Nat) : List Char → Except Nat (Char × Nat)
  | [] => .error count
  | c :: cs =>
    if c = '}' then
      if count = 0 ∨ !isScalar point then .error (count + 1)
      else .ok (Char.ofNat point, count + 1)
    else
      match hexValue? c with
      | some digit => readBraced (point * 16 + digit) (count + 1) cs
      | none => .error (count + 1)

/-- The character that a one-letter escape stands for. -/
def simpleEscape? (c : Char) : Option Char :=
  if c = '"' then some '"'
  else if c = '\\' then some '\\'
  else if c = '/' then some '/'
  else if c = 'b' then some '\x08'
  else if c = 'f' then some '\x0c'
  else if c = 'n' then some '\n'
  else if c = 'r' then some '\r'
  else if c = 't' then some '\t'
  else none

/-- The most characters a braced escape has behind its opening brace. -/
def bracedLimit : Nat := 9

/-- Reads an escape, given the characters behind its backslash: the character it stands for, and how
many characters it takes behind the backslash. Or the fault. -/
def readEscape (cs : List Char) : Except Fault (Char × Nat) :=
  match cs with
  | 'u' :: '{' :: digits =>
    match readBraced 0 0 (digits.take bracedLimit) with
    | .ok (c, count) => .ok (c, count + 2)
    | .error count =>
      .error (.badUnicodeEscape (String.ofList ('\\' :: cs.take (count + 2))))
  | 'u' :: digits =>
    let fault := Fault.badUnicodeEscape (String.ofList ('\\' :: cs.take 5))
    match readHex4? digits with
    | none => .error fault
    | some code =>
      if isScalar code then .ok (Char.ofNat code, 5)
      else
        match digits.drop 4 with
        | '\\' :: 'u' :: more =>
          match (readHex4? more).bind (joinSurrogates? code) with
          | some c => .ok (c, 11)
          | none => .error fault
        | _ => .error fault
  | c :: _ =>
    match simpleEscape? c with
    | some c => .ok (c, 1)
    | none => .error (.badEscape (String.ofList ['\\', c]))
  | [] => .error (.badEscape "\\")

/-- The value of a string, given the characters behind its opening quote. -/
def readString : List Char → Except SyntaxError (List Char × List Char)
  | [] => .error (.before [] .unterminatedString)
  | c :: cs =>
    if c = '"' then .ok ([], cs)
    else if c = '\n' ∨ c = '\r' then .error (.before (c :: cs) .unterminatedString)
    else if c = '\\' then
      match readEscape cs with
      | .error fault => .error (.before (c :: cs) fault)
      | .ok (d, count) => do
        let (value, rest) ← readString (cs.drop count)
        return (d :: value, rest)
    else do
      let (value, rest) ← readString cs
      return (c :: value, rest)
termination_by cs => cs.length
decreasing_by
  · simp only [List.length_drop, List.length_cons]; omega
  · simp

/-! ## Block strings -/

/-- The raw text of a block string, given the characters behind its opening quotes. -/
def readRawBlock : List Char → Except SyntaxError (List Char × List Char)
  | [] => .error (.before [] .unterminatedString)
  | '"' :: '"' :: '"' :: cs => .ok ([], cs)
  | '\\' :: '"' :: '"' :: '"' :: cs => do
    let (raw, rest) ← readRawBlock cs
    return ('"' :: '"' :: '"' :: raw, rest)
  | c :: cs => do
    let (raw, rest) ← readRawBlock cs
    return (c :: raw, rest)

/-- Whether a character indents a line. -/
def isIndent (c : Char) : Bool := c == ' ' || c == '\t'

/-- Whether a line holds nothing but indentation. -/
def isBlankLine (line : List Char) : Bool := line.all isIndent

/-- The indentation that all lines share which hold something. -/
def commonIndent (lines : List (List Char)) : Nat :=
  ((lines.filter (!isBlankLine ·)).map fun line => (line.takeWhile isIndent).length).min?.getD 0

/-- The lines without their common indent, which the first line does not take part in, and without
the blank lines at either end. -/
def dedent (lines : List (List Char)) : List (List Char) :=
  let rest := lines.drop 1
  let indent := commonIndent rest
  let shifted := lines.take 1 ++ rest.map (·.drop indent)
  let kept := ((lines.zip shifted).dropWhile (isBlankLine ·.1)).reverse.dropWhile (isBlankLine ·.1)
  kept.reverse.map (·.2)

/-- The value of a block string with the given raw text. -/
def blockValue (raw : List Char) : List Char :=
  ['\n'].intercalate (dedent (Text.splitLines raw))

/-- A string or block string at the front, given the characters behind its first quote. -/
def readQuoted (cs : List Char) : Except SyntaxError (Token × List Char) :=
  match cs with
  | '"' :: '"' :: cs => do
    let (raw, rest) ← readRawBlock cs
    return (.blockString (String.ofList (blockValue raw)), rest)
  | cs => do
    let (value, rest) ← readString cs
    return (.string (String.ofList value), rest)

/-! ## What the readers leave -/

/-- Dropping characters of a class makes a text no longer. -/
theorem length_dropWhile_le (p : Char → Bool) (cs : List Char) :
    (cs.dropWhile p).length ≤ cs.length :=
  (List.dropWhile_suffix p).length_le

theorem readDigits_lt {cs ds rest : List Char} (h : readDigits cs = .ok (ds, rest)) :
    rest.length < cs.length := by
  unfold readDigits at h
  split at h
  case isFalse => simp at h
  case isTrue hd =>
    cases cs with
    | nil => simp at hd
    | cons c cs =>
      have hc : c.isDigit = true := by simpa using hd
      obtain ⟨-, rfl⟩ := by simpa using h
      have := length_dropWhile_le Char.isDigit cs
      simp only [List.dropWhile_cons, hc, if_true, List.length_cons]
      omega

theorem readWhole_lt {cs ds rest : List Char} (h : readWhole cs = .ok (ds, rest)) :
    rest.length < cs.length := by
  unfold readWhole at h
  split at h
  · split at h
    · simp at h
    · obtain ⟨-, rfl⟩ := by simpa using h
      simp
  · exact readDigits_lt h

theorem readFraction_le {cs ds rest : List Char} (h : readFraction cs = .ok (ds, rest)) :
    rest.length ≤ cs.length := by
  unfold readFraction at h
  split at h
  · obtain ⟨found, hd, h⟩ := bind_eq_ok.1 h
    obtain ⟨-, rfl⟩ := Prod.mk.inj (pure_eq_ok.1 h)
    have := readDigits_lt hd
    simp only [List.length_cons]
    omega
  · obtain ⟨-, rfl⟩ := Prod.mk.inj (pure_eq_ok.1 h)
    exact Nat.le_refl _

theorem readSign_le (cs : List Char) : (readSign cs).2.length ≤ cs.length := by
  unfold readSign
  split <;> simp

theorem readMinus_le (cs : List Char) : (readMinus cs).2.length ≤ cs.length := by
  unfold readMinus
  split <;> simp

theorem readExponent_le {cs ds rest : List Char} (h : readExponent cs = .ok (ds, rest)) :
    rest.length ≤ cs.length := by
  unfold readExponent at h
  split at h
  · obtain ⟨-, rfl⟩ := Prod.mk.inj (pure_eq_ok.1 h)
    exact Nat.le_refl _
  next c cs =>
    split at h
    · obtain ⟨found, hd, h⟩ := bind_eq_ok.1 h
      obtain ⟨-, rfl⟩ := Prod.mk.inj (pure_eq_ok.1 h)
      have : found.2.length < (readSign cs).2.length := readDigits_lt hd
      have := readSign_le cs
      simp only [List.length_cons]
      omega
    · obtain ⟨-, rfl⟩ := Prod.mk.inj (pure_eq_ok.1 h)
      exact Nat.le_refl _

/-- A number takes at least one character. -/
theorem readNumber_lt {cs rest : List Char} {t : Token} (h : readNumber cs = .ok (t, rest)) :
    rest.length < cs.length := by
  unfold readNumber at h
  obtain ⟨whole, hw, h⟩ := bind_eq_ok.1 h
  obtain ⟨fraction, hf, h⟩ := bind_eq_ok.1 h
  obtain ⟨exponent, he, h⟩ := bind_eq_ok.1 h
  dsimp only at h
  split at h
  · obtain ⟨-, rfl⟩ := Prod.mk.inj (pure_eq_ok.1 h)
    have := readMinus_le cs
    have : whole.2.length < (readMinus cs).2.length := readWhole_lt hw
    have := readFraction_le hf
    have := readExponent_le he
    omega
  · simp [throw, throwThe, MonadExceptOf.throw] at h

/-- A string takes at least its closing quote. -/
theorem readString_lt {cs value rest : List Char} (h : readString cs = .ok (value, rest)) :
    rest.length < cs.length := by
  fun_induction readString cs generalizing value with
  | case1 => simp at h
  | case2 cs =>
    obtain ⟨-, rfl⟩ := by simpa using h
    simp
  | case3 => simp at h
  | case4 => simp at h
  | case5 cs d count _ _ _ ih =>
    obtain ⟨found, hr, h⟩ := bind_eq_ok.1 h
    obtain ⟨-, rfl⟩ := Prod.mk.inj (pure_eq_ok.1 h)
    have := ih hr
    simp only [List.length_drop, List.length_cons] at this ⊢
    omega
  | case6 c cs _ _ _ ih =>
    obtain ⟨found, hr, h⟩ := bind_eq_ok.1 h
    obtain ⟨-, rfl⟩ := Prod.mk.inj (pure_eq_ok.1 h)
    have := ih hr
    simp only [List.length_cons]
    omega

/-- A block string takes at least its closing quotes. -/
theorem readRawBlock_lt {cs raw rest : List Char} (h : readRawBlock cs = .ok (raw, rest)) :
    rest.length < cs.length := by
  fun_induction readRawBlock cs generalizing raw with
  | case1 => simp at h
  | case2 cs =>
    obtain ⟨-, rfl⟩ := by simpa using h
    simp only [List.length_cons]
    omega
  | case3 cs ih =>
    obtain ⟨found, hr, h⟩ := bind_eq_ok.1 h
    obtain ⟨-, rfl⟩ := Prod.mk.inj (pure_eq_ok.1 h)
    have := ih hr
    simp only [List.length_cons]
    omega
  | case4 c cs _ _ ih =>
    obtain ⟨found, hr, h⟩ := bind_eq_ok.1 h
    obtain ⟨-, rfl⟩ := Prod.mk.inj (pure_eq_ok.1 h)
    have := ih hr
    simp only [List.length_cons]
    omega

/-- A string takes at least one character behind its first quote. -/
theorem readQuoted_lt {cs rest : List Char} {t : Token} (h : readQuoted cs = .ok (t, rest)) :
    rest.length < cs.length := by
  unfold readQuoted at h
  split at h
  · obtain ⟨found, hr, h⟩ := bind_eq_ok.1 h
    obtain ⟨-, rfl⟩ := Prod.mk.inj (pure_eq_ok.1 h)
    have := readRawBlock_lt hr
    simp only [List.length_cons]
    omega
  · obtain ⟨found, hr, h⟩ := bind_eq_ok.1 h
    obtain ⟨-, rfl⟩ := Prod.mk.inj (pure_eq_ok.1 h)
    exact readString_lt hr

end Literal

end GraphDoc
