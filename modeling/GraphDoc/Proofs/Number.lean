import GraphDoc.Proofs.Source.Numeral
import Mathlib.Tactic.Ring

/-!
# Printed numbers

The text of an integer is a numeral without a fraction and an exponent, and reads back as the integer.
The text of a finite double is a numeral with one of them.
-/

namespace GraphDoc

/-! ## Decimal digits -/

/-- The digits are the characters of codes 48 to 57. -/
theorem isDigit_iff_toNat {c : Char} : c.isDigit = true ↔ 48 ≤ c.toNat ∧ c.toNat ≤ 57 := by
  simp only [Char.isDigit, Bool.and_eq_true, decide_eq_true_eq, UInt32.le_iff_toNat_le, ge_iff_le]
  rfl

/-- A single zero is a run of digits. -/
theorem isDigits_zero : IsDigits ['0'] := by
  refine ⟨by simp, fun c hc => ?_⟩
  rw [List.mem_singleton.1 hc]
  rfl

/-- The decimal digits of a natural number are a run of digits. -/
theorem isDigits_toDigits (n : Nat) : IsDigits (Nat.toDigits 10 n) :=
  ⟨Nat.toDigits_ne_nil, fun _ hc => Nat.isDigit_of_mem_toDigits (by decide) (by decide) hc⟩

/-- The decimal digits of a positive number do not start with a zero. -/
theorem head?_toDigits_ne_zero {n : Nat} (hn : 0 < n) : (Nat.toDigits 10 n).head? ≠ some '0' := by
  induction n using Nat.strong_induction_on with
  | _ n ih =>
    rw [Nat.toDigits_eq_if (by decide)]
    split
    · simp
      omega
    · have hlt : n / 10 < n := Nat.div_lt_self hn (by decide)
      have hpos : 0 < n / 10 := by omega
      obtain ⟨d, ds, hd⟩ := List.exists_cons_of_ne_nil (Nat.toDigits_ne_nil (n := n / 10) (b := 10))
      have hhead := ih _ hlt hpos
      rw [hd] at hhead ⊢
      exact hhead

/-- The decimal digits of a number are those of a whole part. -/
theorem toDigits_whole_ok (n : Nat) :
    IsDigits (Nat.toDigits 10 n) ∧
      ((Nat.toDigits 10 n).head? = some '0' → Nat.toDigits 10 n = ['0']) := by
  refine ⟨isDigits_toDigits n, fun h => ?_⟩
  rcases Nat.eq_zero_or_pos n with rfl | hn
  · rfl
  · exact absurd h (head?_toDigits_ne_zero hn)

/-- A run of `n` digits stands for a number below `10 ^ n`. -/
theorem ofDigitChars_lt_pow {ds : List Char} (hds : ∀ c ∈ ds, c.isDigit = true) :
    Nat.ofDigitChars 10 ds 0 < 10 ^ ds.length := by
  induction ds with
  | nil => simp
  | cons d ds ih =>
    have htail := ih fun c hc => hds c (by simp [hc])
    have hd := hds d (by simp)
    have hle : d.toNat - '0'.toNat ≤ 9 := by
      have h0 : '0'.toNat = 48 := rfl
      have hrange := isDigit_iff_toNat.1 hd
      omega
    rw [Nat.ofDigitChars_cons, Nat.ofDigitChars_eq_ofDigitChars_zero, List.length_cons, Nat.pow_succ]
    calc 10 ^ ds.length * (10 * 0 + (d.toNat - '0'.toNat)) + Nat.ofDigitChars 10 ds 0
        < 10 ^ ds.length * (10 * 0 + (d.toNat - '0'.toNat)) + 10 ^ ds.length := by omega
      _ = 10 ^ ds.length * (d.toNat - '0'.toNat + 1) := by ring
      _ ≤ 10 ^ ds.length * 10 := Nat.mul_le_mul_left _ (by omega)

/-! ## Integers -/

namespace Integer

/-- The text of an integer is a numeral that is read as an integer. -/
theorem exists_numeral (n : Int) :
    ∃ m : Numeral, m.chars = (text n).toList ∧ m.token = .int (text n) := by
  refine ⟨⟨if n < 0 then ['-'] else [], Nat.toDigits 10 n.natAbs, [], [], by split <;> simp,
    toDigits_whole_ok _, .inl rfl, .inl rfl⟩, ?_, ?_⟩
  · unfold Numeral.chars text
    split <;> simp
  · unfold Numeral.token Numeral.chars text
    split <;> simp

/-- Digits and a minus sign are their own ASCII counterparts. -/
theorem fold_of_isDigit {c : Char} (hc : c = '-' ∨ c.isDigit = true) : fold c = c := by
  have hlt : c.toNat < 127 := by
    rcases hc with rfl | hc
    · decide
    · have hrange := isDigit_iff_toNat.1 hc
      omega
  rw [fold, if_pos hlt]

/-- A run of digits holds no separator, so none is misplaced. -/
theorem wellSpaced_of_isDigits {ds : List Char} (hds : IsDigits ds) : wellSpaced ds = true := by
  obtain ⟨hne, hall⟩ := hds
  fun_induction wellSpaced ds with
  | case1 => exact absurd rfl hne
  | case2 c => exact hall c (by simp)
  | case3 c d cs ih =>
    have hrest := ih (by simp) fun e he => hall e (by simp [he])
    simp [hall c (by simp), hrest]

/-- A digit is no white space. -/
theorem not_isMargin_of_isDigit {c : Char} (hc : c.isDigit = true) : isMargin c = false := by
  have hrange := isDigit_iff_toNat.1 hc
  have hspace : c ≠ ' ' := by
    rintro rfl
    cases hc
  simp only [isMargin, beq_eq_false_iff_ne.2 hspace, Bool.false_or, Bool.and_eq_false_iff, decide_eq_false_iff_not]
  omega

/-- Nothing is taken off digits but a minus sign. -/
theorem splitSign_digits {ds : List Char} (isNegative : Bool) (hds : IsDigits ds) :
    splitSign (((if isNegative then '-' :: ds else ds).map fold).dropWhile isMargin) = (isNegative, ds) := by
  obtain ⟨hne, hall⟩ := hds
  have hfold : (if isNegative then '-' :: ds else ds).map fold = if isNegative then '-' :: ds else ds := by
    refine (List.map_congr_left fun c hc => fold_of_isDigit ?_).trans (List.map_id _)
    cases isNegative
    · exact .inr (hall c hc)
    · exact (List.mem_cons.1 hc).imp id (hall c)
  obtain ⟨d, es, hd⟩ := List.exists_cons_of_ne_nil hne
  have hdigit : d.isDigit = true := hall d (by simp [hd])
  rw [hfold]
  cases isNegative
  · simp only [Bool.false_eq_true, if_false, hd, List.dropWhile_cons, not_isMargin_of_isDigit hdigit]
    unfold splitSign
    split
    · next heq =>
      rw [(List.cons.inj heq).1] at hdigit
      cases hdigit
    · next heq =>
      rw [(List.cons.inj heq).1] at hdigit
      cases hdigit
    · rfl
  · rfl

/-- The digits of a number, with or without a minus sign, read as that number. -/
theorem read_digits {ds : List Char} (isNegative : Bool) (hds : IsDigits ds)
    (hlen : ds.length ≤ digitLimit) :
    read (String.ofList (if isNegative then '-' :: ds else ds)) =
      .ok (if isNegative then -(Nat.ofDigitChars 10 ds 0 : Int) else Nat.ofDigitChars 10 ds 0) := by
  have hall := hds.2
  have hrun : ds.takeWhile (fun c => c.isDigit || c == '_') = ds := by
    rw [List.takeWhile_eq_self_iff]
    intro c hc
    simp [hall c hc]
  have hrest : ds.dropWhile (fun c => c.isDigit || c == '_') = [] := by
    rw [List.dropWhile_eq_nil_iff]
    intro c hc
    simp [hall c hc]
  have hfilter : ds.filter Char.isDigit = ds := List.filter_eq_self.2 hall
  have hhead : (ds.head? == some '_') = false := by
    rw [beq_eq_false_iff_ne]
    intro heq
    have hdigit := hall '_' (List.mem_of_mem_head? heq)
    cases hdigit
  unfold read
  rw [String.toList_ofList, splitSign_digits isNegative hds]
  simp only [hrun, hrest, hfilter, hhead, wellSpaced_of_isDigits hds, Nat.not_lt.2 hlen, List.all_nil,
    Bool.not_true, Bool.or_self, Bool.false_eq_true, if_false]
  rfl

/-- The text of an integer reads back as the integer. -/
theorem read_text {n : Int} (h : isTooLong n = false) : read (text n) = .ok n := by
  have hlen : (Nat.toDigits 10 n.natAbs).length ≤ digitLimit := by
    simpa [isTooLong] using h
  have hread := read_digits (decide (n < 0)) (isDigits_toDigits n.natAbs) hlen
  simp only [decide_eq_true_eq, Nat.ofDigitChars_ten_toDigits] at hread
  rw [text, hread]
  congr 1
  split <;> omega

/-- An integer that was read has no more digits than may be written. -/
theorem isTooLong_of_read {s : String} {n : Int} (h : read s = .ok n) : isTooLong n = false := by
  unfold read at h
  simp only at h
  split at h
  · simp at h
  split at h
  · simp at h
  next hlen =>
  split at h
  · simp at h
  · rw [Except.ok.injEq] at h
    -- digits are worth less than the power of ten with as many zeros
    rw [isTooLong, decide_eq_false_iff_not, Nat.not_lt, Nat.length_toDigits_le_iff (by decide) (by decide)]
    have hlt := ofDigitChars_lt_pow (fun c hc => (List.mem_filter.1 hc).2 :
      ∀ c ∈ ((splitSign ((s.toList.map fold).dropWhile isMargin)).2.takeWhile
        fun c => c.isDigit || c == '_').filter Char.isDigit, c.isDigit = true)
    have hpow := Nat.pow_le_pow_right (show 0 < 10 by decide) (Nat.not_lt.1 hlen)
    have habs : n.natAbs = Nat.ofDigitChars 10 (((splitSign ((s.toList.map fold).dropWhile
        isMargin)).2.takeWhile fun c => c.isDigit || c == '_').filter Char.isDigit) 0 := by
      rw [← h, Nat.ofDigitChars_eq_foldl]
      split <;> simp [ofDigits]
    rw [habs]
    exact Nat.lt_of_lt_of_le hlt hpow

end Integer

/-! ## Doubles -/

/-- Without its trailing zeros a run of digits keeps its first digit, unless that is a zero. -/
theorem dropTrailingZeros_cons {d : Char} (hd : d ≠ '0') (ds : List Char) :
    ∃ es, ((d :: ds).reverse.dropWhile (· == '0')).reverse = d :: es ∧ ∀ c ∈ es, c ∈ ds := by
  refine ⟨(ds.reverse.dropWhile (· == '0')).reverse, ?_, fun c hc => ?_⟩
  · rw [List.reverse_cons, List.dropWhile_append]
    split
    · next h =>
      rw [List.isEmpty_iff] at h
      simp [h, hd]
    · simp
  · rw [List.mem_reverse] at hc
    simpa using (List.dropWhile_sublist _).mem hc

namespace Binary64

/-- The significand of a number that is not zero is positive. -/
theorem significand_pos {x : Binary64} (hx : x.isZero = false) : 0 < x.significand := by
  unfold significand
  split
  · next he =>
    have hf : x.fractionBits ≠ 0 := by
      simpa [isZero, he] using hx
    omega
  · have : 0 < Nat.pow 2 52 := by decide
    omega

/-- Zero rounds to no double but itself. -/
theorem holds_zero {x : Binary64} (hx : x.isZero = false) (e : Int) :
    (RoundingRange.of x).holds e 0 = false := by
  have hsig := significand_pos hx
  have hlow : 0 < (RoundingRange.of x).low := by
    show 0 < (4 * x.significand - _) * Nat.pow 2 x.scale.toNat
    apply Nat.mul_pos
    · split <;> omega
    · exact Nat.pow_pos (by decide)
  have hdown : 0 < (RoundingRange.of x).low * Nat.pow 10 (-e).toNat :=
    Nat.mul_pos hlow (Nat.pow_pos (by decide))
  unfold RoundingRange.holds
  simp only [Nat.zero_mul]
  split
  · rw [decide_eq_false (by omega), Bool.false_and]
  · rw [decide_eq_false (by omega), Bool.false_and]

/-- The candidates for the digits of a double are positive. -/
theorem nearest?_pos {x : Binary64} (hx : x.isZero = false) {e : Int} {c : Nat}
    (h : (RoundingRange.of x).nearest? e = some c) : 0 < c := by
  -- whichever neighbour is taken, the range holds it
  have hholds : (RoundingRange.of x).holds e c = true := by
    unfold RoundingRange.nearest? at h
    simp only at h
    split at h
    · simp at h
    · next h1 h2 =>
      obtain rfl := by simpa using h
      exact h1
    · next h1 h2 =>
      obtain rfl := by simpa using h
      exact h2
    · next h1 h2 =>
      split at h
      · obtain rfl := by simpa using h
        exact h1
      · obtain rfl := by simpa using h
        exact h2
  rcases Nat.eq_zero_or_pos c with rfl | hc
  · rw [holds_zero hx] at hholds
    exact Bool.noConfusion hholds
  · exact hc

/-- The digits of a double that is not zero start with a digit other than zero. The first alternative
is the one where no candidate is found. -/
theorem digits_ok {x : Binary64} (hx : x.isZero = false) :
    (x.digits.1 = [] ∧ x.digits.2 = 1) ∨ ∃ d ds, x.digits.1 = d :: ds ∧ d ≠ '0' ∧ IsDigits (d :: ds) := by
  unfold digits
  simp only
  cases hfound : (List.range 17).findSome? fun (n : Nat) =>
      ((RoundingRange.of x).nearest? ((RoundingRange.of x).leading - n)).map fun c =>
        (Nat.toDigits 10 c, (RoundingRange.of x).leading - n) with
  | none => exact .inl ⟨rfl, rfl⟩
  | some found =>
    obtain ⟨n, -, hn⟩ := List.exists_of_findSome?_eq_some hfound
    obtain ⟨c, hc, rfl⟩ := Option.map_eq_some_iff.1 hn
    obtain ⟨d, ds, hd⟩ := List.exists_cons_of_ne_nil (Nat.toDigits_ne_nil (n := c) (b := 10))
    -- a positive number does not start with a zero, so only other zeros can be dropped
    have hzero : d ≠ '0' := by
      have hhead := head?_toDigits_ne_zero (nearest?_pos hx hc)
      rw [hd] at hhead
      simpa using hhead
    obtain ⟨es, hes, hmem⟩ := dropTrailingZeros_cons hzero ds
    refine .inr ⟨d, es, by simpa [hd] using hes, hzero, by simp, fun e he => ?_⟩
    apply (isDigits_toDigits c).2
    rw [hd]
    rcases List.mem_cons.1 he with rfl | he
    · simp
    · simp [hmem e he]

/-- Digits laid out around a point are a whole part and a fraction. -/
theorem positional_ok {ds : List Char} {point : Int}
    (hds : (ds = [] ∧ point = 1) ∨ ∃ d es, ds = d :: es ∧ d ≠ '0' ∧ IsDigits (d :: es)) :
    ∃ whole fraction, positional ds point = whole ++ '.' :: fraction ∧ IsDigits fraction ∧
      (IsDigits whole ∧ (whole.head? = some '0' → whole = ['0'])) := by
  have hzeros : ∀ n, ∀ c ∈ List.replicate n '0', c.isDigit = true := by
    intro n c hc
    rw [List.eq_of_mem_replicate hc]
    decide
  rcases hds with ⟨rfl, rfl⟩ | ⟨d, es, rfl, hd, hne, hall⟩
  · exact ⟨['0'], ['0'], rfl, isDigits_zero, isDigits_zero, fun _ => rfl⟩
  · unfold positional
    -- the point stands in front of all digits, among them, or behind them
    split_ifs with h1 h2
    · refine ⟨['0'], List.replicate (-point).toNat '0' ++ d :: es, rfl, ⟨by simp, fun c hc => ?_⟩,
        isDigits_zero, fun _ => rfl⟩
      rcases List.mem_append.1 hc with hc | hc
      · exact hzeros _ c hc
      · exact hall c hc
    · obtain ⟨n, hn⟩ : ∃ n, point.toNat = n + 1 := ⟨point.toNat - 1, by omega⟩
      refine ⟨(d :: es).take point.toNat, (d :: es).drop point.toNat, rfl, ⟨?_, fun c hc => ?_⟩,
        ⟨?_, fun c hc => ?_⟩, fun hz => ?_⟩
      · rw [Ne, List.drop_eq_nil_iff]
        omega
      · exact hall c (List.mem_of_mem_drop hc)
      · simp [hn]
      · exact hall c (List.mem_of_mem_take hc)
      · rw [hn] at hz
        exact absurd (by simpa using hz) hd
    · refine ⟨d :: es ++ List.replicate (point.toNat - (d :: es).length) '0', ['0'], by simp,
        isDigits_zero, ⟨by simp, fun c hc => ?_⟩, fun hz => absurd (by simpa using hz) hd⟩
      rcases List.mem_append.1 hc with hc | hc
      · exact hall c hc
      · exact hzeros _ c hc

/-- Digits in scientific notation are one digit, maybe a fraction, and an exponent. -/
theorem scientific_ok {d : Char} {es : List Char} (hds : IsDigits (d :: es)) (point : Int) :
    ∃ fraction sign exponent, scientific (d :: es) point = d :: (fraction ++ 'e' :: (sign ++ exponent)) ∧
      (fraction = [] ∨ ∃ fs, fraction = '.' :: fs ∧ IsDigits fs) ∧
      (sign = [] ∨ sign = ['+'] ∨ sign = ['-']) ∧ IsDigits exponent := by
  -- an exponent of one digit gets a zero in front
  have hexp : IsDigits (if (Nat.toDigits 10 (point - 1).natAbs).length < 2 then
      '0' :: Nat.toDigits 10 (point - 1).natAbs else Nat.toDigits 10 (point - 1).natAbs) := by
    have hdigits := isDigits_toDigits (point - 1).natAbs
    split
    · refine ⟨by simp, fun c hc => ?_⟩
      rcases List.mem_cons.1 hc with rfl | hc
      · decide
      · exact hdigits.2 c hc
    · exact hdigits
  have hsign : ∀ neg : Prop, [Decidable neg] →
      ([if neg then '-' else '+'] = ([] : List Char) ∨ [if neg then '-' else '+'] = ['+'] ∨
        [if neg then '-' else '+'] = ['-']) := by
    intro neg _
    split <;> simp
  cases es with
  | nil => exact ⟨[], [if point - 1 < 0 then '-' else '+'], _, rfl, .inl rfl, hsign _, hexp⟩
  | cons f fs =>
    exact ⟨'.' :: f :: fs, [if point - 1 < 0 then '-' else '+'], _, rfl,
      .inr ⟨f :: fs, rfl, by simp, fun c hc => hds.2 c (by simp [List.mem_cons.1 hc])⟩, hsign _, hexp⟩

/-- The text of a finite double is a numeral with a fraction or an exponent. -/
theorem isFloatText_text {x : Binary64} (hx : x.isFinite = true) : IsFloatText x.text := by
  have hsign : (if x.isNegative then ['-'] else []) = ([] : List Char) ∨
      (if x.isNegative then ['-'] else []) = ['-'] := by
    cases x.isNegative <;> simp
  have hnan : x.isNaN = false := by
    simp only [isFinite, bne_iff_ne] at hx
    simp [isNaN, hx]
  -- the sign goes in front of whatever the magnitude is written as
  have hsigned : ∀ cs : List Char, (if x.isNegative then '-' :: cs else cs) =
      (if x.isNegative then ['-'] else []) ++ cs := by
    intro cs
    cases x.isNegative <;> rfl
  unfold text
  simp only [hnan, hx, Bool.false_eq_true, if_false, Bool.not_true]
  rw [hsigned]
  generalize (if x.isNegative then ['-'] else []) = minus at hsign
  by_cases hz : x.isZero = true
  · exact ⟨⟨_, ['0'], ['.', '0'], [], hsign, ⟨isDigits_zero, fun _ => rfl⟩,
      .inr ⟨['0'], rfl, isDigits_zero⟩, .inl rfl⟩, by simp [Numeral.token, Numeral.chars, hz]⟩
  · rw [Bool.not_eq_true] at hz
    have hok := digits_ok hz
    simp only [hz, Bool.false_eq_true, if_false]
    split_ifs with hp
    · obtain ⟨whole, fraction, heq, hf, hw⟩ := positional_ok hok
      exact ⟨⟨_, whole, '.' :: fraction, [], hsign, hw, .inr ⟨fraction, rfl, hf⟩, .inl rfl⟩,
        by simp [Numeral.token, Numeral.chars, heq]⟩
    · rcases hok with ⟨-, hpoint⟩ | ⟨d, ds, hds, hd, hdigits⟩
      · exact absurd ⟨by omega, by omega⟩ hp
      · obtain ⟨fraction, sign, exponent, heq, hf, hs, he⟩ := scientific_ok hdigits x.digits.2
        refine ⟨⟨_, [d], fraction, 'e' :: (sign ++ exponent), hsign, ⟨⟨by simp, ?_⟩, ?_⟩, hf,
          .inr ⟨'e', sign, exponent, rfl, .inl rfl, hs, he⟩⟩, ?_⟩
        · simpa using hdigits.2 d (by simp)
        · intro hz
          exact absurd (by simpa using hz) hd
        · rw [hds, heq]
          simp [Numeral.token, Numeral.chars]

end Binary64

end GraphDoc
