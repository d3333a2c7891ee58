/-
Literals that stand alone in a text.

A literal is written on one line, and reading the line gives the literal and the end mark.
For strings and characters that holds whatever they are made of: a character that would end
the literal, the line or an escape is written with a backslash in front of it.

For doubles it holds as long as they are finite.  A text of digits around a point is always
read, however many digits it has, and a number at least half way between the largest finite
double and the power of two above it is read as infinity, since a half goes to the even
pattern.  Infinity has no digits; it is written as a word, and a word is read as a name.
-/
import Mathlib.Data.List.TakeWhile
import ListSugar.Expr.Printer
import ListSugar.Proofs.Layout.Covered

namespace ListSugar

/-! ### A text of one token -/

theorem Pos.behind_of_line {cs : List Char} (h : '\n' ∉ cs) : behind cs = ⟨1, 1 + cs.length⟩ := by
  have hall : cs.reverse.takeWhile (· ≠ '\n') = cs.reverse := by
    refine List.takeWhile_eq_self_iff.mpr fun c hc => ?_
    have hne : c ≠ '\n' := by
      rintro rfl
      exact h (List.mem_reverse.mp hc)
    simpa using hne
  rw [behind, List.count_eq_zero.mpr h, hall, List.length_reverse]

/-- A text that is used up by its first token has that token and the end mark. -/
theorem Starts.tokenize_eq {text : String} {t : Token} (h : Starts text.toList t []) :
    tokenize text = .ok [⟨t, .start⟩, ⟨.eof, .behind text.toList⟩] := by
  obtain ⟨c, cs, htext, hvalue, hrest⟩ := h
  have hat : LexesAt .start text.toList [⟨t, .start⟩] := by
    rw [htext]
    refine .token hvalue ?_
    rw [hrest]
    exact .nil
  rw [Pos.behind_eq_past]
  exact tokenize_eq_ok_iff_at.mpr ⟨_, hat, rfl⟩

/-! ### Strings and characters -/

/-- No character is written with a line break. -/
theorem newline_notMem_sourceChar (q : Text.Quote) (c : Char) : '\n' ∉ Text.sourceChar q c := by
  intro hmem
  rcases sourceChar_cases q c with ⟨letter, htext, hread⟩ | ⟨htext, -, hline, -⟩
  · rw [htext] at hmem
    obtain rfl : '\n' = letter := by simpa using hmem
    cases hread
  · rw [htext] at hmem
    exact hline (List.mem_singleton.mp hmem).symm

theorem newline_notMem_sourceQuoted (q : Text.Quote) (cs : List Char) :
    '\n' ∉ (Text.sourceQuoted q cs).toList := by
  have hmark : '\n' ≠ q.mark := by cases q <;> decide
  have hchars : '\n' ∉ cs.flatMap (Text.sourceChar q) := by
    rw [List.mem_flatMap]
    rintro ⟨c, -, hc⟩
    exact newline_notMem_sourceChar q c hc
  simp [Text.sourceQuoted, hmark, hchars]

/-- **A quoted literal is written on one line and read back whole**, whatever characters it
holds: line breaks, quotes, backslashes and the character number zero included. -/
theorem tokenize_quoted (s : String) (c : Char) :
    (tokenize (Literal.str s).render
        = .ok [⟨.str s, .start⟩, ⟨.eof, ⟨1, 1 + (Literal.str s).render.length⟩⟩] ∧
      '\n' ∉ (Literal.str s).render.toList) ∧
    (tokenize (Literal.char c).render
        = .ok [⟨.char c, .start⟩, ⟨.eof, ⟨1, 1 + (Literal.char c).render.length⟩⟩] ∧
      '\n' ∉ (Literal.char c).render.toList) := by
  have hstring := newline_notMem_sourceQuoted .string s.toList
  have hcharacter := newline_notMem_sourceQuoted .character [c]
  have hstr := Starts.str s []
  have hchar := Starts.char c []
  rw [List.append_nil] at hstr hchar
  refine ⟨⟨?_, hstring⟩, ?_, hcharacter⟩
  · rw [Literal.render, hstr.tokenize_eq, Pos.behind_of_line hstring, String.length_toList]
  · rw [Literal.render, hchar.tokenize_eq, Pos.behind_of_line hcharacter, String.length_toList]

/-! ### The end of the doubles

Finite patterns are numbered in the order of their values, and the pattern for infinity
comes right after the largest of them.  So a number is too large when its rounded pattern
reaches that one, and this happens half a unit of the last step before the next power of
two, where a tie goes to the even side, which is up.  The three lemmas on rounding say
this of one step, and the rest is to find the step.
-/

namespace Double

open Decimal

/-- Half way between the largest finite double, which is `(2 ^ 53 - 1) * 2 ^ 971`, and the
power of two above it. -/
def overflowBound : Nat := (2 ^ (54 : Nat) - 1) * 2 ^ (970 : Nat)

/-- Rounding stays on its side of a whole number. -/
theorem roundHalfEven_le {n d m : Nat} (hd : 0 < d) (h : n ≤ d * m) : roundHalfEven n d ≤ m := by
  have hsplit := Nat.div_add_mod n d
  unfold roundHalfEven
  generalize n / d = q at hsplit ⊢
  generalize n % d = r at hsplit ⊢
  rcases Nat.lt_or_ge q m with hlt | hge
  · split <;> omega
  · obtain rfl : q = m := by
      refine Nat.le_antisymm (Nat.le_of_mul_le_mul_left ?_ hd) hge
      omega
    rw [if_neg (by omega)]

theorem le_roundHalfEven {n d m : Nat} (hd : 0 < d) (h : d * m ≤ n) : m ≤ roundHalfEven n d := by
  have hquot : m ≤ n / d := (Nat.le_div_iff_mul_le hd).mpr (Nat.mul_comm d m ▸ h)
  unfold roundHalfEven
  split <;> omega

/-- A fraction is rounded to less than an even number when it lies below the half in front of
it; the half itself goes to the even number. -/
theorem roundHalfEven_lt_iff {n d m : Nat} (hd : 0 < d) (hm : m % 2 = 0) :
    roundHalfEven n d < m ↔ 2 * n + d < 2 * (d * m) := by
  have hsplit := Nat.div_add_mod n d
  have hmod := Nat.mod_lt n hd
  unfold roundHalfEven
  generalize n / d = q at hsplit ⊢
  generalize n % d = r at hsplit hmod ⊢
  obtain hle | rfl | hge : m ≤ q ∨ m = q + 1 ∨ q + 2 ≤ m := by omega
  · have hmul := Nat.mul_le_mul_left d hle
    split <;> omega
  · rw [Nat.mul_add, Nat.mul_one]
    split <;> omega
  · have hmul := Nat.mul_le_mul_left d hge
    rw [Nat.mul_add] at hmul
    split <;> omega

/-- How many bits above the first fifty-two a number has, from above and from below. -/
theorem lt_two_pow_shift (w : Nat) :
    w < 2 ^ (w.log2 - fractionBits) * (2 * 2 ^ fractionBits) := by
  rw [← Nat.pow_succ', ← Nat.pow_add]
  refine Nat.lt_of_lt_of_le Nat.lt_log2_self (Nat.pow_le_pow_right (by decide) ?_)
  omega

theorem two_pow_shift_le {w : Nat} (h : 0 < w.log2 - fractionBits) :
    2 ^ (w.log2 - fractionBits) * 2 ^ fractionBits ≤ w := by
  have hne : w ≠ 0 := by
    rintro rfl
    simp [Nat.log2_zero] at h
  rw [← Nat.pow_add, Nat.sub_add_cancel (by omega)]
  exact Nat.log2_self_le hne

/-- Up to which fraction the pattern does not leave the exponent step `top`: up to half a unit
of that step below the next power of two. -/
theorem pattern_lt_iff {n d : Nat} (hd : 0 < d) (top : Nat) :
    ((n / d).log2 - fractionBits) * 2 ^ fractionBits
        + roundHalfEven n (d * 2 ^ ((n / d).log2 - fractionBits)) < (top + 2) * 2 ^ fractionBits ↔
      2 * n + d * 2 ^ top < 2 * (d * 2 ^ top * (2 * 2 ^ fractionBits)) := by
  have hbelow := lt_two_pow_shift (n / d)
  have habove := two_pow_shift_le (w := n / d)
  generalize (n / d).log2 - fractionBits = shift at hbelow habove ⊢
  rw [Nat.div_lt_iff_lt_mul hd, Nat.mul_comm _ d, ← Nat.mul_assoc] at hbelow
  rw [Nat.le_div_iff_mul_le hd, Nat.mul_comm _ d, ← Nat.mul_assoc] at habove
  have hpos : 0 < d * 2 ^ shift := Nat.mul_pos hd (Nat.two_pow_pos shift)
  have hdouble : ∀ {i j : Nat}, i < j → 2 * (d * 2 ^ i) ≤ d * 2 ^ j := by
    intro i j hij
    rw [Nat.mul_left_comm, ← Nat.pow_succ']
    exact Nat.mul_le_mul_left d (Nat.pow_le_pow_right (by decide) hij)
  have hstep : 0 < 2 ^ fractionBits := Nat.two_pow_pos fractionBits
  generalize 2 ^ fractionBits = step at hbelow habove hstep ⊢
  rcases Nat.lt_trichotomy shift top with hlt | rfl | hgt
  · -- With fewer bits cut off the largest pattern still lies before the next step.
    have hlead := roundHalfEven_le hpos (Nat.le_of_lt hbelow)
    have hunits := Nat.mul_le_mul_right (2 * step) (hdouble hlt)
    have hone := Nat.le_mul_of_pos_right (d * 2 ^ top) (Nat.mul_pos (by decide : 0 < 2) hstep)
    have hsteps := Nat.mul_lt_mul_of_pos_right (Nat.add_lt_add_right hlt 2) hstep
    rw [Nat.mul_assoc] at hunits
    rw [Nat.add_mul] at hsteps
    exact iff_of_true (by omega) (by omega)
  · rw [← roundHalfEven_lt_iff hpos (Nat.mul_mod_right 2 step), Nat.add_mul]
    omega
  · -- With more bits cut off the leading bit alone is past the step.
    have hmany := habove (by omega)
    have hlead := le_roundHalfEven hpos hmany
    have hunits := Nat.mul_le_mul_right step (hdouble hgt)
    have hsteps : (top + 2) * step ≤ (shift + 1) * step :=
      Nat.mul_le_mul_right step (Nat.succ_le_succ hgt)
    rw [Nat.mul_assoc] at hunits
    rw [Nat.add_mul shift] at hsteps
    refine iff_of_false (by omega) ?_
    rw [Nat.mul_left_comm _ 2 step]
    omega

theorem magnitude_ofPattern {n : Nat} (h : n < 2 ^ (63 : Nat)) : (ofPattern n).magnitude = n := by
  have hlt : n < 2 ^ (64 : Nat) := Nat.lt_trans h (by decide)
  simp only [magnitude, ofPattern, UInt64.toNat_ofNat', Nat.mod_eq_of_lt hlt, Nat.mod_eq_of_lt h]

/-- Twice a power of two, counted in units. -/
theorem two_pow_units (a : Nat) : 2 ^ (a + 1074 + 1) = 2 * (2 ^ a * unitsPerOne) := by
  rw [unitsPerOne, ← Nat.pow_add, ← Nat.pow_succ']

/-- **The double nearest to a fraction is finite just when the fraction is below the bound.** -/
theorem isFinite_nearest_iff {n d : Nat} (hd : 0 < d) :
    (nearest n d).isFinite = true ↔ n < overflowBound * d := by
  have hunit := unitsPerOne_pos
  have hinf : infinityPattern < 2 ^ (63 : Nat) := by decide
  have hlast : (970 + 1074 + 1 + 2) * 2 ^ fractionBits = infinityPattern := rfl
  have hpattern := pattern_lt_iff (n := n * unitsPerOne) hd (970 + 1074 + 1)
  have hbits : 2 ^ (54 : Nat) = 4 * 2 ^ fractionBits := rfl
  rw [two_pow_units, hlast] at hpattern
  rw [overflowBound, hbits]
  unfold isFinite nearest
  rw [magnitude_ofPattern (Nat.lt_of_le_of_lt (Nat.min_le_right _ _) hinf), decide_eq_true_iff]
  generalize (n * unitsPerOne / d).log2 - fractionBits = shift at hpattern ⊢
  generalize shift * 2 ^ fractionBits
    + roundHalfEven (n * unitsPerOne) (d * 2 ^ shift) = pattern at hpattern ⊢
  generalize 2 ^ fractionBits = step at hpattern ⊢
  generalize 2 ^ (970 : Nat) = half at hpattern ⊢
  -- Both sides have the factor of two units of one.
  have hleft : 2 * (n * unitsPerOne) + d * (2 * (half * unitsPerOne))
      = 2 * unitsPerOne * (n + half * d) := by grind
  have hright : 2 * (d * (2 * (half * unitsPerOne)) * (2 * step))
      = 2 * unitsPerOne * (4 * step * half * d) := by grind
  rw [hleft, hright, Nat.mul_lt_mul_left (Nat.mul_pos (by decide) hunit)] at hpattern
  rw [Nat.sub_mul, Nat.sub_mul, Nat.one_mul]
  omega

/-- A fraction too large for a finite double is read as infinity. -/
theorem nearest_eq_infinity {n d : Nat} (h : (nearest n d).isFinite = false) :
    nearest n d = ofPattern infinityPattern := by
  have hinf : infinityPattern < 2 ^ (63 : Nat) := by decide
  unfold isFinite nearest at h
  rw [magnitude_ofPattern (Nat.lt_of_le_of_lt (Nat.min_le_right _ _) hinf),
    decide_eq_false_iff_not] at h
  unfold nearest
  simp only
  rw [Nat.min_eq_right (by omega)]

/-- Infinity is written as a word with a fraction behind it. -/
theorem sourceText_infinity : (ofPattern infinityPattern).sourceText = "inf.0" := by decide +kernel

/-- The double nearest to what the digits around a point write is finite just when that is
below the bound. -/
theorem isFinite_ofDigits_iff (whole fraction : List Char) :
    (ofDigits whole fraction).toDouble.isFinite = true ↔
      valueOf (whole ++ fraction) < overflowBound * 10 ^ fraction.length := by
  rw [toDouble_ofDigits, ← valueOf_eq]
  exact isFinite_nearest_iff (Nat.pow_pos (by decide))

theorem sourceText_ofDigits (whole fraction : List Char)
    (h : (ofDigits whole fraction).toDouble.isFinite = false) :
    (ofDigits whole fraction).toDouble.sourceText = "inf.0" := by
  rw [toDouble_ofDigits] at h ⊢
  rw [nearest_eq_infinity h, sourceText_infinity]

theorem isNegative_ofDigits (whole fraction : List Char) :
    (ofDigits whole fraction).toDouble.isNegative = false :=
  isNegative_nearest _ _

end Double

/-! ### Doubles

Whatever the digits are, they are read as a double, and the question is what that double
is written as.  A finite one is written with digits that read back.  Infinity is written
as `inf.0`, and that text is read as three tokens.
-/

/-- The text of infinity is a name, a point and a number. -/
theorem tokenize_infinity : tokenize "inf.0" = .ok [⟨.ident "inf", ⟨1, 1⟩⟩,
    ⟨.symbol .dot, ⟨1, 4⟩⟩, ⟨.int 0, ⟨1, 5⟩⟩, ⟨.eof, ⟨1, 6⟩⟩] := by rfl

/-- **Digits around a point are always read as a double, and that double is written as a text
that reads back just when the digits stay below the bound.**  From the bound on the double is
infinity, and its text is read as a name, a point and a number. -/
theorem tokenize_sourceText_iff {source : String} {whole fraction : List Char}
    (hpointed : Double.Pointed source.toList whole fraction) :
    ∃ f, tokenize source = .ok [⟨.double f, .start⟩, ⟨.eof, .behind source.toList⟩] ∧
      (tokenize f.sourceText
          = .ok [⟨.double f, .start⟩, ⟨.eof, .behind f.sourceText.toList⟩] ↔
        Decimal.valueOf (whole ++ fraction) < Double.overflowBound * 10 ^ fraction.length) ∧
      (Double.overflowBound * 10 ^ fraction.length ≤ Decimal.valueOf (whole ++ fraction) →
        f.sourceText = "inf.0" ∧
        tokenize f.sourceText = .ok [⟨.ident "inf", ⟨1, 1⟩⟩, ⟨.symbol .dot, ⟨1, 4⟩⟩,
          ⟨.int 0, ⟨1, 5⟩⟩, ⟨.eof, ⟨1, 6⟩⟩]) := by
  have hread := Starts.pointed hpointed .nil
  have hsign := Double.isNegative_ofDigits whole fraction
  have hfinite := Double.isFinite_ofDigits_iff whole fraction
  have hover := Double.sourceText_ofDigits whole fraction
  rw [List.append_nil] at hread
  generalize (Decimal.ofDigits whole fraction).toDouble = f at hread hsign hfinite hover
  refine ⟨f, hread.tokenize_eq, ⟨fun h => ?_, fun h => ?_⟩, fun h => ?_⟩
  · refine hfinite.mp (Bool.of_not_eq_false fun hinfinite => ?_)
    rw [hover hinfinite, tokenize_infinity] at h
    cases h
  · have hback := Starts.double (hfinite.mpr h) hsign .nil
    rw [List.append_nil] at hback
    exact hback.tokenize_eq
  · have hinfinite : f.isFinite = false :=
      Bool.eq_false_iff.mpr fun hfin => absurd (hfinite.mp hfin) (Nat.not_lt.mpr h)
    rw [hover hinfinite]
    exact ⟨rfl, tokenize_infinity⟩

/-- A power of ten, written out with a fraction of zero. -/
theorem pointed_powerOfTen (n : Nat) :
    Double.Pointed ('1' :: Decimal.zeros n ++ ['.', '0']) ('1' :: Decimal.zeros n) ['0'] where
  text_eq := rfl
  whole_ne := List.cons_ne_nil _ _
  fraction_ne := List.cons_ne_nil _ _
  whole_digits := List.forall_mem_cons.mpr ⟨rfl, fun _ hc => Decimal.isDigit_of_mem_zeros hc⟩
  fraction_digits := by simp

theorem valueOf_powerOfTen (n : Nat) :
    Decimal.valueOf ('1' :: Decimal.zeros n ++ ['0']) = 10 ^ n * 10 := by
  have hone : Decimal.valueOf ['1'] = 1 := rfl
  calc Decimal.valueOf ('1' :: Decimal.zeros n ++ ['0'])
      = Decimal.valueOf (['1'] ++ Decimal.zeros n) * 10 ^ (1 : Nat) :=
        Decimal.valueOf_append_zeros _ 1
    _ = 10 ^ n * 10 := by
      rw [Decimal.valueOf_append_zeros, hone, Nat.one_mul, Nat.pow_one]

theorem behind_powerOfTen (n : Nat) :
    Pos.behind ('1' :: Decimal.zeros n ++ ['.', '0']) = ⟨1, n + 4⟩ := by
  rw [Pos.behind_of_line (by simp [Decimal.zeros])]
  simp only [Decimal.zeros, List.length_append, List.length_cons, List.length_replicate,
    List.length_nil, Pos.mk.injEq, true_and]
  omega

/-- A one with 309 zeros is too large: it is read as infinity. -/
theorem tokenize_sourceText_iff_overflow :
    ∃ f, tokenize (String.ofList ('1' :: Decimal.zeros 309 ++ ['.', '0']))
        = .ok [⟨.double f, .start⟩, ⟨.eof, ⟨1, 313⟩⟩] ∧
      f.sourceText = "inf.0" ∧
      tokenize f.sourceText ≠ .ok [⟨.double f, .start⟩, ⟨.eof, ⟨1, 6⟩⟩] := by
  have hpointed := pointed_powerOfTen 309
  rw [← String.toList_ofList (l := '1' :: Decimal.zeros 309 ++ ['.', '0'])] at hpointed
  obtain ⟨f, hread, -, hinfinite⟩ := tokenize_sourceText_iff hpointed
  rw [String.toList_ofList, behind_powerOfTen] at hread
  obtain ⟨htext, htokens⟩ := hinfinite (by rw [valueOf_powerOfTen]; decide +kernel)
  refine ⟨f, hread, htext, ?_⟩
  rw [htokens]
  exact fun h => by cases h

end ListSugar
