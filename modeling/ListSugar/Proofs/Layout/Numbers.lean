/-
The text of a number is read as the number.

For whole numbers this is that digits give their value back.  For doubles it has two
halves.  Rounding looks at a fraction only through its value, and the exact value of a
finite double rounds to that double; so whichever decimal is chosen to stand for a
double, the choice was made because it reads back.  And laying out the digits of a
decimal around a point changes the fraction that they write by a power of ten above
and below the line, which rounding does not see.
-/
import ListSugar.Double.Printer

namespace ListSugar

namespace Decimal

/-! ### Runs of digits

The value of a run of digits is that of its parts, each moved up by the digits behind it.
Zeros in front change nothing and zeros behind multiply by ten, which is all that laying
out a decimal does.
-/

theorem valueOf_eq (digits : List Char) : valueOf digits = Nat.ofDigitChars 10 digits 0 := by
  rw [Nat.ofDigitChars_eq_foldl]
  rfl

theorem valueOf_toDigits (n : Nat) : valueOf (Nat.toDigits 10 n) = n := by
  rw [valueOf_eq, Nat.ofDigitChars_ten_toDigits]

theorem valueOf_append (as bs : List Char) :
    valueOf (as ++ bs) = 10 ^ bs.length * valueOf as + valueOf bs := by
  rw [valueOf_eq, valueOf_eq, valueOf_eq, Nat.ofDigitChars_append,
    Nat.ofDigitChars_eq_ofDigitChars_zero]

theorem valueOf_zeros (n : Nat) : valueOf (zeros n) = 0 := by
  rw [valueOf_eq, zeros, Nat.ofDigitChars_replicate_zero, Nat.mul_zero]

theorem valueOf_append_zeros (as : List Char) (n : Nat) :
    valueOf (as ++ zeros n) = valueOf as * 10 ^ n := by
  rw [valueOf_append, valueOf_zeros, zeros, List.length_replicate, Nat.add_zero, Nat.mul_comm]

theorem valueOf_zeros_append (n : Nat) (as : List Char) :
    valueOf (zeros n ++ as) = valueOf as := by
  rw [valueOf_append, valueOf_zeros, Nat.mul_zero, Nat.zero_add]

theorem isDigit_of_mem_zeros {n : Nat} {c : Char} (h : c ∈ zeros n) : c.isDigit = true := by
  rw [List.eq_of_mem_replicate h]
  rfl

/-- The digits of a coefficient are the significant ones and zeros. -/
theorem digits_eq (d : Decimal) :
    ∃ z, d.digits = d.significant ++ zeros z := by
  have hsplit := List.takeWhile_append_dropWhile (p := (· == '0')) (l := d.digits.reverse)
  refine ⟨(d.digits.reverse.takeWhile (· == '0')).length, ?_⟩
  have hzeros : d.digits.reverse.takeWhile (· == '0')
      = zeros (d.digits.reverse.takeWhile (· == '0')).length := by
    refine List.eq_replicate_iff.mpr ⟨rfl, fun c hc => ?_⟩
    have := List.all_eq_true.mp List.all_takeWhile c hc
    simpa using this
  have hrev := congrArg List.reverse hsplit
  rw [List.reverse_append, List.reverse_reverse, hzeros, zeros, List.reverse_replicate] at hrev
  rw [significant, zeros]
  simpa using hrev.symm

theorem isDigit_of_mem_significant {d : Decimal} {c : Char} (h : c ∈ d.significant) :
    c.isDigit = true := by
  obtain ⟨z, hz⟩ := d.digits_eq
  refine Nat.isDigit_of_mem_toDigits (by decide) (by decide) (show c ∈ d.digits from ?_)
  rw [hz]
  exact List.mem_append_left _ h

theorem significant_ne_nil {s : Decimal} (h : s.coeff ≠ 0) : s.significant ≠ [] := by
  intro hnil
  obtain ⟨z, hz⟩ := s.digits_eq
  have hvalue := valueOf_toDigits s.coeff
  rw [show Nat.toDigits 10 s.coeff = s.digits from rfl, hz, hnil, List.nil_append,
    valueOf_zeros] at hvalue
  exact h hvalue.symm

/-- The coefficient and the number of digits of a decimal, by its significant digits. -/
theorem coeff_eq (s : Decimal) : ∃ z : Nat, s.coeff = valueOf s.significant * 10 ^ z ∧
    s.point = s.significant.length + z + s.exponent := by
  obtain ⟨z, hz⟩ := s.digits_eq
  refine ⟨z, ?_, ?_⟩
  · rw [← valueOf_append_zeros, ← hz]
    exact (valueOf_toDigits s.coeff).symm
  · rw [point, hz]
    simp [zeros]

end Decimal

namespace Double

open Decimal

/-! ### Rounding sees only the value of a fraction -/

theorem roundHalfEven_scale {k : Nat} (hk : 0 < k) (n d : Nat) :
    roundHalfEven (k * n) (k * d) = roundHalfEven n d := by
  unfold roundHalfEven
  rw [Nat.mul_mod_mul_left, Nat.mul_div_mul_left n d hk]
  have hlt : k * d < 2 * (k * (n % d)) ↔ d < 2 * (n % d) := by
    rw [Nat.mul_left_comm]
    exact Nat.mul_lt_mul_left hk
  have heq : k * d = 2 * (k * (n % d)) ↔ d = 2 * (n % d) := by
    rw [Nat.mul_left_comm]
    exact Nat.mul_left_cancel_iff hk
  simp only [hlt, heq]

theorem nearest_scale {k : Nat} (hk : 0 < k) (n d : Nat) :
    nearest (k * n) (k * d) = nearest n d := by
  unfold nearest
  rw [Nat.mul_assoc k n, Nat.mul_div_mul_left _ _ hk]
  simp only [Nat.mul_assoc k d, roundHalfEven_scale hk]

/-- Fractions of one value have the same nearest double. -/
theorem nearest_congr {n d n' d' : Nat} (hd : 0 < d) (hd' : 0 < d') (h : n * d' = n' * d) :
    nearest n d = nearest n' d' := by
  rw [← nearest_scale hd' n d, ← nearest_scale hd n' d', Nat.mul_comm d' n, h,
    Nat.mul_comm n' d, Nat.mul_comm d' d]

/-- A decimal written as a whole number over a power of ten. -/
theorem toDouble_eq_nearest {d : Decimal} {value places : Nat}
    (h : d.coeff * 10 ^ d.exponent.toNat * 10 ^ places
      = value * 10 ^ (-d.exponent).toNat) : d.toDouble = nearest value (10 ^ places) :=
  nearest_congr (Nat.pow_pos (by decide)) (Nat.pow_pos (by decide)) h

/-! ### The exact value reads back

A finite double is a whole number of units, each the smallest double.  Reading that number
back asks for rounding once, at a fraction that is a whole number after the shift, where
rounding changes nothing.
-/

/-- The number is neither infinite nor not a number. -/
def isFinite (d : Double) : Bool := d.magnitude < infinityPattern

theorem roundHalfEven_mul (a : Nat) {d : Nat} (hd : 0 < d) : roundHalfEven (a * d) d = a := by
  unfold roundHalfEven
  rw [Nat.mul_mod_left, Nat.mul_div_cancel a hd]
  simp
  omega

theorem unitsPerOne_eq : unitsPerOne = 2 ^ unitPlaces := by
  rw [unitsPerOne, unitPlaces]

theorem unitsPerOne_pos : 0 < unitsPerOne := by
  rw [unitsPerOne_eq]
  exact Nat.two_pow_pos unitPlaces

/-- How far the units of a pattern are shifted, and what is left of them. -/
theorem units_eq (d : Double) :
    ∃ lead, d.units = lead * 2 ^ (d.units.log2 - fractionBits) ∧
      (d.units.log2 - fractionBits) * 2 ^ fractionBits + lead = d.magnitude := by
  unfold units
  split
  · next hsmall =>
    have hlog : d.magnitude.log2 - fractionBits = 0 := by
      by_cases hzero : d.magnitude = 0
      · rw [hzero, Nat.log2_zero]
        rfl
      · have := (Nat.log2_lt hzero).mpr hsmall
        omega
    exact ⟨d.magnitude, by rw [hlog]; simp, by rw [hlog]; simp⟩
  · next hlarge =>
    have hpos : 0 < 2 ^ fractionBits := Nat.pow_pos (by decide)
    have hmod := Nat.mod_lt d.magnitude hpos
    have hquot : 1 ≤ d.magnitude / 2 ^ fractionBits :=
      (Nat.one_le_div_iff hpos).mpr (by omega)
    have hsplit := Nat.div_add_mod d.magnitude (2 ^ fractionBits)
    have hlog : ((2 ^ fractionBits + d.magnitude % 2 ^ fractionBits)
        * 2 ^ (d.magnitude / 2 ^ fractionBits - 1)).log2
          = fractionBits + (d.magnitude / 2 ^ fractionBits - 1) := by
      generalize d.magnitude / 2 ^ fractionBits - 1 = k
      generalize d.magnitude % 2 ^ fractionBits = m at hmod
      have hk : 0 < 2 ^ k := Nat.pow_pos (by decide)
      refine (Nat.log2_eq_iff (Nat.ne_of_gt (Nat.mul_pos (by omega) hk))).mpr ⟨?_, ?_⟩
      · rw [Nat.pow_add]
        exact Nat.mul_le_mul_right _ (by omega)
      · rw [Nat.add_right_comm, Nat.pow_add]
        refine Nat.mul_lt_mul_of_pos_right ?_ hk
        rw [Nat.pow_succ]
        omega
    refine ⟨2 ^ fractionBits + d.magnitude % 2 ^ fractionBits, ?_, ?_⟩
    · rw [hlog, Nat.add_sub_cancel_left]
    · rw [hlog, Nat.add_sub_cancel_left]
      generalize d.magnitude / 2 ^ fractionBits = q at hsplit hquot
      generalize d.magnitude % 2 ^ fractionBits = m at hsplit
      obtain ⟨q, rfl⟩ : ∃ j, q = j + 1 := ⟨q - 1, by omega⟩
      rw [Nat.add_sub_cancel, ← hsplit, Nat.mul_add, Nat.mul_one, Nat.mul_comm q]
      omega

/-- The double of as many units as `d` has is `d` without its sign. -/
theorem nearest_units {d : Double} (hfin : d.isFinite = true) :
    nearest d.units unitsPerOne = d.abs := by
  have hunit := unitsPerOne_pos
  have hmag : d.magnitude < infinityPattern := by simpa [isFinite] using hfin
  obtain ⟨lead, hunits, hpattern⟩ := d.units_eq
  have hround : roundHalfEven (d.units * unitsPerOne)
      (unitsPerOne * 2 ^ (d.units.log2 - fractionBits)) = lead := by
    rw [Nat.mul_comm d.units, roundHalfEven_scale hunit]
    generalize d.units.log2 - fractionBits = shift at hunits
    rw [hunits, roundHalfEven_mul lead (Nat.pow_pos (by decide))]
  unfold nearest
  simp only [Nat.mul_div_cancel _ hunit, hround, hpattern]
  rw [Nat.min_eq_left (Nat.le_of_lt hmag), abs]

theorem exactValue_toDouble {d : Double} (hfin : d.isFinite = true) :
    d.exactValue.toDouble = d.abs := by
  rw [← nearest_units hfin]
  have hten : 10 ^ unitPlaces = 5 ^ unitPlaces * unitsPerOne := by
    have hfactor : 10 = 5 * 2 := rfl
    rw [unitsPerOne_eq, hfactor, Nat.mul_pow]
  have hexp : d.exactValue.exponent.toNat = 0 := by
    simp [exactValue]
  have hexp' : (-d.exactValue.exponent).toNat = unitPlaces := by
    simp [exactValue]
  unfold toDouble
  rw [hexp, hexp', Nat.pow_zero, Nat.mul_one, hten]
  show nearest (d.units * 5 ^ unitPlaces) _ = _
  rw [Nat.mul_comm d.units, nearest_scale (Nat.pow_pos (by decide))]

theorem abs_eq_self {d : Double} (h : d.isNegative = false) : d.abs = d := by
  have hlt : d.bits.toNat < 2 ^ (63 : Nat) := by
    simpa [isNegative] using h
  unfold abs magnitude ofPattern
  rw [Nat.mod_eq_of_lt hlt, UInt64.ofNat_toNat]

/-! ### The shortest decimal reads back

Each candidate is tested by reading it back before it is taken, and where every shorter
one fails there is still the exact value.  So it need not be known which decimal is
chosen.
-/

theorem toDouble_of_cutAt? {d : Double} {cut : Nat} {s : Decimal} (h : d.cutAt? cut = some s) :
    s.toDouble = d.abs := by
  unfold cutAt? at h
  simp only at h
  split at h
  · next hlow =>
    cases h
    exact hlow.1
  split at h
  · next hhigh =>
    cases h
    exact hhigh
  · cases h

theorem shortest_toDouble {d : Double} (hfin : d.isFinite = true) :
    d.shortest.toDouble = d.abs := by
  unfold shortest
  simp only
  cases hfound : (List.range 17).findSome? fun k =>
      d.cutAt? (d.exactValue.digits.length - (k + 1)) with
  | none => exact exactValue_toDouble hfin
  | some s =>
    obtain ⟨k, -, hcut⟩ := List.exists_of_findSome?_eq_some hfound
    exact toDouble_of_cutAt? hcut

theorem nearest_zero (d : Nat) : nearest 0 d = ofPattern 0 := by
  unfold nearest
  simp [roundHalfEven]

/-- Only zero is written with a coefficient of zero. -/
theorem coeff_ne_zero {d : Double} (hzero : d.isZero = false) {s : Decimal}
    (h : s.toDouble = d.abs) : s.coeff ≠ 0 := by
  intro hcoeff
  unfold toDouble at h
  rw [hcoeff, Nat.zero_mul, nearest_zero] at h
  have hmag : d.magnitude < 2 ^ (64 : Nat) :=
    Nat.lt_of_lt_of_le (Nat.mod_lt _ (by decide)) (by decide)
  have hbits := congrArg (fun x => x.bits.toNat) h
  simp only [abs, ofPattern, UInt64.toNat_ofNat', Nat.mod_eq_of_lt hmag] at hbits
  simp [isZero, ← hbits] at hzero

/-! ### Digits around a point

The point falls behind the digits, in front of them or between them, and zeros fill the
gap in the first two cases.  In all three the point moves and the value stays.
-/

/-- A text that the scanner reads as a number with a fraction. -/
structure Pointed (text whole fraction : List Char) : Prop where
  text_eq : text = whole ++ '.' :: fraction
  whole_ne : whole ≠ []
  fraction_ne : fraction ≠ []
  whole_digits : ∀ c ∈ whole, c.isDigit = true
  fraction_digits : ∀ c ∈ fraction, c.isDigit = true

theorem not_point_mem {text : List Char} (h : ∀ c ∈ text, c.isDigit = true) :
    '.' ∉ text := by
  intro hmem
  have := h '.' hmem
  cases this

/-- Moving the point multiplies both sides of the fraction by powers of ten. -/
theorem toDouble_ofDigits_of_shift {s : Decimal} {digits z : Nat}
    (hvalue : s.coeff = digits * 10 ^ z) {whole fraction : List Char} (shift : Nat)
    (hdigits : valueOf (whole ++ fraction) = digits * 10 ^ shift)
    (hshift : (z + fraction.length : Int) + s.exponent = shift) :
    (ofDigits whole fraction).toDouble = s.toDouble := by
  have hexp : z + (s.exponent.toNat + fraction.length) = shift + (-s.exponent).toNat := by omega
  have hcross : s.coeff * 10 ^ s.exponent.toNat * 10 ^ fraction.length
      = valueOf (whole ++ fraction) * 10 ^ (-s.exponent).toNat := by
    rw [hvalue, hdigits, Nat.mul_assoc, Nat.mul_assoc, Nat.mul_assoc, ← Nat.pow_add,
      ← Nat.pow_add, ← Nat.pow_add, hexp]
  rw [toDouble_eq_nearest hcross]
  unfold toDouble
  simp [ofDigits]

/-- **The digits of a decimal, laid out around a point, write the same value.** -/
theorem positional_pointed {s : Decimal} (hcoeff : s.coeff ≠ 0) :
    ∃ whole fraction, Pointed (withPoint s.positional) whole fraction ∧
      (ofDigits whole fraction).toDouble = s.toDouble := by
  have hne := significant_ne_nil hcoeff
  have hlen : 0 < s.significant.length := List.length_pos_iff.mpr hne
  have hdigits : ∀ c ∈ s.significant, c.isDigit = true := fun c hc =>
    isDigit_of_mem_significant hc
  obtain ⟨z, hvalue, hpoint⟩ := coeff_eq s
  unfold Decimal.positional
  simp only
  split
  · next hsmall =>
    refine ⟨['0'], zeros (-s.point).toNat ++ s.significant,
      ⟨?_, by simp, by simp [hne], by simp, ?_⟩, ?_⟩
    · rw [withPoint, if_pos (by simp)]
      rfl
    · intro c hc
      rcases List.mem_append.mp hc with hc | hc
      · exact isDigit_of_mem_zeros hc
      · exact hdigits c hc
    · refine toDouble_ofDigits_of_shift hvalue 0 ?_ ?_
      · rw [← List.append_assoc, show ['0'] ++ zeros (-s.point).toNat = zeros ((-s.point).toNat + 1)
          from rfl, valueOf_zeros_append, Nat.pow_zero, Nat.mul_one]
      · simp [zeros]
        omega
  · next hlarge =>
    split
    · next hshort =>
      have hall : ∀ c ∈ s.significant ++ zeros (s.point.toNat - s.significant.length),
          c.isDigit = true := by
        intro c hc
        rcases List.mem_append.mp hc with hc | hc
        · exact hdigits c hc
        · exact isDigit_of_mem_zeros hc
      refine ⟨s.significant ++ zeros (s.point.toNat - s.significant.length), ['0'],
        ⟨?_, by simp [hne], by simp, hall, by simp⟩, ?_⟩
      · rw [withPoint, if_neg (not_point_mem hall)]
      · refine toDouble_ofDigits_of_shift hvalue
          (s.point.toNat - s.significant.length + 1) ?_ ?_
        · rw [List.append_assoc, show zeros (s.point.toNat - s.significant.length) ++ ['0']
            = zeros (s.point.toNat - s.significant.length + 1) from
            (List.replicate_succ' ..).symm, valueOf_append_zeros]
        · simp
          omega
    · next hlong =>
      refine ⟨s.significant.take s.point.toNat, s.significant.drop s.point.toNat,
        ⟨?_, ?_, ?_, ?_, ?_⟩, ?_⟩
      · rw [withPoint, if_pos (by simp)]
      · rw [← List.length_pos_iff, List.length_take]
        omega
      · rw [← List.length_pos_iff, List.length_drop]
        omega
      · exact fun c hc => hdigits c (List.mem_of_mem_take hc)
      · exact fun c hc => hdigits c (List.mem_of_mem_drop hc)
      · refine toDouble_ofDigits_of_shift hvalue 0 ?_ ?_
        · rw [List.take_append_drop, Nat.pow_zero, Nat.mul_one]
        · rw [List.length_drop]
          omega

/-- **A finite double without a sign is read back from its text.** -/
theorem sourceText_pointed {d : Double} (hfin : d.isFinite = true) (hsign : d.isNegative = false) :
    ∃ whole fraction, Pointed d.sourceText.toList whole fraction ∧
      (ofDigits whole fraction).toDouble = d := by
  have hmag : d.magnitude < infinityPattern := by simpa [isFinite] using hfin
  have hplain : d.plainText = d.positional := by
    unfold plainText
    rw [if_neg (by simp [isNaN]; omega), if_neg (by simp [isInfinite]; omega)]
    simp [signText, hsign]
  unfold sourceText
  rw [hplain, String.toList_ofList]
  unfold positional
  by_cases hzero : d.isZero = true
  · rw [if_pos hzero]
    refine ⟨['0'], ['0'], ⟨rfl, by simp, by simp, by simp, by simp⟩, ?_⟩
    have hbits : d.magnitude = 0 := by simpa [isZero] using hzero
    rw [← abs_eq_self hsign, abs, hbits]
    show nearest (valueOf ['0', '0'] * 10 ^ (0 : Nat)) _ = ofPattern 0
    rw [show valueOf ['0', '0'] * 10 ^ (0 : Nat) = 0 from rfl, nearest_zero]
  · rw [if_neg hzero]
    have hshort := shortest_toDouble hfin
    obtain ⟨whole, fraction, hpointed, hvalue⟩ :=
      positional_pointed (coeff_ne_zero (by simpa using hzero) hshort)
    exact ⟨whole, fraction, hpointed, by rw [hvalue, hshort, abs_eq_self hsign]⟩

end Double

end ListSugar
