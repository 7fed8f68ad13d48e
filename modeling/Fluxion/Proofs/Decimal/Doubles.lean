import Fluxion.Proofs.Tree.Spelling

/-!
# Doubles are read back from their texts

The decimal chosen for a double reads back as the double: it is one of those that were tried and do,
or the exact value. Zeros at the end and the place of the point do not matter to the double that is
nearest. So the texts of finite doubles are legible (`Double.legible`), and what is shown for trees
over legible numbers holds of trees over doubles.
-/

namespace Fluxion

namespace Binary64

/-- The nearest double depends on the fraction only. -/
theorem nearest_scale {k : Nat} (hk : 0 < k) (n d : Nat) :
    nearest (k * n) (k * d) = nearest n d := by
  have hdiv : ∀ e, k * n / (k * e) = n / e := fun e => Nat.mul_div_mul_left n e hk
  have hround : ∀ e, roundHalfEven (k * n) (k * e) = roundHalfEven n e := by
    intro e
    have hless : 2 * (k * (n % e)) < k * e ↔ 2 * (n % e) < e := by
      rw [Nat.mul_left_comm]
      exact Nat.mul_lt_mul_left hk
    have hmore : k * e < 2 * (k * (n % e)) ↔ e < 2 * (n % e) := by
      rw [Nat.mul_left_comm]
      exact Nat.mul_lt_mul_left hk
    simp only [roundHalfEven, hdiv, Nat.mul_mod_mul_left, hless, hmore]
  simp only [nearest, hdiv, Nat.mul_assoc, hround]

theorem roundHalfEven_mul {m d : Nat} (hd : 0 < d) : roundHalfEven (m * d) d = m := by
  simp only [roundHalfEven, Nat.mul_div_cancel m hd, Nat.mul_mod_left, Nat.mul_zero, hd, if_true]

theorem twoTo_pos (e : Nat) : 0 < twoTo e := Nat.two_pow_pos e

/-- A mantissa with the hidden bit has a logarithm that only the shift decides. -/
theorem log2_mul_twoTo {m s : Nat} (hm : m < 2 * hidden) (hm' : hidden ≤ m) :
    (m * twoTo s).log2 = 52 + s := by
  have hlow : hidden * twoTo s = 2 ^ (52 + s) := (Nat.pow_add 2 52 s).symm
  have hhigh : 2 * hidden * twoTo s = 2 ^ (52 + s + 1) := by
    rw [Nat.mul_assoc, hlow, Nat.pow_succ, Nat.mul_comm]
  have hle : hidden * twoTo s ≤ m * twoTo s := Nat.mul_le_mul_right _ hm'
  have hlt : m * twoTo s < 2 * hidden * twoTo s := Nat.mul_lt_mul_of_pos_right hm (twoTo_pos s)
  have hpos : m * twoTo s ≠ 0 := by
    have := Nat.two_pow_pos (52 + s)
    omega
  rw [Nat.log2_eq_iff hpos, ← hlow, ← hhigh]
  exact ⟨hle, hlt⟩

/-- The shift of a whole number of units is found from its mantissa. -/
theorem shiftOf_mul {m s : Nat} (hm : m < 2 * hidden) (hs : s = 0 ∨ hidden ≤ m) :
    shiftOf (m * twoTo s) = s := by
  unfold shiftOf
  cases s with
  | zero =>
    rw [show twoTo 0 = 1 from rfl, Nat.mul_one, if_pos hm]
  | succ k =>
    have hm' : hidden ≤ m := hs.resolve_left (Nat.succ_ne_zero k)
    have hlarge : 2 * hidden ≤ m * twoTo (k + 1) := by
      have htwo : 2 ≤ twoTo (k + 1) := by
        show 2 ≤ 2 ^ (k + 1)
        rw [Nat.pow_succ]
        have := Nat.two_pow_pos k
        omega
      rw [Nat.mul_comm 2]
      exact Nat.mul_le_mul hm' htwo
    rw [if_neg (Nat.not_lt_of_le hlarge), log2_mul_twoTo hm hm', Nat.add_sub_cancel_left]

/-- The bits of a double are its exponent and its mantissa, whose leading bit is hidden. -/
theorem mantissa_spec (bits : Nat) :
    mantissa bits < 2 * hidden ∧ (shift bits = 0 ∨ hidden ≤ mantissa bits) ∧
      shift bits * hidden + mantissa bits = bits := by
  have hmod : bits % hidden < hidden := Nat.mod_lt _ (twoTo_pos 52)
  have hdiv := Nat.div_add_mod bits hidden
  unfold mantissa shift
  by_cases hzero : bits / hidden = 0
  · rw [if_pos hzero, hzero]
    rw [hzero] at hdiv
    exact ⟨by omega, Or.inl rfl, by simpa using hdiv⟩
  · obtain ⟨k, hk⟩ := Nat.exists_eq_succ_of_ne_zero hzero
    rw [if_neg hzero, hk]
    rw [hk] at hdiv
    refine ⟨by omega, Or.inr (Nat.le_add_left _ _), ?_⟩
    rw [Nat.succ_eq_add_one, Nat.add_sub_cancel, ← Nat.mul_comm hidden k]
    rw [Nat.succ_eq_add_one, Nat.mul_add, Nat.mul_one] at hdiv
    omega

/-- A finite double is the nearest to its own units. -/
theorem nearest_units {bits : Nat} (h : bits < infinity) : nearest (units bits) 1 = bits := by
  obtain ⟨hm, hs, hbits⟩ := mantissa_spec bits
  unfold nearest units
  rw [Nat.div_one, shiftOf_mul hm hs]
  simp only [Nat.one_mul]
  rw [roundHalfEven_mul (twoTo_pos _), hbits, Nat.min_eq_left (Nat.le_of_lt h)]

end Binary64

namespace Decimal

open Binary64

theorem tenTo_pos (e : Nat) : 0 < tenTo e := Nat.pow_pos (by decide)

theorem tenTo_succ (e : Nat) : tenTo (e + 1) = 10 * tenTo e := by
  show 10 ^ (e + 1) = 10 * 10 ^ e
  rw [Nat.pow_succ, Nat.mul_comm]

/-- A zero at the end of the digits may go into the exponent. -/
theorem ofDecimal_shift (n : Nat) (e : Int) : ofDecimal ⟨n, e + 1⟩ = ofDecimal ⟨10 * n, e⟩ := by
  match e with
  | .ofNat k =>
    show nearest (n * tenTo (k + 1) * unitsOfOne) 1 = nearest (10 * n * tenTo k * unitsOfOne) 1
    rw [tenTo_succ, Nat.mul_left_comm n, ← Nat.mul_assoc 10]
  | .negSucc 0 =>
    show nearest (n * tenTo 0 * unitsOfOne) 1 = nearest (10 * n * unitsOfOne) (tenTo 1)
    rw [Nat.mul_assoc 10, tenTo_succ, nearest_scale (by decide)]
    rw [show tenTo 0 = 1 from rfl, Nat.mul_one]
  | .negSucc (k + 1) =>
    show nearest (n * unitsOfOne) (tenTo (k + 1)) =
        nearest (10 * n * unitsOfOne) (tenTo (k + 1 + 1))
    rw [Nat.mul_assoc 10, tenTo_succ (k + 1), nearest_scale (by decide)]

/-- Zeros at the end do not matter to the double that is nearest. -/
theorem ofDecimal_strip (d : Decimal) : ofDecimal d.strip = ofDecimal d := by
  induction d using strip.induct with
  | case1 d h ih =>
    rw [strip, dif_pos h, ih, ofDecimal_shift, Nat.mul_div_cancel' (Nat.dvd_of_mod_eq_zero h.2)]
  | case2 d h => rw [strip, dif_neg h]

/-- The units of a double, written out as a decimal. -/
theorem ofDecimal_units {bits f : Nat} (h : bits < infinity) (hf : f * unitsOfOne = tenTo 1074) :
    ofDecimal ⟨units bits * f, -1074⟩ = bits := by
  have hpos : 0 < f * unitsOfOne := hf ▸ tenTo_pos 1074
  have hscale := nearest_scale hpos (units bits) 1
  rw [Nat.mul_one, Nat.mul_comm _ (units bits), ← Nat.mul_assoc, hf, nearest_units h] at hscale
  exact hscale

/-- The exact value of a double reads back as the double. -/
theorem ofDecimal_exact {bits : Nat} (h : bits < infinity) : ofDecimal (exact bits) = bits :=
  ofDecimal_units h (by decide +kernel)

/-- The decimal chosen for a double reads back as the double. -/
theorem ofDecimal_shortest {bits : Nat} (h : bits < infinity) :
    ofDecimal (shortest bits) = bits := by
  rw [shortest, ofDecimal_strip]
  cases hd : shortest? bits with
  | none => exact ofDecimal_exact h
  | some d =>
    obtain ⟨count, -, hfind⟩ := List.exists_of_findSome?_eq_some hd
    simpa using List.find?_some hfind

/-! ## Texts of decimals -/

theorem ofDigits_eq (cs : List Char) : ofDigits cs = Nat.ofDigitChars 10 cs 0 :=
  Nat.ofDigitChars_eq_foldl.symm

/-- The digits of a number are read back as the number. -/
theorem ofDigits_toDigits (n : Nat) : ofDigits (Nat.toDigits 10 n) = n := by
  rw [ofDigits_eq, Nat.ofDigitChars_toDigits (by decide) (by decide)]

/-- Zeros in front do not count. -/
theorem ofDigits_zeros (k : Nat) (cs : List Char) :
    ofDigits (List.replicate k '0' ++ cs) = ofDigits cs := by
  rw [ofDigits_eq, ofDigits_eq, Nat.ofDigitChars_append, Nat.ofDigitChars_replicate_zero,
    Nat.mul_zero]

/-- Zeros at the end multiply by ten each. -/
theorem ofDigits_append_zeros (cs : List Char) (k : Nat) :
    ofDigits (cs ++ List.replicate k '0') = ofDigits cs * tenTo k := by
  rw [ofDigits_eq, ofDigits_eq, Nat.ofDigitChars_append, Nat.ofDigitChars_replicate_zero,
    Nat.mul_comm]
  rfl

theorem isDigits_zero : IsDigits ['0'] := ⟨List.cons_ne_nil _ _, List.all_eq_true.1 rfl⟩

theorem isDigits_toDigits (n : Nat) : IsDigits (Nat.toDigits 10 n) :=
  ⟨Nat.toDigits_ne_nil, fun _ hc => Nat.isDigit_of_mem_toDigits (by decide) (by decide) hc⟩

theorem isDigit_of_mem_zeros {c : Char} {k : Nat} (h : c ∈ List.replicate k '0') :
    c.isDigit = true := by
  rw [List.eq_of_mem_replicate h]
  decide

theorem isDigits_append_zeros {cs : List Char} (h : IsDigits cs) (k : Nat) :
    IsDigits (cs ++ List.replicate k '0') := by
  refine ⟨fun hnil => h.1 (List.append_eq_nil_iff.1 hnil).1, fun c hc => ?_⟩
  rcases List.mem_append.1 hc with hc | hc
  · exact h.2 c hc
  · exact isDigit_of_mem_zeros hc

theorem isDigits_zeros_append {cs : List Char} (h : IsDigits cs) (k : Nat) :
    IsDigits (List.replicate k '0' ++ cs) := by
  refine ⟨fun hnil => h.1 (List.append_eq_nil_iff.1 hnil).2, fun c hc => ?_⟩
  rcases List.mem_append.1 hc with hc | hc
  · exact isDigit_of_mem_zeros hc
  · exact h.2 c hc

theorem isDigits_take {cs : List Char} (h : IsDigits cs) {k : Nat} (hk : 0 < k) :
    IsDigits (cs.take k) := by
  refine ⟨fun hnil => ?_, fun c hc => h.2 c (List.mem_of_mem_take hc)⟩
  rcases List.take_eq_nil_iff.1 hnil with hzero | hnil
  · exact Nat.ne_of_gt hk hzero
  · exact h.1 hnil

theorem isDigits_drop {cs : List Char} (h : IsDigits cs) {k : Nat} (hk : k < cs.length) :
    IsDigits (cs.drop k) :=
  ⟨fun hnil => absurd (List.drop_eq_nil_iff.1 hnil) (Nat.not_le_of_lt hk),
    fun c hc => h.2 c (List.mem_of_mem_drop hc)⟩

/-- A point before the last digits leaves digits on both sides. -/
theorem withPoint_spec {cs : List Char} (h : IsDigits cs) {k : Nat} (hk : 0 < k) :
    ∃ whole fraction, withPoint cs k = whole ++ '.' :: fraction ∧ IsDigits whole ∧
      IsDigits fraction ∧ fraction.length = k ∧ ofDigits (whole ++ fraction) = ofDigits cs := by
  unfold withPoint
  by_cases hlen : cs.length ≤ k
  · -- all digits are after the point, with zeros in front to fill up
    refine ⟨['0'], List.replicate (k - cs.length) '0' ++ cs, by rw [if_pos hlen]; rfl,
      isDigits_zero, isDigits_zeros_append h _, ?_, ofDigits_zeros (k - cs.length + 1) cs⟩
    rw [List.length_append, List.length_replicate]
    omega
  · refine ⟨cs.take (cs.length - k), cs.drop (cs.length - k), by rw [if_neg hlen],
      isDigits_take h (by omega), isDigits_drop h (by omega), ?_, by rw [List.take_append_drop]⟩
    rw [List.length_drop]
    omega

theorem ne_point_of_isDigit {c : Char} (h : c.isDigit = true) : (c != '.') = true := by
  rw [bne_iff_ne]
  rintro rfl
  exact absurd h (by decide)

theorem ofChars_integer {cs : List Char} (h : IsDigits cs) : ofChars cs = ⟨ofDigits cs, 0⟩ := by
  have hall : ∀ c ∈ cs, (c != '.') = true := fun c hc => ne_point_of_isDigit (h.2 c hc)
  have htake : cs.takeWhile (· != '.') = cs := by
    have := @List.takeWhile_append_of_pos _ _ cs [] hall
    simpa using this
  have hdrop : cs.dropWhile (· != '.') = [] := by
    have := @List.dropWhile_append_of_pos _ _ cs [] hall
    simpa using this
  rw [ofChars, htake, hdrop]
  simp

/-- The digits behind the point make the exponent. -/
theorem ofChars_decimal {whole : List Char} (h : IsDigits whole) (fraction : List Char) :
    ofChars (whole ++ '.' :: fraction) = ⟨ofDigits (whole ++ fraction), -fraction.length⟩ := by
  have hall : ∀ c ∈ whole, (c != '.') = true := fun c hc => ne_point_of_isDigit (h.2 c hc)
  rw [ofChars, List.takeWhile_append_of_pos hall, List.dropWhile_append_of_pos hall]
  simp

/-- The positional text of a decimal is a numeral that stands for a decimal of the same value. -/
theorem chars_spec (d : Decimal) :
    IsNumeral (String.ofList d.chars) ∧ ofDecimal (ofChars d.chars) = ofDecimal d := by
  obtain ⟨n, e⟩ := d
  have hdigits := isDigits_toDigits n
  unfold IsNumeral
  rw [String.toList_ofList]
  -- an exponent that is not negative adds zeros; another one moves the point
  match e with
  | .ofNat zeros =>
    have hall := isDigits_append_zeros hdigits zeros
    refine ⟨Or.inl hall, ?_⟩
    show ofDecimal (ofChars (Nat.toDigits 10 n ++ List.replicate zeros '0')) = _
    rw [ofChars_integer hall, ofDigits_append_zeros, ofDigits_toDigits]
    show nearest (n * tenTo zeros * tenTo 0 * unitsOfOne) 1 =
        nearest (n * tenTo zeros * unitsOfOne) 1
    rw [show tenTo 0 = 1 from rfl, Nat.mul_one]
  | .negSucc places =>
    obtain ⟨whole, fraction, htext, hwhole, hfraction, hlen, hvalue⟩ :=
      withPoint_spec hdigits (Nat.succ_pos places)
    have hchars : chars ⟨n, .negSucc places⟩ = whole ++ '.' :: fraction := htext
    rw [hchars, ofChars_decimal hwhole, hvalue, hlen, ofDigits_toDigits]
    exact ⟨Or.inr ⟨whole, fraction, rfl, hwhole, hfraction⟩, rfl⟩

end Decimal

/-! ## Doubles -/

/-- A double that is a number, as its sign and its other bits. -/
structure Double where
  negative : Bool
  bits : Nat

namespace Double

/-- Neither infinite nor anything but a number. -/
def IsFinite (x : Double) : Prop := x.bits < Binary64.infinity

instance : Literal Double where
  text x := if x.negative then "-" ++ Numeral.unsignedText x.bits else Numeral.unsignedText x.bits
  ofDigits s := ⟨false, Binary64.ofDecimal (Decimal.ofChars s.toList)⟩
  negate x := ⟨!x.negative, x.bits⟩

/-- The text of a finite double without its sign is a numeral, and is read back as the double. -/
theorem unsignedText_spec {bits : Nat} (h : bits < Binary64.infinity) :
    IsNumeral (Numeral.unsignedText bits) ∧
      Binary64.ofDecimal (Decimal.ofChars (Numeral.unsignedText bits).toList) = bits := by
  unfold Numeral.unsignedText
  by_cases hzero : bits = 0
  · rw [if_pos hzero, hzero]
    refine ⟨Or.inl Decimal.isDigits_zero, ?_⟩
    show Binary64.ofDecimal (Decimal.ofChars ['0']) = 0
    rw [Decimal.ofChars_integer Decimal.isDigits_zero]
    decide +kernel
  · rw [if_neg hzero, if_pos h, String.toList_ofList]
    obtain ⟨hnumeral, hvalue⟩ := Decimal.chars_spec (Binary64.shortest bits)
    exact ⟨hnumeral, by rw [hvalue, Decimal.ofDecimal_shortest h]⟩

/-- Finite doubles are read back from their texts, whatever their sign. -/
theorem legible : Legible IsFinite := by
  rintro ⟨negative, bits⟩ hfinite
  obtain ⟨hnumeral, hvalue⟩ := unsignedText_spec hfinite
  cases negative with
  | false => exact Or.inl ⟨hnumeral, congrArg (Double.mk false) hvalue⟩
  | true => exact Or.inr ⟨_, rfl, hnumeral, congrArg (Double.mk true) hvalue⟩

end Double

end Fluxion
