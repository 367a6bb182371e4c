import FilterSql.Decimal.Shortest
import Mathlib.Data.Int.Log
import Mathlib.Data.Rat.Floor
import Mathlib.Tactic.FieldSimp
import Mathlib.Tactic.Linarith
import Mathlib.Tactic.Positivity
import Mathlib.Tactic.Ring

/-!
Rounding looks at the value of a fraction and not at how the fraction is written, and it gives back a
double whose value the fraction is. So the shortest decimal of a double reads back to it, also where
no candidate of 17 digits is accepted and the exact decimal stands in.
-/

namespace FilterSql

namespace Binary64

theorem roundDiv_mul_left {k : Nat} (hk : 0 < k) (num den : Nat) :
    roundDiv (k * num) (k * den) = roundDiv num den := by
  have htwice : 2 * (k * (num % den)) = k * (2 * (num % den)) := by ring
  have hlt (a b : Nat) : k * a < k * b ↔ a < b := Nat.mul_lt_mul_left hk
  unfold roundDiv
  simp only [Nat.mul_div_mul_left _ _ hk, Nat.mul_mod_mul_left, htwice, hlt]

theorem roundDiv_mul_self {den : Nat} (hden : 0 < den) (n : Nat) : roundDiv (n * den) den = n := by
  simp [roundDiv, Nat.mul_div_cancel n hden, hden]

/-- What is rounded is one of the two neighbours. -/
theorem roundDiv_eq_or (num den : Nat) :
    roundDiv num den = num / den ∨ roundDiv num den = num / den + 1 := by
  unfold roundDiv
  have hparity := Nat.mod_two_eq_zero_or_one (num / den)
  dsimp only
  split
  · exact .inl rfl
  · split
    · exact .inr rfl
    · omega

section Units

variable (num den : Nat) (e : Int)

theorem inUnits_mul_left (k : Nat) :
    inUnits (k * num) (k * den) e = (k * (inUnits num den e).1, k * (inUnits num den e).2) := by
  unfold inUnits
  split <;> simp [Nat.mul_assoc]

theorem inUnits_snd_pos (hden : 0 < den) : 0 < (inUnits num den e).2 := by
  unfold inUnits
  split
  · exact Nat.mul_pos hden (Nat.pow_pos (by decide))
  · exact hden

/-- A fraction in units is the fraction divided by the unit. -/
theorem inUnits_value (hden : 0 < den) :
    ((inUnits num den e).1 : ℚ) = num / den / 2 ^ e * (inUnits num den e).2 := by
  have hd : (den : ℚ) ≠ 0 := by positivity
  unfold inUnits
  split
  · next he =>
    obtain ⟨n, rfl⟩ := Int.eq_ofNat_of_zero_le he
    have hp : (2 : ℚ) ^ n ≠ 0 := by positivity
    simp only [Int.toNat_natCast, zpow_natCast, Nat.pow_eq]
    push_cast
    field_simp
  · next he =>
    obtain ⟨n, hn⟩ : ∃ n : Nat, e = -n := ⟨(-e).toNat, by omega⟩
    have hp : (2 : ℚ) ^ n ≠ 0 := by positivity
    subst hn
    simp only [neg_neg, Int.toNat_natCast, zpow_neg, zpow_natCast, Nat.pow_eq]
    push_cast
    field_simp

theorem inUnits_lt_iff (hden : 0 < den) (k : Nat) :
    (inUnits num den e).1 < (inUnits num den e).2 * Nat.pow 2 k ↔
      (num / den : ℚ) < 2 ^ (e + k) := by
  have hpos : (0 : ℚ) < (inUnits num den e).2 := by
    exact_mod_cast inUnits_snd_pos num den e hden
  have hunit : (0 : ℚ) < 2 ^ e := zpow_pos two_pos e
  have hcast : (inUnits num den e).1 < (inUnits num den e).2 * Nat.pow 2 k ↔
      ((inUnits num den e).1 : ℚ) < (inUnits num den e).2 * 2 ^ k := by
    rw [Nat.pow_eq]
    exact_mod_cast Iff.rfl
  rw [hcast, inUnits_value num den e hden, mul_comm, mul_lt_mul_iff_right₀ hpos, div_lt_iff₀ hunit,
    zpow_add₀ two_ne_zero, zpow_natCast, mul_comm]

end Units

/-- The lengths of two numbers miss the logarithm of their quotient by one at most. -/
theorem quotient_between {num den : Nat} (hnum : 0 < num) (hden : 0 < den) :
    (2 : ℚ) ^ ((Nat.log2 num : Int) - Nat.log2 den - 1) ≤ num / den ∧
      (num / den : ℚ) < 2 ^ ((Nat.log2 num : Int) - Nat.log2 den + 1) := by
  have hd : (0 : ℚ) < den := by exact_mod_cast hden
  have hnumlow : (2 : ℚ) ^ Nat.log2 num ≤ num := by
    exact_mod_cast Nat.log2_self_le hnum.ne'
  have hnumhigh : (num : ℚ) < 2 ^ (Nat.log2 num + 1) := by exact_mod_cast Nat.lt_log2_self
  have hdenlow : (2 : ℚ) ^ Nat.log2 den ≤ den := by
    exact_mod_cast Nat.log2_self_le hden.ne'
  have hdenhigh : (den : ℚ) < 2 ^ (Nat.log2 den + 1) := by exact_mod_cast Nat.lt_log2_self
  have hlow : (2 : ℚ) ^ ((Nat.log2 num : Int) - Nat.log2 den - 1) =
      2 ^ Nat.log2 num / 2 ^ (Nat.log2 den + 1) := by
    rw [sub_sub, zpow_sub₀ two_ne_zero, zpow_natCast]
    norm_cast
  have hhigh : (2 : ℚ) ^ ((Nat.log2 num : Int) - Nat.log2 den + 1) =
      2 ^ (Nat.log2 num + 1) / 2 ^ Nat.log2 den := by
    rw [sub_add_eq_add_sub, zpow_sub₀ two_ne_zero, zpow_natCast]
    norm_cast
  rw [hlow, hhigh]
  constructor
  · gcongr
  · gcongr

/-- The unit leaves 53 bits before the point, so the logarithm of the value tells it. -/
theorem unitExponent_eq {num den : Nat} (hnum : 0 < num) (hden : 0 < den) :
    unitExponent num den = max (-1074) (Int.log 2 (num / den : ℚ) - 52) := by
  have hvalue : (0 : ℚ) < num / den := by
    have hn : (0 : ℚ) < num := by exact_mod_cast hnum
    have hd : (0 : ℚ) < den := by exact_mod_cast hden
    exact div_pos hn hd
  obtain ⟨hlow, hhigh⟩ := quotient_between hnum hden
  have hbelow : (Nat.log2 num : Int) - Nat.log2 den - 1 ≤ Int.log 2 (num / den : ℚ) :=
    (Int.zpow_le_iff_le_log (by norm_num) hvalue).mp hlow
  have habove : Int.log 2 (num / den : ℚ) < (Nat.log2 num : Int) - Nat.log2 den + 1 :=
    (Int.lt_zpow_iff_log_lt (by norm_num) hvalue).mp hhigh
  -- the guess is right or one too large, and the comparison with 53 bits tells which
  have hguess := inUnits_lt_iff num den ((Nat.log2 num : Int) - Nat.log2 den - 52) hden 52
  have hlog : (num / den : ℚ) < 2 ^ ((Nat.log2 num : Int) - Nat.log2 den) ↔
      Int.log 2 (num / den : ℚ) < (Nat.log2 num : Int) - Nat.log2 den :=
    Int.lt_zpow_iff_log_lt (by norm_num) hvalue
  have hsum : (Nat.log2 num : Int) - Nat.log2 den - 52 + (52 : Nat) =
      (Nat.log2 num : Int) - Nat.log2 den := by omega
  rw [hsum, hlog] at hguess
  unfold unitExponent
  dsimp only
  split
  · next h =>
    have := hguess.mp h
    congr 1
    omega
  · next h =>
    have := mt hguess.mpr h
    congr 1
    omega

/-- The double of a rounded significand. A significand that was rounded up to 54 bits is halved. -/
def packed? (negative : Bool) (exponent : Int) (rounded : Nat) : Option Binary64 :=
  if rounded = Nat.pow 2 53 then ofPair? negative (Nat.pow 2 52) (exponent + 1)
  else ofPair? negative rounded exponent

theorem ofRatio?_eq_packed? {num den n d : Nat} {e : Int} (negative : Bool) (hnum : 0 < num)
    (he : unitExponent num den = e) (hunits : inUnits num den e = (n, d)) :
    ofRatio? negative num den = packed? negative e (roundDiv n d) := by
  rw [ofRatio?, if_neg hnum.ne', he]
  extract_lets exponent
  rw [hunits]
  rfl

theorem ofRatio?_mul_left {k num den : Nat} (negative : Bool) (hk : 0 < k) (hden : 0 < den) :
    ofRatio? negative (k * num) (k * den) = ofRatio? negative num den := by
  rcases Nat.eq_zero_or_pos num with rfl | hnum
  · rw [Nat.mul_zero, ofRatio?, ofRatio?, if_pos rfl, if_pos rfl]
  have hunit : unitExponent (k * num) (k * den) = unitExponent num den := by
    have hvalue : ((k * num : Nat) : ℚ) / (k * den : Nat) = num / den := by
      push_cast
      exact mul_div_mul_left _ _ (by exact_mod_cast hk.ne')
    rw [unitExponent_eq (Nat.mul_pos hk hnum) (Nat.mul_pos hk hden), unitExponent_eq hnum hden,
      hvalue]
  have hscaled := inUnits_mul_left num den (unitExponent num den) k
  rw [ofRatio?_eq_packed? negative (Nat.mul_pos hk hnum) hunit hscaled,
    ofRatio?_eq_packed? negative hnum rfl Prod.mk.eta.symm, roundDiv_mul_left hk]

/-- Rounding looks at the value of a fraction only. -/
theorem ofRatio?_congr {num den num' den' : Nat} (negative : Bool) (hden : 0 < den)
    (hden' : 0 < den') (h : (num / den : ℚ) = num' / den') :
    ofRatio? negative num den = ofRatio? negative num' den' := by
  have hd : (den : ℚ) ≠ 0 := by exact_mod_cast hden.ne'
  have hd' : (den' : ℚ) ≠ 0 := by exact_mod_cast hden'.ne'
  have hcross : num * den' = num' * den := by exact_mod_cast (div_eq_div_iff hd hd').mp h
  rw [← ofRatio?_mul_left negative hden' hden, ← ofRatio?_mul_left negative hden hden',
    Nat.mul_comm den' num, hcross, Nat.mul_comm num' den, Nat.mul_comm den' den]

section Scaled

/-- The fraction `n · base^e`. -/
def scaled (base n : Nat) (e : Int) : Nat × Nat :=
  if 0 ≤ e then (n * Nat.pow base e.toNat, 1) else (n, Nat.pow base (-e).toNat)

variable {base n : Nat} (e : Int)

theorem scaled_fst_pos (hbase : 0 < base) (hn : 0 < n) : 0 < (scaled base n e).1 := by
  unfold scaled
  split
  · exact Nat.mul_pos hn (Nat.pow_pos hbase)
  · exact hn

theorem scaled_snd_pos (hbase : 0 < base) : 0 < (scaled base n e).2 := by
  unfold scaled
  split
  · exact Nat.one_pos
  · exact Nat.pow_pos hbase

theorem scaled_value : ((scaled base n e).1 : ℚ) / (scaled base n e).2 = n * (base : ℚ) ^ e := by
  unfold scaled
  split
  · next he =>
    obtain ⟨k, rfl⟩ := Int.eq_ofNat_of_zero_le he
    simp only [Int.toNat_natCast, zpow_natCast, Nat.pow_eq]
    push_cast
    exact div_one _
  · next he =>
    obtain ⟨k, hk⟩ : ∃ k : Nat, e = -k := ⟨(-e).toNat, by omega⟩
    simp only [hk, neg_neg, Int.toNat_natCast, zpow_neg, zpow_natCast, Nat.pow_eq]
    push_cast
    exact div_eq_mul_inv _ _

end Scaled

section Exact

variable (x : Binary64)

theorem ratio_snd_pos : 0 < x.ratio.2 := scaled_snd_pos x.exponent two_pos

theorem ratio_value : (x.ratio.1 : ℚ) / x.ratio.2 = x.significand * 2 ^ x.exponent :=
  scaled_value x.exponent

theorem inUnits_ratio :
    inUnits x.ratio.1 x.ratio.2 x.exponent =
      (x.significand * Nat.pow 2 x.exponent.natAbs, Nat.pow 2 x.exponent.natAbs) := by
  unfold inUnits ratio
  split
  · next he =>
    have habs : x.exponent.toNat = x.exponent.natAbs := by omega
    simp only [habs, Nat.one_mul]
  · next he =>
    have habs : (-x.exponent).toNat = x.exponent.natAbs := by omega
    simp only [habs]

variable {x}

theorem ratio_fst_pos (hx : 0 < x.significand) : 0 < x.ratio.1 :=
  scaled_fst_pos x.exponent two_pos hx

/-- A double is already in the unit that rounding chooses. -/
theorem unitExponent_ratio (hx : 0 < x.significand) :
    unitExponent x.ratio.1 x.ratio.2 = x.exponent := by
  rw [unitExponent_eq (ratio_fst_pos hx) x.ratio_snd_pos, ratio_value]
  obtain ⟨hhigh, hleast, -, hlow⟩ := x.canonical
  have hsig : (0 : ℚ) < x.significand := by exact_mod_cast hx
  have hunit : (0 : ℚ) < 2 ^ x.exponent := zpow_pos two_pos _
  have hvalue : (0 : ℚ) < x.significand * 2 ^ x.exponent := mul_pos hsig hunit
  have habove : Int.log 2 (x.significand * 2 ^ x.exponent : ℚ) < 53 + x.exponent := by
    apply (Int.lt_zpow_iff_log_lt (by norm_num) hvalue).mp
    have hcast : (x.significand : ℚ) < 2 ^ 53 := by exact_mod_cast hhigh
    have hbound := mul_lt_mul_of_pos_right hcast hunit
    rw [Nat.cast_ofNat, zpow_add₀ two_ne_zero]
    exact_mod_cast hbound
  rcases hlow with hlow | hlow
  · have hbelow : 52 + x.exponent ≤ Int.log 2 (x.significand * 2 ^ x.exponent : ℚ) := by
      apply (Int.zpow_le_iff_le_log (by norm_num) hvalue).mp
      have hcast : (2 : ℚ) ^ 52 ≤ x.significand := by exact_mod_cast hlow
      have hbound := mul_le_mul_of_nonneg_right hcast hunit.le
      rw [Nat.cast_ofNat, zpow_add₀ two_ne_zero]
      exact_mod_cast hbound
    omega
  · omega

/-- Rounding the value of a double gives the double back. -/
theorem ofRatio?_ratio (hx : 0 < x.significand) :
    ofRatio? x.negative x.ratio.1 x.ratio.2 = some x := by
  have hunit : 0 < Nat.pow 2 x.exponent.natAbs := Nat.pow_pos two_pos
  rw [ofRatio?_eq_packed? x.negative (ratio_fst_pos hx) (unitExponent_ratio hx) (inUnits_ratio x),
    roundDiv_mul_self hunit, packed?, if_neg x.canonical.1.ne, ofPair?, dif_pos x.canonical]

end Exact

end Binary64

namespace Decimal

def value (d : Decimal) : ℚ := d.digits * 10 ^ d.exponent

/-- Decimals of one value read alike. -/
theorem read?_congr {d d' : Decimal} (negative : Bool) (h : d.value = d'.value) :
    d.read? negative = d'.read? negative := by
  have hvalue (e : Decimal) : (e.ratio.1 : ℚ) / e.ratio.2 = e.value :=
    Binary64.scaled_value e.exponent
  have hpos (e : Decimal) : 0 < e.ratio.2 := Binary64.scaled_snd_pos e.exponent (by decide)
  apply Binary64.ofRatio?_congr negative (hpos d) (hpos d')
  rw [hvalue, hvalue, h]

theorem read?_of_value {d : Decimal} {x : Binary64} (hx : 0 < x.significand)
    (h : d.value = x.significand * 2 ^ x.exponent) : d.read? x.negative = some x := by
  rw [← Binary64.ofRatio?_ratio hx]
  apply Binary64.ofRatio?_congr x.negative (Binary64.scaled_snd_pos d.exponent (by decide))
    x.ratio_snd_pos
  rw [x.ratio_value, ← h]
  exact Binary64.scaled_value d.exponent

end Decimal

namespace Binary64

section Shortest

/-- The candidates are checked one by one, and rounding to the nearer of two adds no third. -/
theorem read?_of_onGrid? {x : Binary64} {k : Int} {d : Decimal} (h : x.onGrid? k = some d) :
    d.read? x.negative = some x := by
  have hread : x.readsBack d = true := by
    unfold onGrid? at h
    dsimp only at h
    split at h
    · split at h
      · next hbelow => exact Option.some.inj h ▸ hbelow
      · contradiction
    · split at h
      · next hbelow habove =>
        rw [← Option.some.inj h]
        rcases roundDiv_eq_or (x.inTens k).1 (x.inTens k).2 with hround | hround
        · exact hround ▸ hbelow
        · exact hround ▸ habove
      · next hbelow _ => exact Option.some.inj h ▸ hbelow
      · next _ habove => exact Option.some.inj h ▸ habove
      · contradiction
  exact eq_of_beq hread

theorem exactDecimal_value (x : Binary64) :
    x.exactDecimal.value = x.significand * 2 ^ x.exponent := by
  unfold exactDecimal Decimal.value
  split
  · next he =>
    obtain ⟨k, hk⟩ := Int.eq_ofNat_of_zero_le he
    simp only [hk, Int.toNat_natCast, zpow_natCast, Nat.pow_eq, zpow_zero, mul_one]
    push_cast
    rfl
  · next he =>
    obtain ⟨k, hk⟩ : ∃ k : Nat, x.exponent = -k := ⟨(-x.exponent).toNat, by omega⟩
    have hten : (10 : ℚ) ^ k = 5 ^ k * 2 ^ k := by rw [← mul_pow]; norm_num
    have hfive : (5 : ℚ) ^ k ≠ 0 := pow_ne_zero k (by norm_num)
    simp only [hk, neg_neg, Int.toNat_natCast, zpow_neg, zpow_natCast, Nat.pow_eq]
    push_cast
    rw [hten, mul_inv, mul_assoc, mul_inv_cancel_left₀ hfive]

/-- The shortest decimal of a double reads back to it. -/
theorem read?_shortest (x : Binary64) (hx : 0 < x.significand) :
    x.shortest.read? x.negative = some x := by
  unfold shortest
  dsimp only
  rcases hfound : (List.range 17).findSome? fun (i : Nat) => x.onGrid? (x.leadingPower - i) with _ | d
  · exact Decimal.read?_of_value hx x.exactDecimal_value
  · obtain ⟨i, -, hi⟩ := List.exists_of_findSome?_eq_some hfound
    exact read?_of_onGrid? hi

end Shortest

end Binary64

end FilterSql
