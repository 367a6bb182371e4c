import FilterSql.Json.Token
import FilterSql.Proofs.Rounding
import FilterSql.Text.Blank

/-!
The text of a number is a numeral of JSON, and the numeral tells the number: an integer has neither
fraction nor exponent, a double has one of them, and the double nearest to the numeral is the one that
was written.
-/

namespace FilterSql

namespace Numeral

def digitValues (cs : List Char) : List Nat := cs.map fun c => c.toNat - '0'.toNat

theorem toNat_digitValues (cs : List Char) : toNat (digitValues cs) = Nat.ofDigitChars 10 cs 0 := by
  rw [toNat, digitValues, List.foldl_map, Nat.ofDigitChars_eq_foldl]
  congr 1
  funext n c
  rw [Nat.mul_comm]

theorem eq_zero_of_isDigit {c : Char} (hdigit : c.isDigit = true) (h : c.toNat - '0'.toNat = 0) :
    c = '0' := by
  have hrange : 48 ≤ c.toNat ∧ c.toNat ≤ 57 := by
    simpa [Char.isDigit, UInt32.le_iff_toNat_le] using hdigit
  have hzero : '0'.toNat = 48 := rfl
  apply Char.toNat_inj.mp
  omega

/-- A text that does not go on with a digit. -/
def NoDigit (cs : List Char) : Prop := ∀ c ∈ cs.head?, c.isDigit = false

theorem digits_append {ds rest : List Char} (hds : ∀ c ∈ ds, c.isDigit = true)
    (hrest : NoDigit rest) : digits (ds ++ rest) = (digitValues ds, rest) := by
  have htake : rest.takeWhile Char.isDigit = [] := by
    cases rest with
    | nil => rfl
    | cons c cs => simp [hrest c rfl]
  have hdrop : rest.dropWhile Char.isDigit = rest := by
    cases rest with
    | nil => rfl
    | cons c cs => simp [hrest c rfl]
  rw [digits, List.takeWhile_append_of_pos hds, List.dropWhile_append_of_pos hds, htake, hdrop,
    List.append_nil, digitValues]

/-- The parts of a numeral as they are written. -/
structure Parts where
  whole : List Char
  fraction : List Char
  /-- The exponent, with its sign. -/
  power : Option (Bool × List Char)
  whole_isDigit : ∀ c ∈ whole, c.isDigit = true
  whole_ne_nil : whole ≠ []
  /-- No zero stands before another digit. -/
  whole_zero : whole.head? = some '0' → whole.length = 1
  fraction_isDigit : ∀ c ∈ fraction, c.isDigit = true
  power_isDigit : ∀ p ∈ power, ∀ c ∈ p.2, c.isDigit = true
  power_ne_nil : ∀ p ∈ power, p.2 ≠ []

namespace Parts

def fractionText : List Char → List Char
  | [] => []
  | c :: cs => '.' :: c :: cs

def powerText : Option (Bool × List Char) → List Char
  | none => []
  | some (down, ds) => 'e' :: (if down then '-' else '+') :: ds

def text (p : Parts) : List Char := p.whole ++ (fractionText p.fraction ++ powerText p.power)

def numeral (negative : Bool) (p : Parts) : Numeral :=
  ⟨negative, digitValues p.whole, digitValues p.fraction, p.power.map fun q => (q.1, digitValues q.2)⟩

theorem digitValues_eq_nil {cs : List Char} : digitValues cs = [] ↔ cs = [] := List.map_eq_nil_iff

variable (p : Parts)

theorem noDigit_powerText : NoDigit (powerText p.power) := by
  rcases p.power with _ | ⟨down, ds⟩ <;> simp [NoDigit, powerText]

theorem wholePart?_text :
    wholePart? p.text = some (digitValues p.whole, fractionText p.fraction ++ powerText p.power) := by
  have hrest : NoDigit (fractionText p.fraction ++ powerText p.power) := by
    cases p.fraction with
    | nil => exact p.noDigit_powerText
    | cons c cs => simp [NoDigit, fractionText]
  rw [wholePart?, text, digits_append p.whole_isDigit hrest]
  split
  · next h => exact absurd (digitValues_eq_nil.mp (congrArg Prod.fst h)) p.whole_ne_nil
  · next second others _ h =>
    -- a zero before another digit, which the parts exclude
    exfalso
    have hvalues : digitValues p.whole = 0 :: second :: others := congrArg Prod.fst h
    obtain ⟨c, cs, hwhole, hvalue, hothers⟩ := List.map_eq_cons_iff.mp hvalues
    have hdigit : c.isDigit = true := p.whole_isDigit c (hwhole ▸ List.mem_cons_self)
    have hzero : c = '0' := eq_zero_of_isDigit hdigit hvalue
    have hlength := p.whole_zero (by rw [hwhole, hzero]; rfl)
    have hcount : cs.length = others.length + 1 := by
      rw [← List.length_cons, ← hothers, List.length_map]
    rw [hwhole, List.length_cons] at hlength
    omega
  · rfl

theorem fractionPart?_text :
    fractionPart? (fractionText p.fraction ++ powerText p.power) =
      some (digitValues p.fraction, powerText p.power) := by
  cases hfraction : p.fraction with
  | nil =>
    rcases p.power with _ | ⟨down, ds⟩
    · rfl
    · rfl
  | cons c cs =>
    have hdigits : ∀ d ∈ c :: cs, d.isDigit = true := hfraction ▸ p.fraction_isDigit
    have hread := digits_append hdigits p.noDigit_powerText
    rw [fractionText, List.cons_append, fractionPart?, hread]
    rfl

theorem powerPart?_text :
    powerPart? (powerText p.power) = some (p.power.map fun q => (q.1, digitValues q.2)) := by
  rcases hpower : p.power with _ | ⟨down, ds⟩
  · rfl
  · have hdigits : ∀ c ∈ ds, c.isDigit = true := p.power_isDigit (down, ds) hpower
    have hne : digitValues ds ≠ [] := mt digitValues_eq_nil.mp (p.power_ne_nil (down, ds) hpower)
    have hread (negative : Bool) : powerDigits? negative ds = some (negative, digitValues ds) := by
      have hend : digits (ds ++ []) = (digitValues ds, []) :=
        digits_append hdigits (by simp [NoDigit])
      rw [List.append_nil] at hend
      rw [powerDigits?, hend]
      cases hvalues : digitValues ds with
      | nil => contradiction
      | cons d others => rfl
    cases down with
    | false => simp [powerText, powerPart?, hread]
    | true => simp [powerText, powerPart?, hread]

theorem unsigned?_text (negative : Bool) : unsigned? negative p.text = some (p.numeral negative) := by
  simp [unsigned?, wholePart?_text, fractionPart?_text, powerPart?_text, numeral]

theorem text_eq_cons : ∃ c cs, p.text = c :: cs ∧ c.isDigit = true := by
  obtain ⟨c, cs, hwhole⟩ := List.exists_cons_of_ne_nil p.whole_ne_nil
  refine ⟨c, cs ++ (fractionText p.fraction ++ powerText p.power), ?_, ?_⟩
  · rw [text, hwhole, List.cons_append]
  · exact p.whole_isDigit c (hwhole ▸ List.mem_cons_self)

def signed (negative : Bool) : List Char := if negative then '-' :: p.text else p.text

/-- The parts begin with a digit, so none of them is taken for a sign. -/
theorem read?_signed (negative : Bool) :
    Numeral.read? (p.signed negative) = some (p.numeral negative) := by
  cases negative with
  | true => exact p.unsigned?_text true
  | false =>
    obtain ⟨c, cs, htext, hdigit⟩ := p.text_eq_cons
    have hminus : c ≠ '-' := by
      rintro rfl
      contradiction
    rw [← p.unsigned?_text false, signed, if_neg Bool.false_ne_true, htext]
    simp [Numeral.read?, hminus]

theorem isBare_of_isDigit {c : Char} (h : c.isDigit = true) : Json.Token.isBare c = true := by
  simp [Json.Token.isBare, Char.isAlphanum, h]

theorem isBare_text : ∀ c ∈ p.text, Json.Token.isBare c = true := by
  intro c hc
  rcases List.mem_append.mp hc with hc | hc
  · exact isBare_of_isDigit (p.whole_isDigit c hc)
  rcases List.mem_append.mp hc with hc | hc
  · cases hfraction : p.fraction with
    | nil => simp [hfraction, fractionText] at hc
    | cons d ds =>
      rw [hfraction] at hc
      rcases List.mem_cons.mp hc with rfl | hc
      · rfl
      · exact isBare_of_isDigit (p.fraction_isDigit c (hfraction ▸ hc))
  · rcases hpower : p.power with _ | ⟨down, ds⟩
    · simp [hpower, powerText] at hc
    · rw [hpower] at hc
      rcases List.mem_cons.mp hc with rfl | hc
      · rfl
      rcases List.mem_cons.mp hc with rfl | hc
      · cases down with
        | false => rfl
        | true => rfl
      · exact isBare_of_isDigit (p.power_isDigit (down, ds) hpower c hc)

end Parts

def powerValue : Option (Bool × List Nat) → Int
  | none => 0
  | some (true, ds) => -(toNat ds : Int)
  | some (false, ds) => toNat ds

/-- The exact value of a numeral. -/
def decimal (n : Numeral) : Decimal :=
  ⟨toNat (n.whole ++ n.fraction), powerValue n.power - n.fraction.length⟩

/-- The number nearest to a numeral. What has neither fraction nor exponent is an integer. -/
def nearest? (n : Numeral) : Option Number :=
  if n.fraction.isEmpty && n.power.isNone then
    some (.int (if n.negative then -(toNat n.whole : Int) else toNat n.whole))
  else (n.decimal.read? n.negative).map .float

end Numeral

section Digits

variable {n : Nat}

theorem head?_toDigits (hn : 0 < n) : (Nat.toDigits 10 n).head? ≠ some '0' := by
  induction n using Nat.strongRecOn with
  | ind n ih =>
    rcases Nat.lt_or_ge n 10 with hlt | hge
    · have hdigit : ∀ k < 10, 0 < k → Nat.digitChar k ≠ '0' := by decide
      rw [Nat.toDigits_of_lt_base hlt]
      simpa using hdigit n hlt hn
    · have hrest := ih (n / 10) (by omega) (by omega)
      rw [Nat.toDigits_of_base_le (by decide) hge, List.head?_append_of_ne_nil _ Nat.toDigits_ne_nil]
      exact hrest

/-- What is left off at the end of the digits is zeros. -/
theorem toDigits_eq_significantDigits (n : Nat) :
    ∃ k, Nat.toDigits 10 n = Binary64.significantDigits n ++ List.replicate k '0' := by
  refine ⟨((Nat.toDigits 10 n).reverse.takeWhile (· == '0')).length, ?_⟩
  have hzeros : (Nat.toDigits 10 n).reverse.takeWhile (· == '0') =
      List.replicate ((Nat.toDigits 10 n).reverse.takeWhile (· == '0')).length '0' := by
    apply List.eq_replicate_of_mem
    intro c hc
    exact eq_of_beq (List.all_eq_true.mp List.all_takeWhile c hc)
  have hsplit := List.takeWhile_append_dropWhile (p := (· == '0')) (l := (Nat.toDigits 10 n).reverse)
  calc Nat.toDigits 10 n = (Nat.toDigits 10 n).reverse.reverse := (List.reverse_reverse _).symm
    _ = ((Nat.toDigits 10 n).reverse.takeWhile (· == '0') ++
          (Nat.toDigits 10 n).reverse.dropWhile (· == '0')).reverse := by rw [hsplit]
    _ = Binary64.significantDigits n ++
          ((Nat.toDigits 10 n).reverse.takeWhile (· == '0')).reverse := by
        rw [List.reverse_append, Binary64.significantDigits]
    _ = _ := by rw [hzeros, List.reverse_replicate, List.length_replicate]

theorem isDigit_significantDigits (n : Nat) : ∀ c ∈ Binary64.significantDigits n, c.isDigit = true := by
  intro c hc
  obtain ⟨k, hk⟩ := toDigits_eq_significantDigits n
  apply Nat.isDigit_of_mem_toDigits (b := 10) (n := n) (by decide) (by decide)
  rw [hk]
  exact List.mem_append_left _ hc

theorem significantDigits_ne_nil (hn : 0 < n) : Binary64.significantDigits n ≠ [] := by
  intro hnil
  obtain ⟨k, hk⟩ := toDigits_eq_significantDigits n
  have hvalue : Nat.ofDigitChars 10 (Nat.toDigits 10 n) 0 = n := Nat.ofDigitChars_ten_toDigits
  rw [hk, hnil, List.nil_append, Nat.ofDigitChars_replicate_zero] at hvalue
  omega

theorem head?_significantDigits (hn : 0 < n) : (Binary64.significantDigits n).head? ≠ some '0' := by
  obtain ⟨k, hk⟩ := toDigits_eq_significantDigits n
  have hhead := head?_toDigits hn
  rwa [hk, List.head?_append_of_ne_nil _ (significantDigits_ne_nil hn)] at hhead

end Digits

/-- Zeros at the end of the digits count as a power of ten. -/
theorem Decimal.value_zeros (n k : Nat) (e : Int) :
    Decimal.value ⟨Nat.pow 10 k * n, e⟩ = Decimal.value ⟨n, e + k⟩ := by
  simp only [Decimal.value, zpow_add₀ (show (10 : ℚ) ≠ 0 by norm_num), zpow_natCast, Nat.pow_eq]
  push_cast
  ring

namespace Numeral.Parts

theorem fractionText_of_ne_nil {ds : List Char} (h : ds ≠ []) : fractionText ds = '.' :: ds := by
  obtain ⟨c, cs, rfl⟩ := List.exists_cons_of_ne_nil h
  rfl

theorem decimal_numeral (p : Parts) (negative : Bool) :
    (p.numeral negative).decimal =
      ⟨Nat.ofDigitChars 10 (p.whole ++ p.fraction) 0,
        powerValue (p.numeral negative).power - p.fraction.length⟩ := by
  simp only [Numeral.decimal, numeral, ← toNat_digitValues, digitValues, List.map_append,
    List.length_map]

/-- The digits of a natural number, alone. -/
def ofNat (n : Nat) : Parts where
  whole := Nat.toDigits 10 n
  fraction := []
  power := none
  whole_isDigit := fun _ hc => Nat.isDigit_of_mem_toDigits (by decide) (by decide) hc
  whole_ne_nil := Nat.toDigits_ne_nil
  whole_zero := by
    intro hzero
    rcases Nat.eq_zero_or_pos n with rfl | hn
    · rfl
    · exact absurd hzero (head?_toDigits hn)
  fraction_isDigit := by simp
  power_isDigit := by simp
  power_ne_nil := by simp

theorem nearest?_ofNat (negative : Bool) (n : Nat) :
    ((ofNat n).numeral negative).nearest? =
      some (.int (if negative then -(n : Int) else n)) := by
  have hvalue : toNat (digitValues (Nat.toDigits 10 n)) = n := by
    rw [toNat_digitValues, Nat.ofDigitChars_ten_toDigits]
  have hnil : digitValues [] = [] := rfl
  simp [nearest?, numeral, ofNat, hvalue, hnil]

/-- Parts of no integer that stand for digits, the first of them at `10^power`. -/
structure Stands (p : Parts) (ds : List Char) (power : Int) : Prop where
  not_integer : p.fraction ≠ [] ∨ p.power ≠ none
  value_eq (negative : Bool) : (p.numeral negative).decimal.value =
    Decimal.value ⟨Nat.ofDigitChars 10 ds 0, power + 1 - ds.length⟩

/-- Digits around a point. -/
theorem exists_pointed {whole fraction ds : List Char} {power : Int}
    (hdigits : ∀ c ∈ whole ++ fraction, c.isDigit = true) (hwhole : whole ≠ [])
    (hzero : whole.head? = some '0' → whole.length = 1) (hfraction : fraction ≠ [])
    (hvalue : Decimal.value ⟨Nat.ofDigitChars 10 (whole ++ fraction) 0, -fraction.length⟩ =
      Decimal.value ⟨Nat.ofDigitChars 10 ds 0, power + 1 - ds.length⟩) :
    ∃ p : Parts, p.text = whole ++ '.' :: fraction ∧ p.Stands ds power := by
  refine ⟨⟨whole, fraction, none, ?_, hwhole, hzero, ?_, ?_, ?_⟩, ?_, .inl hfraction, ?_⟩
  · intro c hc
    exact hdigits c (List.mem_append_left _ hc)
  · intro c hc
    exact hdigits c (List.mem_append_right _ hc)
  · simp
  · simp
  · rw [text, fractionText_of_ne_nil hfraction, powerText, List.append_nil]
  · intro negative
    rw [decimal_numeral, ← hvalue]
    simp only [numeral, Option.map_none, powerValue, Int.zero_sub]

end Numeral.Parts

namespace Binary64

open Numeral (Parts)

section Layouts

variable {ds : List Char} (hdigits : ∀ c ∈ ds, c.isDigit = true) (hne : ds ≠ [])
  (hhead : ds.head? ≠ some '0') {power : Int}

include hdigits hne

theorem exists_positional_of_neg (hpower : power < 0) :
    ∃ p : Parts, p.text = positional ds power ∧ p.Stands ds power := by
  rw [positional, if_pos hpower]
  change ∃ p : Parts, p.text = ['0'] ++ '.' :: _ ∧ _
  apply Parts.exists_pointed
  · intro c hc
    simp only [List.mem_append, List.mem_singleton, List.mem_replicate] at hc
    rcases hc with rfl | ⟨-, rfl⟩ | hc
    · rfl
    · rfl
    · exact hdigits c hc
  · exact List.cons_ne_nil _ _
  · exact fun _ => rfl
  · exact List.append_ne_nil_of_right_ne_nil _ hne
  · congr 2
    · simp [Nat.ofDigitChars_append, Nat.ofDigitChars_cons, Nat.ofDigitChars_replicate_zero]
    · rw [List.length_append, List.length_replicate]
      omega

include hhead

theorem exists_positional_of_nonneg (hpower : 0 ≤ power) :
    ∃ p : Parts, p.text = positional ds power ∧ p.Stands ds power := by
  obtain ⟨k, rfl⟩ := Int.eq_ofNat_of_zero_le hpower
  have hneg : ¬ (k : Int) < 0 := by omega
  rw [positional, if_neg hneg, Int.toNat_natCast]
  rcases Nat.lt_or_ge (k + 1) ds.length with hlong | hshort
  · -- the point stands among the digits
    have hrest : ds.drop (k + 1) ≠ [] := by simpa using hlong
    have hpad : k + 1 - ds.length = 0 := by omega
    simp only [hpad, List.replicate_zero, List.append_nil, List.isEmpty_iff, hrest, if_false]
    apply Parts.exists_pointed
    · rwa [List.take_append_drop]
    · simpa using hne
    · intro hzero
      rw [List.head?_take, if_neg (Nat.succ_ne_zero k)] at hzero
      contradiction
    · exact hrest
    · rw [List.take_append_drop, List.length_drop]
      congr 2
      omega
  · -- the point stands behind them, and a zero behind it
    have hrest : ds.drop (k + 1) = [] := by simpa using hshort
    simp only [hrest, List.isEmpty_nil, if_true, List.take_of_length_le hshort]
    apply Parts.exists_pointed
    · intro c hc
      simp only [List.mem_append, List.mem_singleton, List.mem_replicate] at hc
      rcases hc with (hc | ⟨-, rfl⟩) | rfl
      · exact hdigits c hc
      · rfl
      · rfl
    · exact List.append_ne_nil_of_left_ne_nil hne _
    · intro hzero
      rw [List.head?_append_of_ne_nil _ hne] at hzero
      contradiction
    · exact List.cons_ne_nil _ _
    · have hzeros : List.replicate (k + 1 - ds.length) '0' ++ ['0'] =
          List.replicate (k + 1 - ds.length + 1) '0' := List.replicate_succ'.symm
      rw [List.append_assoc, hzeros, Nat.ofDigitChars_append, Nat.ofDigitChars_replicate_zero,
        ← Nat.pow_eq, Decimal.value_zeros, List.length_singleton]
      congr 2
      omega

theorem exists_scientific (power : Int) :
    ∃ p : Parts, p.text = scientific ds power ∧ p.Stands ds power := by
  have hfraction : Parts.fractionText (ds.drop 1) =
      if (ds.drop 1).isEmpty then [] else '.' :: ds.drop 1 := by
    cases ds.drop 1 with
    | nil => rfl
    | cons c cs => rfl
  have hpower : Numeral.powerValue (some (decide (power < 0),
      Numeral.digitValues (Nat.toDigits 10 power.natAbs))) = power := by
    have hvalue : Numeral.toNat (Numeral.digitValues (Nat.toDigits 10 power.natAbs)) =
        power.natAbs := by
      rw [Numeral.toNat_digitValues, Nat.ofDigitChars_ten_toDigits]
    rcases lt_or_ge power 0 with hneg | hneg
    · rw [decide_eq_true hneg, Numeral.powerValue, hvalue]
      omega
    · rw [decide_eq_false (Int.not_lt.mpr hneg), Numeral.powerValue, hvalue]
      omega
  refine ⟨⟨ds.take 1, ds.drop 1, some (decide (power < 0), Nat.toDigits 10 power.natAbs),
    ?_, ?_, ?_, ?_, ?_, ?_⟩, ?_, .inr (Option.some_ne_none _), ?_⟩
  · exact fun c hc => hdigits c (List.mem_of_mem_take hc)
  · simpa using hne
  · intro hzero
    rw [List.head?_take, if_neg (by decide)] at hzero
    contradiction
  · exact fun c hc => hdigits c (List.mem_of_mem_drop hc)
  · intro p hp c hc
    obtain rfl := Option.mem_some.mp hp
    exact Nat.isDigit_of_mem_toDigits (by decide) (by decide) hc
  · intro p hp
    obtain rfl := Option.mem_some.mp hp
    exact Nat.toDigits_ne_nil
  · rw [Parts.text, hfraction, Parts.powerText, scientific, List.append_assoc]
    simp only [decide_eq_true_eq]
  · intro negative
    have hlength : 0 < ds.length := List.length_pos_of_ne_nil hne
    rw [Parts.decimal_numeral, List.take_append_drop]
    simp only [Parts.numeral, Option.map_some, hpower, List.length_drop]
    congr 2
    omega

end Layouts

theorem significand_pos {x : Binary64} (hx : x.isZero = false) : 0 < x.significand := by
  apply Nat.pos_of_ne_zero
  simpa [isZero] using hx

theorem eq_zero_of_isZero {x : Binary64} (hx : x.isZero = true) : x = zero x.negative := by
  obtain ⟨negative, significand, exponent, hcanonical⟩ := x
  obtain rfl : significand = 0 := eq_of_beq hx
  obtain rfl : exponent = -1074 := hcanonical.2.2.2.resolve_left (by decide)
  rfl

/-- A decimal that reads as a double other than zero has a digit other than zero. -/
theorem digits_pos_of_read? {d : Decimal} {x : Binary64} (hx : 0 < x.significand)
    (h : d.read? x.negative = some x) : 0 < d.digits := by
  apply Nat.pos_of_ne_zero
  intro hzero
  have hratio : d.ratio.1 = 0 := by
    rw [Decimal.ratio, hzero]
    split
    · exact Nat.zero_mul _
    · rfl
  rw [Decimal.read?, hratio, ofRatio?, if_pos rfl] at h
  rw [← Option.some.inj h] at hx
  exact absurd hx (Nat.lt_irrefl 0)

/-- The digits of a decimal without the zeros at its end, the first of them at its own power. -/
theorem value_significantDigits (d : Decimal) :
    Decimal.value ⟨Nat.ofDigitChars 10 (significantDigits d.digits) 0,
      d.exponent + Decimal.digitCount d.digits - 1 + 1 - (significantDigits d.digits).length⟩ =
      d.value := by
  obtain ⟨k, hk⟩ := toDigits_eq_significantDigits d.digits
  have hcount : Decimal.digitCount d.digits = (significantDigits d.digits).length + k := by
    rw [Decimal.digitCount, hk, List.length_append, List.length_replicate]
  have hdigits : d.digits = Nat.pow 10 k * Nat.ofDigitChars 10 (significantDigits d.digits) 0 := by
    have hvalue : Nat.ofDigitChars 10 (Nat.toDigits 10 d.digits) 0 = d.digits :=
      Nat.ofDigitChars_ten_toDigits
    rw [hk, Nat.ofDigitChars_append, Nat.ofDigitChars_replicate_zero] at hvalue
    exact hvalue.symm
  have hexponent : d.exponent + Decimal.digitCount d.digits - 1 + 1 -
      (significantDigits d.digits).length = d.exponent + k := by omega
  rw [hexponent, ← Decimal.value_zeros, ← hdigits]

/-- The text of a double is a numeral, and the double nearest to it is the one written. -/
theorem exists_magnitudeText (x : Binary64) :
    ∃ p : Parts, p.text = x.magnitudeText ∧ (p.fraction ≠ [] ∨ p.power ≠ none) ∧
      (p.numeral x.negative).decimal.read? x.negative = some x := by
  unfold magnitudeText
  cases hx : x.isZero with
  | true =>
    refine ⟨⟨['0'], ['0'], none, by simp, by simp, fun _ => rfl, by simp, ?_, ?_⟩, rfl,
      .inl (List.cons_ne_nil _ _), ?_⟩
    · simp
    · simp
    · rw [eq_zero_of_isZero hx]
      rfl
  | false =>
    have hsignificand := significand_pos hx
    have hread := x.read?_shortest hsignificand
    have hpos := digits_pos_of_read? hsignificand hread
    have hdigits := isDigit_significantDigits x.shortest.digits
    have hne := significantDigits_ne_nil hpos
    have hhead := head?_significantDigits hpos
    have hvalue := value_significantDigits x.shortest
    -- one layout for each range of the power, and all of them keep the value
    have hlayout (text : List Char) (h : ∃ p : Parts, p.text = text ∧
        p.Stands (significantDigits x.shortest.digits)
          (x.shortest.exponent + Decimal.digitCount x.shortest.digits - 1)) :
        ∃ p : Parts, p.text = text ∧ (p.fraction ≠ [] ∨ p.power ≠ none) ∧
          (p.numeral x.negative).decimal.read? x.negative = some x := by
      obtain ⟨p, htext, hstands⟩ := h
      refine ⟨p, htext, hstands.not_integer, ?_⟩
      rw [← hread]
      exact Decimal.read?_congr x.negative ((hstands.value_eq x.negative).trans hvalue)
    apply hlayout
    dsimp only
    split
    · next hfalse => contradiction
    · split
      · rcases lt_or_ge (x.shortest.exponent + Decimal.digitCount x.shortest.digits - 1) 0
          with hneg | hnonneg
        · exact exists_positional_of_neg hdigits hne hneg
        · exact exists_positional_of_nonneg hdigits hne hhead hnonneg
      · exact exists_scientific hdigits hne hhead _

end Binary64

namespace Number

open Numeral (Parts)

theorem toList_intText (i : Int) :
    (intText i).toList = (Parts.ofNat i.natAbs).signed (decide (i < 0)) := by
  simp only [intText, String.toList_ofList, Parts.signed, Parts.text, Parts.ofNat,
    Parts.fractionText, Parts.powerText, List.append_nil, decide_eq_true_eq]
  split <;> rfl

/-- The text of a number is a numeral, and the number nearest to it is the one written. -/
theorem exists_parts (n : Number) : ∃ (negative : Bool) (p : Parts),
    n.text.toList = p.signed negative ∧ (p.numeral negative).nearest? = some n := by
  cases n with
  | int i =>
    refine ⟨decide (i < 0), .ofNat i.natAbs, toList_intText i, ?_⟩
    rw [Parts.nearest?_ofNat]
    congr 2
    simp only [decide_eq_true_eq]
    omega
  | float x =>
    obtain ⟨p, htext, hkind, hread⟩ := x.exists_magnitudeText
    refine ⟨x.negative, p, ?_, ?_⟩
    · rw [text, Binary64.text, String.toList_ofList, Parts.signed, htext]
    · have hfloat : ((p.numeral x.negative).fraction.isEmpty &&
          (p.numeral x.negative).power.isNone) = false := by
        rcases hkind with hfraction | hpower
        · simp [Parts.numeral, Numeral.digitValues, hfraction]
        · simp [Parts.numeral, Option.isSome_iff_ne_none, hpower]
      have hnegative : (p.numeral x.negative).negative = x.negative := rfl
      rw [Numeral.nearest?, hfloat, hnegative, hread]
      rfl

/-- A number is the nearest one to its own text. -/
theorem read?_text (n : Number) : (Numeral.read? n.text.toList).bind Numeral.nearest? = some n := by
  obtain ⟨negative, p, htext, hnearest⟩ := n.exists_parts
  rw [htext, p.read?_signed, Option.bind_some, hnearest]

theorem isBare_text (n : Number) : ∀ c ∈ n.text.toList, Json.Token.isBare c = true := by
  obtain ⟨negative, p, htext, -⟩ := n.exists_parts
  rw [htext]
  cases negative with
  | false => exact p.isBare_text
  | true =>
    intro c hc
    rcases List.mem_cons.mp hc with rfl | hc
    · rfl
    · exact p.isBare_text c hc

/-- A number begins with a digit or a minus sign. -/
theorem text_eq_cons (n : Number) :
    ∃ c cs, n.text.toList = c :: cs ∧ (c.isDigit = true ∨ c = '-') := by
  obtain ⟨negative, p, htext, -⟩ := n.exists_parts
  cases negative with
  | true => exact ⟨'-', p.text, htext, .inr rfl⟩
  | false =>
    obtain ⟨c, cs, hcons, hdigit⟩ := p.text_eq_cons
    exact ⟨c, cs, htext.trans hcons, .inl hdigit⟩

end Number

/-- The characters of numbers lie between the blanks. -/
theorem Text.isBlank_of_isBare {c : Char} (h : Json.Token.isBare c = true) : isBlank c = false := by
  have hrange : 33 ≤ c.toNat ∧ c.toNat ≤ 122 := by
    have hclass : (decide (c.val ≥ 'A'.val ∧ c.val ≤ 'Z'.val) ||
        (c.val ≥ 'a'.val && c.val ≤ 'z'.val) || (c.val ≥ '0'.val && c.val ≤ '9'.val) ||
        c == '-' || c == '+' || c == '.') = true := h
    simp only [Bool.or_eq_true, Bool.and_eq_true, decide_eq_true_eq, beq_iff_eq,
      UInt32.le_iff_toNat_le] at hclass
    rcases hclass with (((hletter | hdigit) | rfl) | rfl) | rfl
    · simp at hletter
      omega
    · simp at hdigit
      omega
    · decide
    · decide
    · decide
  simp only [isBlank, blankRanges, List.any_cons, List.any_nil, Bool.or_false, Bool.or_eq_false_iff,
    Bool.and_eq_false_iff, decide_eq_false_iff_not]
  omega

end FilterSql
