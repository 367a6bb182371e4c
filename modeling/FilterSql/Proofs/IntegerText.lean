import FilterSql.Proofs.NumberText

/-!
Integers as text. A numeral without fraction and exponent has no zero before another digit and no sign but
a minus, so an integer is read from one text only, which is the text that is written for it.
-/

namespace FilterSql

section Digits

theorem digitChar_toNat_sub {c : Char} (h : c.isDigit = true) :
    c.toNat - '0'.toNat < 10 ∧ Nat.digitChar (c.toNat - '0'.toNat) = c := by
  have hrange : 48 ≤ c.toNat ∧ c.toNat ≤ 57 := by
    simpa [Char.isDigit, UInt32.le_iff_toNat_le] using h
  have hzero : '0'.toNat = 48 := rfl
  have htable : ∀ k < 10, (Nat.digitChar k).toNat = k + 48 := by decide
  have hlt : c.toNat - '0'.toNat < 10 := by omega
  refine ⟨hlt, Char.toNat_inj.mp ?_⟩
  rw [htable _ hlt]
  omega

/-- Digits without a needless zero are those of their value. -/
theorem toDigits_ofDigitChars {ds : List Char} (hdigits : ∀ c ∈ ds, c.isDigit = true)
    (hne : ds ≠ []) (hzero : ds.head? = some '0' → ds.length = 1) :
    Nat.toDigits 10 (Nat.ofDigitChars 10 ds 0) = ds := by
  induction ds using List.reverseRecOn with
  | nil => exact absurd rfl hne
  | append_singleton front d ih =>
    obtain ⟨hlt, hchar⟩ := digitChar_toNat_sub (hdigits d (by simp))
    have hlast : Nat.toDigits 10 (d.toNat - '0'.toNat) = [d] := by
      rw [Nat.toDigits_of_lt_base hlt, hchar]
    have hvalue : Nat.ofDigitChars 10 (front ++ [d]) 0 =
        10 * Nat.ofDigitChars 10 front 0 + (d.toNat - '0'.toNat) := by
      rw [Nat.ofDigitChars_append, Nat.ofDigitChars_cons, Nat.ofDigitChars_nil]
    by_cases hfront : front = []
    · rw [hvalue, hfront, Nat.ofDigitChars_nil, Nat.mul_zero, Nat.zero_add, hlast, List.nil_append]
    · have hhead : front.head? ≠ some '0' := by
        intro hhead
        have hlength := hzero (by rw [List.head?_append_of_ne_nil _ hfront, hhead])
        have hpos := List.length_pos_iff.mpr hfront
        simp only [List.length_append, List.length_singleton] at hlength
        omega
      have hdigitsFront := ih (fun c hc => hdigits c (List.mem_append_left _ hc)) hfront
        (fun h => absurd h hhead)
      -- a value of zero has a zero as its first digit
      have hpos : 0 < Nat.ofDigitChars 10 front 0 := by
        apply Nat.pos_of_ne_zero
        intro hvanishes
        rw [hvanishes] at hdigitsFront
        exact hhead (by rw [← hdigitsFront]; rfl)
      rw [hvalue, ← Nat.toDigits_append_toDigits (by decide) hpos hlt, hdigitsFront, hlast]

end Digits

/-- The integers that a word of 64 bits holds, with a sign or without. -/
def Number.IsWord (i : Int) : Prop := -(Nat.pow 2 63 : Int) ≤ i ∧ i < Nat.pow 2 64

namespace Numeral

theorem exists_digits_of_wholePart? {cs rest : List Char} {whole : List Nat}
    (h : wholePart? cs = some (whole, rest)) :
    ∃ ds, cs = ds ++ rest ∧ whole = digitValues ds ∧ (∀ c ∈ ds, c.isDigit = true) ∧ ds ≠ [] ∧
      (ds.head? = some '0' → ds.length = 1) := by
  have hdigits : digits cs = (digitValues (cs.takeWhile Char.isDigit), cs.dropWhile Char.isDigit) :=
    rfl
  unfold wholePart? at h
  split at h
  · contradiction
  · contradiction
  · next hempty hzero =>
    rw [hdigits] at h hempty hzero
    obtain ⟨rfl, rfl⟩ := Prod.mk.inj (Option.some.inj h)
    refine ⟨_, List.takeWhile_append_dropWhile.symm, rfl, ?_, ?_, ?_⟩
    · exact List.all_eq_true.mp List.all_takeWhile
    · intro hnil
      exact hempty _ (by rw [hnil]; rfl)
    · intro hhead
      obtain ⟨ds, hds⟩ := List.head?_eq_some_iff.mp hhead
      cases ds with
      | nil => rw [hds]; rfl
      | cons d ds => exact absurd (by rw [hds]; rfl) (hzero _ _ _)

theorem eq_of_fractionPart? {cs rest : List Char} (h : fractionPart? cs = some ([], rest)) :
    cs = rest := by
  unfold fractionPart? at h
  split at h
  · split at h
    · contradiction
    · next hne => exact absurd (Option.some.inj h) (hne rest)
  · exact congrArg Prod.snd (Option.some.inj h)

theorem eq_nil_of_powerPart? {cs : List Char} (h : powerPart? cs = some none) : cs = [] := by
  unfold powerPart? at h
  split at h
  · rfl
  · split at h
    · split at h <;> simp at h
    · contradiction

/-- A numeral of an integer is its whole part, and that is the whole text. -/
theorem eq_toDigits_of_unsigned? {negative : Bool} {cs : List Char} {n : Numeral}
    (h : unsigned? negative cs = some n) (hfraction : n.fraction = []) (hpower : n.power = none) :
    cs = Nat.toDigits 10 (toNat n.whole) ∧ n.negative = negative := by
  obtain ⟨⟨whole, rest⟩, hwhole, h⟩ := Option.bind_eq_some_iff.mp h
  obtain ⟨⟨fraction, rest'⟩, hrest, h⟩ := Option.bind_eq_some_iff.mp h
  obtain ⟨power, hrest', h⟩ := Option.bind_eq_some_iff.mp h
  obtain rfl : _ = n := Option.some.inj h
  obtain rfl : fraction = [] := hfraction
  obtain rfl : power = none := hpower
  obtain rfl : rest' = [] := eq_nil_of_powerPart? hrest'
  obtain rfl : rest = [] := eq_of_fractionPart? hrest
  obtain ⟨ds, rfl, rfl, hdigits, hne, hzero⟩ := exists_digits_of_wholePart? hwhole
  refine ⟨?_, rfl⟩
  rw [List.append_nil, toNat_digitValues, toDigits_ofDigitChars hdigits hne hzero]

theorem eq_signed_of_read? {cs : List Char} {n : Numeral} (h : read? cs = some n)
    (hfraction : n.fraction = []) (hpower : n.power = none) :
    cs = (Parts.ofNat (toNat n.whole)).signed n.negative := by
  have htext (k : Nat) : (Parts.ofNat k).text = Nat.toDigits 10 k := by
    simp [Parts.text, Parts.ofNat, Parts.fractionText, Parts.powerText]
  unfold read? at h
  split at h
  · obtain ⟨rfl, hnegative⟩ := eq_toDigits_of_unsigned? h hfraction hpower
    rw [Parts.signed, hnegative, if_pos rfl, htext]
  · obtain ⟨rfl, hnegative⟩ := eq_toDigits_of_unsigned? h hfraction hpower
    rw [Parts.signed, hnegative, if_neg Bool.false_ne_true, htext]

theorem value?_eq_int {n : Numeral} {i : Int} : n.value? = some (.int i) ↔ n.integer? = some i := by
  unfold value?
  cases n.integer? with
  | none => simp
  | some j => simp

theorem integer?_eq_some {n : Numeral} {i : Int} :
    n.integer? = some i ↔
      n.fraction = [] ∧ n.power = none ∧ toNat n.whole = i.natAbs ∧
        n.negative = decide (i < 0) ∧ Number.IsWord i := by
  have hwords : (Nat.pow 2 63 : Int) = 9223372036854775808 ∧
      (Nat.pow 2 64 : Int) = 18446744073709551616 := by decide
  unfold integer? Number.IsWord
  rw [hwords.1, hwords.2]
  by_cases hplain : n.fraction = [] ∧ n.power = none
  · cases hnegative : n.negative with
    | true =>
      -- a minus sign stands before no zero
      simp [hplain.1, hplain.2]
      omega
    | false =>
      simp [hplain.1, hplain.2]
      omega
  · have hnone : (n.fraction.isEmpty && n.power.isNone) = false := by
      simpa [Option.isSome_iff_ne_none] using hplain
    rw [hnone]
    simpa using fun hfraction hpower => absurd ⟨hfraction, hpower⟩ hplain

end Numeral

namespace Number

/-- An integer is read from its own text and from no other. -/
theorem read?_eq_int {cs : List Char} {i : Int} :
    read? cs = some (.int i) ↔ IsWord i ∧ cs = (intText i).toList := by
  rw [toList_intText]
  constructor
  · intro h
    obtain ⟨n, hn, hvalue⟩ := Option.bind_eq_some_iff.mp h
    obtain ⟨hfraction, hpower, hwhole, hnegative, hword⟩ :=
      Numeral.integer?_eq_some.mp (Numeral.value?_eq_int.mp hvalue)
    refine ⟨hword, ?_⟩
    rw [Numeral.eq_signed_of_read? hn hfraction hpower, hwhole, hnegative]
  · rintro ⟨hword, rfl⟩
    refine Option.bind_eq_some_iff.mpr ⟨_, Numeral.Parts.read?_signed _ _, ?_⟩
    refine Numeral.value?_eq_int.mpr (Numeral.integer?_eq_some.mpr ⟨rfl, rfl, ?_, rfl, hword⟩)
    exact (Numeral.toNat_digitValues _).trans Nat.ofDigitChars_ten_toDigits

end Number

end FilterSql
