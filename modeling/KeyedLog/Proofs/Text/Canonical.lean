import KeyedLog.Proofs.Text.Numeral
import Mathlib.Data.List.Basic
import Mathlib.Data.List.Induction

/-!
# Numerals told from their characters

The numerals that are printed are the texts of digits in which no zero stands in front of others. A
text is judged by this rule from its characters alone.
-/
namespace KeyedLog.Decimal

/-- The value of digits, the most significant first. -/
def value (cs : List Char) : Nat := cs.foldl (fun v c => 10 * v + (c.toNat - 48)) 0

/-- The rule for the numeral of a number within a bound: digits only, with no zero in front of
others, and a value that the bound allows. -/
structure Canonical (bound : Nat) (text : String) : Prop where
  nonempty : text ≠ ""
  digits : ∀ c ∈ text.toList, '0' ≤ c ∧ c ≤ '9'
  leading : text.toList.head? = some '0' → text = "0"
  bounded : value text.toList ≤ bound

theorem value_nil : value [] = 0 := rfl

theorem value_append_singleton (cs : List Char) (c : Char) :
    value (cs ++ [c]) = 10 * value cs + (c.toNat - 48) := by
  rw [value, List.foldl_append]
  rfl

theorem toNat_digit {n : Nat} (h : n < 10) : (digit n).toNat - 48 = n := by
  have all : ∀ m < 10, (digit m).toNat - 48 = m := by decide
  exact all n h

theorem value_digits (n : Nat) : value (digits n) = n := by
  induction n using digits.induct with
  | case1 n hn =>
    rw [digits, if_pos hn, ← List.nil_append [digit n], value_append_singleton, toNat_digit hn,
      value_nil, Nat.mul_zero, Nat.zero_add]
  | case2 n hn ih =>
    rw [digits, if_neg hn, value_append_singleton, ih, toNat_digit (Nat.mod_lt n (by decide))]
    omega

theorem digits_zero : digits 0 = ['0'] := by
  rw [digits, if_pos (by decide)]
  rfl

/-- Only the numeral of zero begins with a zero. -/
theorem head?_digits {n : Nat} (h : (digits n).head? = some '0') : n = 0 := by
  induction n using digits.induct with
  | case1 n hn =>
    have all : ∀ m < 10, digit m = '0' → m = 0 := by decide
    rw [digits, if_pos hn, List.head?_cons, Option.some.injEq] at h
    exact all n hn h
  | case2 n hn ih =>
    rw [digits, if_neg hn, List.head?_append_of_ne_nil _ (digits_ne_nil _)] at h
    have := ih h
    omega

theorem digit_toNat {c : Char} (h : '0' ≤ c ∧ c ≤ '9') :
    c.toNat - 48 < 10 ∧ digit (c.toNat - 48) = c := by
  have hlow : 48 ≤ c.toNat := UInt32.le_iff_toNat_le.mp (Char.le_def.mp h.1)
  have hhigh : c.toNat ≤ 57 := UInt32.le_iff_toNat_le.mp (Char.le_def.mp h.2)
  refine ⟨by omega, ?_⟩
  rw [digit, Nat.add_sub_cancel' hlow, Char.ofNat_toNat]

/-- Digits without a zero in front are the numeral of their value. -/
theorem digits_value {cs : List Char} (hne : cs ≠ []) (hdigits : ∀ c ∈ cs, '0' ≤ c ∧ c ≤ '9')
    (hleading : cs.head? = some '0' → cs = ['0']) : digits (value cs) = cs := by
  induction cs using List.reverseRecOn with
  | nil => exact absurd rfl hne
  | append_singleton init c ih =>
    obtain ⟨hlt, hc⟩ := digit_toNat (hdigits c (by simp))
    rw [value_append_singleton]
    by_cases hinit : init = []
    · rw [hinit, value_nil, Nat.mul_zero, Nat.zero_add, digits, if_pos hlt, hc, List.nil_append]
    · have hhead : init.head? ≠ some '0' := by
        intro h
        have hwhole := hleading (by rw [List.head?_append_of_ne_nil _ hinit, h])
        have hlength := congrArg List.length hwhole
        rw [List.length_append, List.length_singleton, List.length_singleton] at hlength
        exact hinit (List.eq_nil_of_length_eq_zero (by omega))
      have hvalue := ih hinit (fun d hd => hdigits d (List.mem_append_left _ hd))
        (fun h => absurd h hhead)
      have hpos : value init ≠ 0 := by
        intro h
        rw [h] at hvalue
        rw [← hvalue, digits_zero] at hhead
        exact hhead rfl
      rw [digits, if_neg (by omega)]
      have hdiv : (10 * value init + (c.toNat - 48)) / 10 = value init := by omega
      have hmod : (10 * value init + (c.toNat - 48)) % 10 = c.toNat - 48 := by omega
      rw [hdiv, hmod, hvalue, hc]

/-- The texts of the rule are the numerals that are printed. -/
theorem canonical_iff {bound : Nat} {text : String} :
    Canonical bound text ↔ ∃ n ≤ bound, text = ofNat n := by
  constructor
  · intro h
    have htext : digits (value text.toList) = text.toList := by
      refine digits_value (fun hnil => h.nonempty ?_) h.digits fun hhead => ?_
      · rw [← String.toList_inj, hnil]
        rfl
      · rw [h.leading hhead]
        rfl
    exact ⟨value text.toList, h.bounded, by rw [ofNat, htext, String.ofList_toList]⟩
  · rintro ⟨n, hn, rfl⟩
    refine ⟨fun hempty => ?_, ?_, ?_, ?_⟩
    · have hchars := congrArg String.toList hempty
      rw [ofNat, String.toList_ofList] at hchars
      exact digits_ne_nil n hchars
    · have hdigit : ∀ m < 10, '0' ≤ digit m ∧ digit m ≤ '9' := by decide
      intro c hc
      rw [ofNat, String.toList_ofList] at hc
      obtain ⟨d, hd, rfl⟩ := mem_digits hc
      exact hdigit d hd
    · intro hhead
      rw [ofNat, String.toList_ofList] at hhead
      rw [head?_digits hhead, ofNat, digits_zero]
    · rw [ofNat, String.toList_ofList, value_digits]
      exact hn

end KeyedLog.Decimal
