import KeyedLog.Text.Blank
import KeyedLog.Text.Decimal

/-!
# Numerals read back

The numeral of a number reads back as the number wherever it is within the bounds, and a number
has one numeral only. So a number may be kept in the name or in the text of a file.
-/
namespace KeyedLog.Decimal

theorem digit?_digit {n : Nat} (h : n < 10) : digit? (digit n) = some n := by
  have all : ∀ m < 10, digit? (digit m) = some m := by decide
  exact all n h

/-- No digit is taken for anything else that a name or a text is cut at. -/
theorem digit_plain {n : Nat} (h : n < 10) :
    digit n ≠ '.' ∧ digit n ≠ '-' ∧ digit n ≠ '+' ∧ Text.isBlank (digit n) = false := by
  have all : ∀ m < 10, digit m ≠ '.' ∧ digit m ≠ '-' ∧ digit m ≠ '+' ∧
      Text.isBlank (digit m) = false := by decide
  exact all n h

theorem mem_digits {n : Nat} {c : Char} (h : c ∈ digits n) : ∃ d < 10, c = digit d := by
  induction n using digits.induct with
  | case1 n hn =>
    rw [digits, if_pos hn, List.mem_singleton] at h
    exact ⟨n, hn, h⟩
  | case2 n hn ih =>
    rw [digits, if_neg hn, List.mem_append, List.mem_singleton] at h
    cases h with
    | inl h => exact ih h
    | inr h => exact ⟨n % 10, by omega, h⟩

theorem digits_ne_nil (n : Nat) : digits n ≠ [] := by
  rw [digits]
  split <;> simp

theorem readDigits_append {bound v w : Nat} {beyond : Refusal} {xs : List Char}
    (h : readDigits bound beyond v xs = .ok w) (ys : List Char) :
    readDigits bound beyond v (xs ++ ys) = readDigits bound beyond w ys := by
  induction xs generalizing v with
  | nil =>
    simp only [readDigits, Except.ok.injEq] at h
    rw [List.nil_append, h]
  | cons c rest ih =>
    simp only [readDigits] at h
    simp only [List.cons_append, readDigits]
    split at h
    · cases h
    · split at h
      · next hle => rw [if_pos hle]; exact ih h
      · cases h

theorem readDigits_digits {bound n : Nat} (beyond : Refusal) (h : n ≤ bound) :
    readDigits bound beyond 0 (digits n) = .ok n := by
  induction n using digits.induct with
  | case1 n hn =>
    rw [digits, if_pos hn]
    simp [readDigits, digit?_digit hn, h]
  | case2 n hn ih =>
    rw [digits, if_neg hn, readDigits_append (ih (by omega))]
    have hsum : 10 * (n / 10) + n % 10 = n := by omega
    simp [readDigits, digit?_digit (show n % 10 < 10 by omega), hsum, h]

theorem readDigits_le {bound v w : Nat} {beyond : Refusal} {cs : List Char} (hv : v ≤ bound)
    (h : readDigits bound beyond v cs = .ok w) : w ≤ bound := by
  induction cs generalizing v with
  | nil =>
    simp only [readDigits, Except.ok.injEq] at h
    omega
  | cons c rest ih =>
    simp only [readDigits] at h
    split at h
    · cases h
    · split at h
      · next hle => exact ih hle h
      · cases h

/-- The digits of a number are read as they stand: they are neither empty nor signed. -/
theorem readChars_digits (low high : Int) (n : Nat) :
    readChars low high (digits n) =
      (readDigits high.toNat .tooLarge 0 (digits n)).map Int.ofNat := by
  cases hd : digits n with
  | nil => exact absurd hd (digits_ne_nil n)
  | cons c rest =>
    obtain ⟨d, hlt, rfl⟩ := mem_digits (n := n) (c := c) (by simp [hd])
    obtain ⟨-, hminus, hplus, -⟩ := digit_plain hlt
    simp [readChars, hminus, hplus]

/-- A numeral reads back wherever the bounds allow its number. -/
theorem read_ofInt {low high n : Int} (hlow : low ≤ n) (hhigh : n ≤ high) :
    read low high (ofInt n) = .ok n := by
  by_cases hneg : n < 0
  · have hlt : low < 0 := by omega
    have hle : n.natAbs ≤ low.natAbs := by omega
    have hread := readDigits_digits .tooSmall hle
    have hn : -(n.natAbs : Int) = n := by omega
    simp only [read, ofInt, if_pos hneg, String.toList_ofList, readChars, hread]
    rw [if_neg (by simp), if_pos ⟨trivial, hlt, digits_ne_nil _⟩]
    exact congrArg Except.ok hn
  · have hle : n.natAbs ≤ high.toNat := by omega
    have hread := readDigits_digits .tooLarge hle
    have hn : (n.natAbs : Int) = n := by omega
    simp only [read, ofInt, if_neg hneg, String.toList_ofList, readChars_digits, hread]
    exact congrArg Except.ok hn

theorem readI32_ofInt {n : Int} (h : minI32 ≤ n ∧ n ≤ maxI32) : readI32 (ofInt n) = .ok n :=
  read_ofInt h.1 h.2

theorem readI64_ofInt {n : Int} (h : minI64 ≤ n ∧ n ≤ maxI64) : readI64 (ofInt n) = .ok n :=
  read_ofInt h.1 h.2

theorem readU32_ofNat {n : Nat} (h : n ≤ maxU32) : readU32 (ofNat n) = .ok n := by
  have hread := readDigits_digits .tooLarge h
  simp [readU32, read, ofNat, readChars_digits, hread, Except.map]

theorem map_eq_ok {ε α β : Type} {f : α → β} {x : Except ε α} {b : β} (h : x.map f = .ok b) :
    ∃ a, x = .ok a ∧ f a = b := by
  cases x with
  | error e => cases h
  | ok a => exact ⟨a, rfl, Except.ok.inj h⟩

/-- Without room for negative numbers, what is read lies within the bound. -/
theorem readChars_le {high n : Int} {cs : List Char} (h : readChars 0 high cs = .ok n) :
    n ≤ high.toNat := by
  cases cs with
  | nil => cases h
  | cons c rest =>
    simp only [readChars, Int.lt_irrefl, false_and, and_false, if_false] at h
    split at h
    · obtain ⟨w, hw, rfl⟩ := map_eq_ok h
      exact Int.ofNat_le.mpr (readDigits_le (Nat.zero_le _) hw)
    · obtain ⟨w, hw, rfl⟩ := map_eq_ok h
      exact Int.ofNat_le.mpr (readDigits_le (Nat.zero_le _) hw)

theorem readU32_le {text : String} {n : Nat} (h : readU32 text = .ok n) : n ≤ maxU32 := by
  obtain ⟨w, hw, rfl⟩ := map_eq_ok h
  have := readChars_le hw
  simp only [Int.toNat_natCast] at this
  omega

theorem digits_inj {m n : Nat} (h : digits m = digits n) : m = n := by
  have hm := readDigits_digits .tooLarge (Nat.le_max_left m n)
  have hn := readDigits_digits .tooLarge (Nat.le_max_right m n)
  rw [h, hn] at hm
  exact (Except.ok.inj hm).symm

/-- No two numbers share a numeral. -/
theorem ofNat_inj {m n : Nat} : ofNat m = ofNat n ↔ m = n := by
  constructor
  · intro h
    exact digits_inj (by simpa only [ofNat, String.toList_ofList] using congrArg String.toList h)
  · rintro rfl
    rfl

theorem ofInt_inj {m n : Int} : ofInt m = ofInt n ↔ m = n := by
  constructor
  · intro h
    have hm := read_ofInt (Int.min_le_left m n)
      (Int.le_max_left m n)
    have hn := read_ofInt (Int.min_le_right m n)
      (Int.le_max_right m n)
    rw [h, hn] at hm
    exact (Except.ok.inj hm).symm
  · rintro rfl
    rfl

/-- A numeral has nothing to trim. -/
theorem trim_ofInt (n : Int) : Text.trim (ofInt n) = ofInt n := by
  have hplain : ∀ c ∈ (ofInt n).toList, Text.isBlank c = false := by
    intro c hc
    have hdigit : ∀ c ∈ digits n.natAbs, Text.isBlank c = false := by
      intro c hc
      obtain ⟨d, hd, rfl⟩ := mem_digits hc
      exact (digit_plain hd).2.2.2
    simp only [ofInt, String.toList_ofList] at hc
    split at hc
    · cases List.mem_cons.mp hc with
      | inl h => subst h; decide
      | inr h => exact hdigit c h
    · exact hdigit c hc
  have hstart : ∀ cs : List Char, (∀ c ∈ cs, Text.isBlank c = false) → Text.trimStart cs = cs := by
    intro cs h
    cases cs with
    | nil => rfl
    | cons c rest => simp [Text.trimStart, h c (by simp)]
  have hrev : ∀ c ∈ (ofInt n).toList.reverse, Text.isBlank c = false := by
    intro c hc
    exact hplain c (List.mem_reverse.mp hc)
  simp [Text.trim, Text.trimChars, hstart _ hplain, hstart _ hrev]

end KeyedLog.Decimal
