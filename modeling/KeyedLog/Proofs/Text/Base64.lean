import KeyedLog.Text.Base64
import KeyedLog.Proofs.Cipher.Aes

/-!
# One written form

What is written in base64 reads back, and nothing else is read: a text that reads as some bytes is
the one that those bytes are written as.
-/
namespace KeyedLog.Base64

/-! ## Symbols -/

theorem value?_symbol {n : UInt8} (h : n < 64) : value? (symbol n) = some n := by
  have all : ∀ m < 64, value? (symbol (UInt8.ofNat m)) = some (UInt8.ofNat m) := by decide
  have hn := all n.toNat (UInt8.lt_iff_toNat_lt.mp h)
  rwa [UInt8.ofNat_toNat] at hn

theorem symbol_of_value? {b v : UInt8} (h : value? b = some v) : v < 64 ∧ symbol v = b :=
  Aes.forall_byte (p := fun b => ∀ v ∈ value? b, v < 64 ∧ symbol v = b) (by decide +kernel) b v h

/-- Padding is told apart from symbols. -/
theorem symbol_ne_pad {n : UInt8} (h : n < 64) : symbol n ≠ pad := by
  intro hpad
  have hvalue := value?_symbol h
  rw [hpad] at hvalue
  cases hvalue

/-- The numbers of the symbols for three bytes. -/
theorem quad_lt (a b c : UInt8) :
    a / 4 < 64 ∧ a % 4 * 16 + b / 16 < 64 ∧ b % 16 * 4 + c / 64 < 64 ∧ c % 64 < 64 := by
  have ha := a.toNat_lt
  have hb := b.toNat_lt
  have hc := c.toNat_lt
  simp only [UInt8.lt_iff_toNat_lt, UInt8.toNat_div, UInt8.toNat_add, UInt8.toNat_mul,
    UInt8.toNat_mod, UInt8.reduceToNat]
  omega

/-- Three bytes and the numbers of their four symbols determine each other. -/
theorem joined_split (a b c : UInt8) :
    a / 4 * 4 + (a % 4 * 16 + b / 16) / 16 = a ∧
      (a % 4 * 16 + b / 16) % 16 * 16 + (b % 16 * 4 + c / 64) / 4 = b ∧
      (b % 16 * 4 + c / 64) % 4 * 64 + c % 64 = c := by
  have ha := a.toNat_lt
  have hb := b.toNat_lt
  have hc := c.toNat_lt
  simp only [← UInt8.toNat_inj, UInt8.toNat_div, UInt8.toNat_add, UInt8.toNat_mul,
    UInt8.toNat_mod, UInt8.reduceToNat]
  omega

theorem split_joined {i j k l : UInt8} (hi : i < 64) (hj : j < 64) (hk : k < 64) (hl : l < 64) :
    (i * 4 + j / 16) / 4 = i ∧
      (i * 4 + j / 16) % 4 * 16 + (j % 16 * 16 + k / 4) / 16 = j ∧
      (j % 16 * 16 + k / 4) % 16 * 4 + (k % 4 * 64 + l) / 64 = k ∧ (k % 4 * 64 + l) % 64 = l := by
  simp only [UInt8.lt_iff_toNat_lt, UInt8.reduceToNat] at hi hj hk hl
  simp only [← UInt8.toNat_inj, UInt8.toNat_div, UInt8.toNat_add, UInt8.toNat_mul,
    UInt8.toNat_mod, UInt8.reduceToNat]
  omega

/-- The bits that the last of two or three symbols has to spare are zero. -/
theorem spare_bits (a b : UInt8) : a % 4 * 16 % 16 = 0 ∧ b % 16 * 4 % 4 = 0 := by
  simp only [← UInt8.toNat_inj, UInt8.toNat_mul, UInt8.toNat_mod, UInt8.reduceToNat]
  omega

/-! ## What is written -/

theorem encodeOnto_append (written before bytes : Bytes) :
    encodeOnto (written ++ before) bytes = before.reverse ++ encodeOnto written bytes := by
  induction written, bytes using encodeOnto.induct with
  | case1 written a b c rest ih =>
    rw [encodeOnto, encodeOnto, ← List.append_assoc]
    exact ih
  | case2 written a b => simp [encodeOnto]
  | case3 written a => simp [encodeOnto]
  | case4 written => simp [encodeOnto]

theorem encode_cons (a b c : UInt8) (rest : Bytes) :
    encode (a :: b :: c :: rest) = quad a b c ++ encode rest := by
  have happend := encodeOnto_append [] (quad a b c).reverse rest
  rw [List.nil_append, List.reverse_reverse] at happend
  rw [encode, encodeOnto, List.append_nil, happend, encode]

theorem encode_pair (a b : UInt8) :
    encode [a, b] =
      [symbol (a / 4), symbol (a % 4 * 16 + b / 16), symbol (b % 16 * 4), pad] := rfl

theorem encode_single (a : UInt8) :
    encode [a] = [symbol (a / 4), symbol (a % 4 * 16), pad, pad] := rfl

/-- What is written consists of quads. -/
theorem length_encode (bytes : Bytes) : (encode bytes).length = 4 * ((bytes.length + 2) / 3) := by
  match bytes with
  | [] => rfl
  | [a] => simp [encode_single]
  | [a, b] => simp [encode_pair]
  | a :: b :: c :: rest =>
    have hrest := length_encode rest
    simp only [encode_cons, List.length_append, hrest, quad, List.length_cons, List.length_nil]
    omega

/-! ## What is written reads back -/

section Ending

variable {i j k l : UInt8} (hi : i < 64) (hj : j < 64)
include hi hj

theorem decodeEnding_quad (hk : k < 64) (hl : l < 64) (start : Nat) :
    decodeEnding start [symbol i, symbol j, symbol k, symbol l] =
      .ok [i * 4 + j / 16, j % 16 * 16 + k / 4, k % 4 * 64 + l] := by
  simp [decodeEnding, readEnding, symbol_ne_pad, value?_symbol, hi, hj, hk, hl]

theorem decodeEnding_pair (hk : k < 64) (hrest : k % 4 = 0) (start : Nat) :
    decodeEnding start [symbol i, symbol j, symbol k, pad] =
      .ok [i * 4 + j / 16, j % 16 * 16 + k / 4] := by
  simp [decodeEnding, readEnding, symbol_ne_pad, value?_symbol, hi, hj, hk, hrest]

theorem decodeEnding_single (hrest : j % 16 = 0) (start : Nat) :
    decodeEnding start [symbol i, symbol j, pad, pad] = .ok [i * 4 + j / 16] := by
  simp [decodeEnding, readEnding, symbol_ne_pad, value?_symbol, hi, hj, hrest]

end Ending

/-- The last symbols of what is written. -/
theorem decodeEnding_encode {bytes : Bytes} (hne : bytes ≠ []) (hshort : bytes.length ≤ 3)
    (start : Nat) : decodeEnding start (encode bytes) = .ok bytes := by
  match bytes with
  | [] => exact absurd rfl hne
  | [a] =>
    obtain ⟨hi, hj, -, -⟩ := quad_lt a 0 0
    obtain ⟨ha, -, -⟩ := joined_split a 0 0
    rw [UInt8.zero_div, UInt8.add_zero] at hj ha
    rw [encode_single, decodeEnding_single hi hj (spare_bits a 0).1, ha]
  | [a, b] =>
    obtain ⟨hi, hj, hk, -⟩ := quad_lt a b 0
    obtain ⟨ha, hb, -⟩ := joined_split a b 0
    rw [UInt8.zero_div, UInt8.add_zero] at hk hb
    rw [encode_pair, decodeEnding_pair hi hj hk (spare_bits 0 b).2, ha, hb]
  | [a, b, c] =>
    obtain ⟨hi, hj, hk, hl⟩ := quad_lt a b c
    obtain ⟨ha, hb, hc⟩ := joined_split a b c
    rw [encode_cons, quad, show encode [] = [] from rfl, List.append_nil,
      decodeEnding_quad hi hj hk hl, ha, hb, hc]

theorem decodeOnto_short {tail : Bytes} (hne : tail ≠ []) (hshort : tail.length ≤ 4) (start : Nat)
    (read : Bytes) :
    decodeOnto start read tail = (decodeEnding start tail).map (read.reverse ++ ·) := by
  rw [decodeOnto.eq_def]
  split
  · simp only [List.length_cons] at hshort
    omega
  · exact absurd rfl hne
  · cases decodeEnding start tail <;> rfl

theorem decodeOnto_quad {i j k l : UInt8} (hi : i < 64) (hj : j < 64) (hk : k < 64) (hl : l < 64)
    {tail : Bytes} (hne : tail ≠ []) (start : Nat) (read : Bytes) :
    decodeOnto start read (symbol i :: symbol j :: symbol k :: symbol l :: tail) =
      decodeOnto (start + 4)
        ((k % 4 * 64 + l) :: (j % 16 * 16 + k / 4) :: (i * 4 + j / 16) :: read) tail := by
  obtain ⟨e, rest, rfl⟩ := List.exists_cons_of_ne_nil hne
  simp only [decodeOnto, readSymbol, value?_symbol, hi, hj, hk, hl]

theorem encode_ne_nil {bytes : Bytes} (hne : bytes ≠ []) : encode bytes ≠ [] := by
  have hlength := length_encode bytes
  have hpos := List.length_pos_iff.mpr hne
  intro hnil
  rw [hnil, List.length_nil] at hlength
  omega

theorem decodeOnto_encode_short {bytes : Bytes} (hshort : bytes.length ≤ 3) (start : Nat)
    (read : Bytes) : decodeOnto start read (encode bytes) = .ok (read.reverse ++ bytes) := by
  by_cases hne : bytes = []
  · rw [hne, List.append_nil]
    rfl
  · have hlength : (encode bytes).length ≤ 4 := by
      rw [length_encode]
      omega
    rw [decodeOnto_short (encode_ne_nil hne) hlength, decodeEnding_encode hne hshort]
    rfl

/-- Quads read back one after the other. -/
theorem decodeOnto_encode (start : Nat) (read bytes : Bytes) :
    decodeOnto start read (encode bytes) = .ok (read.reverse ++ bytes) := by
  match bytes with
  | [] => exact decodeOnto_encode_short (by simp) start read
  | [a] => exact decodeOnto_encode_short (by simp) start read
  | [a, b] => exact decodeOnto_encode_short (by simp) start read
  | [a, b, c] => exact decodeOnto_encode_short (by simp) start read
  | a :: b :: c :: d :: rest =>
    obtain ⟨hi, hj, hk, hl⟩ := quad_lt a b c
    obtain ⟨ha, hb, hc⟩ := joined_split a b c
    have hmore : encode (d :: rest) ≠ [] := encode_ne_nil (List.cons_ne_nil d rest)
    have hrest := decodeOnto_encode (start + 4) (c :: b :: a :: read) (d :: rest)
    rw [encode_cons, quad, List.cons_append, List.cons_append, List.cons_append,
      List.cons_append, List.nil_append, decodeOnto_quad hi hj hk hl hmore, ha, hb, hc, hrest]
    simp

/-- What is written reads back. -/
theorem decode_encode (bytes : Bytes) : decode (encode bytes) = .ok bytes := by
  have hwhole : (encode bytes).length % 4 ≠ 1 := by
    rw [length_encode]
    omega
  simp only [decode, if_neg hwhole]
  exact decodeOnto_encode 0 [] bytes

/-! ## Nothing else is read -/

/-- What is read of an ending: symbols, and then padding. -/
theorem readEnding_eq_ok {start place : Nat} {seen ending : Ending} {tail : Bytes}
    (h : readEnding start place seen tail = .ok ending) :
    ∃ values count, ending.values = seen.values ++ values ∧
      ending.padding = seen.padding + count ∧
      tail = values.map symbol ++ List.replicate count pad ∧ (∀ v ∈ values, v < 64) ∧
      (seen.padding ≠ 0 → values = []) := by
  induction tail generalizing place seen with
  | nil =>
    obtain rfl := Except.ok.inj h
    exact ⟨[], 0, by simp⟩
  | cons b rest ih =>
    rw [readEnding] at h
    split at h
    · next hpad =>
      split at h
      · cases h
      · obtain ⟨values, count, hvalues, hcount, hrest, -, hnone⟩ := ih h
        obtain rfl := hnone (Nat.succ_ne_zero _)
        refine ⟨[], count + 1, hvalues, by rw [hcount]; dsimp only; omega, ?_, nofun, fun _ => rfl⟩
        rw [hrest, hpad, List.replicate_succ]
        rfl
    · split at h
      · cases h
      · next hzero =>
        split at h
        · cases h
        · next v hv =>
          obtain ⟨hlt, hsymbol⟩ := symbol_of_value? hv
          obtain ⟨values, count, hvalues, hcount, hrest, hall, -⟩ := ih h
          refine ⟨v :: values, count, by rw [hvalues, List.append_assoc]; rfl, hcount, ?_, ?_,
            fun hne => absurd hne hzero⟩
          · rw [hrest, ← hsymbol]
            rfl
          · exact List.forall_mem_cons.mpr ⟨hlt, hall⟩

section Ending

variable {i j k l : UInt8} (hi : i < 64) (hj : j < 64)
include hi hj

theorem encode_joined (hk : k < 64) (hl : l < 64) :
    encode [i * 4 + j / 16, j % 16 * 16 + k / 4, k % 4 * 64 + l] =
      [symbol i, symbol j, symbol k, symbol l] := by
  obtain ⟨hi', hj', hk', hl'⟩ := split_joined hi hj hk hl
  rw [encode_cons, quad, hi', hj', hk', hl']
  rfl

theorem encode_joined_pair (hk : k < 64) (hrest : k % 4 = 0) :
    encode [i * 4 + j / 16, j % 16 * 16 + k / 4] = [symbol i, symbol j, symbol k, pad] := by
  obtain ⟨hi', hj', hk', -⟩ := split_joined hi hj hk (l := 0) (by decide)
  rw [hrest, UInt8.zero_mul, UInt8.zero_add, UInt8.zero_div, UInt8.add_zero] at hk'
  rw [encode_pair, hi', hj', hk']

theorem encode_joined_single (hrest : j % 16 = 0) :
    encode [i * 4 + j / 16] = [symbol i, symbol j, pad, pad] := by
  obtain ⟨hi', hj', -, -⟩ := split_joined hi hj (k := 0) (l := 0) (by decide) (by decide)
  rw [hrest, UInt8.zero_mul, UInt8.zero_add, UInt8.zero_div, UInt8.zero_div, UInt8.add_zero] at hj'
  rw [encode_single, hi', hj']

end Ending

/-- An ending is read only if it is what its bytes are written as. -/
theorem encode_of_decodeEnding {start : Nat} {tail bytes : Bytes}
    (h : decodeEnding start tail = .ok bytes) : encode bytes = tail := by
  rw [decodeEnding] at h
  split at h
  · cases h
  · next ending hending =>
    obtain ⟨values, count, hvalues, hcount, rfl, hall, -⟩ := readEnding_eq_ok hending
    rw [List.nil_append] at hvalues
    rw [Nat.zero_add] at hcount
    rw [hvalues, hcount] at h
    dsimp only at h
    split at h
    · cases h
    · split at h
      · cases h
      · next hfour =>
        split at h
        · next i j k l _ =>
          obtain ⟨hi, hj, hk, hl⟩ : i < 64 ∧ j < 64 ∧ k < 64 ∧ l < 64 := by simpa using hall
          obtain rfl : count = 0 := by simpa using hfour
          rw [← Except.ok.inj h, encode_joined hi hj hk hl]
          rfl
        · next i j k _ =>
          obtain ⟨hi, hj, hk⟩ : i < 64 ∧ j < 64 ∧ k < 64 := by simpa using hall
          obtain rfl : count = 1 := by
            simp only [List.length_cons, List.length_nil] at hfour
            omega
          split at h
          · next hrest =>
            rw [← Except.ok.inj h, encode_joined_pair hi hj hk hrest]
            rfl
          · cases h
        · next i j _ =>
          obtain ⟨hi, hj⟩ : i < 64 ∧ j < 64 := by simpa using hall
          obtain rfl : count = 2 := by
            simp only [List.length_cons, List.length_nil] at hfour
            omega
          split at h
          · next hrest =>
            rw [← Except.ok.inj h, encode_joined_single hi hj hrest]
            rfl
          · cases h
        · cases h

theorem symbol_of_readSymbol {b v : UInt8} {offset : Nat} (h : readSymbol b offset = .ok v) :
    v < 64 ∧ symbol v = b := by
  rw [readSymbol] at h
  split at h
  · next w hw => exact Except.ok.inj h ▸ symbol_of_value? hw
  · cases h

theorem encode_of_decodeOnto {start : Nat} {read text bytes : Bytes}
    (h : decodeOnto start read text = .ok bytes) :
    ∃ rest, bytes = read.reverse ++ rest ∧ encode rest = text := by
  fun_induction decodeOnto start read text with
  | case1 start read a b c d e more i j k l hl hk hj hi ih =>
    obtain ⟨hi', rfl⟩ := symbol_of_readSymbol hi
    obtain ⟨hj', rfl⟩ := symbol_of_readSymbol hj
    obtain ⟨hk', rfl⟩ := symbol_of_readSymbol hk
    obtain ⟨hl', rfl⟩ := symbol_of_readSymbol hl
    obtain ⟨rest, hbytes, hrest⟩ := ih h
    refine ⟨(i * 4 + j / 16) :: (j % 16 * 16 + k / 4) :: (k % 4 * 64 + l) :: rest, ?_, ?_⟩
    · rw [hbytes]
      simp
    · obtain ⟨ei, ej, ek, el⟩ := split_joined hi' hj' hk' hl'
      rw [encode_cons, quad, ei, ej, ek, el, hrest]
      rfl
  | case2 => cases h
  | case3 => cases h
  | case4 => cases h
  | case5 => cases h
  | case6 start read =>
    obtain rfl := Except.ok.inj h
    exact ⟨[], (List.append_nil _).symm, rfl⟩
  | case7 => cases h
  | case8 start read tail _ _ ending hending =>
    obtain rfl := Except.ok.inj h
    exact ⟨ending, rfl, encode_of_decodeEnding hending⟩

/-- Only what bytes are written as reads as them. -/
theorem encode_of_decode {text bytes : Bytes} (h : decode text = .ok bytes) :
    encode bytes = text := by
  have hread : decodeOnto 0 [] text = .ok bytes := by
    rw [decode] at h
    split at h
    · split at h
      · cases h
      · exact h
    · exact h
  obtain ⟨rest, rfl, hrest⟩ := encode_of_decodeOnto hread
  exact hrest

theorem decode_eq_ok_iff {text bytes : Bytes} : decode text = .ok bytes ↔ text = encode bytes :=
  ⟨fun h => (encode_of_decode h).symm, fun h => h ▸ decode_encode bytes⟩

/-! ## Texts -/

theorem symbol_lt_128 {n : UInt8} (h : n < 64) : symbol n < 128 := by
  have all : ∀ m < 64, symbol (UInt8.ofNat m) < 128 := by decide
  have hn := all n.toNat (UInt8.lt_iff_toNat_lt.mp h)
  rwa [UInt8.ofNat_toNat] at hn

/-- All that is written is ASCII. -/
theorem forall_mem_encode_lt (bytes : Bytes) : ∀ b ∈ encode bytes, b < 128 := by
  have hpad : pad < 128 := by decide
  match bytes with
  | [] => nofun
  | [a] =>
    obtain ⟨hi, hj, -, -⟩ := quad_lt a 0 0
    rw [UInt8.zero_div, UInt8.add_zero] at hj
    simp [encode_single, symbol_lt_128 hi, symbol_lt_128 hj, hpad]
  | [a, b] =>
    obtain ⟨hi, hj, hk, -⟩ := quad_lt a b 0
    rw [UInt8.zero_div, UInt8.add_zero] at hk
    simp [encode_pair, symbol_lt_128 hi, symbol_lt_128 hj, symbol_lt_128 hk, hpad]
  | a :: b :: c :: rest =>
    obtain ⟨hi, hj, hk, hl⟩ := quad_lt a b c
    have hrest := forall_mem_encode_lt rest
    rw [encode_cons, List.forall_mem_append]
    refine ⟨?_, hrest⟩
    simp [quad, symbol_lt_128 hi, symbol_lt_128 hj, symbol_lt_128 hk, symbol_lt_128 hl]

theorem utf8EncodeChar_ofNat {b : UInt8} (h : b < 128) :
    String.utf8EncodeChar (Char.ofNat b.toNat) = [b] := by
  have all : ∀ n < 128, String.utf8EncodeChar (Char.ofNat n) = [UInt8.ofNat n] := by decide
  rw [all b.toNat (UInt8.lt_iff_toNat_lt.mp h), UInt8.ofNat_toNat]

/-- A text in ASCII has one byte for each character. -/
theorem encode_ofList_of_ascii {bytes : Bytes} (h : ∀ b ∈ bytes, b < 128) :
    Utf8.encode (String.ofList (bytes.map fun b => Char.ofNat b.toNat)) = bytes := by
  rw [Utf8.encode, String.toByteArray_ofList, List.utf8Encode, List.toList_data_toByteArray,
    List.flatMap_map]
  induction bytes with
  | nil => rfl
  | cons b rest ih =>
    rw [List.forall_mem_cons] at h
    rw [List.flatMap_cons, utf8EncodeChar_ofNat h.1, ih h.2]
    rfl

theorem encode_encodeText (bytes : Bytes) : Utf8.encode (encodeText bytes) = encode bytes :=
  encode_ofList_of_ascii (forall_mem_encode_lt bytes)

/-- The one text that reads as some bytes is the one they are written as. -/
theorem decodeText_eq_ok_iff {text : String} {bytes : Bytes} :
    decodeText text = .ok bytes ↔ text = encodeText bytes := by
  rw [decodeText, decode_eq_ok_iff, ← encode_encodeText]
  exact ⟨Utf8.encode_inj, congrArg Utf8.encode⟩

end KeyedLog.Base64
