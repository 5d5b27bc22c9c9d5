import KeyedLog.Proofs.Cipher.Codec

/-!
# Changed and shortened texts

Nothing but the padding at the end is checked when a text is decrypted. A text with another initial
block opens to the payload with its first block combined with both, if that ends in padding. A text
cut off opens where the payload itself has padding at the cut. Neither opens to what was sealed.
-/
namespace KeyedLog

/-- Bytes combined with a mask from the left; what is beyond the mask is left as it is. -/
def masked : Bytes → Bytes → Bytes
  | m :: mask, b :: bytes => (b ^^^ m) :: masked mask bytes
  | _, bytes => bytes

@[simp] theorem length_masked (mask bytes : Bytes) :
    (masked mask bytes).length = bytes.length := by
  fun_induction masked mask bytes with
  | case1 m mask b bytes ih => rw [List.length_cons, ih, List.length_cons]
  | case2 => rfl

/-- What comes after the mask is not touched. -/
theorem masked_append {mask bytes : Bytes} (h : mask.length ≤ bytes.length) (rest : Bytes) :
    masked mask (bytes ++ rest) = masked mask bytes ++ rest := by
  fun_induction masked mask bytes with
  | case1 m mask b bytes ih =>
    rw [List.cons_append, masked, ih (Nat.le_of_succ_le_succ h), List.cons_append]
  | case2 mask bytes hne =>
    cases mask with
    | nil => cases bytes ++ rest <;> rfl
    | cons m mask =>
      cases bytes with
      | nil => cases h
      | cons b bytes => exact (hne _ _ _ _ rfl rfl).elim

namespace Aes.Block

variable (x y z : Block) (rest : Bytes)

theorem masked_toList : masked y.toList (x.toList ++ rest) = (x.xor y).toList ++ rest := rfl

theorem toList_inj {x y : Block} : x.toList = y.toList ↔ x = y := by
  refine ⟨fun h => ?_, fun h => h ▸ rfl⟩
  have hblocks : [x].flatMap toList = [y].flatMap toList := by
    rw [List.flatMap_singleton, List.flatMap_singleton, h]
  exact List.singleton_inj.mp (flatMap_toList_inj hblocks)

theorem xor_comm : x.xor y = y.xor x := by
  simp only [Block.xor, Column.xor, UInt8.xor_comm]

theorem xor_left_inj {x y z : Block} (h : z.xor x = z.xor y) : x = y := by
  have hx := xor_xor_cancel x z
  rwa [xor_comm x, h, xor_comm z, xor_xor_cancel, eq_comm] at hx

/-- The first blocks of a text of whole blocks. -/
theorem take_flatMap_toList (blocks : List Block) (j : Nat) :
    (blocks.flatMap toList).take (16 * j) = (blocks.take j).flatMap toList := by
  induction blocks generalizing j with
  | nil => simp
  | cons x blocks ih =>
    cases j with
    | zero => rfl
    | succ j =>
      have hmore : 16 * (j + 1) = x.toList.length + 16 * j := by
        rw [length_toList]
        omega
      rw [List.flatMap_cons, hmore, List.take_length_add_append, ih, List.take_succ_cons,
        List.flatMap_cons]

end Aes.Block

namespace Chaining

open Aes (Block)

variable {cipher decipher : Block → Block}

theorem encrypt_inj (h : ∀ x, decipher (cipher x) = x) {initial : Block}
    {plain plain' : List Block}
    (heq : encrypt cipher initial plain = encrypt cipher initial plain') : plain = plain' := by
  rw [← decrypt_encrypt h initial plain, heq, decrypt_encrypt h]

/-- Chained blocks are those of another first block after another initial block. -/
theorem encrypt_redirected (cipher : Block → Block) (initial initial' x : Block)
    (rest : List Block) :
    encrypt cipher initial' ((x.xor initial).xor initial' :: rest) =
      encrypt cipher initial (x :: rest) := by
  rw [encrypt_cons, encrypt_cons, Block.xor_xor_cancel]

/-- A chain cut off is the chain of the blocks up to there. -/
theorem take_encrypt (cipher : Block → Block) (initial : Block) (plain : List Block) (j : Nat) :
    (encrypt cipher initial plain).take j = encrypt cipher initial (plain.take j) := by
  induction plain generalizing initial j with
  | nil => simp [encrypt, encryptOnto]
  | cons x rest ih =>
    cases j with
    | zero => rfl
    | succ j => rw [encrypt_cons, List.take_succ_cons, ih, List.take_succ_cons, encrypt_cons]

end Chaining

namespace Aes.Key

variable {k : Key} {initial : Block} {plain text : Bytes}

/-- Chained blocks decrypt to what is left of them without padding, whoever chained them. -/
theorem decrypt_chained_iff {blocks : List Block} :
    k.decrypt (initial.toList ++
      (Chaining.encrypt (Aes.encrypt k.schedule) initial blocks).flatMap Block.toList) =
        .ok plain ↔ Padding.pad plain = blocks.flatMap Block.toList := by
  rw [decrypt_eq_ok_iff]
  constructor
  · rintro ⟨initial', hseals⟩
    have hfront := hseals.take
    rw [List.take_left' (Block.length_toList initial), Block.toList_inj] at hfront
    obtain rfl := hfront
    obtain ⟨blocks', hblocks'⟩ := exists_padded plain
    have htext := List.append_cancel_left ((seals_iff hblocks').mp hseals)
    rw [← hblocks', Chaining.encrypt_inj (Aes.decrypt_encrypt k.schedule)
      (Block.flatMap_toList_inj htext)]
  · exact fun hpad => ⟨initial, (seals_iff hpad.symm).mpr rfl⟩

/-- What does not decrypt is too short, or it does not end in padding. -/
theorem decrypt_eq_error (h : ∀ plain, k.decrypt text ≠ .ok plain) :
    k.decrypt text = .error (if text.length ≤ 17 then .tooShort text.length else .decrypt) := by
  cases hopen : k.decrypt text with
  | ok plain => exact absurd hopen (h plain)
  | error fault =>
    rw [decrypt] at hopen
    split at hopen
    · next hshort => rw [if_pos hshort, Except.error.inj hopen]
    · next hlong =>
      rw [if_neg hlong]
      split at hopen
      · split at hopen
        · cases hopen
        · exact hopen.symm
      · exact hopen.symm

/-! ## Another initial block -/

/-- A text with another initial block in front opens to the payload with its first block combined
with both initial blocks. -/
theorem decrypt_redirected_iff (h : k.Seals initial plain text) {initial' : Block}
    {found : Bytes} : k.decrypt (initial'.toList ++ text.drop 16) = .ok found ↔
      Padding.pad found = masked initial'.toList (masked initial.toList (Padding.pad plain)) := by
  obtain ⟨blocks, hblocks⟩ := exists_padded plain
  rw [(seals_iff hblocks).mp h, List.drop_left' (Block.length_toList initial), ← hblocks]
  cases blocks with
  | nil =>
    have hcount := Padding.length_pad plain
    rw [← hblocks, List.flatMap_nil, List.length_nil] at hcount
    omega
  | cons x rest =>
    rw [← Chaining.encrypt_redirected _ initial initial' x rest, decrypt_chained_iff]
    simp only [List.flatMap_cons, Block.masked_toList]

/-- A payload of a block or more has its padding after the block that is combined. -/
theorem masked_pad {mask plain : Bytes} (h : mask.length ≤ plain.length) :
    masked mask (Padding.pad plain) = Padding.pad (masked mask plain) := by
  rw [Padding.pad, masked_append h, Padding.pad, length_masked]

/-- With another initial block the first block of the payload is another one. -/
theorem masked_masked_inj {initial' : Block} (hlong : 16 ≤ plain.length)
    (h : masked initial'.toList (masked initial.toList plain) = plain) : initial' = initial := by
  obtain ⟨x, hx⟩ := Block.exists_toList (List.length_take_of_le hlong)
  rw [← List.take_append_drop 16 plain, ← hx, Block.masked_toList, Block.masked_toList] at h
  have hfirst := Block.toList_inj.mp (List.append_cancel_right h)
  have hsame : (x.xor initial).xor initial' = (x.xor initial).xor initial := by
    rw [hfirst, Block.xor_xor_cancel]
  exact Block.xor_left_inj hsame

/-- How a text opens that differs from a sealed one in its initial block only. -/
structure OpensRedirected (k : Key) (plain text input : Bytes) : Prop where
  opens_iff (found : Bytes) : k.decrypt input = .ok found ↔
    Padding.pad found = masked (input.take 16) (masked (text.take 16) (Padding.pad plain))
  refused (h : ∀ found, Padding.pad found ≠
      masked (input.take 16) (masked (text.take 16) (Padding.pad plain))) :
    k.decrypt input = .error .decrypt
  long (h : 16 ≤ plain.length) :
    k.decrypt input = .ok (masked (input.take 16) (masked (text.take 16) plain))
  differs : k.decrypt input ≠ .ok plain

theorem opensRedirected {input : Bytes} (h : k.Seals initial plain text) (hne : input ≠ text)
    (hlength : input.length = text.length) (hrest : input.drop 16 = text.drop 16) :
    k.OpensRedirected plain text input := by
  have hlong := h.length
  obtain ⟨initial', hinitial'⟩ := Block.exists_toList (List.length_take_of_le
    (show 16 ≤ input.length by omega))
  have hinput : input = initial'.toList ++ text.drop 16 := by
    rw [hinitial', ← hrest, List.take_append_drop]
  have htext : text = initial.toList ++ text.drop 16 := by
    rw [← h.take, List.take_append_drop]
  have hopens (found : Bytes) : k.decrypt input = .ok found ↔
      Padding.pad found = masked (input.take 16) (masked (text.take 16) (Padding.pad plain)) := by
    rw [← hinitial', h.take, ← decrypt_redirected_iff h, ← hinput]
  refine ⟨hopens, fun hnone => ?_, fun hplain => ?_, fun hsame => ?_⟩
  · have hrefused := decrypt_eq_error fun found hfound => hnone found ((hopens found).mp hfound)
    rwa [if_neg (show ¬input.length ≤ 17 by omega)] at hrefused
  · have hfirst : initial.toList.length ≤ plain.length := hplain
    have hsecond : initial'.toList.length ≤ (masked initial.toList plain).length := by
      rw [length_masked]
      exact hplain
    rw [hopens, ← hinitial', h.take, masked_pad hfirst, masked_pad hsecond]
  · have hpad := (hopens plain).mp hsame
    rw [← hinitial', h.take, eq_comm] at hpad
    have hwhole := Padding.length_pad plain
    refine hne ?_
    rw [hinput, masked_masked_inj (by omega) hpad, ← htext]

/-! ## A text cut off -/

/-- A text cut off opens to what padding there is at the cut leaves of the payload. -/
theorem decrypt_take_iff (h : k.Seals initial plain text) {n : Nat} (hn : n < text.length)
    {found : Bytes} : k.decrypt (text.take n) = .ok found ↔
      ∃ j, n = 16 + 16 * j ∧ Padding.pad found = plain.take (16 * j) := by
  obtain ⟨blocks, hblocks⟩ := exists_padded plain
  have hwhole := Padding.length_pad plain
  have hcount := h.length
  have htake {j : Nat} (hj : n = 16 + 16 * j) :
      k.decrypt (text.take n) = .ok found ↔ Padding.pad found = plain.take (16 * j) := by
    have hfront : n = initial.toList.length + 16 * j := by rw [Block.length_toList, hj]
    have hcut : (Padding.pad plain).take (16 * j) = plain.take (16 * j) := by
      rw [Padding.pad, List.take_append_of_le_length (by omega)]
    rw [(seals_iff hblocks).mp h, hfront, List.take_length_add_append,
      Block.take_flatMap_toList, Chaining.take_encrypt, decrypt_chained_iff,
      ← Block.take_flatMap_toList, hblocks, hcut]
  constructor
  · intro hfound
    obtain ⟨initial', hseals⟩ := decrypt_eq_ok_iff.mp hfound
    have hlength := hseals.length
    rw [List.length_take_of_le hn.le] at hlength
    exact ⟨_, hlength, (htake hlength).mp hfound⟩
  · rintro ⟨j, hj, hpad⟩
    exact (htake hj).mpr hpad

/-- How the first bytes of a sealed text open. -/
structure OpensCut (k : Key) (plain text : Bytes) (n : Nat) : Prop where
  opens_iff (found : Bytes) : k.decrypt (text.take n) = .ok found ↔
    ∃ j, n = 16 + 16 * j ∧ Padding.pad found = plain.take (16 * j)
  refused (h : ∀ found j, n = 16 + 16 * j → Padding.pad found ≠ plain.take (16 * j)) :
    k.decrypt (text.take n) = .error (if n ≤ 17 then .tooShort n else .decrypt)
  shorter (found : Bytes) (h : k.decrypt (text.take n) = .ok found) :
    found <+: plain ∧ found ≠ plain

theorem opensCut (h : k.Seals initial plain text) {n : Nat} (hn : n < text.length) :
    k.OpensCut plain text n := by
  refine ⟨fun found => decrypt_take_iff h hn, fun hnone => ?_, fun found hfound => ?_⟩
  · have hrefused := decrypt_eq_error fun found hfound =>
      have ⟨j, hj, hpad⟩ := (decrypt_take_iff h hn).mp hfound
      hnone found j hj hpad
    rwa [List.length_take_of_le hn.le] at hrefused
  · obtain ⟨j, -, hpad⟩ := (decrypt_take_iff h hn).mp hfound
    have hpadded : Padding.pad found <+: plain := hpad ▸ List.take_prefix _ _
    refine ⟨(List.prefix_append _ _).trans hpadded, fun hsame => ?_⟩
    have hle := hpadded.length_le
    rw [Padding.length_pad, hsame] at hle
    omega

/-- A sealed text that is changed in its initial block or cut off never opens to what was sealed.
It opens to something else exactly where that ends in padding. -/
theorem tampered_never_same (k : Key) (draw : Draw) (plain text : Bytes)
    (hsealed : k.encrypt draw plain = .ok text) :
    (∀ input, input ≠ text → input.length = text.length → input.drop 16 = text.drop 16 →
      k.OpensRedirected plain text input) ∧
    ∀ n < text.length, k.OpensCut plain text n := by
  obtain ⟨initial, hseals⟩ := seals_of_encrypt hsealed
  exact ⟨fun input => opensRedirected hseals, fun n => opensCut hseals⟩

/-! ## A payload that ends like padding -/

/-- A payload of one block, which ends in what might be padding. -/
def misleading : Bytes := List.replicate 15 0x61 ++ [1]

/-- The payload sealed under the key of zeros, after an initial block of zeros. -/
def misled : Bytes :=
  [0, 0, 0, 0, 0, 0, 0, 0, 0, 0, 0, 0, 0, 0, 0, 0,
   55, 147, 26, 28, 221, 188, 184, 68, 168, 29, 112, 157, 38, 76, 62, 92,
   113, 154, 120, 158, 186, 69, 179, 214, 93, 65, 57, 210, 212, 14, 48, 109]

/-- Neither a changed initial block nor a cut need show. -/
theorem tampered_accepted :
    Key.encrypt ⟨.zeros, .zeros⟩ (.ok .zeros) misleading = .ok misled ∧
      Key.decrypt ⟨.zeros, .zeros⟩ (1 :: misled.drop 1) =
        .ok (0x60 :: List.replicate 14 0x61 ++ [1]) ∧
      Key.decrypt ⟨.zeros, .zeros⟩ (misled.take 32) = .ok (List.replicate 15 0x61) := by
  refine ⟨?_, ?_, ?_⟩
  · decide +kernel
  · decide +kernel
  · decide +kernel

/-- The same text, with its initial block changed, and cut off in the middle of a block. -/
theorem tampered_never_same_misled :
    Key.decrypt ⟨.zeros, .zeros⟩ (1 :: misled.drop 1) ≠ .ok misleading ∧
      Key.decrypt ⟨.zeros, .zeros⟩ (misled.take 40) = .error .decrypt := by
  have hsealed : Key.encrypt ⟨.zeros, .zeros⟩ (.ok .zeros) misleading = .ok misled := by
    decide +kernel
  obtain ⟨hredirected, hcut⟩ :=
    tampered_never_same ⟨.zeros, .zeros⟩ (.ok .zeros) misleading misled hsealed
  constructor
  · exact (hredirected (1 :: misled.drop 1) (by decide) rfl rfl).differs
  · refine (hcut 40 (by decide)).refused fun found j hj => ?_
    omega

end Aes.Key

end KeyedLog
