import KeyedLog.Cipher.Chaining
import KeyedLog.Cipher.Padding
import KeyedLog.Proofs.Cipher.Aes

/-!
# Texts of whole blocks

A padded text is read as whole blocks and written back, its padding is told apart again, and blocks
that were chained come out of the chain as they went in.
-/
namespace KeyedLog

namespace Aes.Block

theorem readOnto_toList (read : List Block) (x : Block) (rest : Bytes) :
    readOnto read (x.toList ++ rest) = readOnto (x :: read) rest := rfl

theorem readOnto_flatMap (read blocks : List Block) :
    readOnto read (blocks.flatMap toList) = some (read.reverse ++ blocks) := by
  induction blocks generalizing read with
  | nil =>
    rw [List.append_nil]
    rfl
  | cons x rest ih =>
    rw [List.flatMap_cons, readOnto_toList, ih, List.reverse_cons, List.append_assoc]
    rfl

/-- Blocks that were written one after the other are read again. -/
theorem ofBytes?_flatMap (blocks : List Block) : ofBytes? (blocks.flatMap toList) = some blocks :=
  readOnto_flatMap [] blocks

theorem eq_of_readOnto {read blocks : List Block} {bytes : Bytes}
    (h : readOnto read bytes = some blocks) :
    ∃ rest, blocks = read.reverse ++ rest ∧ bytes = rest.flatMap toList := by
  fun_induction readOnto read bytes with
  | case1 read a b c d e f g x i j k l m n o p bytes ih =>
    obtain ⟨rest, rfl, rfl⟩ := ih h
    rw [List.reverse_cons, List.append_assoc]
    exact ⟨_, rfl, rfl⟩
  | case2 read =>
    obtain rfl := Option.some.inj h
    exact ⟨[], (List.append_nil _).symm, rfl⟩
  | case3 => cases h

/-- Bytes are read as the blocks they consist of. -/
theorem ofBytes?_eq_some_iff {bytes : Bytes} {blocks : List Block} :
    ofBytes? bytes = some blocks ↔ bytes = blocks.flatMap toList := by
  refine ⟨fun h => ?_, fun h => h ▸ ofBytes?_flatMap blocks⟩
  obtain ⟨rest, rfl, rfl⟩ := eq_of_readOnto h
  rfl

theorem flatMap_toList_inj {a b : List Block} (h : a.flatMap toList = b.flatMap toList) :
    a = b := by
  have hread := congrArg ofBytes? h
  rwa [ofBytes?_flatMap, ofBytes?_flatMap, Option.some.injEq] at hread

theorem length_toList (x : Block) : x.toList.length = 16 := rfl

theorem length_flatMap_toList (blocks : List Block) :
    (blocks.flatMap toList).length = 16 * blocks.length := by
  induction blocks with
  | nil => rfl
  | cons x rest ih =>
    rw [List.flatMap_cons, List.length_append, length_toList, ih, List.length_cons]
    omega

theorem exists_toList {bytes : Bytes} (h : bytes.length = 16) : ∃ x, toList x = bytes := by
  match bytes, h with
  | [a, b, c, d, e, f, g, h, i, j, k, l, m, n, o, p], _ =>
    exact ⟨⟨⟨a, b, c, d⟩, ⟨e, f, g, h⟩, ⟨i, j, k, l⟩, ⟨m, n, o, p⟩⟩, rfl⟩

theorem exists_flatMap {count : Nat} {bytes : Bytes} (h : bytes.length = 16 * count) :
    ∃ blocks : List Block, blocks.flatMap toList = bytes := by
  induction count generalizing bytes with
  | zero =>
    obtain rfl := List.eq_nil_of_length_eq_zero h
    exact ⟨[], rfl⟩
  | succ count ih =>
    have hfirst : (bytes.take 16).length = 16 := by
      rw [List.length_take]
      omega
    have hrest : (bytes.drop 16).length = 16 * count := by
      rw [List.length_drop]
      omega
    obtain ⟨x, hx⟩ := exists_toList hfirst
    obtain ⟨rest, hblocks⟩ := ih hrest
    refine ⟨x :: rest, ?_⟩
    rw [List.flatMap_cons, hx, hblocks, List.take_append_drop]

end Aes.Block

namespace Padding

variable (bytes : Bytes)

theorem length_pad : (pad bytes).length = 16 * (bytes.length / 16 + 1) := by
  rw [pad, List.length_append, List.length_replicate, count]
  omega

/-- What padding was added can be told. -/
theorem unpad?_pad : unpad? (pad bytes) = some bytes := by
  have hpos : 0 < count bytes.length := by
    rw [count]
    omega
  have hle : count bytes.length ≤ 16 := by
    rw [count]
    omega
  have hlength : (pad bytes).length = bytes.length + count bytes.length := by
    rw [pad, List.length_append, List.length_replicate]
  have hlast : (pad bytes).getLast? = some (count bytes.length).toUInt8 := by
    rw [pad, List.getLast?_append, List.getLast?_replicate, if_neg (by omega)]
    rfl
  have hbyte : (count bytes.length).toUInt8.toNat = count bytes.length := by
    rw [Nat.toUInt8_eq, UInt8.toNat_ofNat']
    omega
  have hkept : (pad bytes).length - count bytes.length = bytes.length := by omega
  simp only [unpad?, hlast, hbyte, hkept]
  rw [if_pos ⟨hpos, hle, by omega⟩, pad, List.drop_left, List.take_left, if_pos]
  rw [List.all_replicate]
  simp

/-- In a text of whole blocks, only padding is taken for padding. -/
theorem unpad?_eq_some_iff {bytes plain : Bytes} (hwhole : bytes.length % 16 = 0) :
    unpad? bytes = some plain ↔ bytes = pad plain := by
  refine ⟨fun h => ?_, fun h => h ▸ unpad?_pad plain⟩
  rw [unpad?] at h
  cases hlast : bytes.getLast? with
  | none => simp [hlast] at h
  | some last =>
    simp only [hlast] at h
    split at h
    · next hrange =>
      obtain ⟨hpos, hle, hlength⟩ := hrange
      split at h
      · next hall =>
        obtain rfl := Option.some.inj h
        have hadded : bytes.drop (bytes.length - last.toNat) =
            List.replicate last.toNat last := by
          rw [List.eq_replicate_iff]
          refine ⟨by rw [List.length_drop]; omega, fun b hb => ?_⟩
          exact beq_iff_eq.mp (List.all_eq_true.mp hall b hb)
        have hkept : (bytes.take (bytes.length - last.toNat)).length =
            bytes.length - last.toNat := List.length_take_of_le (Nat.sub_le _ _)
        have hcount : count (bytes.length - last.toNat) = last.toNat := by
          rw [count]
          omega
        rw [pad, hkept, hcount, Nat.toUInt8_eq, UInt8.ofNat_toNat, ← hadded,
          List.take_append_drop]
      · cases h
    · cases h

end Padding

namespace Chaining

open Aes (Block)

variable {cipher decipher : Block → Block}

theorem encryptOnto_eq (cipher : Block → Block) (done : List Block) (previous : Block)
    (plain : List Block) :
    encryptOnto cipher done previous plain = done.reverse ++ encrypt cipher previous plain := by
  induction plain generalizing done previous with
  | nil => exact (List.append_nil _).symm
  | cons x rest ih =>
    rw [encrypt, encryptOnto, encryptOnto, ih, ih [_]]
    simp

theorem decryptOnto_eq (decipher : Block → Block) (done : List Block) (previous : Block)
    (hidden : List Block) :
    decryptOnto decipher done previous hidden =
      done.reverse ++ decrypt decipher previous hidden := by
  induction hidden generalizing done previous with
  | nil => exact (List.append_nil _).symm
  | cons y rest ih =>
    rw [decrypt, decryptOnto, decryptOnto, ih, ih [_]]
    simp

theorem encrypt_cons (cipher : Block → Block) (previous x : Block) (rest : List Block) :
    encrypt cipher previous (x :: rest) =
      cipher (x.xor previous) :: encrypt cipher (cipher (x.xor previous)) rest :=
  encryptOnto_eq cipher [cipher (x.xor previous)] (cipher (x.xor previous)) rest

theorem decrypt_cons (decipher : Block → Block) (previous y : Block) (rest : List Block) :
    decrypt decipher previous (y :: rest) =
      (decipher y).xor previous :: decrypt decipher y rest :=
  decryptOnto_eq decipher [(decipher y).xor previous] y rest

theorem length_encrypt (cipher : Block → Block) (initial : Block) (plain : List Block) :
    (encrypt cipher initial plain).length = plain.length := by
  induction plain generalizing initial with
  | nil => rfl
  | cons x rest ih => rw [encrypt_cons, List.length_cons, ih, List.length_cons]

/-- A chain can be undone if its cipher can. -/
theorem decrypt_encrypt (h : ∀ x, decipher (cipher x) = x) (initial : Block)
    (plain : List Block) :
    decrypt decipher initial (encrypt cipher initial plain) = plain := by
  induction plain generalizing initial with
  | nil => rfl
  | cons x rest ih => rw [encrypt_cons, decrypt_cons, h, Block.xor_xor_cancel, ih]

/-- Blocks that come out of a chain go back into it the same way. -/
theorem encrypt_decrypt (h : ∀ y, cipher (decipher y) = y) (initial : Block)
    (hidden : List Block) :
    encrypt cipher initial (decrypt decipher initial hidden) = hidden := by
  induction hidden generalizing initial with
  | nil => rfl
  | cons y rest ih => rw [decrypt_cons, encrypt_cons, Block.xor_xor_cancel, h, ih]

/-- The rule of chaining: each block is combined with the hidden block before it, and encrypted. -/
inductive Chained (cipher : Block → Block) : Block → List Block → List Block → Prop
  | nil (previous : Block) : Chained cipher previous [] []
  | cons (previous x : Block) {plain hidden : List Block}
      (rest : Chained cipher (cipher (x.xor previous)) plain hidden) :
      Chained cipher previous (x :: plain) (cipher (x.xor previous) :: hidden)

theorem chained_iff {previous : Block} {plain hidden : List Block} :
    Chained cipher previous plain hidden ↔ hidden = encrypt cipher previous plain := by
  constructor
  · intro h
    induction h with
    | nil previous => rfl
    | cons previous x _ ih => rw [encrypt_cons, ih]
  · rintro rfl
    induction plain generalizing previous with
    | nil => exact .nil previous
    | cons x rest ih =>
      rw [encrypt_cons]
      exact .cons previous x ih

end Chaining

end KeyedLog
