import KeyedLog.Cipher.Aes
import Mathlib.Tactic

/-!
# The block cipher can be undone

Each layer of a round is undone by the layer beside it. Mixing is additive in the bytes of a column,
so it is enough to look at columns with a single byte. Under any key the cipher is a permutation of
the blocks.
-/
namespace KeyedLog.Aes

/-- What holds of the numbers below 256 holds of all bytes. -/
theorem forall_byte {p : UInt8 → Prop} (h : ∀ n < 256, p n.toUInt8) (x : UInt8) : p x := by
  have hx := h x.toNat x.toNat_lt
  rwa [Nat.toUInt8_eq, UInt8.ofNat_toNat] at hx

theorem unsubstitute_substitute (x : UInt8) : unsubstitute (substitute x) = x :=
  forall_byte (p := fun x => unsubstitute (substitute x) = x) (by decide +kernel) x

/-! ## Additivity -/

theorem lt_128_iff (x : UInt8) : x < 0x80 ↔ x.toBitVec.msb = false :=
  forall_byte (p := fun x => x < 0x80 ↔ x.toBitVec.msb = false) (by decide +kernel) x

theorem double_xor (x y : UInt8) : double (x ^^^ y) = double x ^^^ double y := by
  have hmsb : (x ^^^ y).toBitVec.msb = (x.toBitVec.msb ^^ y.toBitVec.msb) := by
    rw [UInt8.toBitVec_xor, BitVec.msb_xor]
  simp only [double, lt_128_iff, hmsb, UInt8.shiftLeft_xor]
  cases x.toBitVec.msb with
  | false =>
    cases y.toBitVec.msb with
    | false => rfl
    | true => exact UInt8.xor_assoc _ _ _
  | true =>
    cases y.toBitVec.msb with
    | false =>
      change x <<< 1 ^^^ y <<< 1 ^^^ (0x1b : UInt8) = x <<< 1 ^^^ (0x1b : UInt8) ^^^ y <<< 1
      ac_rfl
    | true =>
      -- what is reduced on both sides cancels
      calc x <<< 1 ^^^ y <<< 1
        _ = x <<< 1 ^^^ y <<< 1 ^^^ ((0x1b : UInt8) ^^^ 0x1b) := by
          rw [UInt8.xor_self, UInt8.xor_zero]
        _ = x <<< 1 ^^^ (0x1b : UInt8) ^^^ (y <<< 1 ^^^ (0x1b : UInt8)) := by ac_rfl

theorem times9_xor (x y : UInt8) : times9 (x ^^^ y) = times9 x ^^^ times9 y := by
  simp only [times9, double_xor]
  ac_rfl

theorem times11_xor (x y : UInt8) : times11 (x ^^^ y) = times11 x ^^^ times11 y := by
  simp only [times11, double_xor]
  ac_rfl

theorem times13_xor (x y : UInt8) : times13 (x ^^^ y) = times13 x ^^^ times13 y := by
  simp only [times13, double_xor]
  ac_rfl

theorem times14_xor (x y : UInt8) : times14 (x ^^^ y) = times14 x ^^^ times14 y := by
  simp only [times14, double_xor]
  ac_rfl

theorem mix_xor (x y : Column) : mix (x.xor y) = (mix x).xor (mix y) := by
  simp only [mix, Column.xor, double_xor, Column.mk.injEq]
  refine ⟨?_, ?_, ?_, ?_⟩
  · ac_rfl
  · ac_rfl
  · ac_rfl
  · ac_rfl

theorem unmix_xor (x y : Column) : unmix (x.xor y) = (unmix x).xor (unmix y) := by
  simp only [unmix, Column.xor, times9_xor, times11_xor, times13_xor, times14_xor,
    Column.mk.injEq]
  refine ⟨?_, ?_, ?_, ?_⟩
  · ac_rfl
  · ac_rfl
  · ac_rfl
  · ac_rfl

/-! ## Undoing the layers -/

/-- A column is put together from columns with a single byte. -/
theorem Column.eq_xor_single (x : Column) :
    x = ((Column.xor ⟨x.a, 0, 0, 0⟩ ⟨0, x.b, 0, 0⟩).xor ⟨0, 0, x.c, 0⟩).xor ⟨0, 0, 0, x.d⟩ := by
  simp only [Column.xor, UInt8.xor_zero, UInt8.zero_xor]

@[simp] theorem double_zero : double 0 = 0 := rfl

theorem xor_left_comm (x y z : UInt8) : x ^^^ (y ^^^ z) = y ^^^ (x ^^^ z) := by ac_rfl

theorem xor_cancel_left (x y : UInt8) : x ^^^ (x ^^^ y) = y := by
  rw [← UInt8.xor_assoc, UInt8.xor_self, UInt8.zero_xor]

theorem unmix_mix_single (x : UInt8) :
    unmix (mix ⟨x, 0, 0, 0⟩) = ⟨x, 0, 0, 0⟩ ∧ unmix (mix ⟨0, x, 0, 0⟩) = ⟨0, x, 0, 0⟩ ∧
      unmix (mix ⟨0, 0, x, 0⟩) = ⟨0, 0, x, 0⟩ ∧ unmix (mix ⟨0, 0, 0, x⟩) = ⟨0, 0, 0, x⟩ := by
  simp only [mix, unmix, times9, times11, times13, times14, double_zero, double_xor,
    UInt8.xor_zero, UInt8.zero_xor, Column.mk.injEq]
  -- each multiple of the byte comes up an even number of times, but for the byte itself
  simp only [UInt8.xor_assoc, UInt8.xor_comm, xor_left_comm, xor_cancel_left, UInt8.xor_self,
    UInt8.xor_zero, and_self]

theorem unmix_mix (x : Column) : unmix (mix x) = x := by
  obtain ⟨ha, -⟩ := unmix_mix_single x.a
  obtain ⟨-, hb, -⟩ := unmix_mix_single x.b
  obtain ⟨-, -, hc, -⟩ := unmix_mix_single x.c
  obtain ⟨-, -, -, hd⟩ := unmix_mix_single x.d
  rw [x.eq_xor_single]
  simp only [mix_xor, unmix_xor, ha, hb, hc, hd]

theorem Column.xor_xor_cancel (x y : Column) : (x.xor y).xor y = x := by
  simp only [Column.xor, UInt8.xor_assoc, UInt8.xor_self, UInt8.xor_zero]

namespace Block

variable (x y : Block)

@[simp] theorem xor_xor_cancel : (x.xor y).xor y = x := by
  simp only [Block.xor, Column.xor_xor_cancel]

@[simp] theorem unshiftRows_shiftRows : x.shiftRows.unshiftRows = x := rfl

@[simp] theorem map_map (f g : Column → Column) : (x.map f).map g = x.map (g ∘ f) := rfl

@[simp] theorem map_id : x.map id = x := rfl

end Block

theorem unsubstitute_comp_substitute :
    Column.map unsubstitute ∘ Column.map substitute = id := by
  funext x
  simp only [Function.comp_apply, Column.map, unsubstitute_substitute, id_eq]

theorem unmix_comp_mix : unmix ∘ mix = id := by
  funext x
  exact unmix_mix x

theorem unround_round (key x : Block) : unround key (round key x) = x := by
  simp only [unround, round, Block.xor_xor_cancel, Block.map_map, unmix_comp_mix, Block.map_id,
    Block.unshiftRows_shiftRows, unsubstitute_comp_substitute]

theorem unlastRound_lastRound (key x : Block) : unlastRound key (lastRound key x) = x := by
  simp only [unlastRound, lastRound, Block.xor_xor_cancel, Block.map_map, Block.map_id,
    Block.unshiftRows_shiftRows, unsubstitute_comp_substitute]

theorem unrounds_rounds (keys : List Block) (x : Block) : unrounds keys (rounds keys x) = x := by
  induction keys generalizing x with
  | nil => rfl
  | cons key more ih =>
    cases more with
    | nil => exact unlastRound_lastRound key x
    | cons next more =>
      change unround key (unrounds (next :: more) (rounds (next :: more) (round key x))) = x
      rw [ih, unround_round]

/-- Under any round keys, decryption undoes encryption. -/
theorem decrypt_encrypt (keys : List Block) (x : Block) : decrypt keys (encrypt keys x) = x := by
  cases keys with
  | nil => rfl
  | cons key more => rw [encrypt, decrypt, unrounds_rounds, Block.xor_xor_cancel]

/-! ## Undoing the other way round -/

instance : Finite Column := by
  apply Finite.of_injective fun x : Column => (x.a.toFin, x.b.toFin, x.c.toFin, x.d.toFin)
  rintro ⟨a, b, c, d⟩ ⟨a', b', c', d'⟩ h
  simpa [UInt8.toFin_inj] using h

instance : Finite Block := by
  apply Finite.of_injective fun x : Block => (x.first, x.second, x.third, x.fourth)
  rintro ⟨a, b, c, d⟩ ⟨a', b', c', d'⟩ h
  simpa using h

/-- There are finitely many blocks, so each of them is the encryption of some block. -/
theorem encrypt_decrypt (keys : List Block) (x : Block) : encrypt keys (decrypt keys x) = x := by
  have hundo : Function.LeftInverse (decrypt keys) (encrypt keys) := decrypt_encrypt keys
  have honto : Function.Surjective (encrypt keys) :=
    Finite.injective_iff_surjective.mp hundo.injective
  exact hundo.rightInverse_of_surjective honto x

end KeyedLog.Aes
