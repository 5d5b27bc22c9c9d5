import KeyedLog.Envelope
import KeyedLog.Proofs.Cipher.Chaining

/-!
# Sealed texts

A key decrypts exactly the texts that are sealed with it by the rules: an initial block, and after
it the padded payload in chained blocks. What is sealed is told from the text alone.
-/
namespace KeyedLog.Aes

def Block.zeros : Block := ⟨⟨0, 0, 0, 0⟩, ⟨0, 0, 0, 0⟩, ⟨0, 0, 0, 0⟩, ⟨0, 0, 0, 0⟩⟩

namespace Key

/-- The rule for sealed texts: the blocks of the padded payload are chained after an initial block,
which stands in front. -/
def Seals (k : Key) (initial : Block) (plain text : Bytes) : Prop :=
  ∃ blocks hidden, blocks.flatMap Block.toList = Padding.pad plain ∧
    Chaining.Chained (Aes.encrypt k.schedule) initial blocks hidden ∧
    text = initial.toList ++ hidden.flatMap Block.toList

variable {k : Key} {initial : Block} {draw : Draw} {plain text : Bytes}

/-- A sealed text has its initial block and the blocks of the padded payload. -/
theorem Seals.length (h : k.Seals initial plain text) :
    text.length = 16 + 16 * (plain.length / 16 + 1) := by
  obtain ⟨blocks, hidden, hblocks, hchained, rfl⟩ := h
  have hcount := Block.length_flatMap_toList blocks
  rw [hblocks, Padding.length_pad] at hcount
  rw [List.length_append, Block.length_toList, Block.length_flatMap_toList,
    Chaining.chained_iff.mp hchained, Chaining.length_encrypt]
  omega

theorem Seals.take (h : k.Seals initial plain text) : text.take 16 = initial.toList := by
  obtain ⟨blocks, hidden, -, -, rfl⟩ := h
  exact List.take_left' (Block.length_toList initial)

/-- A padded payload consists of blocks. -/
theorem exists_padded (plain : Bytes) :
    ∃ blocks : List Block, blocks.flatMap Block.toList = Padding.pad plain :=
  Block.exists_flatMap (Padding.length_pad plain)

theorem seals_iff {blocks : List Block}
    (hblocks : blocks.flatMap Block.toList = Padding.pad plain) :
    k.Seals initial plain text ↔ text = initial.toList ++
      (Chaining.encrypt (Aes.encrypt k.schedule) initial blocks).flatMap Block.toList := by
  constructor
  · rintro ⟨blocks', hidden, hblocks', hchained, rfl⟩
    obtain rfl := Block.flatMap_toList_inj (hblocks'.trans hblocks.symm)
    rw [Chaining.chained_iff.mp hchained]
  · rintro rfl
    exact ⟨blocks, _, hblocks, Chaining.chained_iff.mpr rfl, rfl⟩

/-- Whatever is not empty is sealed by the rule, after the initial block that was drawn. -/
theorem encrypt_eq_ok_iff : k.encrypt draw plain = .ok text ↔
    plain ≠ [] ∧ ∃ initial, draw = .ok initial ∧ k.Seals initial plain text := by
  obtain ⟨blocks, hblocks⟩ := exists_padded plain
  have hpad : Block.ofBytes? (Padding.pad plain) = some blocks :=
    Block.ofBytes?_eq_some_iff.mpr hblocks.symm
  simp only [seals_iff hblocks, encrypt, hpad, Option.getD_some]
  cases plain with
  | nil => simp
  | cons b rest =>
    cases draw with
    | error reason => simp
    | ok initial => simp [eq_comm]

/-- A text is decrypted if it is sealed by the rule, to what is sealed in it. -/
theorem decrypt_eq_ok_iff : k.decrypt text = .ok plain ↔ ∃ initial, k.Seals initial plain text := by
  constructor
  · intro h
    rw [decrypt] at h
    split at h
    · cases h
    · split at h
      · next initial hidden hread =>
        have htext := Block.ofBytes?_eq_some_iff.mp hread
        have hwhole := Block.length_flatMap_toList
          (Chaining.decrypt (Aes.decrypt k.schedule) initial hidden)
        split at h
        · next found hfound =>
          obtain rfl := Except.ok.inj h
          refine ⟨initial, _, hidden, (Padding.unpad?_eq_some_iff (by omega)).mp hfound, ?_, htext⟩
          rw [Chaining.chained_iff, Chaining.encrypt_decrypt (Aes.encrypt_decrypt k.schedule)]
        · cases h
      · cases h
  · rintro ⟨initial, hseals⟩
    have hlength := hseals.length
    obtain ⟨blocks, hidden, hblocks, hchained, rfl⟩ := hseals
    obtain rfl := Chaining.chained_iff.mp hchained
    have hlong : ¬(initial.toList ++ (Chaining.encrypt (Aes.encrypt k.schedule) initial
        blocks).flatMap Block.toList).length ≤ 17 := by omega
    rw [decrypt, if_neg hlong, ← List.flatMap_cons, Block.ofBytes?_flatMap]
    simp only [Chaining.decrypt_encrypt (Aes.decrypt_encrypt k.schedule), hblocks,
      Padding.unpad?_pad]

/-- What is sealed in a text, and after which initial block, shows in the text. -/
theorem Seals.unique {initial' : Block} {plain' : Bytes} (h : k.Seals initial plain text)
    (h' : k.Seals initial' plain' text) : initial = initial' ∧ plain = plain' := by
  have hfront : [initial].flatMap Block.toList = [initial'].flatMap Block.toList := by
    rw [List.flatMap_singleton, List.flatMap_singleton, ← h.take, h'.take]
  have hopen := decrypt_eq_ok_iff.mpr ⟨initial, h⟩
  rw [decrypt_eq_ok_iff.mpr ⟨initial', h'⟩, Except.ok.injEq] at hopen
  exact ⟨List.singleton_inj.mp (Block.flatMap_toList_inj hfront), hopen.symm⟩

/-- What is encrypted is sealed by the rule. -/
theorem seals_of_encrypt (h : k.encrypt draw plain = .ok text) :
    ∃ initial, k.Seals initial plain text := by
  obtain ⟨-, initial, -, hseals⟩ := encrypt_eq_ok_iff.mp h
  exact ⟨initial, hseals⟩

/-- What a key encrypts it decrypts. -/
theorem decrypt_of_encrypt (h : k.encrypt draw plain = .ok text) : k.decrypt text = .ok plain :=
  decrypt_eq_ok_iff.mpr (seals_of_encrypt h)

/-- Only what is empty is not encrypted, if an initial block can be drawn. -/
theorem encrypt_ok_iff :
    (∃ text, k.encrypt draw plain = .ok text) ↔ plain ≠ [] ∧ ∃ initial, draw = .ok initial := by
  obtain ⟨blocks, hblocks⟩ := exists_padded plain
  constructor
  · rintro ⟨text, htext⟩
    obtain ⟨hplain, initial, hdraw, -⟩ := encrypt_eq_ok_iff.mp htext
    exact ⟨hplain, initial, hdraw⟩
  · rintro ⟨hplain, initial, hdraw⟩
    exact ⟨_, encrypt_eq_ok_iff.mpr ⟨hplain, initial, hdraw, (seals_iff hblocks).mpr rfl⟩⟩

end Key

end KeyedLog.Aes
