import KeyedLog.Proofs.Cipher.Codec
import KeyedLog.Proofs.Text.Base64
import KeyedLog.Publisher

/-!
# Opening what was sealed

An envelope opens what it sealed, whatever initial block was drawn, and seals whatever is not empty
if one can be drawn. A message is accepted if each part of it is sealed and neither the publisher
nor the log refuses it.
-/
namespace KeyedLog

theorem Utf8.encode_eq_nil_iff {text : String} : Utf8.encode text = [] ↔ text = "" := by
  refine ⟨fun h => ?_, fun h => by rw [h]; rfl⟩
  have hread := Utf8.decode?_encode text
  rw [h] at hread
  exact (Option.some.inj hread).symm

namespace Envelope

theorem opened_of_sealed {e : Envelope} {draw : Aes.Draw} {payload hidden : Bytes}
    (h : e.sealed draw payload = .ok hidden) : e.opened hidden = .ok payload := by
  cases e with
  | disabled =>
    obtain rfl : payload = hidden := Except.ok.inj h
    rfl
  | enabled key => exact Aes.Key.decrypt_of_encrypt h

/-- The name of a header is opened as it was before it was sealed. -/
theorem openedName_of_sealedName {e : Envelope} {draw : Aes.Draw} {name hidden : String}
    (h : e.sealedName draw name = .ok hidden) : e.openedName hidden = .ok name := by
  cases e with
  | disabled =>
    obtain rfl : name = hidden := Except.ok.inj h
    rfl
  | enabled key =>
    rw [sealedName] at h
    cases hraw : key.encrypt draw (Utf8.encode name) with
    | error fault => simp [hraw, Except.map] at h
    | ok raw =>
      simp only [hraw, Except.map, Except.ok.injEq] at h
      simp only [openedName, Base64.decodeText_eq_ok_iff.mpr h.symm,
        Aes.Key.decrypt_of_encrypt hraw, Utf8.decode?_encode]

theorem openedValue_of_sealedValue {e : Envelope} {draw : Aes.Draw} {value hidden : Bytes}
    (h : e.sealedValue draw value = .ok hidden) : e.openedValue hidden = .ok value := by
  cases e with
  | disabled =>
    obtain rfl : value = hidden := Except.ok.inj h
    rfl
  | enabled key =>
    rw [sealedValue] at h
    cases hraw : key.encrypt draw value with
    | error fault => simp [hraw, Except.map] at h
    | ok raw =>
      simp only [hraw, Except.map, Except.ok.injEq] at h
      simp only [openedValue, Base64.decode_eq_ok_iff.mpr h.symm, Aes.Key.decrypt_of_encrypt hraw]

/-- What an envelope seals: anything, or, if it encrypts, anything that is not empty. -/
def Takes (e : Envelope) (payload : Bytes) : Prop := e.isEnabled → payload ≠ []

/-- Both parts of a header are sealed. -/
def TakesHeader (e : Envelope) (h : Header) : Prop := e.Takes (Utf8.encode h.1) ∧ e.Takes h.2

/-- The initial block is there, if the envelope encrypts. -/
def Supplied (e : Envelope) (draw : Aes.Draw) : Prop := e.isEnabled → ∃ initial, draw = .ok initial

variable {e : Envelope}

theorem sealed_ok_iff (draw : Aes.Draw) {payload : Bytes} :
    (∃ hidden, e.sealed draw payload = .ok hidden) ↔ e.Takes payload ∧ e.Supplied draw := by
  cases e with
  | disabled => simp [sealed, Takes, Supplied, isEnabled]
  | enabled key =>
    simp only [sealed, Aes.Key.encrypt_ok_iff, Takes, Supplied, isEnabled, forall_const]

theorem sealedName_ok_iff (draw : Aes.Draw) {name : String} :
    (∃ hidden, e.sealedName draw name = .ok hidden) ↔
      e.Takes (Utf8.encode name) ∧ e.Supplied draw := by
  rw [← sealed_ok_iff]
  cases e with
  | disabled => simp [sealed, sealedName]
  | enabled key =>
    simp only [sealed, sealedName]
    cases key.encrypt draw (Utf8.encode name) <;> simp [Except.map]

theorem sealedValue_ok_iff (draw : Aes.Draw) {value : Bytes} :
    (∃ hidden, e.sealedValue draw value = .ok hidden) ↔ e.Takes value ∧ e.Supplied draw := by
  rw [← sealed_ok_iff]
  cases e with
  | disabled => simp [sealed, sealedValue]
  | enabled key =>
    simp only [sealed, sealedValue]
    cases key.encrypt draw value <;> simp [Except.map]

/-- A block that was drawn is there for whoever needs one. -/
theorem supplied_ok (e : Envelope) (initial : Aes.Block) : e.Supplied (.ok initial) :=
  fun _ => ⟨initial, rfl⟩

end Envelope

/-- What a key encrypts and what it decrypts fit each other exactly. -/
structure Aes.Key.ExactCodec (k : Aes.Key) : Prop where
  /-- What is decrypted is sealed by the rule, after the initial block that stands in front. -/
  decrypts (text plain : Bytes) : k.decrypt text = .ok plain ↔
    32 ≤ text.length ∧ ∃ initial : Block, initial.toList = text.take 16 ∧ k.Seals initial plain text
  encrypts (initial : Block) (plain : Bytes) (hplain : plain ≠ []) :
    ∃ text, k.encrypt (.ok initial) plain = .ok text ∧
      text.length = 16 + 16 * (plain.length / 16 + 1) ∧ k.decrypt text = .ok plain
  separates (draw draw' : Draw) (plain plain' text : Bytes)
    (h : k.encrypt draw plain = .ok text) (h' : k.encrypt draw' plain' = .ok text) :
    plain = plain'
  /-- The texts that only others can have written are those of the empty payload. -/
  foreign (text : Bytes) : ((∃ plain, k.decrypt text = .ok plain) ∧
    ¬∃ draw plain, k.encrypt draw plain = .ok text) ↔ k.decrypt text = .ok []
  names (initial : Block) (name : String) (hname : name ≠ "") :
    ∃ hidden, Envelope.sealedName (.ok initial) name (.enabled k) = .ok hidden ∧
      Envelope.openedName hidden (.enabled k) = .ok name
  values (initial : Block) (value : Bytes) (hvalue : value ≠ []) :
    ∃ hidden, Envelope.sealedValue (.ok initial) value (.enabled k) = .ok hidden ∧
      Envelope.openedValue hidden (.enabled k) = .ok value

namespace Aes.Key

variable {k : Key} {text : Bytes}

/-- A text that decrypts to something was encrypted, or might have been. -/
theorem foreign_iff : ((∃ plain, k.decrypt text = .ok plain) ∧
    ¬∃ draw plain, k.encrypt draw plain = .ok text) ↔ k.decrypt text = .ok [] := by
  constructor
  · rintro ⟨⟨plain, hplain⟩, hforeign⟩
    obtain ⟨initial, hseals⟩ := decrypt_eq_ok_iff.mp hplain
    by_cases hempty : plain = []
    · rwa [hempty] at hplain
    · exact absurd ⟨.ok initial, plain, encrypt_eq_ok_iff.mpr ⟨hempty, initial, rfl, hseals⟩⟩
        hforeign
  · refine fun hempty => ⟨⟨[], hempty⟩, ?_⟩
    rintro ⟨draw, plain, h⟩
    have hplain := decrypt_of_encrypt h
    rw [hempty, Except.ok.injEq] at hplain
    exact (encrypt_eq_ok_iff.mp h).1 hplain.symm

theorem exactCodec (k : Key) : k.ExactCodec where
  decrypts text plain := by
    rw [decrypt_eq_ok_iff]
    constructor
    · rintro ⟨initial, hseals⟩
      have hlength := hseals.length
      exact ⟨by omega, initial, hseals.take.symm, hseals⟩
    · rintro ⟨-, initial, -, hseals⟩
      exact ⟨initial, hseals⟩
  encrypts initial plain hplain := by
    obtain ⟨text, htext⟩ := encrypt_ok_iff.mpr ⟨hplain, initial, rfl⟩
    obtain ⟨_, hseals⟩ := seals_of_encrypt htext
    exact ⟨text, htext, hseals.length, decrypt_of_encrypt htext⟩
  separates draw draw' plain plain' text h h' := by
    obtain ⟨_, hseals⟩ := seals_of_encrypt h
    obtain ⟨_, hseals'⟩ := seals_of_encrypt h'
    exact (hseals.unique hseals').2
  foreign text := foreign_iff
  names initial name hname := by
    have htakes : (Envelope.enabled k).Takes (Utf8.encode name) :=
      fun _ hempty => hname (Utf8.encode_eq_nil_iff.mp hempty)
    obtain ⟨hidden, hhidden⟩ :=
      (Envelope.sealedName_ok_iff _).mpr ⟨htakes, Envelope.supplied_ok _ initial⟩
    exact ⟨hidden, hhidden, Envelope.openedName_of_sealedName hhidden⟩
  values initial value hvalue := by
    obtain ⟨hidden, hhidden⟩ := (Envelope.sealedValue_ok_iff (e := .enabled k) _).mpr
      ⟨fun _ => hvalue, Envelope.supplied_ok _ initial⟩
    exact ⟨hidden, hhidden, Envelope.openedValue_of_sealedValue hhidden⟩

/-- One byte is sealed in two blocks, and nothing shorter than that is opened. -/
theorem exactCodec_zeros :
    (∃ text, Key.encrypt ⟨.zeros, .zeros⟩ (.ok .zeros) [0x6b] = .ok text ∧ text.length = 32 ∧
      Key.decrypt ⟨.zeros, .zeros⟩ text = .ok [0x6b]) ∧
    ∀ plain, Key.decrypt ⟨.zeros, .zeros⟩ (List.replicate 31 0) ≠ .ok plain := by
  have hexact := exactCodec ⟨.zeros, .zeros⟩
  refine ⟨hexact.encrypts .zeros [0x6b] (by decide), fun plain hopen => ?_⟩
  have hlong := ((hexact.decrypts (List.replicate 31 0) plain).mp hopen).1
  rw [List.length_replicate] at hlong
  omega

end Aes.Key

namespace Message

variable {m : Message} {e : Envelope} {blocks : Nat → Aes.Draw} {o : Outgoing}

/-- What a message is sealed to: its key, and its value if there is one. -/
theorem sealed_of_sealWith (h : m.sealWith e blocks = .ok o) :
    (∃ draw, e.sealed draw m.key = .ok o.key) ∧
      ((m.value = none ∧ o.value = none) ∨
        ∃ value hidden draw, m.value = some value ∧ o.value = some hidden ∧
          e.sealed draw value = .ok hidden) := by
  simp only [sealWith] at h
  split at h
  · cases h
  · split at h
    · cases h
    · next key hkey =>
      cases hvalue : m.value with
      | none =>
        simp only [hvalue, Except.ok.injEq] at h
        rw [← h]
        exact ⟨⟨_, hkey⟩, .inl ⟨rfl, rfl⟩⟩
      | some value =>
        simp only [hvalue] at h
        cases hsealed : e.sealed (blocks (2 * m.allHeaders.length + 1)) value with
        | error fault => simp [hsealed, Except.map] at h
        | ok hidden =>
          simp only [hsealed, Except.map, Except.ok.injEq] at h
          rw [← h]
          exact ⟨⟨_, hkey⟩, .inr ⟨value, hidden, _, rfl, rfl, hsealed⟩⟩

/-- A header that a message adds of its own accord comes after those it has. -/
theorem forall_mem_allHeaders {P : Header → Prop}
    (hadded : (∀ h ∈ m.headers, h.1 ≠ Correlation.headerName) →
      P (Correlation.headerName, Utf8.encode m.correlation)) :
    (∀ h ∈ m.allHeaders, P h) ↔ ∀ h ∈ m.headers, P h := by
  rw [allHeaders]
  split
  · rfl
  · next hnone =>
    have hlast : P (Correlation.headerName, Utf8.encode m.correlation) := by
      refine hadded fun h hmem hname => hnone ?_
      exact List.any_eq_true.mpr ⟨h, hmem, beq_iff_eq.mpr hname⟩
    simp only [List.forall_mem_append, List.forall_mem_singleton, hlast, and_true]

theorem forall_lt_two_mul_succ {P : Nat → Prop} {n l : Nat} :
    (∀ k < 2 * (l + 1), P (n + k)) ↔ P n ∧ P (n + 1) ∧ ∀ k < 2 * l, P (n + 2 + k) := by
  constructor
  · intro h
    refine ⟨h 0 (by omega), h 1 (by omega), fun k hk => ?_⟩
    rw [Nat.add_assoc]
    exact h (2 + k) (by omega)
  · rintro ⟨hfirst, hsecond, hrest⟩ (_ | _ | k) hk
    · exact hfirst
    · exact hsecond
    · rw [show n + (k + 1 + 1) = n + 2 + k by omega]
      exact hrest k (by omega)

/-- Headers are sealed if the envelope takes both parts of each and two blocks are there for it. -/
theorem sealHeaders_ok_iff (blocks : Nat → Aes.Draw) (n : Nat) {headers : List Header} :
    (∃ hidden, sealHeaders e blocks n headers = .ok hidden) ↔
      (∀ h ∈ headers, e.TakesHeader h) ∧ ∀ k < 2 * headers.length, e.Supplied (blocks (n + k)) := by
  induction headers generalizing n with
  | nil => simp [sealHeaders]
  | cons header rest ih =>
    obtain ⟨name, value⟩ := header
    have hfirst : (∃ hidden, sealHeaders e blocks n ((name, value) :: rest) = .ok hidden) ↔
        (∃ hidden, e.sealedName (blocks n) name = .ok hidden) ∧
          (∃ hidden, e.sealedValue (blocks (n + 1)) value = .ok hidden) ∧
          ∃ hidden, sealHeaders e blocks (n + 2) rest = .ok hidden := by
      rw [sealHeaders]
      cases e.sealedName (blocks n) name with
      | error fault => simp
      | ok hidden =>
        cases e.sealedValue (blocks (n + 1)) value with
        | error fault => simp
        | ok hidden' => cases sealHeaders e blocks (n + 2) rest <;> simp [Except.map]
    rw [hfirst, ih (n + 2), Envelope.sealedName_ok_iff, Envelope.sealedValue_ok_iff,
      List.forall_mem_cons, List.length_cons, Envelope.TakesHeader,
      forall_lt_two_mul_succ (P := fun k => e.Supplied (blocks k))]
    tauto

/-- A message is sealed if each part of it is. -/
theorem sealWith_ok_iff_parts :
    (∃ o, m.sealWith e blocks = .ok o) ↔
      (∃ headers, sealHeaders e blocks 0 m.allHeaders = .ok headers) ∧
        (∃ key, e.sealed (blocks (2 * m.allHeaders.length)) m.key = .ok key) ∧
        ∀ value ∈ m.value,
          ∃ hidden, e.sealed (blocks (2 * m.allHeaders.length + 1)) value = .ok hidden := by
  rw [sealWith]
  cases sealHeaders e blocks 0 m.allHeaders with
  | error fault => simp
  | ok headers =>
    cases e.sealed (blocks (2 * m.allHeaders.length)) m.key with
    | error fault => simp
    | ok key =>
      cases m.value with
      | none => simp
      | some value =>
        simp only [Option.mem_some_iff, forall_eq']
        cases e.sealed (blocks (2 * m.allHeaders.length + 1)) value <;> simp [Except.map]

/-- The blocks for a message are those for its headers, for its key and for its value. -/
theorem forall_lt_draws {P : Nat → Prop} :
    (∀ k < m.draws, P k) ↔ (∀ k < 2 * m.allHeaders.length, P k) ∧
      P (2 * m.allHeaders.length) ∧ ∀ value ∈ m.value, P (2 * m.allHeaders.length + 1) := by
  rw [draws]
  cases m.value with
  | none =>
    rw [Option.toList_none, List.length_nil, Nat.add_zero, Nat.forall_lt_succ_right]
    simp
  | some value =>
    rw [Option.toList_some, List.length_singleton, Nat.forall_lt_succ_right,
      Nat.forall_lt_succ_right, and_assoc]
    simp

/-- A message is sealed if the envelope takes each part of it and has a block for each. -/
theorem sealWith_ok_iff :
    (∃ o, m.sealWith e blocks = .ok o) ↔
      ((∀ h ∈ m.allHeaders, e.TakesHeader h) ∧ e.Takes m.key ∧
        ∀ value ∈ m.value, e.Takes value) ∧ ∀ k < m.draws, e.Supplied (blocks k) := by
  rw [sealWith_ok_iff_parts, sealHeaders_ok_iff, Envelope.sealed_ok_iff, forall_lt_draws]
  simp only [Envelope.sealed_ok_iff, Nat.zero_add, imp_and, forall_and]
  tauto

end Message

namespace Publisher

/-- A message is accepted if it can be sealed and sends are not refused; its record is appended. -/
theorem publish_eq_ok {p : Publisher} {log log' : Log} {blocks : Nat → Aes.Draw} {m : Message}
    (h : p.publish log blocks m = .ok log') :
    ∃ o, m.sealWith p.envelope blocks = .ok o ∧ log' = (log.append p.topic o).2 := by
  rw [publish] at h
  split at h
  · cases h
  · split at h
    · cases h
    · next o hsealed =>
      rw [Log.send] at h
      split at h
      · cases h
      · exact ⟨o, hsealed, (Except.ok.inj h).symm⟩

/-- A message is refused by a publisher that is shut down, by its envelope, or by the log. -/
theorem publish_ok_iff {p : Publisher} {log : Log} {blocks : Nat → Aes.Draw} {m : Message} :
    (∃ log', p.publish log blocks m = .ok log') ↔
      ¬p.down ∧ (∃ o, m.sealWith p.envelope blocks = .ok o) ∧ ¬log.rejecting := by
  rw [publish]
  cases p.down with
  | true => simp
  | false =>
    cases m.sealWith p.envelope blocks with
    | error fault => simp
    | ok o => cases h : log.rejecting <;> simp [Log.send, h, Except.mapError]

end Publisher

end KeyedLog
