import KeyedLog.Config.Basic
import KeyedLog.Proofs.Envelope
import KeyedLog.Proofs.Text.Hex

/-!
# Which configurations the service starts with

A service starts with a topic and, if it is to encrypt, with the text of a key, which stands in the
configuration or in a file. It then has the envelope of that key; the case of the letters, the
blanks around them and the place of the text make no difference to what it seals and opens.
-/
namespace KeyedLog

theorem Utf8.decode?_eq_some_iff {bytes : Bytes} {text : String} :
    decode? bytes = some text ↔ bytes = encode text := by
  constructor
  · exact fun h => (encode_of_decode? h).symm
  · rintro rfl
    exact decode?_encode text

/-- A path text names a file, and the bytes of the file are those of a text. -/
structure FileTree.HoldsText (t : FileTree) (path text : String) : Prop where
  named : path ≠ "" ∧ ¬Path.endsOpen path
  encoded : t.read (Path.ofText path) = .ok (Utf8.encode text)

theorem FileTree.readText_eq_ok_iff {t : FileTree} {path text : String} :
    t.readText path = .ok text ↔ t.HoldsText path text := by
  have hholds : t.HoldsText path text ↔ (path ≠ "" ∧ ¬Path.endsOpen path) ∧
      t.read (Path.ofText path) = .ok (Utf8.encode text) :=
    ⟨fun h => ⟨h.named, h.encoded⟩, fun h => ⟨h.1, h.2⟩⟩
  rw [hholds, readText]
  by_cases hempty : path = ""
  · simp [hempty]
  · rw [if_neg hempty]
    cases t.read (Path.ofText path) with
    | error e => simp
    | ok data =>
      by_cases hopen : Path.endsOpen path
      · simp [hopen]
      · rw [Except.ok.injEq, ← Utf8.decode?_eq_some_iff]
        simp only [hopen]
        cases Utf8.decode? data <;> simp [hempty]

namespace Envelope

/-- What one envelope takes it seals, and another opens it: payloads, and both parts of headers. -/
structure OpenedBy (e other : Envelope) : Prop where
  payloads (initial : Aes.Block) (payload : Bytes) (h : e.Takes payload) :
    ∃ hidden, e.sealed (.ok initial) payload = .ok hidden ∧ other.opened hidden = .ok payload
  names (initial : Aes.Block) (name : String) (h : e.Takes (Utf8.encode name)) :
    ∃ hidden, e.sealedName (.ok initial) name = .ok hidden ∧ other.openedName hidden = .ok name
  values (initial : Aes.Block) (value : Bytes) (h : e.Takes value) :
    ∃ hidden, e.sealedValue (.ok initial) value = .ok hidden ∧ other.openedValue hidden = .ok value

/-- Each of two envelopes opens what the other seals. -/
structure Interchangeable (e other : Envelope) : Prop where
  forth : e.OpenedBy other
  back : other.OpenedBy e

theorem OpenedBy.refl (e : Envelope) : e.OpenedBy e where
  payloads initial payload h := by
    obtain ⟨hidden, hhidden⟩ := (sealed_ok_iff _).mpr ⟨h, supplied_ok e initial⟩
    exact ⟨hidden, hhidden, opened_of_sealed hhidden⟩
  names initial name h := by
    obtain ⟨hidden, hhidden⟩ := (sealedName_ok_iff _).mpr ⟨h, supplied_ok e initial⟩
    exact ⟨hidden, hhidden, openedName_of_sealedName hhidden⟩
  values initial value h := by
    obtain ⟨hidden, hhidden⟩ := (sealedValue_ok_iff _).mpr ⟨h, supplied_ok e initial⟩
    exact ⟨hidden, hhidden, openedValue_of_sealedValue hhidden⟩

theorem Interchangeable.refl (e : Envelope) : e.Interchangeable e := ⟨.refl e, .refl e⟩

end Envelope

namespace Config

/-- The text a configuration has for its key: the one that is set, else that of its key file. -/
inductive HasKeyText (c : Config) (files : FileTree) (text : String) : Prop where
  | inline (hset : c.encryption.key = some text)
  | filed (path : String) (hunset : c.encryption.key = none)
      (hpath : c.encryption.keyFile = some path) (hread : files.HoldsText path text)

variable {c : Config} {files : FileTree} {text : String}

/-- The key is looked for in one place only. -/
theorem keyText_eq_ok_iff {trimmed : String} :
    c.keyText files = .ok trimmed ↔ ∃ text, c.HasKeyText files text ∧ Text.trim text = trimmed := by
  rw [keyText]
  constructor
  · intro h
    cases hset : c.encryption.key with
    | some text =>
      simp only [hset] at h
      exact ⟨text, .inline hset, Except.ok.inj h⟩
    | none =>
      cases hpath : c.encryption.keyFile with
      | none => simp only [hset, hpath, reduceCtorEq] at h
      | some path =>
        simp only [hset, hpath] at h
        cases hread : files.readText path with
        | error e => simp only [hread, reduceCtorEq] at h
        | ok text =>
          simp only [hread] at h
          exact ⟨text, .filed path hset hpath (FileTree.readText_eq_ok_iff.mp hread),
            Except.ok.inj h⟩
  · rintro ⟨text, hset | ⟨path, hunset, hpath, hread⟩, rfl⟩
    · simp only [hset]
    · simp only [hunset, hpath, FileTree.readText_eq_ok_iff.mpr hread]

/-- A configuration has one text for its key at most. -/
theorem HasKeyText.unique {other : String} (h : c.HasKeyText files text)
    (h' : c.HasKeyText files other) : text = other := by
  rcases h with hset | ⟨path, hunset, hpath, hread⟩
  · rcases h' with hset' | ⟨path', hunset', _, _⟩
    · rw [hset, Option.some.injEq] at hset'
      exact hset'
    · rw [hset] at hunset'
      cases hunset'
  · rcases h' with hset' | ⟨path', _, hpath', hread'⟩
    · rw [hunset] at hset'
      cases hset'
    · rw [hpath, Option.some.injEq] at hpath'
      subst hpath'
      have hencoded := hread.encoded.symm.trans hread'.encoded
      exact Utf8.encode_inj (Except.ok.inj hencoded)

/-- A configuration that is to encrypt has the envelope of the key that its text denotes. -/
theorem envelope_eq_ok_iff (henabled : c.encryption.enabled = true) {e : Envelope} :
    c.envelope files = .ok e ↔ ∃ text key, c.HasKeyText files text ∧ e = .enabled key ∧
      Text.lower (Text.trim text) = Hex.encode key.bytes := by
  rw [envelope, if_neg (not_not.mpr henabled)]
  constructor
  · intro h
    split at h
    · cases h
    · next trimmed hkey =>
      obtain ⟨text, htext, rfl⟩ := keyText_eq_ok_iff.mp hkey
      split at h
      · next key hhex =>
        exact ⟨text, key, htext, (Except.ok.inj h).symm, Aes.Key.ofHex_eq_ok_iff.mp hhex⟩
      · cases h
  · rintro ⟨text, key, htext, rfl, hkey⟩
    simp only [keyText_eq_ok_iff.mpr ⟨text, htext, rfl⟩, Aes.Key.ofHex_eq_ok_iff.mpr hkey]

theorem envelope_disabled (h : c.encryption.enabled = false) :
    c.envelope files = .ok .disabled := by
  rw [envelope, if_pos (by rw [h]; exact Bool.false_ne_true)]

/-- A service may start with a topic and, if it is to encrypt, with an envelope. -/
theorem validate_eq_ok_iff : c.validate files = .ok () ↔ ¬Text.isAllBlank c.topic ∧
    (c.encryption.enabled = false ∨ ∃ e, c.envelope files = .ok e) := by
  rw [validate]
  by_cases htopic : Text.isAllBlank c.topic
  · simp [htopic]
  · rw [if_neg htopic]
    cases c.encryption.enabled with
    | false => simp [htopic]
    | true => cases c.envelope files <;> simp [htopic, Except.map]

/-- Configurations with one key, but for the case of its letters and the blanks around it, have one
envelope, or none. -/
theorem envelope_congr {other : Config} {files' : FileTree} {text' : String}
    (henabled : other.encryption.enabled = c.encryption.enabled) (htext : c.HasKeyText files text)
    (htext' : other.HasKeyText files' text')
    (hsame : Text.lower (Text.trim text') = Text.lower (Text.trim text)) {e : Envelope}
    (h : c.envelope files = .ok e) : other.envelope files' = .ok e := by
  cases hc : c.encryption.enabled with
  | false =>
    rw [← h, envelope_disabled hc, envelope_disabled (henabled.trans hc)]
  | true =>
    obtain ⟨found, key, hfound, rfl, hkey⟩ := (envelope_eq_ok_iff hc).mp h
    obtain rfl := htext.unique hfound
    exact (envelope_eq_ok_iff (henabled.trans hc)).mpr ⟨text', key, htext', rfl, hsame.trans hkey⟩

/-- A service may start exactly if it has a topic and, if it is to encrypt, the text of a key. It
then has the envelope of just that key, if it is to encrypt, and else the one that changes nothing.
Where two keys differ in the case of letters, in the blanks around them or in where they are taken
from, each envelope opens what the other seals. -/
theorem startup_admits_usable (c : Config) (files : FileTree) :
    (c.validate files = .ok () ↔ ¬Text.isAllBlank c.topic ∧ (c.encryption.enabled = false ∨
      ∃ text, c.HasKeyText files text ∧ Aes.Key.IsText (Text.trim text))) ∧
    (c.validate files = .ok () → ∃ e, c.envelope files = .ok e ∧
      e.isEnabled = c.encryption.enabled ∧ (c.encryption.enabled → ∃ text key,
        c.HasKeyText files text ∧ e = .enabled key ∧
          Hex.encode key.bytes = Text.lower (Text.trim text))) ∧
    ∀ (other : Config) (files' : FileTree) (text text' : String) (e : Envelope),
      other.encryption.enabled = c.encryption.enabled → c.HasKeyText files text →
      other.HasKeyText files' text' →
      Text.lower (Text.trim text') = Text.lower (Text.trim text) → c.envelope files = .ok e →
      ∃ e', other.envelope files' = .ok e' ∧ e.Interchangeable e' := by
  refine ⟨?_, fun h => ?_, ?_⟩
  · rw [validate_eq_ok_iff]
    refine and_congr_right fun _ => ?_
    cases hc : c.encryption.enabled with
    | false => simp
    | true =>
      simp only [Bool.true_eq_false, false_or, envelope_eq_ok_iff hc, ← Aes.Key.ofHex_ok_iff,
        Aes.Key.ofHex_eq_ok_iff]
      constructor
      · rintro ⟨_, text, key, htext, -, hkey⟩
        exact ⟨text, htext, key, hkey⟩
      · rintro ⟨text, htext, key, hkey⟩
        exact ⟨_, text, key, htext, rfl, hkey⟩
  · have henvelope := (validate_eq_ok_iff.mp h).2
    cases hc : c.encryption.enabled with
    | false => exact ⟨.disabled, envelope_disabled hc, rfl, fun h => absurd h Bool.false_ne_true⟩
    | true =>
      rw [hc] at henvelope
      obtain ⟨e, he⟩ := henvelope.resolve_left Bool.true_eq_false.mp
      obtain ⟨text, key, htext, rfl, hkey⟩ := (envelope_eq_ok_iff hc).mp he
      exact ⟨_, he, rfl, fun _ => ⟨text, key, htext, rfl, hkey.symm⟩⟩
  · intro other files' text text' e henabled htext htext' hsame h
    exact ⟨e, envelope_congr henabled htext htext' hsame h, .refl e⟩

/-- A key with blanks around it, set beside a key file, which does not count. -/
def keySet : Config :=
  { topic := "kv"
    encryption := {
      enabled := true
      key := some "\u00a0000102030405060708090A0B0C0D0E0F101112131415161718191A1B1C1D1E1F\t"
      keyFile := some "missing" } }

def keyFiled : Config :=
  { topic := " kv", encryption := { enabled := true, keyFile := some "keys/aes.key" } }

/-- The same key in lower case, and with a line end. -/
def keyFiles : FileTree :=
  [(["keys"], .directory), (["keys", "aes.key"], .file (.bytes (Utf8.encode
    "000102030405060708090a0b0c0d0e0f101112131415161718191a1b1c1d1e1f\n")))]

theorem startup_admits_usable_filed :
    keySet.validate [] = .ok () ∧ keyFiled.validate keyFiles = .ok () ∧
      ∃ key e, keySet.envelope [] = .ok (.enabled key) ∧
        key.bytes = (List.range 32).map UInt8.ofNat ∧ keyFiled.envelope keyFiles = .ok e ∧
        Envelope.Interchangeable (.enabled key) e := by
  have hset : keySet.HasKeyText []
      "\u00a0000102030405060708090A0B0C0D0E0F101112131415161718191A1B1C1D1E1F\t" := .inline rfl
  have hfiled : keyFiled.HasKeyText keyFiles
      "000102030405060708090a0b0c0d0e0f101112131415161718191a1b1c1d1e1f\n" := by
    refine .filed "keys/aes.key" rfl rfl ⟨by decide, ?_⟩
    cbv
  have htrim : Text.trim
      "\u00a0000102030405060708090A0B0C0D0E0F101112131415161718191A1B1C1D1E1F\t" =
      "000102030405060708090A0B0C0D0E0F101112131415161718191A1B1C1D1E1F" := by cbv
  have htrim' : Text.trim "000102030405060708090a0b0c0d0e0f101112131415161718191a1b1c1d1e1f\n" =
      "000102030405060708090a0b0c0d0e0f101112131415161718191a1b1c1d1e1f" := by cbv
  have hlower : Text.lower "000102030405060708090A0B0C0D0E0F101112131415161718191A1B1C1D1E1F" =
      "000102030405060708090a0b0c0d0e0f101112131415161718191a1b1c1d1e1f" := by cbv
  have hlower' : Text.lower "000102030405060708090a0b0c0d0e0f101112131415161718191a1b1c1d1e1f" =
      "000102030405060708090a0b0c0d0e0f101112131415161718191a1b1c1d1e1f" := by cbv
  obtain ⟨hadmits, hholds, hsame⟩ := startup_admits_usable keySet []
  have hstarts : keySet.validate [] = .ok () := by
    refine hadmits.mpr ⟨by decide, .inr ⟨_, hset, ?_⟩⟩
    rw [htrim]
    decide +kernel
  have hstarts' : keyFiled.validate keyFiles = .ok () := by
    refine (startup_admits_usable keyFiled keyFiles).1.mpr ⟨by decide, .inr ⟨_, hfiled, ?_⟩⟩
    rw [htrim']
    decide +kernel
  obtain ⟨e, henvelope, -, hkey⟩ := hholds hstarts
  obtain ⟨text, key, htext, rfl, hbytes⟩ := hkey rfl
  obtain rfl := htext.unique hset
  rw [htrim, hlower] at hbytes
  have hread : Hex.decode? "000102030405060708090a0b0c0d0e0f101112131415161718191a1b1c1d1e1f" =
      some ((List.range 32).map UInt8.ofNat) := by decide +kernel
  rw [← hbytes, Hex.decode?_encode, Option.some.injEq] at hread
  obtain ⟨e', henvelope', hopens⟩ := hsame keyFiled keyFiles _ _ _ rfl hset hfiled
    (by rw [htrim, htrim', hlower, hlower']) henvelope
  exact ⟨hstarts, hstarts', key, e', henvelope, hread, henvelope', hopens⟩

end Config

end KeyedLog
