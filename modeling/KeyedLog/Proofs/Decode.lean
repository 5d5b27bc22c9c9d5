import KeyedLog.Decode
import KeyedLog.Proofs.Envelope
import KeyedLog.Proofs.Text.Numeral

/-!
# Decoding what producers write

A decoder strips the frames its framing asks for and opens the envelope, so it gives back whatever a
producer sealed and framed. The last header that bears a correlation id counts. The others do not
matter, and none of them makes the decoding fail.
-/
namespace KeyedLog

namespace Envelope

variable {e : Envelope} {headers : List Header} {text : String}

/-- A payload as producers write it: sealed, and behind a frame if its part is framed. -/
def Written (e : Envelope) (framed : Bool) (payload text : Bytes) : Prop :=
  ∃ draw hidden frame, e.sealed draw payload = .ok hidden ∧ frame.length = 5 ∧
    text = if framed then frame ++ hidden else hidden

theorem written_of_sealed {draw : Aes.Draw} {payload hidden : Bytes}
    (h : e.sealed draw payload = .ok hidden) : e.Written false payload hidden :=
  ⟨draw, hidden, List.replicate 5 0, h, rfl, rfl⟩

/-- A header bears a correlation id: both its parts open, and its name is that of the id. -/
def Bears (e : Envelope) (id : Bytes) (h : Header) : Prop :=
  e.openedName h.1 = .ok Correlation.headerName ∧ e.openedValue h.2 = .ok id

/-- A header counts for the correlation id. Others do not open, or have another name. -/
def Counts (e : Envelope) (h : Header) : Prop := ∃ id, e.Bears id h

/-- The rule for the correlation id of a record: the last header that bears one tells it. -/
inductive Traces (e : Envelope) (headers : List Header) : String → Prop
  | last (before after : List Header) {h : Header} {id : Bytes} (hbears : e.Bears id h)
      (hlast : ∀ other ∈ after, ¬e.Counts other) (heq : headers = before ++ h :: after) :
      Traces e headers (Utf8.lossy id)
  | untraced (hnone : ∀ h ∈ headers, ¬e.Counts h) : Traces e headers ""

/-- The correlation id that a header bears. -/
def borne? (e : Envelope) (h : Header) : Option Bytes :=
  match Decoder.openHeader? e h with
  | some (name, value) => if name = Correlation.headerName then some value else none
  | none => none

theorem borne?_eq_some_iff {id : Bytes} {h : Header} : e.borne? h = some id ↔ e.Bears id h := by
  rw [borne?, Decoder.openHeader?, Bears]
  cases e.openedName h.1 with
  | error fault => simp
  | ok name =>
    cases e.openedValue h.2 with
    | error fault => simp
    | ok value => simp

theorem isSome_borne?_iff {h : Header} : (e.borne? h).isSome ↔ e.Counts h := by
  simp only [Counts, ← borne?_eq_some_iff, Option.isSome_iff_exists]

theorem borne?_eq_none_iff {h : Header} : e.borne? h = none ↔ ¬e.Counts h := by
  rw [← isSome_borne?_iff, Option.not_isSome_iff_eq_none]

instance : DecidablePred e.Counts := fun _ => decidable_of_iff _ isSome_borne?_iff

end Envelope

namespace Decoder

open Envelope

variable {d : Decoder} {e : Envelope}

/-- What the headers bear that open and are named as the correlation id's. -/
theorem filterMap_borne? (e : Envelope) (headers : List Header) :
    ((headers.filterMap (openHeader? e)).filter (·.1 == Correlation.headerName)).map Prod.snd =
      headers.filterMap e.borne? := by
  induction headers with
  | nil => rfl
  | cons h rest ih =>
    cases hopen : openHeader? e h with
    | none =>
      have hborne : e.borne? h = none := by simp only [borne?, hopen]
      rw [List.filterMap_cons_none hopen, List.filterMap_cons_none hborne, ih]
    | some header =>
      by_cases hname : header.1 = Correlation.headerName
      · have hborne : e.borne? h = some header.2 := by simp only [borne?, hopen, if_pos hname]
        rw [List.filterMap_cons_some hopen, List.filterMap_cons_some hborne,
          List.filter_cons_of_pos (by simpa using hname), List.map_cons, ih]
      · have hborne : e.borne? h = none := by simp only [borne?, hopen, if_neg hname]
        rw [List.filterMap_cons_some hopen, List.filterMap_cons_none hborne,
          List.filter_cons_of_neg (by simpa using hname), ih]

theorem correlation_eq (e : Envelope) (headers : List Header) :
    correlation e headers = ((headers.filterMap e.borne?).getLast?.map Utf8.lossy).getD "" := by
  rw [← filterMap_borne?, List.getLast?_map, correlation]
  cases ((headers.filterMap (openHeader? e)).filter
    (·.1 == Correlation.headerName)).getLast? with
  | none => rfl
  | some header => rfl

theorem getLast?_borne?_eq_some_iff {headers : List Header} {id : Bytes} :
    (headers.filterMap e.borne?).getLast? = some id ↔ ∃ before h after,
      headers = before ++ h :: after ∧ e.Bears id h ∧ ∀ other ∈ after, ¬e.Counts other := by
  simp only [List.getLast?_filterMap, List.findSome?_eq_some_iff, borne?_eq_some_iff,
    borne?_eq_none_iff]
  constructor
  · rintro ⟨after, h, before, heq, hbears, hlast⟩
    refine ⟨before.reverse, h, after.reverse, ?_, hbears, fun other hmem =>
      hlast other (List.mem_reverse.mp hmem)⟩
    rw [← List.reverse_reverse headers, heq]
    simp
  · rintro ⟨before, h, after, rfl, hbears, hlast⟩
    refine ⟨after.reverse, h, before.reverse, by simp, hbears, fun other hmem =>
      hlast other (List.mem_reverse.mp hmem)⟩

/-- The decoder tells the correlation id by the rule. -/
theorem traces_iff {headers : List Header} {text : String} :
    e.Traces headers text ↔ text = correlation e headers := by
  have hnone : (headers.filterMap e.borne?).getLast? = none ↔ ∀ h ∈ headers, ¬e.Counts h := by
    simp only [List.getLast?_eq_none_iff, List.filterMap_eq_nil_iff, borne?_eq_none_iff]
  rw [correlation_eq]
  constructor
  · intro h
    cases h with
    | last before after hbears hlast heq =>
      rw [getLast?_borne?_eq_some_iff.mpr ⟨_, _, _, heq, hbears, hlast⟩]
      rfl
    | untraced h =>
      rw [hnone.mpr h]
      rfl
  · rintro rfl
    cases hfound : (headers.filterMap e.borne?).getLast? with
    | none => exact .untraced (hnone.mp hfound)
    | some id =>
      obtain ⟨before, h, after, heq, hbears, hlast⟩ := getLast?_borne?_eq_some_iff.mp hfound
      exact .last before after hbears hlast heq

/-- Headers that do not count may be put in, left out and moved about. -/
theorem correlation_congr {headers headers' : List Header}
    (h : headers.filter (e.Counts ·) = headers'.filter (e.Counts ·)) :
    correlation e headers = correlation e headers' := by
  have hcounting (headers : List Header) :
      (headers.filter (e.Counts ·)).filterMap e.borne? = headers.filterMap e.borne? := by
    rw [List.filterMap_filter]
    congr 1
    funext header
    by_cases hcounts : e.Counts header
    · simp only [hcounts, decide_true, if_true]
    · simp only [hcounts, decide_false, Bool.false_eq_true, if_false,
        borne?_eq_none_iff.mpr hcounts]
  rw [correlation_eq, correlation_eq, ← hcounting headers, h, hcounting headers']

/-- Why a part cannot be read: it is shorter than its frame, or what follows does not open. -/
inductive Unreadable (e : Envelope) (part : Part) (place : Position) (framed : Bool)
    (payload : Bytes) : ReplayError → Prop
  | short (hframed : framed) (hshort : payload.length < 5) :
    Unreadable e part place framed payload (.frame part place)
  | closed {cause : CryptoError} (hlong : framed → 5 ≤ payload.length)
      (hopen : e.opened (if framed then payload.drop 5 else payload) = .error cause) :
    Unreadable e part place framed payload (.decrypt part place cause)

variable {part : Part} {place : Position} {framed : Bool} {payload text : Bytes}

theorem openPart_eq_error_iff {fault : ReplayError} :
    d.openPart part place framed payload = .error fault ↔
      Unreadable d.envelope part place framed payload fault := by
  have hopened (body : Bytes) (hlong : framed → 5 ≤ payload.length)
      (hbody : body = if framed then payload.drop 5 else payload) :
      (d.envelope.opened body).mapError (.decrypt part place) = .error fault ↔
        Unreadable d.envelope part place framed payload fault := by
    constructor
    · intro h
      cases hopen : d.envelope.opened body with
      | ok plain => simp [hopen, Except.mapError] at h
      | error cause =>
        obtain rfl : ReplayError.decrypt part place cause = fault := by
          simpa [hopen, Except.mapError] using h
        exact .closed hlong (hbody ▸ hopen)
    · intro h
      cases h with
      | short hframed hshort => exact absurd (hlong hframed) (by omega)
      | closed hlong hopen =>
        rw [hbody, hopen]
        rfl
  rw [openPart]
  cases framed with
  | false => exact hopened payload (fun h => by cases h) rfl
  | true =>
    by_cases hshort : payload.length < 5
    · simp only [if_true, Framing.strip?, if_pos hshort, Except.error.injEq]
      constructor
      · rintro rfl
        exact .short rfl hshort
      · intro h
        cases h with
        | short => rfl
        | closed hlong => exact absurd (hlong rfl) (by omega)
    · simp only [if_true, Framing.strip?, if_neg hshort]
      exact hopened (payload.drop 5) (fun _ => by omega) rfl

theorem openPart_of_written (h : d.envelope.Written framed payload text) :
    d.openPart part place framed text = .ok payload := by
  obtain ⟨draw, hidden, frame, hsealed, hframe, rfl⟩ := h
  have hopen := opened_of_sealed hsealed
  rw [openPart]
  cases framed with
  | false => simp [hopen, Except.mapError]
  | true =>
    have hlong : ¬(frame ++ hidden).length < 5 := by
      rw [List.length_append]
      omega
    simp only [if_true, Framing.strip?, if_neg hlong, List.drop_left' hframe, hopen,
      Except.mapError]

/-- What producers wrote is decoded to what they sealed. -/
theorem decode_of_written {key : Bytes} {value : Option Bytes} {r : Record}
    (hkey : d.envelope.Written d.framing.key key r.key)
    (hvalue : Option.Rel (d.envelope.Written d.framing.value) value r.value) :
    d.decode r = .ok ⟨key, value, correlation d.envelope r.headers⟩ := by
  rw [decode, openPart_of_written hkey, openValue]
  generalize r.value = text at hvalue
  cases hvalue with
  | none => rfl
  | some hwritten =>
    simp only [openPart_of_written hwritten]
    rfl

theorem decode_eq_error_iff {r : Record} {fault : ReplayError} :
    d.decode r = .error fault ↔
      Unreadable d.envelope .key r.place d.framing.key r.key fault ∨
      (∀ other, ¬Unreadable d.envelope .key r.place d.framing.key r.key other) ∧
        ∃ value ∈ r.value, Unreadable d.envelope .value r.place d.framing.value value fault := by
  simp only [← openPart_eq_error_iff]
  rw [decode]
  cases d.openPart .key r.place d.framing.key r.key with
  | error other => simp
  | ok key =>
    rw [openValue]
    cases r.value with
    | none => simp
    | some text =>
      cases hopened : d.openPart .value r.place d.framing.value text with
      | error other => simp [hopened, Except.map]
      | ok value => simp [hopened, Except.map]

/-- What a decoder does with the records of any producer. -/
structure Inverts (d : Decoder) : Prop where
  written (framed : Bool) (payload frame : Bytes) (initial : Aes.Block)
    (htakes : d.envelope.Takes payload) (hframe : frame.length = 5) :
    ∃ hidden, d.envelope.sealed (.ok initial) payload = .ok hidden ∧
      d.envelope.Written framed payload (if framed then frame ++ hidden else hidden)
  traced (headers : List Header) : ∃! id, d.envelope.Traces headers id
  restores (topic : String) (i offset : Int) (key keyText : Bytes) (value valueText : Option Bytes)
    (headers : List Header) (id : String)
    (hkey : d.envelope.Written d.framing.key key keyText)
    (hvalue : Option.Rel (d.envelope.Written d.framing.value) value valueText)
    (hid : d.envelope.Traces headers id) :
    d.decode ⟨topic, i, offset, keyText, valueText, headers⟩ = .ok ⟨key, value, id⟩
  ignores (r : Record) (headers : List Header)
    (h : headers.filter (d.envelope.Counts ·) = r.headers.filter (d.envelope.Counts ·)) :
    d.decode { r with headers := headers } = d.decode r
  fails_iff (r : Record) (fault : ReplayError) : d.decode r = .error fault ↔
    Unreadable d.envelope .key r.place d.framing.key r.key fault ∨
    (∀ other, ¬Unreadable d.envelope .key r.place d.framing.key r.key other) ∧
      ∃ value ∈ r.value, Unreadable d.envelope .value r.place d.framing.value value fault

theorem inverts (d : Decoder) : d.Inverts where
  written framed payload frame initial htakes hframe := by
    obtain ⟨hidden, hsealed⟩ :=
      (sealed_ok_iff (.ok initial)).mpr ⟨htakes, supplied_ok _ initial⟩
    exact ⟨hidden, hsealed, .ok initial, hidden, frame, hsealed, hframe, rfl⟩
  traced headers := by
    simp only [traces_iff]
    exact existsUnique_eq
  restores topic i offset key keyText value valueText headers id hkey hvalue hid := by
    obtain rfl := traces_iff.mp hid
    exact decode_of_written (r := ⟨topic, i, offset, keyText, valueText, headers⟩) hkey hvalue
  ignores r headers h := by
    rw [decode, decode, correlation_congr h]
    rfl
  fails_iff r fault := decode_eq_error_iff

def sealedKey : Bytes :=
  [0, 0, 0, 0, 0, 0, 0, 0, 0, 0, 0, 0, 0, 0, 0, 0,
   234, 231, 254, 218, 6, 110, 252, 37, 191, 137, 172, 200, 185, 64, 200, 181]

def sealedId : Header :=
  ("AAAAAAAAAAAAAAAAAAAAAG2TwPPOAZpLoM0SUzg1Qds=",
    Utf8.encode "AAAAAAAAAAAAAAAAAAAAALSl6Yr2gQqDvfUrFK6CLDc=")

/-- Behind the header that bears the id come one with another name and one with another value. -/
theorem inverts_framed :
    Decoder.decode ⟨.enabled ⟨.zeros, .zeros⟩, ⟨true, true⟩⟩ ⟨"kv", 0, 0,
      [0, 0, 0, 0, 1] ++ sealedKey, none, [sealedId, ("trace", [1]), (sealedId.1, [1])]⟩ =
        .ok ⟨[0x6b], none, "a"⟩ := by
  refine (inverts ⟨.enabled ⟨.zeros, .zeros⟩, ⟨true, true⟩⟩).restores _ _ _ _ _ _ _ _ _ ?_ .none ?_
  · exact ⟨.ok .zeros, sealedKey, [0, 0, 0, 0, 1], by decide +kernel, rfl, rfl⟩
  · have hbears : Bears (.enabled ⟨.zeros, .zeros⟩) [0x61] sealedId :=
      ⟨by decide +kernel, by decide +kernel⟩
    have hlast : ∀ other ∈ [("trace", [1]), (sealedId.1, [1])],
        ¬Counts (.enabled ⟨.zeros, .zeros⟩) other := by decide +kernel
    exact .last [] _ hbears hlast rfl

end Decoder

namespace Message

variable {m : Message} {e : Envelope} {blocks : Nat → Aes.Draw} {o : Outgoing}

/-- The record of a message makes the change that the message asks for. -/
theorem decode_of_sealWith (h : m.sealWith e blocks = .ok o) (topic : String) (i offset : Int) :
    Decoder.decode ⟨e, {}⟩ ⟨topic, i, offset, o.key, o.value, o.headers⟩ =
      .ok ⟨m.key, m.value, Decoder.correlation e o.headers⟩ := by
  obtain ⟨⟨draw, hkey⟩, hvalue⟩ := sealed_of_sealWith h
  refine Decoder.decode_of_written (d := ⟨e, {}⟩) (r := ⟨topic, i, offset, o.key, o.value,
    o.headers⟩) (Envelope.written_of_sealed hkey) ?_
  rcases hvalue with ⟨hmessage, hnone⟩ | ⟨value, hidden, draw', hmessage, hsome, hsealed⟩
  · rw [hmessage, hnone]
    exact .none
  · rw [hmessage, hsome]
    exact .some (Envelope.written_of_sealed hsealed)

/-- Sealed headers open one by one. -/
theorem openHeader?_of_sealHeaders {n : Nat} {headers hidden : List Header}
    (h : sealHeaders e blocks n headers = .ok hidden) :
    hidden.filterMap (Decoder.openHeader? e) = headers := by
  induction headers generalizing n hidden with
  | nil =>
    obtain rfl := Except.ok.inj h
    rfl
  | cons header rest ih =>
    obtain ⟨name, value⟩ := header
    rw [sealHeaders] at h
    split at h
    · cases h
    · next hiddenName hname =>
      split at h
      · cases h
      · next hiddenValue hvalue =>
        cases hrest : sealHeaders e blocks (n + 2) rest with
        | error fault => simp [hrest, Except.map] at h
        | ok more =>
          simp only [hrest, Except.map, Except.ok.injEq] at h
          have hopen : Decoder.openHeader? e (hiddenName, hiddenValue) = some (name, value) := by
            simp only [Decoder.openHeader?, Envelope.openedName_of_sealedName hname,
              Envelope.openedValue_of_sealedValue hvalue]
          rw [← h, List.filterMap_cons_some hopen, ih hrest]

/-- The id of a record is that of the last header of its message that names one. -/
theorem correlation_of_sealWith (h : m.sealWith e blocks = .ok o) {id : String}
    (hlast : (m.allHeaders.filter (·.1 == Correlation.headerName)).getLast? =
      some (Correlation.headerName, Utf8.encode id)) : Decoder.correlation e o.headers = id := by
  have hheaders : sealHeaders e blocks 0 m.allHeaders = .ok o.headers := by
    simp only [sealWith] at h
    split at h
    · cases h
    · next headers hheaders =>
      split at h
      · cases h
      · split at h
        · obtain rfl := Except.ok.inj h
          exact hheaders
        · obtain ⟨hidden, -, rfl⟩ := Decimal.map_eq_ok h
          exact hheaders
  rw [Decoder.correlation, openHeader?_of_sealHeaders hheaders, hlast]
  exact Utf8.lossy_encode id

end Message

end KeyedLog
