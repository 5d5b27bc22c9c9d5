import KeyedLog.Http.Gateway
import KeyedLog.Proofs.Decode
import KeyedLog.Proofs.Log.Sound
import KeyedLog.Proofs.Supply
import Mathlib

/-!
# What the answer to a write tells

A write either adds one record to the log, which reads back as what was asked for, or leaves the
log alone. The status of the answer tells which, and of what kind the fault was.
-/
namespace KeyedLog

namespace Log

/-- One record comes to the end of one partition of a topic, and nothing else changes. A topic that
was not there has empty partitions besides. -/
structure Gains (log log' : Log) (topic : String) (r : Record) : Prop where
  topic_eq : r.topic = topic
  offset : r.offset = (log.slot topic r.partition).high
  there : r.partition ∈ log'.partitionNumbers topic
  grown : log'.slot topic r.partition = (log.slot topic r.partition).append r
  kept : ∀ name i, ¬(name = topic ∧ i = r.partition) → log'.slot name i = log.slot name i
  topics : ∀ name, log'.Exists name ↔ log.Exists name ∨ name = topic
  numbers : ∀ name, log.Exists name → log'.partitionNumbers name = log.partitionNumbers name
  settings : log'.defaultPartitions = log.defaultPartitions ∧ log'.rejecting = log.rejecting

variable {log : Log} {topic : String}

theorem Sound.gains_append (h : log.Sound) (topic : String) (o : Outgoing) :
    log.Gains (log.append topic o).2 topic (log.appended topic o) where
  topic_eq := rfl
  offset := rfl
  there := by
    have hlt : log.home topic o < (log.partitionsFor topic).length := h.home_lt o
    rw [append_eq, mem_partitionNumbers, partitionsOf, Assoc.get?_put_self, Option.getD_some,
      List.length_set]
    exact ⟨Int.natCast_nonneg _, Int.ofNat_lt.mpr hlt⟩
  grown := by
    rw [slot_append h]
    exact if_pos ⟨rfl, rfl⟩
  kept := by
    intro name i hne
    rw [slot_append h, if_neg]
    exact hne
  topics := by
    intro name
    rw [append_eq, Exists, Exists]
    by_cases hname : name = topic
    · simp [hname]
    · simp [Assoc.get?_put_of_ne hname, hname]
  numbers := fun _ hexists => partitionNumbers_change h hexists (.append topic o)
  settings := ⟨rfl, rfl⟩

/-- What gains a record is not as it was. -/
theorem not_gains_self (log : Log) (topic : String) (r : Record) : ¬log.Gains log topic r := by
  intro h
  have hlength := congrArg (fun p => p.records.length) h.grown
  simp at hlength

end Log

namespace Http

open Gateway (TextDecoding plainDecoding)

/-! ## What is asked for -/

/-- What a request to write asks for, in texts. An order without a value is to remove the key. -/
structure Order where
  key : String
  value : Option String
  headers : List (String × String)

namespace Order

/-- The texts that stand for bytes. -/
def texts (o : Order) : List String := o.headers.map Prod.snd ++ o.key :: o.value.toList

/-- Some text stands for no bytes. -/
def Garbled (o : Order) (decode : TextDecoding) : Prop :=
  ∃ text ∈ o.texts, ∃ fault, decode text = .error fault

/-- Some header has no name, or some text stands for no byte at all. -/
def Hollow (o : Order) (decode : TextDecoding) : Prop :=
  "" ∈ o.headers.map Prod.fst ∨ ∃ text ∈ o.texts, decode text = .ok []

/-- How many parts are sealed for an order: the names and values of its headers, and of the one that
is added if none names an id, its key, and its value if it has one. -/
def parts (o : Order) : Nat :=
  let added := if Correlation.headerName ∈ o.headers.map Prod.fst then 0 else 1
  2 * (o.headers.length + added) + 1 + o.value.toList.length

/-- Some part of an order gets no initial block, for none can be drawn. -/
def Undrawn (o : Order) (blocks : Nat → Aes.Draw) : Prop :=
  ∃ k < o.parts, ∃ reason, blocks k = .error reason

/-- What a change does is what the order asks for. -/
structure Asks (o : Order) (decode : TextDecoding) (c : Change) : Prop where
  key : decode o.key = .ok c.key
  value : ∀ text ∈ o.value, ∃ bytes, decode text = .ok bytes ∧ c.value = some bytes
  removal : o.value = none → c.value = none

end Order

/-- The order that a body places on a route. -/
def Route.order? (body : Bytes) : Route → Option Order
  | .store | .storeBase64 =>
    (Gateway.readStore body).toOption.map fun s => ⟨s.key, some s.value, s.headers⟩
  | .remove => (Gateway.readKey body).toOption.map fun key => ⟨key, none, []⟩
  | _ => none

/-- How the texts of an order stand for bytes. -/
def Route.decoding : Route → TextDecoding
  | .storeBase64 => Base64.decodeText
  | _ => plainDecoding

/-- A request whose body is handed over, and reads as an order. -/
structure Request.Places (r : Request) (route : Route) (o : Order) : Prop where
  path : Route.ofPath? r.route = some route
  method : r.method = "POST"
  type : (((r.header? "content-type").bind visible?).bind MediaType.ofText?).any MediaType.isJson
  length : r.body.length ≤ Gateway.bodyLimit
  order : route.order? r.body = some o

/-! ## From texts to a message -/

/-- A message has the bytes that an order stands for, and an id if it needs one. -/
structure Order.Means (o : Order) (decode : TextDecoding) (m : Message) : Prop where
  headers : List.Forall₂ (fun text bytes => bytes.1 = text.1 ∧ decode text.2 = .ok bytes.2)
    o.headers m.headers
  change : o.Asks decode ⟨m.key, m.value, m.correlation⟩
  correlated : (∀ h ∈ m.headers, h.1 ≠ Correlation.headerName) → m.correlation ≠ ""

/-- What holds of all elements of one list holds of all elements of the other. -/
theorem forall_mem_iff_of_forall₂ {α β : Type} {R : α → β → Prop} {P : α → Prop} {Q : β → Prop}
    {as : List α} {bs : List β} (h : List.Forall₂ R as bs) (hiff : ∀ a b, R a b → (P a ↔ Q b)) :
    (∀ a ∈ as, P a) ↔ ∀ b ∈ bs, Q b := by
  induction h with
  | nil => simp
  | cons hhead _ ih => rw [List.forall_mem_cons, List.forall_mem_cons, hiff _ _ hhead, ih]

namespace Order

variable {o : Order} {decode : TextDecoding} {m : Message}

theorem forall_mem_texts {P : String → Prop} :
    (∀ text ∈ o.texts, P text) ↔
      (∀ h ∈ o.headers, P h.2) ∧ P o.key ∧ ∀ text ∈ o.value, P text := by
  simp only [texts, List.forall_mem_append, List.forall_mem_map, List.forall_mem_cons,
    Option.mem_toList, Option.mem_def]

theorem not_hollow_iff :
    ¬o.Hollow decode ↔ (∀ h ∈ o.headers, h.1 ≠ "" ∧ decode h.2 ≠ .ok []) ∧
      decode o.key ≠ .ok [] ∧ ∀ text ∈ o.value, decode text ≠ .ok [] := by
  have hnamed : ¬o.Hollow decode ↔
      (∀ h ∈ o.headers, h.1 ≠ "") ∧ ∀ text ∈ o.texts, decode text ≠ .ok [] := by
    simp only [Hollow, List.mem_map, not_or, not_exists, not_and, ne_eq]
  rw [hnamed, forall_mem_texts]
  simp only [imp_and, forall_and, and_assoc]

namespace Means

theorem not_garbled (h : o.Means decode m) : ¬o.Garbled decode := by
  have hread : ∀ text ∈ o.texts, ∃ bytes, decode text = .ok bytes := by
    refine forall_mem_texts.mpr ⟨?_, ⟨m.key, h.change.key⟩, fun text hmem => ?_⟩
    · refine (forall_mem_iff_of_forall₂ h.headers (Q := fun _ => True) ?_).mpr fun _ _ => trivial
      exact fun text bytes hbytes => iff_of_true ⟨bytes.2, hbytes.2⟩ trivial
    · obtain ⟨bytes, hbytes, -⟩ := h.change.value text hmem
      exact ⟨bytes, hbytes⟩
  rintro ⟨text, hmem, fault, hfault⟩
  obtain ⟨bytes, hbytes⟩ := hread text hmem
  rw [hfault] at hbytes
  cases hbytes

theorem names (h : o.Means decode m) : m.headers.map Prod.fst = o.headers.map Prod.fst := by
  have hheaders := h.headers
  generalize m.headers = headers, o.headers = texts at hheaders ⊢
  induction hheaders with
  | nil => rfl
  | cons hhead _ ih => rw [List.map_cons, List.map_cons, hhead.1, ih]

/-- A message takes a block for each part of its order. -/
theorem draws_eq (h : o.Means decode m) : m.draws = o.parts := by
  have hnamed : m.headers.any (·.1 == Correlation.headerName) ↔
      Correlation.headerName ∈ o.headers.map Prod.fst := by
    rw [← h.names]
    simp
  have hvalue : m.value.toList.length = o.value.toList.length := by
    cases hv : o.value with
    | none =>
      rw [show m.value = none from h.change.removal hv]
      rfl
    | some text =>
      obtain ⟨bytes, -, hbytes⟩ := h.change.value text hv
      rw [show m.value = some bytes from hbytes]
      rfl
  rw [Message.draws, parts, hvalue, Message.allHeaders, h.headers.length_eq]
  by_cases hid : Correlation.headerName ∈ o.headers.map Prod.fst
  · rw [if_pos (hnamed.mpr hid), if_pos hid]
    rfl
  · rw [if_neg (mt hnamed.mp hid), if_neg hid, List.length_append, List.length_singleton]

/-- What an envelope that encrypts seals of a message shows in the order. -/
theorem sealed_iff (h : o.Means decode m) (e : Envelope) (blocks : Nat → Aes.Draw) :
    (∃ out, m.sealWith e blocks = .ok out) ↔
      ¬(e.isEnabled ∧ (o.Hollow decode ∨ o.Undrawn blocks)) := by
  rw [Message.sealWith_ok_iff]
  cases e with
  | disabled =>
    simp [Envelope.Takes, Envelope.TakesHeader, Envelope.Supplied, Envelope.isEnabled]
  | enabled key =>
    have hadded : (∀ h ∈ m.headers, h.1 ≠ Correlation.headerName) →
        Utf8.encode Correlation.headerName ≠ [] ∧ Utf8.encode m.correlation ≠ [] := by
      intro hnone
      rw [ne_eq, ne_eq, Utf8.encode_eq_nil_iff, Utf8.encode_eq_nil_iff]
      exact ⟨by decide, h.correlated hnone⟩
    have hheaders : (∀ h ∈ m.allHeaders, Utf8.encode h.1 ≠ [] ∧ h.2 ≠ []) ↔
        ∀ h ∈ o.headers, h.1 ≠ "" ∧ decode h.2 ≠ .ok [] := by
      rw [Message.forall_mem_allHeaders hadded, forall_mem_iff_of_forall₂ h.headers]
      rintro text bytes ⟨hname, hbytes⟩
      simp only [hname, hbytes, ne_eq, Utf8.encode_eq_nil_iff, Except.ok.injEq]
    have hvalue : (∀ value ∈ m.value, value ≠ []) ↔ ∀ text ∈ o.value, decode text ≠ .ok [] := by
      cases hv : o.value with
      | none => simp [show m.value = none from h.change.removal hv]
      | some text =>
        obtain ⟨bytes, hbytes, hvalue⟩ := h.change.value text hv
        simp [show m.value = some bytes from hvalue, hbytes]
    have hkey : m.key ≠ [] ↔ decode o.key ≠ .ok [] := by
      simp [h.change.key]
    have hdrawn : ¬o.Undrawn blocks ↔ ∀ k < m.draws, ∃ initial, blocks k = .ok initial := by
      simp only [Undrawn, h.draws_eq, not_exists, not_and]
      refine forall₂_congr fun k _ => ?_
      cases blocks k <;> simp
    simp only [Envelope.Takes, Envelope.TakesHeader, Envelope.Supplied, Envelope.isEnabled,
      forall_const, true_and, not_or, not_hollow_iff, hdrawn, hheaders, hvalue, hkey]

/-- A publisher refuses the message of an order for one of three reasons. -/
theorem publish_ok_iff (h : o.Means decode m) (p : Publisher) (log : Log)
    (blocks : Nat → Aes.Draw) : (∃ log', p.publish log blocks m = .ok log') ↔
      ¬(p.down ∨ log.rejecting ∨
        (p.envelope.isEnabled ∧ (o.Hollow decode ∨ o.Undrawn blocks))) := by
  rw [Publisher.publish_ok_iff, h.sealed_iff]
  tauto

end Means

end Order

namespace Gateway

variable {decode : TextDecoding}

theorem decodeHeaders_eq_ok {texts : List (String × String)} {headers : List Header}
    (h : decodeHeaders decode texts = .ok headers) :
    List.Forall₂ (fun text bytes => bytes.1 = text.1 ∧ decode text.2 = .ok bytes.2)
      texts headers := by
  induction texts generalizing headers with
  | nil =>
    obtain rfl : [] = headers := Except.ok.inj h
    exact .nil
  | cons text rest ih =>
    obtain ⟨name, value⟩ := text
    rw [decodeHeaders] at h
    cases hbytes : decode value with
    | error e => simp [hbytes] at h
    | ok bytes =>
      cases hrest : decodeHeaders decode rest with
      | error e => simp [hbytes, hrest, Except.map] at h
      | ok decoded =>
        simp only [hbytes, hrest, Except.map, Except.ok.injEq] at h
        rw [← h]
        exact .cons ⟨rfl, hbytes⟩ (ih hrest)

theorem decodeHeaders_eq_error {texts : List (String × String)} {e : Base64.Fault}
    (h : decodeHeaders decode texts = .error e) : ∃ text ∈ texts, decode text.2 = .error e := by
  induction texts with
  | nil => cases h
  | cons text rest ih =>
    obtain ⟨name, value⟩ := text
    rw [decodeHeaders] at h
    cases hbytes : decode value with
    | error fault =>
      simp only [hbytes, Except.error.injEq] at h
      exact ⟨_, List.mem_cons_self, hbytes.trans (congrArg _ h)⟩
    | ok bytes =>
      cases hrest : decodeHeaders decode rest with
      | error fault =>
        simp only [hbytes, hrest, Except.map, Except.error.injEq] at h
        obtain ⟨text, hmem, hfault⟩ := ih (hrest.trans (congrArg _ h))
        exact ⟨text, List.mem_cons_of_mem _ hmem, hfault⟩
      | ok decoded => simp [hbytes, hrest, Except.map] at h

namespace StoreRequest

variable {s : StoreRequest} {id : String}

/-- The order of a request to store. -/
def order (s : StoreRequest) : Order := ⟨s.key, some s.value, s.headers⟩

/-- The message of a request to store, if its id is not empty unless its headers name one. -/
theorem means_message {m : Message} (h : s.message decode id = .ok m)
    (hid : s.headers.lookup Correlation.headerName = none → id ≠ "") : s.order.Means decode m := by
  rw [message] at h
  split at h
  · cases h
  · next headers hheaders =>
    split at h
    · cases h
    · next key hkey =>
      split at h
      · cases h
      · next value hvalue =>
        obtain rfl := Except.ok.inj h
        have hmeans := decodeHeaders_eq_ok hheaders
        refine ⟨hmeans, ⟨hkey, ?_, nofun⟩, fun hnone => hid ?_⟩
        · rintro text ⟨⟩
          exact ⟨value, hvalue, rfl⟩
        · have hnone' : ∀ text ∈ s.headers, text.1 ≠ Correlation.headerName := by
            refine (forall_mem_iff_of_forall₂ hmeans ?_).mpr hnone
            rintro text bytes ⟨hname, -⟩
            rw [hname]
          exact List.lookup_eq_none_iff.mpr fun text hmem =>
            bne_iff_ne.mpr (hnone' text hmem).symm

theorem garbled_of_message {e : Base64.Fault} (h : s.message decode id = .error e) :
    s.order.Garbled decode := by
  have hmem {text : String} : text ∈ s.order.texts ↔
      text ∈ s.headers.map Prod.snd ∨ text = s.key ∨ text = s.value := by
    simp [order, Order.texts]
  rw [message] at h
  split at h
  · next fault hheaders =>
    obtain ⟨text, htext, hfault⟩ := decodeHeaders_eq_error hheaders
    exact ⟨text.2, hmem.mpr (.inl (List.mem_map_of_mem htext)), fault, hfault⟩
  · split at h
    · next fault hkey => exact ⟨s.key, hmem.mpr (.inr (.inl rfl)), fault, hkey⟩
    · split at h
      · next fault hvalue => exact ⟨s.value, hmem.mpr (.inr (.inr rfl)), fault, hvalue⟩
      · cases h

end StoreRequest

end Gateway

/-! ## What the answer tells -/

namespace Gateway

variable {g : Gateway} {p : Publisher} {r : Request} {o : Order} {decode : TextDecoding}

/-- The status of an answer tells what became of an order on the log. -/
structure Tells (g : Gateway) (p : Publisher) (o : Order) (decode : TextDecoding)
    (answer : Response × Gateway) : Prop where
  accepted : answer.1.status = 200 ↔ ∃ record change, g.log.Gains answer.2.log p.topic record ∧
    Decoder.decode ⟨p.envelope, {}⟩ record = .ok change ∧ o.Asks decode change
  refused : answer.1.status ≠ 200 → answer.2.log = g.log
  garbled : answer.1.status = 400 ↔ o.Garbled decode
  failed : answer.1.status = 500 ↔ ¬o.Garbled decode ∧
    (p.down ∨ g.log.rejecting ∨
      (p.envelope.isEnabled ∧ (o.Hollow decode ∨ o.Undrawn g.blocks)))
  answered : answer.1.status = 200 ∨ answer.1.status = 400 ∨ answer.1.status = 500

variable {answer : Response × Gateway}

theorem Tells.congr {g' : Gateway} (h : g'.Tells p o decode answer) (hlog : g'.log = g.log)
    (hblocks : g'.blocks = g.blocks) : g.Tells p o decode answer where
  accepted := hlog ▸ h.accepted
  refused := hlog ▸ h.refused
  garbled := h.garbled
  failed := hlog ▸ hblocks ▸ h.failed
  answered := h.answered

/-- What is answered by an answer that does not touch the log. -/
theorem tells_of_unchanged (hlog : answer.2.log = g.log)
    (hgarbled : answer.1.status = 400 ↔ o.Garbled decode)
    (hfailed : answer.1.status = 500 ↔ ¬o.Garbled decode ∧
      (p.down ∨ g.log.rejecting ∨
        (p.envelope.isEnabled ∧ (o.Hollow decode ∨ o.Undrawn g.blocks))))
    (hanswered : answer.1.status = 400 ∨ answer.1.status = 500) : g.Tells p o decode answer where
  accepted := by
    refine iff_of_false (by omega) ?_
    rintro ⟨record, change, hgains, -⟩
    rw [hlog] at hgains
    exact Log.not_gains_self g.log p.topic record hgains
  refused := fun _ => hlog
  garbled := hgarbled
  failed := hfailed
  answered := .inr hanswered

/-- The answer to an attempt to publish what an order means. -/
theorem tells_of_publish (hsound : g.log.Sound) {m : Message} (hm : o.Means decode m)
    (hok : (g.publish p m).1 = .ok () → answer.1.status = 200)
    (herror : ∀ e, (g.publish p m).1 = .error e → answer.1.status = 500)
    (hlog : answer.2.log = (g.publish p m).2.log) : g.Tells p o decode answer := by
  have haccepts := hm.publish_ok_iff p g.log g.blocks
  rw [publish] at hok herror hlog
  cases hpublish : p.publish g.log g.blocks m with
  | error e =>
    simp only [hpublish] at herror hlog
    have hstatus := herror e rfl
    have hrefused : ¬∃ log', p.publish g.log g.blocks m = .ok log' := by
      simp [hpublish]
    rw [haccepts, not_not] at hrefused
    refine tells_of_unchanged hlog (iff_of_false (by omega) hm.not_garbled) ?_ (.inr hstatus)
    exact iff_of_true hstatus ⟨hm.not_garbled, hrefused⟩
  | ok log' =>
    simp only [hpublish] at hok hlog
    have hstatus := hok trivial
    obtain ⟨out, hsealed, rfl⟩ := Publisher.publish_eq_ok hpublish
    have hgains := hsound.gains_append p.topic out
    rw [← hlog] at hgains
    have hdecode := Message.decode_of_sealWith hsealed p.topic (g.log.home p.topic out)
      (g.log.slot p.topic (g.log.home p.topic out)).high
    have hfine := haccepts.mp ⟨_, hpublish⟩
    have hasks (id : String) : o.Asks decode ⟨m.key, m.value, id⟩ :=
      ⟨hm.change.key, hm.change.value, hm.change.removal⟩
    exact {
      accepted := iff_of_true hstatus ⟨_, _, hgains, hdecode, hasks _⟩
      refused := fun hne => absurd hstatus hne
      garbled := iff_of_false (by omega) hm.not_garbled
      failed := iff_of_false (by omega) fun hfailed => hfine hfailed.2
      answered := .inl hstatus }

/-! ## The routes -/

theorem log_correlationOf (g : Gateway) (r : Request) : (g.correlationOf r).2.log = g.log := by
  rw [correlationOf]
  split <;> rfl

theorem publisher_correlationOf (g : Gateway) (r : Request) :
    (g.correlationOf r).2.publisher = g.publisher := by
  rw [correlationOf]
  split <;> rfl

theorem blocks_correlationOf (g : Gateway) (r : Request) :
    (g.correlationOf r).2.blocks = g.blocks := by
  rw [correlationOf]
  split <;> rfl

/-- An id that is not named by a body is never empty. -/
theorem correlationOf_ne_empty (hfit : g.supply.Fit) (r : Request) :
    (g.correlationOf r).1 ≠ "" := by
  rw [correlationOf]
  split
  · next id hid =>
    obtain ⟨text, -, hblank⟩ := Option.bind_eq_some_iff.mp hid
    rintro rfl
    rw [Text.nonBlank?] at hblank
    split at hblank
    · cases hblank
    · next hne =>
      obtain rfl := Option.some.inj hblank
      exact hne rfl
  · exact hfit.nonempty g.issued

theorem storeCorrelation_cases (hfit : g.supply.Fit) (r : Request) (s : StoreRequest) :
    (g.storeCorrelation r s).2.log = g.log ∧
      (g.storeCorrelation r s).2.publisher = g.publisher ∧
      (g.storeCorrelation r s).2.blocks = g.blocks ∧
      (s.headers.lookup Correlation.headerName = none → (g.storeCorrelation r s).1 ≠ "") := by
  rw [storeCorrelation]
  split
  · next id hid => exact ⟨rfl, rfl, rfl, fun hnone => by simp [hnone] at hid⟩
  · exact ⟨g.log_correlationOf r, g.publisher_correlationOf r, g.blocks_correlationOf r,
      fun _ => correlationOf_ne_empty hfit r⟩

theorem storeWith_tells (hsound : g.log.Sound) (hfit : g.supply.Fit) (hp : g.publisher = some p)
    (r : Request) (s : StoreRequest) : g.Tells p s.order decode (g.storeWith decode r s) := by
  obtain ⟨hlog, hpublisher, hblocks, hid⟩ := storeCorrelation_cases hfit r s
  rw [storeWith]
  generalize g.storeCorrelation r s = named at hlog hpublisher hblocks hid
  obtain ⟨id, g'⟩ := named
  refine Tells.congr ?_ hlog hblocks
  dsimp only at hlog hpublisher hid ⊢
  cases hmessage : s.message decode id with
  | error e =>
    have hgarbled := StoreRequest.garbled_of_message hmessage
    refine tells_of_unchanged (g'.log_correlationOf r) (iff_of_true rfl hgarbled) ?_ (.inl rfl)
    exact iff_of_false nofun fun h => h.1 hgarbled
  | ok m =>
    simp only [hpublisher, hp]
    rw [← hlog] at hsound
    apply tells_of_publish hsound (StoreRequest.means_message hmessage hid)
    all_goals rcases g'.publish p m with ⟨_ | _, _⟩
    all_goals simp [Response.correlated, Response.plain]

theorem removeKey_tells (hsound : g.log.Sound) (hfit : g.supply.Fit) (hp : g.publisher = some p)
    (r : Request) (key : String) :
    g.Tells p ⟨key, none, []⟩ plainDecoding (g.removeKey r key) := by
  have hlog := g.log_correlationOf r
  have hblocks := g.blocks_correlationOf r
  have hid := correlationOf_ne_empty hfit r
  simp only [removeKey, hp]
  generalize g.correlationOf r = named at hlog hblocks hid
  obtain ⟨id, g'⟩ := named
  refine Tells.congr ?_ hlog hblocks
  rw [← hlog] at hsound
  have hmeans : Order.Means ⟨key, none, []⟩ plainDecoding ⟨Utf8.encode key, none, [], id⟩ :=
    ⟨.nil, ⟨rfl, nofun, fun _ => rfl⟩, fun _ => hid⟩
  apply tells_of_publish hsound hmeans
  all_goals rcases g'.publish p ⟨Utf8.encode key, none, [], id⟩ with ⟨_ | _, _⟩
  all_goals simp [Response.correlated, Response.plain]

/-- A body that is handed over is read. -/
theorem withBody_of_reads {α : Type} {read : Bytes → Except Json.Fault α} {wanted : α}
    {handle : α → Response × Gateway} (hread : read r.body = .ok wanted)
    (htype : (((r.header? "content-type").bind visible?).bind MediaType.ofText?).any
      MediaType.isJson) (hlength : r.body.length ≤ bodyLimit) :
    g.withBody r read handle = handle wanted := by
  rw [withBody, if_neg (not_not.mpr htype), if_neg (Nat.not_lt.mpr hlength), hread]

/-- What is posted to a route of writing is handled as it stands. -/
theorem serve_of_places {route : Route} (hp : g.publisher = some p) (hr : r.Places route o) :
    g.serve r = g.handle r route := by
  have hwrite : route.isWrite ∧ route.methods = ["POST"] := by
    have horder := hr.order
    cases route <;> first | exact ⟨rfl, rfl⟩ | cases horder
  have hmounts : g.mounts route := by
    simp [mounts, hwrite.1, hp]
  have hmethod : r.method ∈ route.methods := by
    rw [hwrite.2, hr.method]
    exact List.mem_singleton_self _
  have hhead : r.method ≠ "HEAD" := by
    rw [hr.method]
    decide
  simp only [serve, hr.path, hmounts, hmethod, hhead, not_true_eq_false, if_false, if_true]

theorem toOption_map_eq_some {ε α β : Type} {f : α → β} {x : Except ε α} {b : β}
    (h : x.toOption.map f = some b) : ∃ a, x = .ok a ∧ f a = b := by
  cases x with
  | error e => cases h
  | ok a => exact ⟨a, rfl, Option.some.inj h⟩

/-- The status of the answer to a write tells what became of it: with 200 the log has one record
more, which decodes to what was asked for; with any other status the log is as it was. Whatever
initial blocks there are, and even if there are none, this holds. -/
theorem write_tells {n : Int} {changes : List LogChange} {route : Route}
    (hlog : g.log = (Log.empty n).changeAll changes) (hfit : g.supply.Fit)
    (hp : g.publisher = some p) (hr : r.Places route o) :
    g.Tells p o route.decoding (g.serve r) := by
  have hsound : g.log.Sound := by
    rw [hlog]
    exact (Log.sound_empty n).changeAll changes
  have horder := hr.order
  rw [serve_of_places hp hr]
  cases route with
  | store =>
    obtain ⟨s, hread, rfl⟩ := toOption_map_eq_some horder
    rw [handle, withBody_of_reads hread hr.type hr.length]
    exact storeWith_tells hsound hfit hp r s
  | storeBase64 =>
    obtain ⟨s, hread, rfl⟩ := toOption_map_eq_some horder
    rw [handle, withBody_of_reads hread hr.type hr.length]
    exact storeWith_tells hsound hfit hp r s
  | remove =>
    obtain ⟨key, hread, rfl⟩ := toOption_map_eq_some horder
    rw [handle, withBody_of_reads hread hr.type hr.length]
    exact removeKey_tells hsound hfit hp r key
  | _ => cases horder

/-- A gateway to an empty log with two partitions, whose records are sealed. -/
def sealing (supply : Supply) : Gateway where
  log := Log.empty 2
  publisher := some { topic := "kv", envelope := .enabled ⟨.zeros, .zeros⟩ }
  store := none
  supply := supply

/-- A supply that runs out of initial blocks after the first two. -/
def running : Supply :=
  { Supply.serial with blocks := fun n => if n < 2 then .ok (.serial n) else .error "exhausted" }

/-- A request to store a value in base64 under the key `k`. -/
def storing (value : String) : Request where
  method := "POST"
  path := "/store/b64"
  headers := [("content-type", Utf8.encode "application/json")]
  body := Utf8.encode ("\x7b\"key\":\"aw==\",\"value\":\"" ++ value ++ "\"\x7d")

/-- A value is stored; an empty one is not, since it cannot be sealed, nor is one whose key has no
initial block. -/
theorem write_tells_sealing :
    (((sealing .serial).serve (storing "dg==")).1.status = 200 ∧
        ∃ (record : Record) (change : Change),
          (sealing .serial).log.Gains ((sealing .serial).serve (storing "dg==")).2.log "kv" record ∧
            change.key = [0x6b] ∧ change.value = some [0x76]) ∧
      (((sealing .serial).serve (storing "")).1.status = 500 ∧
        ((sealing .serial).serve (storing "")).2.log = Log.empty 2) ∧
      ((sealing running).serve (storing "dg==")).1.status = 500 ∧
        ((sealing running).serve (storing "dg==")).2.log = Log.empty 2 := by
  have hfull : (storing "dg==").Places .storeBase64 ⟨"aw==", some "dg==", []⟩ :=
    ⟨by cbv, rfl, by cbv, by cbv, by cbv⟩
  have hempty : (storing "").Places .storeBase64 ⟨"aw==", some "", []⟩ :=
    ⟨by cbv, rfl, by cbv, by cbv, by cbv⟩
  have hlog : Log.empty 2 = (Log.empty 2).changeAll [] := rfl
  have hstored := write_tells (g := sealing .serial) hlog Supply.fit_serial rfl hfull
  have hfailed := write_tells (g := sealing .serial) hlog Supply.fit_serial rfl hempty
  have hdry := write_tells (g := sealing running) hlog ⟨Supply.fit_serial.1, Supply.fit_serial.2⟩
    rfl hfull
  have hkey : Base64.decodeText "aw==" = .ok [0x6b] := by cbv
  have hvalue : Base64.decodeText "dg==" = .ok [0x76] := by cbv
  have hnothing : Base64.decodeText "" = .ok [] := by cbv
  have hread : ¬Order.Garbled ⟨"aw==", some "dg==", []⟩ Base64.decodeText := by
    simp [Order.Garbled, Order.texts, hkey, hvalue]
  refine ⟨?_, ?_, ?_⟩
  · have hfilled : ¬Order.Hollow ⟨"aw==", some "dg==", []⟩ Base64.decodeText := by
      simp [Order.Hollow, Order.texts, hkey, hvalue]
    have hdrawn : ¬Order.Undrawn ⟨"aw==", some "dg==", []⟩ (sealing .serial).blocks := by
      simp [Order.Undrawn, blocks, sealing, Supply.serial]
    have hstatus : ((sealing .serial).serve (storing "dg==")).1.status = 200 := by
      rcases hstored.answered with h | h | h
      · exact h
      · exact absurd (hstored.garbled.mp h) hread
      · rcases (hstored.failed.mp h).2 with h | h | ⟨-, h | h⟩
        · cases h
        · cases h
        · exact absurd h hfilled
        · exact absurd h hdrawn
    obtain ⟨record, change, hgains, -, hasks⟩ := hstored.accepted.mp hstatus
    obtain ⟨bytes, hbytes, hchange⟩ := hasks.value "dg==" rfl
    refine ⟨hstatus, record, change, hgains, ?_, ?_⟩
    · exact Except.ok.inj (hasks.key.symm.trans hkey)
    · rw [hchange, Except.ok.inj (hbytes.symm.trans hvalue)]
  · have hread' : ¬Order.Garbled ⟨"aw==", some "", []⟩ Base64.decodeText := by
      simp [Order.Garbled, Order.texts, hkey, hnothing]
    have hhollow : Order.Hollow ⟨"aw==", some "", []⟩ Base64.decodeText :=
      .inr ⟨"", by simp [Order.texts], hnothing⟩
    have hstatus := hfailed.failed.mpr ⟨hread', .inr (.inr ⟨rfl, .inl hhollow⟩)⟩
    exact ⟨hstatus, hfailed.refused (by omega)⟩
  · have hundrawn : Order.Undrawn ⟨"aw==", some "dg==", []⟩ (sealing running).blocks :=
      ⟨2, by decide, "exhausted", rfl⟩
    have hstatus := hdry.failed.mpr ⟨hread, .inr (.inr ⟨rfl, .inr hundrawn⟩)⟩
    exact ⟨hstatus, hdry.refused (by omega)⟩

end Gateway

end Http

end KeyedLog
