import KeyedLog.Proofs.Http.Writing
import KeyedLog.Proofs.Json.Shape

/-!
# What an answer does

An answer leaves the log alone, or it accepts an order: then the message of the order is published,
and both carry the correlation id that the order was given.
-/
namespace KeyedLog.Http

open Gateway (TextDecoding plainDecoding)

/-! ## The id of an order -/

/-- The id of an order is the one its body names. If it names none, it is that of the request, if
that is written visibly and not blank; else one of the ids that are supplied. -/
inductive Request.Names (q : Request) (ids : Nat → String) (o : Order) : String → Prop
  | body {id : String} (h : (Correlation.headerName, id) ∈ o.headers) : Names q ids o id
  | header {id : String} {bytes : Bytes} (hbody : Correlation.headerName ∉ o.headers.map Prod.fst)
      (hheader : q.header? "x-correlation-id" = some bytes) (hvisible : visible? bytes = some id)
      (hblank : ¬Text.isAllBlank id) : Names q ids o id
  | supplied (serial : Nat) (hbody : Correlation.headerName ∉ o.headers.map Prod.fst)
      (hheader : ∀ bytes id, q.header? "x-correlation-id" = some bytes →
        visible? bytes = some id → Text.isAllBlank id) : Names q ids o (ids serial)

/-- How a reply carries an id: as it is, unless it is no header value. -/
def carried (id : String) : Option String := if isHeaderValue id then some id else none

/-- An id that the body does not name can be carried. -/
theorem Request.Names.carried_eq {q : Request} {supply : Supply} {o : Order} {id : String}
    (h : q.Names supply.ids o id) (hfit : supply.Fit)
    (hbody : Correlation.headerName ∉ o.headers.map Prod.fst) : carried id = some id := by
  cases h with
  | body hnamed => exact absurd (List.mem_map_of_mem hnamed) hbody
  | header _ _ hvisible => exact if_pos (isHeaderValue_of_visible? hvisible)
  | supplied serial => exact if_pos (hfit.carried serial)

namespace Gateway

/-- Two gateways differ in what they count only. -/
structure Alike (g g' : Gateway) : Prop where
  log : g'.log = g.log
  publisher : g'.publisher = g.publisher
  store : g'.store = g.store
  files : g'.files = g.files
  supply : g'.supply = g.supply

variable {g g' : Gateway} {p : Publisher} {q : Request} {o : Order} {s : StoreRequest}

theorem Alike.refl (g : Gateway) : g.Alike g := ⟨rfl, rfl, rfl, rfl, rfl⟩

theorem Alike.trans {g'' : Gateway} (h : g.Alike g') (h' : g'.Alike g'') : g.Alike g'' :=
  ⟨h'.log.trans h.log, h'.publisher.trans h.publisher, h'.store.trans h.store,
    h'.files.trans h.files, h'.supply.trans h.supply⟩

theorem alike_correlationOf (g : Gateway) (q : Request) : g.Alike (g.correlationOf q).2 := by
  rw [correlationOf]
  split <;> exact ⟨rfl, rfl, rfl, rfl, rfl⟩

theorem alike_storeCorrelation (g : Gateway) (q : Request) (s : StoreRequest) :
    g.Alike (g.storeCorrelation q s).2 := by
  rw [storeCorrelation]
  split
  · exact .refl g
  · exact g.alike_correlationOf q

/-- Without an id in the body, the request tells it. -/
theorem names_correlationOf (g : Gateway) (q : Request)
    (hbody : Correlation.headerName ∉ o.headers.map Prod.fst) :
    q.Names g.supply.ids o (g.correlationOf q).1 := by
  rw [correlationOf]
  split
  · next id hid =>
    obtain ⟨text, htext, hblank⟩ := Option.bind_eq_some_iff.mp hid
    obtain ⟨bytes, hheader, hvisible⟩ := Option.bind_eq_some_iff.mp htext
    rw [Text.nonBlank?] at hblank
    split at hblank
    · cases hblank
    · next hfilled =>
      obtain rfl := Option.some.inj hblank
      exact .header hbody hheader hvisible hfilled
  · next hnone =>
    refine .supplied _ hbody fun bytes id hheader hvisible => ?_
    rw [hheader, Option.bind_some, hvisible, Option.bind_some, Text.nonBlank?] at hnone
    split at hnone
    · assumption
    · cases hnone

theorem names_storeCorrelation (g : Gateway) (q : Request) (s : StoreRequest) :
    q.Names g.supply.ids s.order (g.storeCorrelation q s).1 := by
  rw [storeCorrelation]
  split
  · next id hid =>
    obtain ⟨before, after, heq, -⟩ := List.lookup_eq_some_iff.mp hid
    refine .body ?_
    rw [StoreRequest.order, heq]
    exact List.mem_append_right _ List.mem_cons_self
  · next hnone =>
    refine g.names_correlationOf q fun hmem => ?_
    obtain ⟨header, hheader, hname⟩ := List.mem_map.mp hmem
    have hne := List.lookup_eq_none_iff.mp hnone header hheader
    rw [hname] at hne
    simp at hne

/-! ## Answers -/

/-- What an answer did. -/
inductive Served (g : Gateway) (p : Publisher) (q : Request) (answer : Response × Gateway) : Prop
  | unchanged (h : g.Alike answer.2)
      (hrefused : ∀ route o, q.Places route o → answer.1.status ≠ 200)
  /-- The store was asked whether it is ready. -/
  | asked {store : StateStore} (hstore : g.store = some store)
      (h : { g with store := some (store.ready g.files).2 }.Alike answer.2)
      (hread : ∀ route o, ¬q.Places route o)
  | published {route : Route} {o : Order} {m : Message} {blocks : Nat → Aes.Draw} {out : Outgoing}
      (hplaces : q.Places route o) (hmeans : o.Means route.decoding m)
      (hnames : q.Names g.supply.ids o m.correlation)
      (hsealed : m.sealWith p.envelope blocks = .ok out)
      (h : { g with log := (g.log.append p.topic out).2 }.Alike answer.2)
      (hstatus : answer.1.status = 200) (hid : answer.1.correlation = carried m.correlation)

theorem StoreRequest.correlation_message {decode : TextDecoding} {id : String} {m : Message}
    (h : s.message decode id = .ok m) : m.correlation = id := by
  rw [message] at h
  split at h
  · cases h
  · split at h
    · cases h
    · split at h
      · cases h
      · exact congrArg Message.correlation (Except.ok.inj h).symm

/-- What comes of the attempt to publish what an order means, answered in one of two ways. -/
theorem served_of_publish {route : Route} {m : Message} {accepted failed : String}
    (halike : g.Alike g') (hplaces : q.Places route o) (hmeans : o.Means route.decoding m)
    (hnames : q.Names g.supply.ids o m.correlation) :
    g.Served p q (match g'.publish p m with
      | (.ok (), g) => (.correlated m.correlation 200 accepted, g)
      | (.error _, g) => (.correlated m.correlation 500 failed, g)) := by
  rw [publish]
  cases hpublish : p.publish g'.log g'.blocks m with
  | error e =>
    refine .unchanged ⟨halike.log, halike.publisher, halike.store, halike.files, halike.supply⟩ ?_
    exact fun _ _ _ => by simp [Response.correlated, Response.plain]
  | ok log =>
    obtain ⟨out, hsealed, rfl⟩ := Publisher.publish_eq_ok hpublish
    refine .published hplaces hmeans hnames hsealed ⟨?_, halike.publisher, halike.store,
      halike.files, halike.supply⟩ rfl rfl
    rw [← halike.log]

theorem storeWith_served (hfit : g.supply.Fit) (hp : g.publisher = some p) {route : Route}
    (hplaces : q.Places route s.order) : g.Served p q (g.storeWith route.decoding q s) := by
  have halike := g.alike_storeCorrelation q s
  have hnames := g.names_storeCorrelation q s
  obtain ⟨-, -, -, hid⟩ := storeCorrelation_cases hfit q s
  rw [storeWith]
  generalize g.storeCorrelation q s = named at halike hnames hid
  obtain ⟨id, g'⟩ := named
  dsimp only at halike hnames hid ⊢
  cases hmessage : s.message route.decoding id with
  | error e =>
    refine .unchanged (halike.trans (g'.alike_correlationOf q)) ?_
    exact fun _ _ _ => by simp [Response.correlated, Response.plain]
  | ok m =>
    obtain rfl := StoreRequest.correlation_message hmessage
    simp only [halike.publisher, hp]
    exact served_of_publish halike hplaces (StoreRequest.means_message hmessage hid) hnames

theorem removeKey_served (hfit : g.supply.Fit) (hp : g.publisher = some p) {route : Route}
    {key : String} (hdecoding : route.decoding = plainDecoding)
    (hplaces : q.Places route ⟨key, none, []⟩) : g.Served p q (g.removeKey q key) := by
  have halike := g.alike_correlationOf q
  have hnames : q.Names g.supply.ids ⟨key, none, []⟩ (g.correlationOf q).1 :=
    g.names_correlationOf q List.not_mem_nil
  have hid := correlationOf_ne_empty hfit q
  simp only [removeKey, hp]
  generalize g.correlationOf q = named at halike hnames hid
  obtain ⟨id, g'⟩ := named
  have hmeans : Order.Means ⟨key, none, []⟩ route.decoding ⟨Utf8.encode key, none, [], id⟩ := by
    rw [hdecoding]
    exact ⟨.nil, ⟨rfl, by simp, fun _ => rfl⟩, fun _ => hid⟩
  exact served_of_publish halike hplaces hmeans hnames

/-- A body is refused, or it is handed over. -/
theorem withBody_cases {α : Type} (g : Gateway) (q : Request) (read : Bytes → Except Json.Fault α)
    (handle : α → Response × Gateway) :
    (∃ status, g.withBody q read handle = (.refusal status, g)) ∨
      ∃ a, read q.body = .ok a ∧ q.body.length ≤ bodyLimit ∧
        (((q.header? "content-type").bind visible?).bind MediaType.ofText?).any MediaType.isJson ∧
        g.withBody q read handle = handle a := by
  rw [withBody]
  split
  · exact .inl ⟨_, rfl⟩
  · next htype =>
    split
    · exact .inl ⟨_, rfl⟩
    · next hlength =>
      split
      · exact .inl ⟨_, rfl⟩
      · exact .inl ⟨_, rfl⟩
      · next a hread =>
        exact .inr ⟨a, hread, Nat.not_lt.mp hlength, not_not.mp htype, rfl⟩

theorem alike_lookUp (g : Gateway) (q : Request) (key : Bytes) (render : Bytes → String) :
    g.Alike (g.lookUp q key render).2 := by
  rw [lookUp]
  split
  · exact .refl g
  · have halike := g.alike_correlationOf q
    generalize g.correlationOf q = named at halike
    obtain ⟨id, g'⟩ := named
    dsimp only
    split <;> exact halike

theorem ledger_of_readLedger {store : StateStore} {n : Nat} {rows : List Position}
    (h : g.readLedger store n = .ok rows) : store.ledger g.files = .ok rows := by
  rw [readLedger] at h
  split at h
  · split at h
    · cases h
    · exact h
  · exact h

/-- What is asked about health is answered from the store and its latch. -/
theorem readiness_served (hread : ∀ route o, ¬q.Places route o) :
    g.Served p q g.readiness := by
  have hunchanged (response : Response) : g.Served p q (response, g) :=
    .unchanged (.refl g) fun route o hplaces => absurd hplaces (hread route o)
  rw [readiness]
  split
  · exact hunchanged _
  · next store hstore =>
    split
    · exact hunchanged _
    · next hlatch =>
      split
      · exact hunchanged _
      · next rows hrows =>
        split
        · next latch hevaluate =>
          have hready : (store.ready g.files).2 = { store with latch := latch } := by
            rw [StateStore.ready, if_neg hlatch, ledger_of_readLedger hrows]
            simp only [hevaluate]
          refine .asked hstore ⟨rfl, rfl, ?_, rfl, rfl⟩ hread
          rw [hready]
        · exact hunchanged _

theorem alike_retrieveBase64 (g : Gateway) (q : Request) (key : String) :
    g.Alike (g.retrieveBase64 q key).2 := by
  rw [retrieveBase64]
  split
  · exact g.alike_correlationOf q
  · exact g.alike_lookUp q _ _

/-- A route of writing that is asked for in order, but places no order, refuses the body. -/
theorem handle_served_of_reads {route : Route} (hpath : Route.ofPath? q.route = some route)
    (hmethod : q.method ∈ route.methods) (hread : ∀ route o, ¬q.Places route o) :
    g.Served p q (g.handle q route) := by
  have hunchanged {answer : Response × Gateway} (h : g.Alike answer.2) : g.Served p q answer :=
    .unchanged h fun route o hplaces => absurd hplaces (hread route o)
  have hbody {α : Type} (read : Bytes → Except Json.Fault α) (handle : α → Response × Gateway)
      (hhandle : ∀ a, read q.body = .ok a → q.body.length ≤ bodyLimit →
        (((q.header? "content-type").bind visible?).bind MediaType.ofText?).any MediaType.isJson →
        g.Served p q (handle a)) : g.Served p q (g.withBody q read handle) := by
    rcases g.withBody_cases q read handle with ⟨status, hrefused⟩ | ⟨a, ha, hlength, htype, heq⟩
    · rw [hrefused]
      exact hunchanged (.refl g)
    · rw [heq]
      exact hhandle a ha hlength htype
  have hplaced {o : Order} (hpost : route.methods = ["POST"]) (hlength : q.body.length ≤ bodyLimit)
      (htype : (((q.header? "content-type").bind visible?).bind MediaType.ofText?).any
        MediaType.isJson) (horder : route.order? q.body = some o) : False := by
    rw [hpost, List.mem_singleton] at hmethod
    exact hread route o ⟨hpath, hmethod, htype, hlength, horder⟩
  cases route with
  | health => exact hunchanged (.refl g)
  | live => exact hunchanged (.refl g)
  | ready => exact readiness_served hread
  | store =>
    refine hbody _ _ fun s hs hlength htype => (hplaced (o := s.order) rfl hlength htype ?_).elim
    rw [Route.order?, hs]
    rfl
  | storeBase64 =>
    refine hbody _ _ fun s hs hlength htype => (hplaced (o := s.order) rfl hlength htype ?_).elim
    rw [Route.order?, hs]
    rfl
  | remove =>
    refine hbody _ _ fun key hkey hlength htype =>
      (hplaced (o := ⟨key, none, []⟩) rfl hlength htype ?_).elim
    rw [Route.order?, hkey]
    rfl
  | retrieve => exact hbody _ _ fun key _ _ _ => hunchanged (g.alike_lookUp q _ _)
  | retrieveBase64 => exact hbody _ _ fun key _ _ _ => hunchanged (g.alike_retrieveBase64 q key)

/-- Whoever places no order does not touch the log. -/
theorem serve_served_of_reads (hread : ∀ route o, ¬q.Places route o) :
    g.Served p q (g.serve q) := by
  have hrefused {response : Response} {g' : Gateway} (h : g.Alike g') :
      g.Served p q (response, g') :=
    .unchanged h fun route o hplaces => absurd hplaces (hread route o)
  have hanswer {answer : Response × Gateway} (h : g.Served p q answer) (response : Response) :
      g.Served p q (response, answer.2) := by
    cases h with
    | unchanged h _ => exact hrefused h
    | asked hstore h _ => exact .asked hstore h hread
    | published hplaces => exact absurd hplaces (hread _ _)
  rw [serve]
  split
  · exact hrefused (.refl g)
  · next route hpath =>
    split
    · exact hrefused (.refl g)
    · split
      · next hmethod =>
        exact hanswer (handle_served_of_reads hpath hmethod hread) _
      · exact hrefused (.refl g)

/-- Every answer leaves the log alone or publishes the message of an order. -/
theorem serve_served (hfit : g.supply.Fit) (hp : g.publisher = some p) :
    g.Served p q (g.serve q) := by
  by_cases hplaces : ∃ route o, q.Places route o
  · obtain ⟨route, o, hplaces⟩ := hplaces
    have horder := hplaces.order
    rw [serve_of_places hp hplaces]
    cases route with
    | store =>
      obtain ⟨s, hread, rfl⟩ := toOption_map_eq_some horder
      rw [handle, withBody_of_reads hread hplaces.type hplaces.length]
      exact storeWith_served hfit hp hplaces
    | storeBase64 =>
      obtain ⟨s, hread, rfl⟩ := toOption_map_eq_some horder
      rw [handle, withBody_of_reads hread hplaces.type hplaces.length]
      exact storeWith_served hfit hp hplaces
    | remove =>
      obtain ⟨key, hread, rfl⟩ := toOption_map_eq_some horder
      rw [handle, withBody_of_reads hread hplaces.type hplaces.length]
      exact removeKey_served hfit hp rfl hplaces
    | _ => cases horder
  · exact serve_served_of_reads fun route o h => hplaces ⟨route, o, h⟩

end Gateway

/-! ## The id on the record -/

namespace Order

variable {o : Order} {decode : TextDecoding} {m : Message} {q : Request} {ids : Nat → String}

/-- An id that no header names is added in a header behind the others. -/
theorem Means.last_of_unnamed (h : o.Means decode m)
    (hnone : Correlation.headerName ∉ o.headers.map Prod.fst) :
    (m.allHeaders.filter (·.1 == Correlation.headerName)).getLast? =
      some (Correlation.headerName, Utf8.encode m.correlation) := by
  rw [← h.names] at hnone
  have hother : ¬m.headers.any (·.1 == Correlation.headerName) := by
    rw [List.any_eq_true]
    rintro ⟨header, hmem, hname⟩
    exact hnone (List.mem_map.mpr ⟨header, hmem, beq_iff_eq.mp hname⟩)
  rw [Message.allHeaders, if_neg hother, List.filter_append]
  exact List.getLast?_concat

/-- A header whose name does not repeat is the only one of that name. -/
theorem filter_eq_singleton {headers : List Header} {header : Header}
    (hnodup : (headers.map Prod.fst).Nodup) (hmem : header ∈ headers) :
    headers.filter (·.1 == header.1) = [header] := by
  obtain ⟨before, after, rfl⟩ := List.append_of_mem hmem
  rw [List.map_append, List.map_cons, List.nodup_append] at hnodup
  obtain ⟨-, hafter, hapart⟩ := hnodup
  have hbefore : before.filter (·.1 == header.1) = [] := by
    rw [List.filter_eq_nil_iff]
    intro other hother hname
    exact hapart _ (List.mem_map_of_mem hother) _ List.mem_cons_self (beq_iff_eq.mp hname)
  have hafter' : after.filter (·.1 == header.1) = [] := by
    rw [List.filter_eq_nil_iff]
    intro other hother hname
    refine (List.nodup_cons.mp hafter).1 ?_
    rw [← beq_iff_eq.mp hname]
    exact List.mem_map_of_mem hother
  rw [List.filter_append, hbefore, List.filter_cons_of_pos (by simp), hafter', List.nil_append]

/-- An id that is stored as plain text is on the record as it was named, by a header or else. -/
theorem Means.last_of_plain (h : o.Means plainDecoding m) (hnodup : (o.headers.map Prod.fst).Nodup)
    (hnames : q.Names ids o m.correlation) :
    (m.allHeaders.filter (·.1 == Correlation.headerName)).getLast? =
      some (Correlation.headerName, Utf8.encode m.correlation) := by
  generalize hid : m.correlation = id at hnames
  cases hnames with
  | body hbody =>
    have hmem : (Correlation.headerName, Utf8.encode id) ∈ m.headers := by
      by_contra hnone
      refine (forall_mem_iff_of_forall₂ h.headers (P := (· ≠ (Correlation.headerName, id)))
        (Q := (· ≠ (Correlation.headerName, Utf8.encode id))) ?_).mpr
        (fun header hheader heq => hnone (heq ▸ hheader)) _ hbody rfl
      rintro ⟨name, text⟩ ⟨name', bytes⟩ ⟨hname, hbytes⟩
      obtain rfl : name' = name := hname
      obtain rfl : Utf8.encode text = bytes := Except.ok.inj hbytes
      simp only [ne_eq, Prod.mk.injEq]
      exact not_congr (and_congr_right' ⟨congrArg Utf8.encode, Utf8.encode_inj⟩)
    have hnamed : m.headers.any (·.1 == Correlation.headerName) :=
      List.any_eq_true.mpr ⟨_, hmem, beq_self_eq_true _⟩
    rw [← h.names] at hnodup
    rw [Message.allHeaders, if_pos hnamed, filter_eq_singleton hnodup hmem]
    rfl
  | header hbody =>
    rw [← hid]
    exact h.last_of_unnamed hbody
  | supplied serial hbody =>
    rw [← hid]
    exact h.last_of_unnamed hbody

end Order

/-- The headers of an order have different names. -/
theorem Request.Places.nodup_headers {q : Request} {route : Route} {o : Order}
    (h : q.Places route o) : (o.headers.map Prod.fst).Nodup := by
  have hstore {s : Gateway.StoreRequest} (hread : Gateway.readStore q.body = .ok s) :
      (s.headers.map Prod.fst).Nodup := by
    rw [Gateway.readStore] at hread
    split at hread
    · cases hread
    · next key value headers hvalues =>
      obtain rfl := Except.ok.inj hread
      have hdistinct := Json.distinct_wholeRecord hvalues (.texts headers) (by simp)
      cases headers with
      | none => exact List.nodup_nil
      | some members => exact hdistinct
    · cases hread
  have horder := h.order
  cases route with
  | store =>
    obtain ⟨s, hread, rfl⟩ := Gateway.toOption_map_eq_some horder
    exact hstore hread
  | storeBase64 =>
    obtain ⟨s, hread, rfl⟩ := Gateway.toOption_map_eq_some horder
    exact hstore hread
  | remove =>
    obtain ⟨key, hread, rfl⟩ := Gateway.toOption_map_eq_some horder
    exact List.nodup_nil
  | _ => cases horder

/-! ## Reading -/

/-- A request whose body names a key, on a route of reading. -/
structure Request.Asks (q : Request) (route : Route) (key : String) : Prop where
  path : Route.ofPath? q.route = some route
  method : q.method = "POST"
  type : (((q.header? "content-type").bind visible?).bind MediaType.ofText?).any MediaType.isJson
  length : q.body.length ≤ Gateway.bodyLimit
  key : Gateway.readKey q.body = .ok key

/-- The route that reads what another one stores. -/
def Route.reading : Route → Route
  | store => retrieve
  | storeBase64 => retrieveBase64
  | route => route

/-- A reply that shows a text, and an id if that can be carried. -/
structure Response.Shows (reply : Response) (text id : String) : Prop where
  status : reply.status = 200
  body : reply.body = some text
  correlation : reply.correlation = carried id

namespace Gateway

variable {g : Gateway} {q : Request} {store : StateStore} {value : Bytes} {id : String}

theorem lookUp_of_get? (hstore : g.store = some store) {key : Bytes}
    (hget : store.get? g.files key = .ok (some ⟨value, id⟩)) (render : Bytes → String) :
    (g.lookUp q key render).1 = .correlated id 200 (render value) := by
  have hfiles := (g.alike_correlationOf q).files
  rw [lookUp]
  generalize g.correlationOf q = named at hfiles
  obtain ⟨own, g'⟩ := named
  dsimp only at hfiles
  simp only [hstore, hfiles, hget]

theorem serve_of_asks {route : Route} {key : String} (hasks : q.Asks route key)
    (hroute : g.mounts route) (hmethods : route.methods = ["POST"]) :
    (g.serve q).1 = (g.handle q route).1 := by
  have hmethod : q.method ∈ route.methods := by
    rw [hmethods, hasks.method]
    exact List.mem_singleton_self _
  have hhead : q.method ≠ "HEAD" := by
    rw [hasks.method]
    decide
  simp only [serve, hasks.path, hroute, hmethod, hhead, not_true_eq_false, if_false, if_true]

/-- What the store has under a key is shown as it was written on the route that stores it. -/
theorem serve_shows (hstore : g.store = some store) {route : Route} {key text : String}
    {bytes : Bytes} (hstores : route = .store ∨ route = .storeBase64)
    (hkey : route.decoding key = .ok bytes) (htext : route.decoding text = .ok value)
    (hget : store.get? g.files bytes = .ok (some ⟨value, id⟩))
    (hasks : q.Asks route.reading key) : (g.serve q).1.Shows text id := by
  rcases hstores with rfl | rfl
  · obtain rfl := Except.ok.inj hkey
    obtain rfl := Except.ok.inj htext
    rw [serve_of_asks hasks (by simp [mounts, Route.reading, Route.isWrite, hstore]) rfl,
      Route.reading, handle, withBody_of_reads hasks.key hasks.type hasks.length,
      lookUp_of_get? hstore hget]
    exact ⟨rfl, congrArg some (Utf8.lossy_encode text), rfl⟩
  · have hbytes : Base64.decodeText key = .ok bytes := hkey
    rw [serve_of_asks hasks (by simp [mounts, Route.reading, Route.isWrite, hstore]) rfl,
      Route.reading, handle, withBody_of_reads hasks.key hasks.type hasks.length, retrieveBase64]
    simp only [hbytes, lookUp_of_get? hstore hget]
    exact ⟨rfl, congrArg some (Base64.decodeText_eq_ok_iff.mp htext).symm, rfl⟩

end Gateway

end KeyedLog.Http
