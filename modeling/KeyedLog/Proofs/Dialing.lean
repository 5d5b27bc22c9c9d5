import KeyedLog.Probe
import KeyedLog.Proofs.Text.FileName
import KeyedLog.Registry
import Mathlib

/-!
# Whom a URL leads to

The client of the schema registry and the health probe both take what they dial from the authority
of a URL. The probe always dials the host and the port. The client does so where the URL names no
port, and where the authority is nothing but its host and its port; else it dials all that is
written before the port as if it were the host.
-/
namespace KeyedLog

/-- What may fail in two steps succeeds just if both of them do. -/
theorem bind_eq_ok_iff {ε α β : Type} {x : Except ε α} {f : α → Except ε β} {b : β} :
    x >>= f = .ok b ↔ ∃ a, x = .ok a ∧ f a = .ok b := by
  cases x with
  | error e => simp [bind, Except.bind]
  | ok a => simp [bind, Except.bind]

/-! ## Ports -/

theorem Decimal.digit_of_readPlain? {cs : List Char} {n : Nat} (h : readPlain? cs = some n) :
    ∀ c ∈ cs, (digit? c).isSome := by
  have hfold : ∀ (cs : List Char) (value n : Nat),
      cs.foldlM (fun value c => (digit? c).map (10 * value + ·)) value = some n →
        ∀ c ∈ cs, (digit? c).isSome := by
    intro cs
    induction cs with
    | nil => nofun
    | cons d rest ih =>
      intro value n h c hc
      rw [List.foldlM_cons] at h
      cases hd : digit? d with
      | none => simp [hd] at h
      | some k =>
        cases hc with
        | head => rw [hd]; rfl
        | tail _ hc =>
          simp only [hd, Option.map_some, Option.bind_eq_bind, Option.bind_some] at h
          exact ih _ n h c hc
  cases cs with
  | nil => nofun
  | cons c rest => exact hfold (c :: rest) 0 n h

namespace Authority

variable {a : Authority} {n : Nat}

theorem digit_of_readPort? {cs : List Char} (h : readPort? cs = some n) :
    ∀ c ∈ cs, (Decimal.digit? c).isSome := by
  rw [readPort?] at h
  split at h
  · cases h
  · exact Decimal.digit_of_readPlain? (Option.filter_eq_some_iff.mp h).1

theorem not_mem_of_readPort? {cs : List Char} (h : readPort? cs = some n) {c : Char}
    (hc : Decimal.digit? c = none) : c ∉ cs := by
  intro hmem
  have hdigit := digit_of_readPort? h c hmem
  rw [hc] at hdigit
  cases hdigit

/-- The colon before a port is the last one. -/
theorem splitLast?_of_readPort? {digits : List Char} (before : List Char)
    (h : readPort? digits = some n) :
    Text.splitLast? ':' (before ++ ':' :: digits) = some (before, digits) :=
  Text.splitLast?_append ':' before (not_mem_of_readPort? h (by decide))

/-- An authority with a port ends in a colon and the digits of the port. -/
theorem port?_eq_some_iff : a.port? = some n ↔
    ∃ before digits, a.chars = before ++ ':' :: digits ∧ readPort? digits = some n := by
  constructor
  · intro h
    rw [port?] at h
    split at h
    · next before digits hsplit => exact ⟨before, digits, Text.eq_of_splitLast? hsplit, h⟩
    · cases h
  · rintro ⟨before, digits, hchars, hport⟩
    rw [port?, hchars, splitLast?_of_readPort? before hport]
    exact hport

/-! ## Hosts -/

theorem withoutUser_of_not_mem (h : '@' ∉ a.chars) : a.withoutUser = a.chars := by
  rw [withoutUser]
  split
  · next hsplit =>
    rw [Text.eq_of_splitLast? hsplit] at h
    simp at h
  · rfl

theorem not_mem_withoutUser (a : Authority) : '@' ∉ a.withoutUser := by
  rw [withoutUser]
  split
  · next hsplit => exact Text.not_mem_of_splitLast? hsplit
  · next hsplit => exact Text.splitLast?_eq_none_iff.mp hsplit

theorem mem_host {c : Char} (h : c ∈ a.host) : c ∈ a.withoutUser ∨ c = ']' := by
  rw [host] at h
  split at h
  · next rest heq =>
    rw [heq, List.mem_cons]
    have hinner : rest.takeWhile (fun c => decide (c ≠ ']')) ⊆ rest :=
      (List.takeWhile_sublist _).subset
    rw [List.span_eq_takeWhile_dropWhile] at h
    generalize rest.takeWhile (fun c => decide (c ≠ ']')) = inner at h hinner
    cases hclosing : rest.dropWhile (fun c => decide (c ≠ ']')) with
    | nil =>
      simp only [hclosing, List.mem_cons] at h
      exact .inl (h.imp_right fun h => hinner h)
    | cons d more =>
      simp only [hclosing, List.mem_append, List.mem_cons, List.not_mem_nil, or_false] at h
      rcases h with (h | h) | h
      · exact .inl (.inl h)
      · exact .inl (.inr (hinner h))
      · exact .inr h
  · exact .inl ((List.takeWhile_sublist _).subset h)

/-- The user information does not belong to the host. -/
theorem not_mem_host (a : Authority) : '@' ∉ a.host := by
  intro h
  rcases mem_host h with h | h
  · exact a.not_mem_withoutUser h
  · cases h

theorem host_of_no_bracket (hbracket : '[' ∉ a.chars) (huser : '@' ∉ a.chars) :
    a.host = a.chars.takeWhile (· ≠ ':') := by
  rw [host, withoutUser_of_not_mem huser]
  split
  · next heq =>
    rw [heq] at hbracket
    simp at hbracket
  · rfl

/-- An authority is one that a URL can have. -/
def Accepted (a : Authority) : Prop :=
  ∃ s, a.chars.foldlM Uri.Seen.next ({} : Uri.Seen) = .ok s ∧ s.isComplete

/-- While no bracket is open and none opens, a character moves only the number of colons. -/
theorem seen_next {c : Char} {s s' : Uri.Seen} (huser : c ≠ '@') (hclosed : s.opened = s.closed)
    (hbracket : s.opened = false → c ≠ '[') (h : s.next c = .ok s') :
    s'.opened = s.opened ∧ s'.closed = s.closed ∧
      s'.colons = s.colons + if c = ':' then 1 else 0 := by
  rw [Uri.Seen.next] at h
  by_cases hcolon : c = ':'
  · simp only [hcolon, if_true] at h ⊢
    split at h
    · cases h
    · obtain rfl := Except.ok.inj h
      exact ⟨rfl, rfl, rfl⟩
  · have hopening : ¬(c = '[' ∧ ¬(s.percent ∨ s.opened)) := by
      rintro ⟨hc, hfree⟩
      exact hbracket (by simpa using fun h => hfree (.inr h)) hc
    have hclosing : ¬s.opened ∨ s.closed := by
      rw [← hclosed]
      exact (Bool.eq_false_or_eq_true s.opened).symm.imp_left fun h => by simp [h]
    simp only [hcolon, huser, hclosing, if_false, if_true] at h ⊢
    split at h
    · next hc =>
      rw [if_pos (not_not.mp fun hfree => hopening ⟨hc, hfree⟩)] at h
      cases h
    · split at h
      · cases h
      · split at h
        · obtain rfl := Except.ok.inj h
          exact ⟨rfl, rfl, rfl⟩
        · split at h
          · obtain rfl := Except.ok.inj h
            exact ⟨rfl, rfl, rfl⟩
          · cases h

/-- So without user information all colons outside of brackets are counted. -/
theorem colons_of_seen {cs : List Char} {s s' : Uri.Seen} (huser : '@' ∉ cs)
    (hclosed : s.opened = s.closed) (hbracket : s.opened = false → '[' ∉ cs)
    (h : cs.foldlM Uri.Seen.next s = .ok s') : s'.colons = s.colons + cs.count ':' := by
  induction cs generalizing s with
  | nil =>
    cases h
    rfl
  | cons c rest ih =>
    rw [List.mem_cons, not_or] at huser
    simp only [List.mem_cons, not_or] at hbracket
    obtain ⟨t, hnext, hrest⟩ := bind_eq_ok_iff.mp (List.foldlM_cons.symm.trans h)
    obtain ⟨hopened', hclosed', hcolons⟩ :=
      seen_next (Ne.symm huser.1) hclosed (fun hopen => Ne.symm (hbracket hopen).1) hnext
    rw [ih huser.2 (by rw [hopened', hclosed', hclosed])
      (fun hopen => (hbracket (hopened' ▸ hopen)).2) hrest, hcolons, List.count_cons]
    simp only [beq_iff_eq]
    omega

/-- Inside brackets they stay open. -/
theorem open_next {c : Char} {s s' : Uri.Seen} (hbracket : c ≠ ']') (hopened : s.opened = true)
    (h : s.next c = .ok s') : s'.opened = true ∧ s'.closed = s.closed := by
  simp only [Uri.Seen.next, hbracket, hopened, or_true, if_true, if_false] at h
  split at h
  · split at h
    · cases h
    · obtain rfl := Except.ok.inj h
      exact ⟨rfl, rfl⟩
  · split at h
    · cases h
    · split at h
      · obtain rfl := Except.ok.inj h
        exact ⟨rfl, rfl⟩
      · split at h
        · obtain rfl := Except.ok.inj h
          exact ⟨rfl, rfl⟩
        · split at h
          · obtain rfl := Except.ok.inj h
            exact ⟨rfl, rfl⟩
          · cases h

theorem open_of_seen {cs : List Char} {s s' : Uri.Seen} (hbracket : ']' ∉ cs)
    (hopened : s.opened = true) (h : cs.foldlM Uri.Seen.next s = .ok s') :
    s'.opened = true ∧ s'.closed = s.closed := by
  induction cs generalizing s with
  | nil =>
    cases h
    exact ⟨hopened, rfl⟩
  | cons c rest ih =>
    rw [List.mem_cons, not_or] at hbracket
    obtain ⟨t, hnext, hrest⟩ := bind_eq_ok_iff.mp (List.foldlM_cons.symm.trans h)
    obtain ⟨hopened', hclosed'⟩ := open_next (Ne.symm hbracket.1) hopened hnext
    obtain ⟨hopen, hclosed⟩ := ih hbracket.2 hopened' hrest
    exact ⟨hopen, hclosed.trans hclosed'⟩

theorem colons_of_isComplete {s : Uri.Seen} (h : s.isComplete) : s.colons ≤ 1 := by
  simp only [Uri.Seen.isComplete, Bool.and_eq_true, decide_eq_true_eq] at h
  exact h.1.1.2

/-- An authority is nothing but a host and a port, if it has a port at all. -/
def Bare (a : Authority) : Prop :=
  ∀ n, a.port? = some n → ∃ digits, a.chars = a.host ++ ':' :: digits ∧ readPort? digits = some n

theorem bare_of_no_port (hport : a.port? = none) : a.Bare := by
  intro n hn
  rw [hport] at hn
  cases hn

/-- Where a port is cut off at a colon behind the host, the authority is bare. -/
theorem bare_iff_of_port {before digits : List Char} (hchars : a.chars = before ++ ':' :: digits)
    (hdigits : readPort? digits = some n) : a.Bare ↔ before = a.host := by
  constructor
  · intro hbare
    obtain ⟨digits', hchars', hdigits'⟩ :=
      hbare n (port?_eq_some_iff.mpr ⟨before, digits, hchars, hdigits⟩)
    have hparts := splitLast?_of_readPort? a.host hdigits'
    rw [← hchars', hchars, splitLast?_of_readPort? before hdigits, Option.some.injEq,
      Prod.mk.injEq] at hparts
    exact hparts.1
  · rintro rfl m hm
    rw [port?_eq_some_iff.mpr ⟨a.host, digits, hchars, hdigits⟩, Option.some.injEq] at hm
    exact ⟨digits, hchars, hm ▸ hdigits⟩

/-- User information before a host with a port is one thing more. -/
theorem not_bare_of_user (huser : '@' ∈ a.chars) (hport : a.port? = some n) : ¬a.Bare := by
  intro h
  obtain ⟨digits, hchars, hdigits⟩ := h n hport
  rw [hchars, List.mem_append, List.mem_cons] at huser
  rcases huser with huser | huser | huser
  · exact a.not_mem_host huser
  · cases huser
  · exact not_mem_of_readPort? hdigits (by decide) huser

/-- A name with a port is all there is without user information. -/
theorem bare_of_name (haccepted : a.Accepted) (huser : '@' ∉ a.chars) (hbracket : '[' ∉ a.chars) :
    a.Bare := by
  intro n hport
  obtain ⟨before, digits, hchars, hdigits⟩ := port?_eq_some_iff.mp hport
  refine (bare_iff_of_port hchars hdigits).mpr ?_ n hport
  obtain ⟨s, hseen, hcomplete⟩ := haccepted
  have hcolons : s.colons = a.chars.count ':' :=
    (colons_of_seen huser rfl (fun _ => hbracket) hseen).trans (Nat.zero_add _)
  have hone := colons_of_isComplete hcomplete
  have hbefore : ':' ∉ before := by
    rw [hcolons, hchars, List.count_append, List.count_cons_self] at hone
    rw [← List.count_eq_zero]
    omega
  rw [host_of_no_bracket hbracket huser, hchars, List.takeWhile_append_of_pos,
    List.takeWhile_cons_of_neg (by decide), List.append_nil]
  intro c hc
  rw [decide_eq_true_iff]
  rintro rfl
  exact hbefore hc

/-- Behind a host in brackets there is one colon at most. -/
theorem colons_behind_brackets {inner tail : List Char} (haccepted : a.Accepted)
    (hchars : a.chars = '[' :: inner ++ ']' :: tail) (hinner : ']' ∉ inner)
    (huser : '@' ∉ a.chars) : tail.count ':' ≤ 1 := by
  obtain ⟨s, hseen, hcomplete⟩ := haccepted
  have hfirst : ({} : Uri.Seen).next '[' = .ok { opened := true } := by decide
  rw [hchars, List.cons_append, List.foldlM_cons, hfirst, bind_eq_ok_iff] at hseen
  obtain ⟨first, hopen, hseen⟩ := hseen
  obtain rfl := Except.ok.inj hopen
  rw [List.foldlM_append, bind_eq_ok_iff] at hseen
  obtain ⟨t, hbehind, hseen⟩ := hseen
  obtain ⟨hopened, hclosed⟩ := open_of_seen hinner rfl hbehind
  have hclose : t.next ']' = .ok
      { t with closed := true, colons := 0, percent := false, endsUser := false } := by
    simp [Uri.Seen.next, hopened, hclosed]
  rw [List.foldlM_cons, hclose, bind_eq_ok_iff] at hseen
  obtain ⟨closed, hshut, hseen⟩ := hseen
  obtain rfl := Except.ok.inj hshut
  have htail : '@' ∉ tail := fun h => huser (by simp [hchars, h])
  have hcolons := colons_of_seen htail hopened (fun h => by simp [hopened] at h) hseen
  have hone := colons_of_isComplete hcomplete
  simp only at hcolons
  omega

theorem host_of_brackets {inner tail : List Char} (hchars : a.chars = '[' :: inner ++ ']' :: tail)
    (hinner : ']' ∉ inner) (huser : '@' ∉ a.chars) : a.host = '[' :: inner ++ [']'] := by
  have hspan : (inner ++ ']' :: tail).span (fun c => decide (c ≠ ']')) = (inner, ']' :: tail) := by
    have hall : ∀ c ∈ inner, decide (c ≠ ']') = true := by
      intro c hc
      rw [decide_eq_true_iff]
      rintro rfl
      exact hinner hc
    rw [List.span_eq_takeWhile_dropWhile, List.takeWhile_append_of_pos hall,
      List.dropWhile_append_of_pos hall, List.takeWhile_cons_of_neg (by decide),
      List.dropWhile_cons_of_neg (by decide), List.append_nil]
  rw [host, withoutUser_of_not_mem huser, hchars, List.cons_append]
  simp only [hspan]

/-- An address in brackets with a port directly behind it is all there is. -/
theorem bare_of_brackets {inner tail : List Char} (haccepted : a.Accepted)
    (hchars : a.chars = '[' :: inner ++ ']' :: tail) (hinner : ']' ∉ inner)
    (huser : '@' ∉ a.chars) (htail : ∀ c ∈ tail.head?, c = ':') : a.Bare := by
  intro n hport
  obtain ⟨before, digits, hsplit, hdigits⟩ := port?_eq_some_iff.mp hport
  refine (bare_iff_of_port hsplit hdigits).mpr ?_ n hport
  rw [host_of_brackets hchars hinner huser]
  cases tail with
  | nil =>
    -- The digits of a port would end in the bracket.
    have hlast : a.chars.getLast? = some ']' := by rw [hchars, List.getLast?_concat]
    rw [hsplit, List.getLast?_append, List.getLast?_cons, Option.some_or] at hlast
    have hmem : ']' ∈ ':' :: digits := List.mem_of_getLast? (List.getLast?_cons.trans hlast)
    cases hmem with
    | tail _ hmem => exact absurd hmem (not_mem_of_readPort? hdigits (by decide))
  | cons c rest =>
    obtain rfl := htail c rfl
    have hone := colons_behind_brackets haccepted hchars hinner huser
    have hrest : ':' ∉ rest := by
      rw [List.count_cons_self] at hone
      rw [← List.count_eq_zero]
      omega
    have hchars' : a.chars = ('[' :: inner ++ [']']) ++ ':' :: rest := by simp [hchars]
    have hparts := Text.splitLast?_append ':' ('[' :: inner ++ [']']) hrest
    rw [← hchars', hsplit, splitLast?_of_readPort? before hdigits, Option.some.injEq,
      Prod.mk.injEq] at hparts
    exact hparts.1

end Authority

/-! ## URLs -/

namespace Uri

theorem accepted_of_readAuthority {cs rest : List Char} {a : Authority}
    (h : readAuthority cs = .ok (a, rest)) : a.Accepted := by
  simp only [readAuthority, List.span_eq_takeWhile_dropWhile] at h
  split at h
  · cases h
  · next s hseen =>
    split at h
    · next hcomplete =>
      obtain ⟨rfl, -⟩ := Prod.mk.inj (Except.ok.inj h)
      exact ⟨s, hseen, hcomplete⟩
    · cases h

theorem accepted_of_readRest {scheme : Option String} {cs : List Char} {name : String}
    {a : Authority} {target : Target} (h : readRest scheme cs = .ok (.absolute name a target)) :
    a.Accepted := by
  rw [readRest] at h
  cases hread : readAuthority cs with
  | error e => simp only [hread, reduceCtorEq] at h
  | ok parts =>
    obtain ⟨a', rest⟩ := parts
    have haccepted : a'.Accepted := accepted_of_readAuthority hread
    cases scheme with
    | none =>
      simp only [hread] at h
      split at h <;> cases h
    | some scheme =>
      simp only [hread] at h
      split at h
      · cases h
      · cases htarget : readTarget rest with
        | error e => simp only [htarget, Except.map, reduceCtorEq] at h
        | ok t =>
          simp only [htarget, Except.map, Except.ok.injEq, absolute.injEq] at h
          exact h.2.1 ▸ haccepted

theorem accepted_of_ofText {url name : String} {a : Authority} {target : Target}
    (h : ofText url = .ok (.absolute name a target)) : a.Accepted := by
  rw [ofText] at h
  split at h
  · cases h
  · generalize url.toList = cs at h
    unfold readChars at h
    split at h
    · cases h
    · cases h
    · next rest =>
      cases htarget : readTarget ('/' :: rest) with
      | error e => simp only [htarget, Except.map, reduceCtorEq] at h
      | ok t => simp only [htarget, Except.map, Except.ok.injEq, reduceCtorEq] at h
    · split at h
      · cases h
      · exact accepted_of_readRest h
    · split at h
      · cases h
      · exact accepted_of_readRest h

end Uri

/-- What a registry's URL is: the probe takes it as well. -/
theorem Registry.ofUrl_eq_ok {url : String} {timeout : Nat} {r : Registry}
    (h : ofUrl url timeout = .ok r) : ∃ a target,
      Uri.ofText url = .ok (.absolute "http" a target) ∧
        r = ⟨addressOf a, subjectsPathOf target.fullPath, timeout⟩ ∧
        Probe.ofUrl url = .ok ⟨Probe.endpointOf a, a.text, target.text⟩ := by
  rw [ofUrl] at h
  split at h
  · cases h
  · next scheme a target huri =>
    split at h
    · next hscheme =>
      subst hscheme
      have hprobe : Probe.ofUrl url = .ok ⟨Probe.endpointOf a, a.text, target.text⟩ := by
        rw [Probe.ofUrl, huri]
        rfl
      exact ⟨a, target, huri, (Except.ok.inj h).symm, hprobe⟩
    · cases h
  · cases h

namespace Authority

variable {a : Authority}

theorem addressOf_of_no_port (hport : a.port? = none) :
    Registry.addressOf a = String.ofList (a.host ++ [':', '8', '0']) := by
  simp only [Registry.addressOf, hport, String.ofList_append]

theorem addressOf_of_port {n : Nat} (hport : a.port? = some n) :
    Registry.addressOf a = String.ofList a.chars := by
  simp only [Registry.addressOf, hport, text]

/-- What is dialed without a port. -/
theorem endpoint_of_no_port (hport : a.port? = none) :
    Endpoint.ofText? (Registry.addressOf a) = some (Probe.endpointOf a) := by
  have hdigits : readPort? ['8', '0'] = some 80 := by decide
  rw [addressOf_of_no_port hport, Endpoint.ofText?, String.toList_ofList,
    splitLast?_of_readPort? a.host hdigits]
  simp only [hdigits, Option.map_some, Probe.endpointOf, hport, Option.getD_none]

/-- With a port, all that is before its colon is dialed as the host. -/
theorem endpoint_of_port {before digits : List Char} {n : Nat}
    (hchars : a.chars = before ++ ':' :: digits) (hdigits : readPort? digits = some n) :
    Endpoint.ofText? (Registry.addressOf a) = some ⟨String.ofList before, n⟩ := by
  rw [addressOf_of_port (port?_eq_some_iff.mpr ⟨before, digits, hchars, hdigits⟩),
    Endpoint.ofText?, String.toList_ofList, hchars, splitLast?_of_readPort? before hdigits]
  simp only [hdigits, Option.map_some]

/-- The client dials what the probe would, just if the authority is bare. -/
theorem endpoint_eq_iff :
    Endpoint.ofText? (Registry.addressOf a) = some (Probe.endpointOf a) ↔ a.Bare := by
  cases hport : a.port? with
  | none => exact iff_of_true (endpoint_of_no_port hport) (bare_of_no_port hport)
  | some n =>
    obtain ⟨before, digits, hchars, hdigits⟩ := port?_eq_some_iff.mp hport
    rw [bare_iff_of_port hchars hdigits, endpoint_of_port hchars hdigits, Probe.endpointOf, hport,
      Option.getD_some, Option.some.injEq, Endpoint.mk.injEq, String.ofList_inj]
    exact and_iff_left rfl

end Authority

namespace Registry

/-- For every URL of a registry, the client dials the host and the port, or 80, as the probe does,
just if the authority is bare. It is without a port number, and without user information if the host
is a name, or an address in brackets with nothing behind it but a port. User information before a
host with a port is dialed as a part of the host. -/
theorem dials_host_and_port (url : String) (timeout : Nat) (r : Registry)
    (h : ofUrl url timeout = .ok r) : ∃ a target p,
      Uri.ofText url = .ok (.absolute "http" a target) ∧ Probe.ofUrl url = .ok p ∧
      p.endpoint = ⟨String.ofList a.host, a.port?.getD 80⟩ ∧
      (r.endpoint? = some p.endpoint ↔ a.Bare) ∧
      (a.port? = none → a.Bare) ∧
      ('@' ∉ a.chars → '[' ∉ a.chars → a.Bare) ∧
      (∀ inner tail, a.chars = '[' :: inner ++ ']' :: tail → ']' ∉ inner → '@' ∉ a.chars →
        (∀ c ∈ tail.head?, c = ':') → a.Bare) ∧
      ('@' ∈ a.chars → a.port? ≠ none → ¬a.Bare) ∧
      ∀ before digits n, a.chars = before ++ ':' :: digits →
        Authority.readPort? digits = some n →
          r.endpoint? = some ⟨String.ofList before, n⟩ := by
  obtain ⟨a, target, huri, rfl, hprobe⟩ := ofUrl_eq_ok h
  have haccepted : a.Accepted := Uri.accepted_of_ofText huri
  refine ⟨a, target, _, huri, hprobe, rfl, Authority.endpoint_eq_iff,
    Authority.bare_of_no_port, Authority.bare_of_name haccepted,
    fun _ _ => Authority.bare_of_brackets haccepted, ?_,
    fun _ _ _ => Authority.endpoint_of_port⟩
  intro huser hport
  obtain ⟨n, hn⟩ := Option.ne_none_iff_exists'.mp hport
  exact Authority.not_bare_of_user huser hn

theorem dials_host_and_port_brackets :
    ofUrl "http://[::1]:8081/prefix/" 5000 = .ok ⟨"[::1]:8081", "/prefix/subjects", 5000⟩ ∧
      ∃ p, Probe.ofUrl "http://[::1]:8081/prefix/" = .ok p ∧ p.endpoint = ⟨"[::1]", 8081⟩ ∧
        endpoint? ⟨"[::1]:8081", "/prefix/subjects", 5000⟩ = some p.endpoint := by
  have hurl : ofUrl "http://[::1]:8081/prefix/" 5000 =
      .ok ⟨"[::1]:8081", "/prefix/subjects", 5000⟩ := by cbv
  have huri : Uri.ofText "http://[::1]:8081/prefix/" = .ok (.absolute "http"
      ⟨['[', ':', ':', '1', ']', ':', '8', '0', '8', '1']⟩ ⟨"/prefix/".toList, none⟩) := by cbv
  obtain ⟨a, target, p, ha, hprobe, hendpoint, hdials, -, -, hbrackets, -, -⟩ :=
    dials_host_and_port _ _ _ hurl
  rw [huri, Except.ok.injEq, Uri.absolute.injEq] at ha
  obtain ⟨-, rfl, -⟩ := ha
  have hbare := hbrackets [':', ':', '1'] [':', '8', '0', '8', '1'] rfl (by decide) (by decide)
    (by simp)
  refine ⟨hurl, p, hprobe, ?_, hdials.mpr hbare⟩
  rw [hendpoint]
  cbv

/-- The user information of a URL with a port is dialed as a part of the host. -/
theorem user_dialed :
    ofUrl "http://user@registry:8081" 5000 = .ok ⟨"user@registry:8081", "/subjects", 5000⟩ ∧
      Probe.ofUrl "http://user@registry:8081" =
        .ok ⟨⟨"registry", 8081⟩, "user@registry:8081", "/"⟩ ∧
      endpoint? ⟨"user@registry:8081", "/subjects", 5000⟩ = some ⟨"user@registry", 8081⟩ := by
  refine ⟨?_, ?_, ?_⟩
  all_goals cbv

end Registry

end KeyedLog
