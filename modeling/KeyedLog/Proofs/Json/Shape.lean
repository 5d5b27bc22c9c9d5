import KeyedLog.Json.Shape
import KeyedLog.Proofs.Text.Numeral

/-!
# Distinct names

Where a name repeats in an object of texts, its last text is kept, so the names that are read are
distinct. They are in each value of a record, whether that is written as an object or an array.
-/
namespace KeyedLog.Json

open Decimal (map_eq_ok)

/-- No name comes twice among named texts. -/
def Value.Distinct : Value → Prop
  | .texts (some members) => (members.map Prod.fst).Nodup
  | _ => True

theorem nodup_textMembers {bound : Nat} {isFirst : Bool} {found members : List (String × String)}
    {bytes rest : Bytes} (hfound : (found.map Prod.fst).Nodup)
    (h : textMembers bound isFirst found bytes = .ok (members, rest)) :
    (members.map Prod.fst).Nodup := by
  fun_induction textMembers bound isFirst found bytes with
  | case1 => cases h
  | case2 => cases h
  | case3 =>
    cases h
    exact hfound
  | case4 => cases h
  | case5 => cases h
  | case6 bound isFirst found bytes name rest hname rest' hcolon value rest'' hvalue ih =>
    refine ih ?_ h
    rw [List.map_cons, List.nodup_cons]
    constructor
    · simp
    · exact hfound.sublist (List.filter_sublist.map Prod.fst)

theorem nodup_sortedByName {members : List (String × String)}
    (h : (members.map Prod.fst).Nodup) : ((sortedByName members).map Prod.fst).Nodup :=
  ((List.mergeSort_perm members _).map Prod.fst).nodup_iff.mpr h

theorem distinct_value {shape : Shape} {bytes rest : Bytes} {v : Value}
    (h : value shape bytes = .ok (v, rest)) : v.Distinct := by
  cases shape with
  | text =>
    obtain ⟨read, -, heq⟩ := map_eq_ok h
    obtain ⟨rfl, -⟩ := Prod.mk.inj heq
    trivial
  | integer low high =>
    obtain ⟨read, -, heq⟩ := map_eq_ok h
    obtain ⟨rfl, -⟩ := Prod.mk.inj heq
    trivial
  | optionalTexts =>
    rw [value] at h
    split at h
    · obtain ⟨read, -, heq⟩ := map_eq_ok h
      obtain ⟨rfl, -⟩ := Prod.mk.inj heq
      trivial
    · obtain ⟨⟨members, rest'⟩, hread, heq⟩ := map_eq_ok h
      obtain ⟨rfl, -⟩ := Prod.mk.inj heq
      exact nodup_sortedByName (nodup_textMembers (by simp) hread)
    · cases h

theorem distinct_default? {shape : Shape} {v : Value} (h : shape.default? = some v) :
    v.Distinct := by
  cases shape with
  | optionalTexts =>
    obtain rfl := Option.some.inj h
    trivial
  | _ => cases h

theorem distinct_defaults {members : List Member} {values : List Value}
    (h : members.mapM (·.shape.default?) = some values) : ∀ v ∈ values, v.Distinct := by
  induction members generalizing values with
  | nil =>
    obtain rfl := Option.some.inj h
    exact List.forall_mem_nil _
  | cons m rest ih =>
    simp only [List.mapM_cons, Option.bind_eq_bind, Option.bind_eq_some_iff] at h
    obtain ⟨v, hv, more, hmore, heq⟩ := h
    obtain rfl := Option.some.inj heq
    rw [List.forall_mem_cons]
    exact ⟨distinct_default? hv, ih hmore⟩

theorem distinct_complete {found : List (String × Value)} {members : List Member}
    {values : List Value} (hfound : ∀ v ∈ found, v.2.Distinct)
    (h : complete found members = .ok values) : ∀ v ∈ values, v.Distinct := by
  induction members generalizing values with
  | nil =>
    obtain rfl := Except.ok.inj h
    exact List.forall_mem_nil _
  | cons m rest ih =>
    rw [complete] at h
    split at h
    · next v hlookup =>
      obtain ⟨more, hmore, rfl⟩ := map_eq_ok h
      rw [List.forall_mem_cons]
      refine ⟨?_, ih hmore⟩
      obtain ⟨before, after, rfl, -⟩ := List.lookup_eq_some_iff.mp hlookup
      exact hfound (m.name, v) (List.mem_append_right _ List.mem_cons_self)
    · next v hdefault =>
      obtain ⟨more, hmore, rfl⟩ := map_eq_ok h
      rw [List.forall_mem_cons]
      exact ⟨distinct_default? hdefault, ih hmore⟩
    · cases h

theorem distinct_namedMembers {members : List Member} {bound : Nat} {isFirst : Bool}
    {found : List (String × Value)} {bytes rest : Bytes} {values : List Value}
    (hfound : ∀ v ∈ found, v.2.Distinct)
    (h : namedMembers members bound isFirst found bytes = .ok (values, rest)) :
    ∀ v ∈ values, v.Distinct := by
  induction bound generalizing isFirst found bytes with
  | zero => cases h
  | succ bound ih =>
    rw [namedMembers] at h
    split at h
    · cases h
    · obtain ⟨values', hcomplete, heq⟩ := map_eq_ok h
      obtain ⟨rfl, -⟩ := Prod.mk.inj heq
      exact distinct_complete hfound hcomplete
    · split at h
      · split at h
        · cases h
        · split at h
          · cases h
          · exact ih hfound h
      · split at h
        · cases h
        · split at h
          · cases h
          · split at h
            · cases h
            · next hvalue =>
              refine ih ?_ h
              rw [List.forall_mem_cons]
              exact ⟨distinct_value hvalue, hfound⟩

theorem distinct_orderedMembers {isFirst : Bool} {members : List Member} {bytes rest : Bytes}
    {values : List Value} (h : orderedMembers isFirst members bytes = .ok (values, rest)) :
    ∀ v ∈ values, v.Distinct := by
  induction members generalizing isFirst bytes rest values with
  | nil =>
    rw [orderedMembers] at h
    obtain ⟨read, -, heq⟩ := map_eq_ok h
    obtain ⟨rfl, -⟩ := Prod.mk.inj heq
    exact List.forall_mem_nil _
  | cons m members ih =>
    have helement {bytes : Bytes}
        (h : orderedMembers.element m members bytes = .ok (values, rest)) :
        ∀ v ∈ values, v.Distinct := by
      rw [orderedMembers.element] at h
      split at h
      · cases h
      · next hvalue =>
        split at h
        · cases h
        · next hmore =>
          obtain ⟨rfl, -⟩ := Prod.mk.inj (Except.ok.inj h)
          rw [List.forall_mem_cons]
          exact ⟨distinct_value hvalue, ih hmore⟩
    rw [orderedMembers] at h
    split at h
    · split at h
      · next values' hdefaults =>
        obtain ⟨read, -, heq⟩ := map_eq_ok h
        obtain ⟨rfl, -⟩ := Prod.mk.inj heq
        exact distinct_defaults hdefaults
      · cases h
    · split at h
      · cases h
      · split at h
        · cases h
        · exact helement h
    · split at h
      · exact helement h
      · cases h

/-- The names of each object of texts in a record are distinct. -/
theorem distinct_wholeRecord {members : List Member} {bytes : Bytes} {values : List Value}
    (h : wholeRecord members bytes = .ok values) : ∀ v ∈ values, v.Distinct := by
  rw [wholeRecord] at h
  split at h
  · cases h
  · next values' rest hrecord =>
    split at h
    · obtain rfl := Except.ok.inj h
      rw [record] at hrecord
      split at hrecord
      · exact distinct_namedMembers (by simp) hrecord
      · exact distinct_orderedMembers hrecord
      · cases hrecord
    · cases h

end KeyedLog.Json
