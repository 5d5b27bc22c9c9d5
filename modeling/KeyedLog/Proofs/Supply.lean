import KeyedLog.Http.Message
import KeyedLog.Supply
import Mathlib

/-!
# What can be relied on in a supply

Ids that are supplied can be told from no id, and travel in headers. Blocks may be any, and there
need not be any.
-/
namespace KeyedLog

theorem Hex.visible_ofNat (n : Nat) : ∀ c ∈ ofNat n, 0x20 ≤ c.toNat ∧ c.toNat < 0x7f := by
  have hdigit : ∀ d < 16, 0x20 ≤ (digit (UInt8.ofNat d)).toNat ∧
      (digit (UInt8.ofNat d)).toNat < 0x7f := by decide
  induction n using ofNat.induct with
  | case1 n hn =>
    rw [ofNat, if_pos hn, List.forall_mem_singleton]
    exact hdigit n hn
  | case2 n hn ih =>
    rw [ofNat, if_neg hn, List.forall_mem_append, List.forall_mem_singleton]
    exact ⟨ih, hdigit (n % 16) (Nat.mod_lt _ (by decide))⟩

namespace Http

/-- Visible characters of one byte can be sent in a header. -/
theorem isHeaderValue_ofList {cs : List Char} (h : ∀ c ∈ cs, 0x20 ≤ c.toNat ∧ c.toNat < 0x7f) :
    isHeaderValue (String.ofList cs) := by
  have hchar : ∀ n < 0x7f, 0x20 ≤ n → (String.utf8EncodeChar (Char.ofNat n)).all fun b =>
      (0x20 ≤ b && b ≠ 0x7f) || b == 0x09 := by decide
  rw [isHeaderValue, Utf8.encode, String.toByteArray_ofList, List.utf8Encode,
    List.toList_data_toByteArray, List.all_flatMap, List.all_eq_true]
  intro c hc
  obtain ⟨hlow, hhigh⟩ := h c hc
  rw [← Char.ofNat_toNat c]
  exact hchar c.toNat hhigh hlow

/-- What is read of a header can be sent in one. -/
theorem isHeaderValue_of_visible? {bytes : Bytes} {text : String}
    (h : visible? bytes = some text) : isHeaderValue text := by
  rw [visible?] at h
  split at h
  · next hvisible =>
    rw [isHeaderValue, Utf8.encode_of_decode? h, List.all_eq_true]
    intro b hb
    have hrange := List.all_eq_true.mp hvisible b hb
    simp only [Bool.or_eq_true, Bool.and_eq_true, decide_eq_true_eq, beq_iff_eq] at hrange ⊢
    exact hrange.imp_left fun hb => ⟨hb.1, UInt8.ne_of_lt hb.2⟩
  · cases h

end Http

/-- What is relied on in the ids that a supply gives out: they are not empty, and a header can carry
them. -/
structure Supply.Fit (supply : Supply) : Prop where
  nonempty : ∀ n, supply.ids n ≠ ""
  carried : ∀ n, Http.isHeaderValue (supply.ids n)

theorem Supply.fit_serial : serial.Fit where
  nonempty := fun _ h => absurd (String.append_eq_empty_iff.mp h).1 (by decide)
  carried := by
    intro n
    have htext : serial.ids n = String.ofList
        ("00000000-0000-4000-8000-".toList ++ Correlation.hexPadded 12 n) := by
      rw [String.ofList_append, String.ofList_toList]
      rfl
    rw [htext]
    apply Http.isHeaderValue_ofList
    have hfront : "00000000-0000-4000-8000-".toList.all fun c =>
        decide (0x20 ≤ c.toNat ∧ c.toNat < 0x7f) := by decide +kernel
    rw [List.forall_mem_append, Correlation.hexPadded, List.forall_mem_append]
    refine ⟨fun c hc => of_decide_eq_true (List.all_eq_true.mp hfront c hc), fun c hc => ?_,
      Hex.visible_ofNat n⟩
    rw [List.eq_of_mem_replicate hc]
    decide

end KeyedLog
