import KeyedLog.Proofs.Text.Numeral
import KeyedLog.Text.Split
import Mathlib.Data.List.TakeDrop

/-!
# File names made of a stem and an extension

A name that was put together from a stem, a dot and an extension without dots comes apart into
just these, so two such names are equal only if both parts are.
-/
namespace KeyedLog.Text

theorem splitLast?_append (separator : Char) (before : List Char) {after : List Char}
    (h : separator ∉ after) :
    splitLast? separator (before ++ separator :: after) = some (before, after) := by
  have hall : ∀ c ∈ after.reverse, (decide (c ≠ separator)) = true := by
    intro c hc
    have hne : c ≠ separator := by
      rintro rfl
      exact h (List.mem_reverse.mp hc)
    simpa using hne
  have hspan : (before ++ separator :: after).reverse.span (fun c => decide (c ≠ separator)) =
      (after.reverse, separator :: before.reverse) := by
    rw [List.span_eq_takeWhile_dropWhile]
    simp only [List.reverse_append, List.reverse_cons, List.append_assoc, List.singleton_append]
    rw [List.takeWhile_append_of_pos hall, List.dropWhile_append_of_pos hall]
    simp
  simp only [splitLast?, hspan, List.reverse_reverse]

theorem eq_of_splitLast? {separator : Char} {cs before after : List Char}
    (h : splitLast? separator cs = some (before, after)) : cs = before ++ separator :: after := by
  have hhead := List.head?_dropWhile_not (fun c => decide (c ≠ separator)) cs.reverse
  have hcs : cs.reverse.takeWhile (fun c => decide (c ≠ separator)) ++
      cs.reverse.dropWhile (fun c => decide (c ≠ separator)) = cs.reverse :=
    List.takeWhile_append_dropWhile
  rw [splitLast?, List.span_eq_takeWhile_dropWhile] at h
  generalize cs.reverse.takeWhile (fun c => decide (c ≠ separator)) = first at h hcs
  generalize cs.reverse.dropWhile (fun c => decide (c ≠ separator)) = rest at h hcs hhead
  cases rest with
  | nil => cases h
  | cons c rest =>
    obtain ⟨rfl, rfl⟩ := Prod.mk.inj (Option.some.inj h)
    obtain rfl : c = separator := by simpa using hhead
    rw [← List.reverse_reverse cs, ← hcs]
    simp

/-- What follows the last separator holds none. -/
theorem not_mem_of_splitLast? {separator : Char} {cs before after : List Char}
    (h : splitLast? separator cs = some (before, after)) : separator ∉ after := by
  rw [splitLast?, List.span_eq_takeWhile_dropWhile] at h
  cases hrest : cs.reverse.dropWhile (fun c => decide (c ≠ separator)) with
  | nil => simp only [hrest, reduceCtorEq] at h
  | cons c rest =>
    simp only [hrest, Option.some.injEq, Prod.mk.injEq] at h
    obtain ⟨-, rfl⟩ := h
    intro hmem
    have hne := List.all_eq_true.mp List.all_takeWhile separator (List.mem_reverse.mp hmem)
    simp at hne

theorem splitLast?_eq_none_iff {separator : Char} {cs : List Char} :
    splitLast? separator cs = none ↔ separator ∉ cs := by
  constructor
  · intro h hmem
    obtain ⟨after, before, hreverse, hafter⟩ :=
      List.eq_append_cons_of_mem (List.mem_reverse.mpr hmem)
    have hcs : cs = before.reverse ++ separator :: after.reverse := by
      rw [← List.reverse_reverse cs, hreverse]
      simp
    rw [hcs, splitLast?_append separator _ (mt List.mem_reverse.mp hafter)] at h
    cases h
  · intro hnot
    cases hsplit : splitLast? separator cs with
    | none => rfl
    | some parts =>
      rw [eq_of_splitLast? hsplit] at hnot
      simp at hnot

/-- A name with an extension is put together from its parts. -/
theorem eq_of_stemAndExtension {x stem extension : String}
    (h : stemAndExtension x = (stem, some extension)) : x = stem ++ "." ++ extension := by
  rw [stemAndExtension] at h
  split at h
  · next hsplit =>
    obtain ⟨rfl, hext⟩ := Prod.mk.inj h
    obtain rfl := Option.some.inj hext
    rw [← String.toList_inj, eq_of_splitLast? hsplit]
    simp
  · cases h

/-- A dot at the front starts no extension, so something stands before the dot of one. -/
theorem stem_ne_empty {x stem extension : String}
    (h : stemAndExtension x = (stem, some extension)) : stem ≠ "" := by
  rw [stemAndExtension] at h
  split at h
  · next c before after hsplit =>
    obtain ⟨rfl, -⟩ := Prod.mk.inj h
    intro hempty
    have hchars := congrArg String.toList hempty
    rw [String.toList_ofList] at hchars
    cases hchars
  · cases h

theorem stemAndExtension_append {stem extension : String} (hstem : stem ≠ "")
    (hdot : '.' ∉ extension.toList) :
    stemAndExtension (stem ++ "." ++ extension) = (stem, some extension) := by
  have hchars : (stem ++ "." ++ extension).toList = stem.toList ++ '.' :: extension.toList := by
    simp
  have hsplit := splitLast?_append '.' stem.toList hdot
  rw [← hchars] at hsplit
  have hne : stem.toList ≠ [] := by simpa using hstem
  cases hs : stem.toList with
  | nil => exact absurd hs hne
  | cons c rest =>
    rw [hs] at hsplit
    simp only [stemAndExtension, hsplit]
    rw [← hs, String.ofList_toList, String.ofList_toList]

end KeyedLog.Text

namespace KeyedLog.Decimal

theorem ofNat_ne_empty (n : Nat) : ofNat n ≠ "" := by
  intro h
  have hchars := congrArg String.toList h
  simp only [ofNat, String.toList_ofList] at hchars
  exact digits_ne_nil n hchars

theorem ofInt_ne_empty (n : Int) : ofInt n ≠ "" := by
  intro h
  have hchars := congrArg String.toList h
  simp only [ofInt, String.toList_ofList] at hchars
  split at hchars
  · cases hchars
  · exact digits_ne_nil _ hchars

/-- A numeral with an extension comes apart into both. -/
theorem stemAndExtension_ofNat (n : Nat) {extension : String} (h : '.' ∉ extension.toList) :
    Text.stemAndExtension (ofNat n ++ "." ++ extension) = (ofNat n, some extension) :=
  Text.stemAndExtension_append (ofNat_ne_empty n) h

theorem stemAndExtension_ofInt (n : Int) {extension : String} (h : '.' ∉ extension.toList) :
    Text.stemAndExtension (ofInt n ++ "." ++ extension) = (ofInt n, some extension) :=
  Text.stemAndExtension_append (ofInt_ne_empty n) h

end KeyedLog.Decimal
