import Packrat.Bytes
import Mathlib.Data.List.Sort

/-!
# `Packrat.Proofs.ByteOrder` — the order of byte strings

`Bytes.le` is the lexicographic order, so `Bytes.sortedUnique` lists a set: its members are those of the
collection, it is strictly increasing, and two collections with the same members give the same list.
-/

namespace Packrat.Bytes

/-! ## The order -/

theorem le_total (x y : Bytes) : le x y = true ∨ le y x = true := by
  induction x generalizing y with
  | nil => exact .inl rfl
  | cons a as ih =>
    cases y with
    | nil => exact .inr rfl
    | cons b bs =>
      by_cases hab : a < b
      · exact .inl (by simp [le, hab])
      · by_cases hba : b < a
        · exact .inr (by simp [le, hba])
        · simpa [le, hab, hba] using ih bs

/-- A byte string that precedes another one is smaller, unless they are equal. -/
theorem lt_of_le_of_ne {x y : Bytes} (h : le x y = true) (hne : x ≠ y) : x < y := by
  induction x generalizing y with
  | nil =>
    cases y with
    | nil => exact absurd rfl hne
    | cons b bs => exact List.nil_lt_cons b bs
  | cons a as ih =>
    cases y with
    | nil => simp [le] at h
    | cons b bs =>
      rw [List.cons_lt_cons_iff]
      by_cases hab : a < b
      · exact .inl hab
      · by_cases hba : b < a
        · simp [le, hab, hba] at h
        · have heq : a = b := UInt8.le_antisymm (UInt8.not_lt.mp hba) (UInt8.not_lt.mp hab)
          subst heq
          refine .inr ⟨rfl, ih (by simpa [le] using h) ?_⟩
          rintro rfl
          exact hne rfl

theorem le_of_lt {x y : Bytes} (h : x < y) : le x y = true := by
  rcases le_total x y with hxy | hyx
  · exact hxy
  · by_cases heq : y = x
    · rw [heq, le_refl]
    · exact absurd h (List.lt_asymm (lt_of_le_of_ne hyx heq))

theorem le_trans {x y z : Bytes} (hxy : le x y = true) (hyz : le y z = true) : le x z = true := by
  by_cases h : x = y
  · exact h ▸ hyz
  · by_cases h' : y = z
    · exact h' ▸ hxy
    · exact le_of_lt (List.lt_trans (lt_of_le_of_ne hxy h) (lt_of_le_of_ne hyz h'))

/-! ## Sorted lists -/

theorem mem_dropRepeats {x : Bytes} {xs : List Bytes} : x ∈ dropRepeats xs ↔ x ∈ xs := by
  induction xs using dropRepeats.induct with
  | case1 => rfl
  | case2 => rfl
  | case3 y z rest heq ih =>
    have hyz : y = z := by simpa using heq
    rw [dropRepeats, if_pos heq, ih, hyz]
    simp
  | case4 y z rest hne ih => rw [dropRepeats, if_neg hne, List.mem_cons, List.mem_cons, ih]

theorem pairwise_dropRepeats {xs : List Bytes} (h : xs.Pairwise fun x y => le x y = true) :
    (dropRepeats xs).Pairwise (· < ·) := by
  induction xs using dropRepeats.induct with
  | case1 => exact List.Pairwise.nil
  | case2 => exact List.pairwise_singleton _ _
  | case3 y z rest heq ih =>
    rw [dropRepeats, if_pos heq]
    exact ih h.of_cons
  | case4 y z rest hne ih =>
    rw [dropRepeats, if_neg hne, List.pairwise_cons]
    refine ⟨fun x hx => ?_, ih h.of_cons⟩
    have hyz : y < z :=
      lt_of_le_of_ne ((List.pairwise_cons.mp h).1 z (by simp)) (by simpa using hne)
    rcases List.mem_cons.mp (mem_dropRepeats.mp hx) with rfl | hx
    · exact hyz
    · have hzx : le z x = true := (List.pairwise_cons.mp h.of_cons).1 x hx
      by_cases heq : z = x
      · exact heq ▸ hyz
      · exact List.lt_trans hyz (lt_of_le_of_ne hzx heq)

theorem mem_sortedUnique {x : Bytes} {xs : List Bytes} : x ∈ sortedUnique xs ↔ x ∈ xs := by
  rw [sortedUnique, mem_dropRepeats, List.mem_mergeSort]

theorem pairwise_sortedUnique (xs : List Bytes) : (sortedUnique xs).Pairwise (· < ·) := by
  have htotal : ∀ x y : Bytes, (le x y || le y x) = true := fun x y => by
    rw [Bool.or_eq_true]
    exact le_total x y
  exact pairwise_dropRepeats (@List.pairwise_mergeSort _ le (fun _ _ _ => le_trans) htotal xs)

/-- The list depends on the members alone. -/
theorem sortedUnique_congr {xs ys : List Bytes} (h : ∀ x, x ∈ xs ↔ x ∈ ys) :
    sortedUnique xs = sortedUnique ys := by
  refine (pairwise_sortedUnique xs).eq_of_mem_iff (pairwise_sortedUnique ys) fun x => ?_
  rw [mem_sortedUnique, mem_sortedUnique, h]

end Packrat.Bytes
