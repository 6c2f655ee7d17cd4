import AlertAudit.Diagnostic.Basic
import Mathlib.Data.List.Basic

/-!
The order of diagnostics. A stable sort is ascending in its key and keeps the order among elements
with equal keys; there is only one such list, so sorting commutes with taking elements out. Sorting
the diagnostics of several entries together therefore interleaves what sorting them apart gives.
-/

set_option autoImplicit false

namespace AlertAudit

variable {α β : Type}

/-- `sorted` has the elements of `l` in ascending order of a key, those with equal keys in the order
in which they stand in `l`. -/
structure StableSort (key : α → Nat) (l sorted : List α) : Prop where
  ascending : sorted.Pairwise fun a b ↦ key a ≤ key b
  stable : ∀ n, sorted.filter (key · = n) = l.filter (key · = n)

namespace StableSort

variable {key : α → Nat} {l s t : List α}

/-- A sorted list has the same elements. -/
theorem mem_iff (h : StableSort key l s) {a : α} : a ∈ s ↔ a ∈ l := by
  have hmem : a ∈ s.filter (key · = key a) ↔ a ∈ l.filter (key · = key a) := by rw [h.stable]
  simpa using hmem

/-- Two ascending lists that agree on the elements of every key are equal. -/
theorem eq_of_ascending (hs : s.Pairwise fun a b ↦ key a ≤ key b)
    (ht : t.Pairwise fun a b ↦ key a ≤ key b)
    (h : ∀ n, s.filter (key · = n) = t.filter (key · = n)) : s = t := by
  induction s generalizing t with
  | nil =>
    refine (List.eq_nil_iff_forall_not_mem.mpr fun b hb ↦ ?_).symm
    have hfilter : b ∈ t.filter (key · = key b) := by simpa using hb
    rw [← h] at hfilter
    exact absurd hfilter (by simp)
  | cons a s ih =>
    obtain ⟨hleast, hsorted⟩ := List.pairwise_cons.mp hs
    have hat : a ∈ t := by
      have hfilter : a ∈ (a :: s).filter (key · = key a) := by simp
      rw [h] at hfilter
      exact (List.mem_filter.mp hfilter).1
    cases t with
    | nil => exact absurd hat List.not_mem_nil
    | cons b t =>
      obtain ⟨hleast', htail⟩ := List.pairwise_cons.mp ht
      have hle : key b ≤ key a := by
        rcases List.mem_cons.mp hat with rfl | hat
        · exact Nat.le_refl _
        · exact hleast' a hat
      have hbs : b ∈ a :: s := by
        have hfilter : b ∈ (b :: t).filter (key · = key b) := by simp
        rw [← h] at hfilter
        exact (List.mem_filter.mp hfilter).1
      have hge : key a ≤ key b := by
        rcases List.mem_cons.mp hbs with rfl | hbs
        · exact Nat.le_refl _
        · exact hleast b hbs
      have hkey : key a = key b := Nat.le_antisymm hge hle
      have hhead := h (key a)
      rw [List.filter_cons_of_pos (by simp), List.filter_cons_of_pos (by simp [hkey])] at hhead
      obtain ⟨rfl, -⟩ := List.cons.inj hhead
      congr 1
      refine ih hsorted htail fun n ↦ ?_
      have hn := h n
      by_cases hkn : key a = n
      · rw [List.filter_cons_of_pos (by simpa), List.filter_cons_of_pos (by simpa)] at hn
        exact (List.cons.inj hn).2
      · rwa [List.filter_cons_of_neg (by simpa), List.filter_cons_of_neg (by simpa)] at hn

/-- There is only one stable sort of a list. -/
theorem unique (hs : StableSort key l s) (ht : StableSort key l t) : s = t :=
  eq_of_ascending hs.ascending ht.ascending fun n ↦ (hs.stable n).trans (ht.stable n).symm

/-- What is left of a sorted list is sorted. -/
theorem filter (h : StableSort key l s) (p : α → Bool) :
    StableSort key (l.filter p) (s.filter p) where
  ascending := h.ascending.filter p
  stable n := by
    have hcomm : ∀ u : List α,
        (u.filter p).filter (key · = n) = (u.filter (key · = n)).filter p := fun u ↦ by
      simp only [List.filter_filter, Bool.and_comm]
    rw [hcomm, hcomm, h.stable]

/-- What is sorted by the keys of its images has sorted images. -/
theorem map {l s : List β} {f : β → α} (h : StableSort (key ∘ f) l s) :
    StableSort key (l.map f) (s.map f) where
  ascending := List.pairwise_map.mpr h.ascending
  stable n := by
    rw [List.filter_map, List.filter_map]
    exact congrArg (List.map f) (h.stable n)

end StableSort

/-- Merging sorts is stable. -/
theorem stableSort_mergeSort (key : α → Nat) (l : List α) :
    StableSort key l (l.mergeSort fun a b ↦ key a ≤ key b) where
  ascending := by
    have hsorted : (l.mergeSort fun a b ↦ key a ≤ key b).Pairwise
        fun a b ↦ decide (key a ≤ key b) = true :=
      List.pairwise_mergeSort (by simpa using fun a b c ↦ Nat.le_trans)
        (by simpa using fun a b ↦ Nat.le_total _ _) l
    simpa using hsorted
  stable n := by
    -- the elements with the key `n` are in order already, so sorting keeps them as a sublist
    have hequal : (l.filter (key · = n)).Pairwise fun a b ↦ decide (key a ≤ key b) := by
      refine List.pairwise_of_forall_mem_list fun a ha b hb ↦ ?_
      simp only [List.mem_filter, decide_eq_true_eq] at ha hb ⊢
      omega
    have hsub : (l.filter (key · = n)).Sublist (l.mergeSort fun a b ↦ key a ≤ key b) :=
      List.sublist_mergeSort (by simpa using fun a b c ↦ Nat.le_trans)
        (by simpa using fun a b ↦ Nat.le_total _ _) hequal List.filter_sublist
    have hfilter := hsub.filter (key · = n)
    rw [List.filter_filter] at hfilter
    simp only [Bool.and_self] at hfilter
    refine (hfilter.eq_of_length ?_).symm
    exact (((List.mergeSort_perm l _).filter _).length_eq).symm

/-- Diagnostics are sorted by the lines of their entries, and otherwise stay in order. -/
theorem Diagnostics.stableSort_sortByLine (ds : Diagnostics) :
    StableSort (·.anchor.first) ds ds.sortByLine := stableSort_mergeSort _ ds

/-! ### Interleavings -/

/-- The third list has the elements of the other two, those of each in their order. -/
inductive Interleaves : List α → List α → List α → Prop
  | nil : Interleaves [] [] []
  | left {a : α} {as bs cs : List α} : Interleaves as bs cs → Interleaves (a :: as) bs (a :: cs)
  | right {b : α} {as bs cs : List α} : Interleaves as bs cs → Interleaves as (b :: bs) (b :: cs)

namespace Interleaves

/-- Images of an interleaving are interleaved. -/
theorem map {as bs cs : List β} (h : Interleaves as bs cs) (f : β → α) :
    Interleaves (as.map f) (bs.map f) (cs.map f) := by
  induction h with
  | nil => exact .nil
  | left _ ih => exact .left ih
  | right _ ih => exact .right ih

/-- A list interleaves the elements that pass a test with those that do not. -/
theorem of_filter (p : α → Bool) (l : List α) :
    Interleaves (l.filter fun a ↦ !p a) (l.filter p) l := by
  induction l with
  | nil => exact .nil
  | cons a l ih =>
    by_cases h : p a
    · rw [List.filter_cons_of_neg (by simpa using h), List.filter_cons_of_pos h]
      exact .right ih
    · rw [List.filter_cons_of_pos (by simpa using h), List.filter_cons_of_neg h]
      exact .left ih

end Interleaves

/-- To sort a list is to interleave a part of it that is sorted with the rest that is sorted. -/
theorem interleaves_sortByLine (xs ys zs : Diagnostics) :
    Interleaves (xs ++ zs).sortByLine ys.sortByLine (xs ++ ys ++ zs).sortByLine := by
  -- each diagnostic is marked with the part that it comes from
  let marked : List (Bool × Diagnostic) :=
    xs.map (false, ·) ++ ys.map (true, ·) ++ zs.map (false, ·)
  have hsorted := stableSort_mergeSort (fun m : Bool × Diagnostic ↦ m.2.anchor.first) marked
  have hrest : (marked.filter fun m ↦ !m.1).map Prod.snd = xs ++ zs := by
    simp [marked, List.filter_append, List.filter_map, Function.comp_def]
  have hpart : (marked.filter Prod.fst).map Prod.snd = ys := by
    simp [marked, List.filter_append, List.filter_map, Function.comp_def]
  have hall : marked.map Prod.snd = xs ++ ys ++ zs := by
    simp [marked, Function.comp_def]
  have hinterleaves := (Interleaves.of_filter Prod.fst
    (marked.mergeSort fun a b ↦ a.2.anchor.first ≤ b.2.anchor.first)).map Prod.snd
  have hsnd : ∀ {l s : List (Bool × Diagnostic)} {ds : Diagnostics},
      StableSort (fun m : Bool × Diagnostic ↦ m.2.anchor.first) l s → l.map Prod.snd = ds →
        s.map Prod.snd = ds.sortByLine := by
    rintro l s _ h rfl
    have hmap : StableSort (·.anchor.first) (l.map Prod.snd) (s.map Prod.snd) := .map h
    exact hmap.unique (Diagnostics.stableSort_sortByLine _)
  rwa [hsnd (hsorted.filter _) hrest, hsnd (hsorted.filter _) hpart, hsnd hsorted hall]
    at hinterleaves

end AlertAudit
