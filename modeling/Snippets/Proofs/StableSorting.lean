import Mathlib.Data.List.Sort
import Mathlib.Data.List.TakeWhile
import Snippets.Sorting

/-!
# Stable sorting

Sorting is the insertion sort of the library, whose facts hold of it. Beyond them, nothing passes an
element that does not exceed it.
-/

namespace Snippets

variable {α : Type} {le : α → α → Bool}

theorem insertSorted_eq_orderedInsert (le : α → α → Bool) (a : α) (l : List α) :
    insertSorted le a l = l.orderedInsert (fun x y => le x y) a := by
  induction l with
  | nil => rfl
  | cons b rest ih => rw [insertSorted, List.orderedInsert_cons, ih]

theorem sortStable_eq_insertionSort (le : α → α → Bool) (l : List α) :
    sortStable le l = l.insertionSort (fun x y => le x y) := by
  induction l with
  | nil => rfl
  | cons a rest ih =>
    rw [sortStable, List.insertionSort_cons, ih, insertSorted_eq_orderedInsert]

theorem sortStable_perm (le : α → α → Bool) (l : List α) : (sortStable le l).Perm l := by
  rw [sortStable_eq_insertionSort]
  exact List.perm_insertionSort _ l

@[simp] theorem mem_sortStable {a : α} {l : List α} : a ∈ sortStable le l ↔ a ∈ l :=
  (sortStable_perm le l).mem_iff

theorem sortStable_pairwise (total : ∀ a b, le a b || le b a)
    (trans : ∀ a b c, le a b → le b c → le a c) (l : List α) :
    (sortStable le l).Pairwise fun x y => le x y := by
  have : Std.Total fun x y => le x y = true := ⟨fun a b => Bool.or_eq_true_iff.mp (total a b)⟩
  have : IsTrans α fun x y => le x y = true := ⟨trans⟩
  rw [sortStable_eq_insertionSort]
  exact List.pairwise_insertionSort _ l

theorem exists_insertSorted_split (le : α → α → Bool) (a : α) (l : List α) :
    ∃ front back, l = front ++ back ∧ insertSorted le a l = front ++ a :: back ∧
      ∀ b ∈ front, ¬ le a b := by
  refine ⟨l.takeWhile (¬ le a ·), l.dropWhile (¬ le a ·), List.takeWhile_append_dropWhile.symm, ?_,
    fun b hb => ?_⟩
  · rw [insertSorted_eq_orderedInsert]
    exact List.orderedInsert_eq_take_drop _ a l
  · simpa using List.mem_takeWhile_imp hb

theorem exists_insertSorted_append (le : α → α → Bool) (c : α) (front : List α) (a : α)
    (back : List α) : ∃ front' back',
      insertSorted le c (front ++ a :: back) = front' ++ a :: back' ∧
        ∀ b ∈ front', b = c ∨ b ∈ front := by
  induction front with
  | nil =>
    rw [List.nil_append, insertSorted]
    split
    · exact ⟨[c], back, rfl, by simp⟩
    · exact ⟨[], insertSorted le c back, rfl, by simp⟩
  | cons d front ih =>
    rw [List.cons_append, insertSorted]
    split
    · exact ⟨c :: d :: front, back, rfl, by simp⟩
    · obtain ⟨front', back', hinsert, hfront⟩ := ih
      refine ⟨d :: front', back', by rw [hinsert]; rfl, fun b hb => ?_⟩
      rcases List.mem_cons.mp hb with rfl | hb
      · exact Or.inr List.mem_cons_self
      · exact (hfront b hb).imp_right (List.mem_cons_of_mem d)

/-- Only elements that an element exceeds pass it from behind. -/
theorem exists_sortStable_split (le : α → α → Bool) (front : List α) (a : α) (back : List α) :
    ∃ front' back', sortStable le (front ++ a :: back) = front' ++ a :: back' ∧
      ∀ b ∈ front', b ∈ front ∨ (b ∈ back ∧ ¬ le a b) := by
  induction front with
  | nil =>
    obtain ⟨front', back', hback, hinsert, hfront⟩ :=
      exists_insertSorted_split le a (sortStable le back)
    refine ⟨front', back', hinsert, fun b hb => Or.inr ⟨?_, hfront b hb⟩⟩
    have hmem : b ∈ sortStable le back := hback ▸ List.mem_append_left back' hb
    exact mem_sortStable.mp hmem
  | cons c front ih =>
    obtain ⟨front', back', hsorted, hfront⟩ := ih
    obtain ⟨front'', back'', hinsert, hfront'⟩ := exists_insertSorted_append le c front' a back'
    refine ⟨front'', back'', by rw [List.cons_append, sortStable, hsorted, hinsert], fun b hb => ?_⟩
    rcases hfront' b hb with rfl | hb
    · exact Or.inl List.mem_cons_self
    · exact (hfront b hb).imp_left (List.mem_cons_of_mem c)

end Snippets
