import Mathlib.Data.List.Sort

/-!
# Parallel sort

`ParallelSort` of `base/parallel_sort.h`. A list that is longer than the grain size is divided, a
new thread sorts the first half while this one sorts the second, and `std::inplace_merge` merges
them. The threads work on different halves, so what they do is modelled one after the other.

## Main definitions

* `StdSort` — `std::sort`, which leaves equal elements in any order.
* `parallelSort` — `ParallelSort`.

## Main results

* `parallelSort_eq` — the result for every number of threads.
-/

namespace Difacto.Base

variable {α : Type} {cmp : α → α → Bool}

/-- The comparison function orders the elements up to ties. -/
structure StrictWeak (cmp : α → α → Bool) : Prop where
  asymm : ∀ a b, cmp a b → ¬ cmp b a
  negTrans : ∀ a b c, ¬ cmp a b → ¬ cmp b c → ¬ cmp a c

/-- `std::sort` with `cmp` -/
structure StdSort (cmp : α → α → Bool) where
  run : List α → List α
  perm : ∀ xs, (run xs).Perm xs
  sorted : ∀ xs, (run xs).Pairwise fun a b => ¬ cmp b a

/-- `std::inplace_merge`: of equal elements those of the first half come first. -/
def inplaceMerge (cmp : α → α → Bool) (xs ys : List α) : List α :=
  xs.merge ys fun a b => !cmp b a

/-- `ParallelSort_` -/
def parallelSortFrom (sort : StdSort cmp) (grainsize : ℕ) (hgrain : 0 < grainsize)
    (data : List α) : List α :=
  if data.length ≤ grainsize then sort.run data
  else
    inplaceMerge cmp
      (parallelSortFrom sort grainsize hgrain (data.take (data.length / 2)))
      (parallelSortFrom sort grainsize hgrain (data.drop (data.length / 2)))
termination_by data.length
decreasing_by
  · rw [List.length_take]
    omega
  · rw [List.length_drop]
    omega

/-- The grain size of `ParallelSort`. -/
def grainsize (nt size : ℕ) : ℕ := max (size / nt + 5) (1024 * 16)

theorem grainsize_pos (nt size : ℕ) : 0 < grainsize nt size :=
  lt_of_lt_of_le (by decide) (le_max_right _ _)

/-- `ParallelSort` -/
def parallelSort (sort : StdSort cmp) (nt : ℕ) (arr : List α) : Option (List α) :=
  if 0 < nt then
    some (parallelSortFrom sort (grainsize nt arr.length) (grainsize_pos nt arr.length) arr)
  else none

/-! ## The result -/

theorem inplaceMerge_perm (xs ys : List α) : (inplaceMerge cmp xs ys).Perm (xs ++ ys) :=
  List.merge_perm_append _

theorem StrictWeak.trans (hcmp : StrictWeak cmp) (a b c : α) (hab : (!cmp b a) = true)
    (hbc : (!cmp c b) = true) : (!cmp c a) = true := by
  simpa using hcmp.negTrans c b a (by simpa using hbc) (by simpa using hab)

theorem StrictWeak.total (hcmp : StrictWeak cmp) (a b : α) : (!cmp b a || !cmp a b) = true := by
  cases hab : cmp a b with
  | false => simp
  | true => simpa using hcmp.asymm a b hab

/-- One implementation of `std::sort`. -/
def StdSort.merge (hcmp : StrictWeak cmp) : StdSort cmp where
  run xs := xs.mergeSort fun a b => !cmp b a
  perm xs := List.mergeSort_perm xs _
  sorted xs := (List.pairwise_mergeSort hcmp.trans hcmp.total xs).imp (by simp)

theorem inplaceMerge_sorted (hcmp : StrictWeak cmp) {xs ys : List α}
    (hx : xs.Pairwise fun a b => ¬ cmp b a) (hy : ys.Pairwise fun a b => ¬ cmp b a) :
    (inplaceMerge cmp xs ys).Pairwise fun a b => ¬ cmp b a := by
  have hsorted := List.pairwise_merge hcmp.trans hcmp.total xs ys
    (hx.imp (by simp)) (hy.imp (by simp))
  exact hsorted.imp (by simp)

variable (sort : StdSort cmp)

theorem parallelSortFrom_perm {g : ℕ} (hgrain : 0 < g) (data : List α) :
    (parallelSortFrom sort g hgrain data).Perm data := by
  induction data using parallelSortFrom.induct g hgrain with
  | case1 data hsmall =>
    rw [parallelSortFrom, if_pos hsmall]
    exact sort.perm data
  | case2 data hlarge ihfirst ihsecond =>
    have hhalves := ihfirst.append ihsecond
    rw [List.take_append_drop] at hhalves
    rw [parallelSortFrom, if_neg hlarge]
    exact (inplaceMerge_perm _ _).trans hhalves

theorem parallelSortFrom_sorted (hcmp : StrictWeak cmp) {g : ℕ} (hgrain : 0 < g) (data : List α) :
    (parallelSortFrom sort g hgrain data).Pairwise fun a b => ¬ cmp b a := by
  induction data using parallelSortFrom.induct g hgrain with
  | case1 data hsmall =>
    rw [parallelSortFrom, if_pos hsmall]
    exact sort.sorted data
  | case2 data hlarge ihfirst ihsecond =>
    rw [parallelSortFrom, if_neg hlarge]
    exact inplaceMerge_sorted hcmp ihfirst ihsecond

/-- **The result** is a sorted arrangement for every number of threads. -/
theorem parallelSort_eq (hcmp : StrictWeak cmp) {nt : ℕ} (hnt : 0 < nt) (arr : List α) :
    ∃ sorted, parallelSort sort nt arr = some sorted ∧ sorted.Perm arr ∧
      sorted.Pairwise fun a b => ¬ cmp b a :=
  ⟨_, if_pos hnt, parallelSortFrom_perm sort _ arr, parallelSortFrom_sorted sort hcmp _ arr⟩

end Difacto.Base
