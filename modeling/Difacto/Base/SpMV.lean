import Difacto.Lib.Arrays
import Mathlib.Data.Rat.Floor
import Mathlib.Tactic.Linarith
import Mathlib.Tactic.NormNum
import Mathlib.Tactic.Positivity

/-!
# Sparse matrix vector products

`Range` and `SpMV` of `base/spmv.h`. A parallel region is modelled by its threads taking
their turns in order; `Range::Segment` gives every thread its own part, so no two threads
write the same element. The parts are computed in `double`: `Rounding` lists what is
used about it, and they are a partition for every number of threads.

An array is a list, and a read outside it gives `0`; the blocks that the results are
about are only read inside.

## Main definitions

* `Range.segment`, `Team.segments` — the parts of the threads.
* `RowBlock`, `RowBlock.row` — a sparse matrix, and its rows as lists of entries.
* `SpMV.times`, `SpMV.transTimes`.

## Main results

* `Team.flatMap_indices`, `Team.countP_has` — the segments are a partition.
* `SpMV.getD_times`, `SpMV.getD_transTimes` — the products.
-/

namespace Difacto.Base

open Lib

/-! ## Threads -/

/-- How results of type `double` are rounded, as long as they neither overflow nor
underflow. -/
structure Rounding where
  fl : ℚ → ℚ
  mono : Monotone fl
  nat : ∀ n : ℕ, n ≤ 2 ^ 53 → fl n = n
  rel : ∀ x, 0 ≤ x → fl x ≤ x * (1 + (1 / 2) ^ 53)

/-- Exact results. -/
def Rounding.exact : Rounding where
  fl := id
  mono := monotone_id
  nat _ _ := rfl
  rel x hx := by
    have h : (0 : ℚ) ≤ x * (1 / 2) ^ 53 := by positivity
    simp only [id_eq]
    linarith

/-- The threads of a parallel region: `omp_get_num_threads()` is an `int`. -/
structure Team extends Rounding where
  nt : ℕ
  nt_pos : 0 < nt
  nt_lt : nt < 2 ^ 31

/-- Threads with exact results. -/
def Team.exact (nt : ℕ) (nt_pos : 0 < nt) (nt_lt : nt < 2 ^ 31) : Team :=
  { Rounding.exact with nt, nt_pos, nt_lt }

/-- A range between [begin, end). -/
structure Range where
  begin_ : ℕ
  end_ : ℕ
  deriving DecidableEq

namespace Range

/-- Where segment `idx` begins, unless it is the last end. -/
def cut (r : Range) (d : Rounding) (idx nparts : ℕ) : ℕ :=
  let itv := d.fl (d.fl ((r.end_ - r.begin_ : ℕ) : ℚ) / d.fl nparts)
  ⌊d.fl (d.fl r.begin_ + d.fl (itv * d.fl idx))⌋₊

/-- `Segment`: evenly divide this range into npart segments, and return the idx-th one.
Its `CHECK`s hold for every thread of a team. -/
def segment (r : Range) (d : Rounding) (idx nparts : ℕ) : Range :=
  { begin_ := r.cut d idx nparts
    end_ := if idx = nparts - 1 then r.end_ else r.cut d (idx + 1) nparts }

/-- `Has`. -/
def has (r : Range) (i : ℕ) : Prop := r.begin_ ≤ i ∧ i < r.end_

instance (r : Range) (i : ℕ) : Decidable (r.has i) := inferInstanceAs (Decidable (_ ∧ _))

/-- The values of `for (size_t i = rg.begin; i < rg.end; ++i)`. -/
def indices (r : Range) : List ℕ := List.range' r.begin_ (r.end_ - r.begin_)

theorem count_indices (r : Range) (i : ℕ) : r.indices.count i = if r.has i then 1 else 0 := by
  have hmem : i ∈ r.indices ↔ r.has i := by
    rw [indices, List.mem_range'_1, has]
    omega
  by_cases hi : r.has i
  · rw [if_pos hi]
    exact List.count_eq_one_of_mem List.nodup_range' (hmem.mpr hi)
  · rw [if_neg hi]
    exact List.count_eq_zero_of_not_mem fun hin => hi (hmem.mp hin)

/-- What a thread looks at for an element: all of it if the element is its own. -/
theorem sum_filter_has {T : Type} [AddCommMonoid T] (r : Range) (k : ℕ) (l : List (ℕ × T))
    (f : ℕ × T → T) : ((l.filter fun a => r.has a.1).map fun a => if a.1 = k then f a else 0).sum =
      if r.has k then (l.map fun a => if a.1 = k then f a else 0).sum else 0 := by
  induction l with
  | nil => simp
  | cons a l ih =>
      by_cases ha : r.has a.1
      · rw [List.filter_cons_of_pos (by simpa using ha), List.map_cons, List.sum_cons, ih,
          List.map_cons, List.sum_cons]
        by_cases hak : a.1 = k
        · have hk : r.has k := hak ▸ ha
          rw [if_pos hk, if_pos hk]
        · rw [if_neg hak, zero_add, zero_add]
      · rw [List.filter_cons_of_neg (by simpa using ha), ih, List.map_cons, List.sum_cons]
        by_cases hak : a.1 = k
        · have hk : ¬ r.has k := hak ▸ ha
          rw [if_neg hk, if_neg hk]
        · rw [if_neg hak, zero_add]

end Range

namespace Rounding

variable (d : Rounding)

theorem fl_zero : d.fl 0 = 0 := by
  simpa using d.nat 0 (by norm_num)

theorem fl_nonneg {x : ℚ} (hx : 0 ≤ x) : 0 ≤ d.fl x := by
  rw [← d.fl_zero]
  exact d.mono hx

/-- What `k` roundings can make of `y` at most. -/
def Within (x y : ℚ) (k : ℕ) : Prop := 0 ≤ x ∧ x ≤ y * (1 + (1 / 2) ^ 53) ^ k

theorem Within.fl {x y : ℚ} {k : ℕ} (h : Within x y k) : Within (d.fl x) y (k + 1) := by
  refine ⟨d.fl_nonneg h.1, (d.rel x h.1).trans ?_⟩
  calc x * (1 + (1 / 2) ^ 53)
      ≤ y * (1 + (1 / 2) ^ 53) ^ k * (1 + (1 / 2) ^ 53) := by gcongr; exact h.2
    _ = y * (1 + (1 / 2) ^ 53) ^ (k + 1) := by ring

theorem Within.mul {x y c : ℚ} {k : ℕ} (h : Within x y k) (hc : 0 ≤ c) :
    Within (x * c) (y * c) k := by
  refine ⟨mul_nonneg h.1 hc, ?_⟩
  calc x * c ≤ y * (1 + (1 / 2) ^ 53) ^ k * c := by gcongr; exact h.2
    _ = y * c * (1 + (1 / 2) ^ 53) ^ k := by ring

end Rounding

namespace Team

variable (team : Team) (n : ℕ)

/-- The segments of the threads of `Range(0, n)`. -/
def segments : List Range :=
  (List.range team.nt).map fun t => (Range.mk 0 n).segment team.toRounding t team.nt

theorem cut_zero : (Range.mk 0 n).cut team.toRounding 0 team.nt = 0 := by
  simp [Range.cut, team.fl_zero]

theorem cut_mono {t t' : ℕ} (h : t ≤ t') : (Range.mk 0 n).cut team.toRounding t team.nt ≤
    (Range.mk 0 n).cut team.toRounding t' team.nt := by
  have hitv : 0 ≤ team.fl (team.fl ((n - 0 : ℕ) : ℚ) / team.fl team.nt) :=
    team.fl_nonneg (div_nonneg (team.fl_nonneg (by positivity)) (team.fl_nonneg (by positivity)))
  have ht : team.fl t ≤ team.fl t' := team.mono (by exact_mod_cast h)
  refine Nat.floor_mono (team.mono ?_)
  have hmul := mul_le_mul_of_nonneg_left ht hitv
  exact add_le_add_right (team.mono hmul) _

/-- No thread begins after the end: the rounding errors are far smaller than the last
segment. -/
theorem cut_le {t : ℕ} (ht : t < team.nt) :
    (Range.mk 0 n).cut team.toRounding t team.nt ≤ n := by
  have hnt := team.nt_lt
  have hnt' : team.fl team.nt = team.nt := team.nat _ (by omega)
  have hflt : team.fl t = t := team.nat _ (by omega)
  have hpos : (0 : ℚ) < team.nt := by exact_mod_cast team.nt_pos
  have hn : Rounding.Within (n : ℚ) n 0 := ⟨by positivity, by simp⟩
  have hitv : Rounding.Within (team.fl (team.fl n / team.nt)) (n * (team.nt : ℚ)⁻¹) 2 := by
    rw [div_eq_mul_inv]
    exact ((hn.fl team.toRounding).mul (by positivity)).fl team.toRounding
  have hcut : Rounding.Within (team.fl (team.fl (team.fl (team.fl n / team.nt) * t)))
      (n * (team.nt : ℚ)⁻¹ * t) 4 :=
    ((hitv.mul (by positivity)).fl team.toRounding).fl team.toRounding
  have hsmall : (t : ℚ) * (1 + (1 / 2) ^ 53) ^ 4 ≤ team.nt := by
    have ht31 : (t : ℚ) ≤ 2 ^ 31 := by exact_mod_cast (by omega : t ≤ 2 ^ 31)
    calc (t : ℚ) * (1 + (1 / 2) ^ 53) ^ 4 ≤ (t : ℚ) * (1 + (1 / 2) ^ 50) := by
          gcongr
          norm_num
      _ = (t : ℚ) + (t : ℚ) * (1 / 2) ^ 50 := by ring
      _ ≤ (t : ℚ) + 2 ^ 31 * (1 / 2) ^ 50 := by gcongr
      _ ≤ (t : ℚ) + 1 := by
          gcongr
          norm_num
      _ ≤ (team.nt : ℚ) := by exact_mod_cast ht
  have hle : (n : ℚ) * (team.nt : ℚ)⁻¹ * t * (1 + (1 / 2) ^ 53) ^ 4 ≤ n :=
    calc (n : ℚ) * (team.nt : ℚ)⁻¹ * t * (1 + (1 / 2) ^ 53) ^ 4
        = n * ((team.nt : ℚ)⁻¹ * (t * (1 + (1 / 2) ^ 53) ^ 4)) := by ring
      _ ≤ n * ((team.nt : ℚ)⁻¹ * team.nt) := by gcongr
      _ = n := by rw [inv_mul_cancel₀ hpos.ne', mul_one]
  refine Nat.floor_le_of_le ?_
  simp only [Nat.sub_zero, Nat.cast_zero, team.fl_zero, zero_add, hnt', hflt]
  exact hcut.2.trans hle

/-- The turns of a loop whose parts follow each other. -/
theorem flatMap_range' {c : ℕ → ℕ} (h0 : c 0 = 0) {k : ℕ} (hc : ∀ t < k, c t ≤ c (t + 1)) :
    (List.range k).flatMap (fun t => List.range' (c t) (c (t + 1) - c t)) = List.range (c k) := by
  induction k with
  | zero => simp [h0]
  | succ k ih =>
      have hk := hc k (by omega)
      rw [List.range_succ, List.flatMap_append, ih fun t ht => hc t (by omega),
        List.flatMap_singleton, List.range_eq_range', List.range_eq_range']
      have happ := List.range'_append_1 (s := 0) (m := c k) (n := c (k + 1) - c k)
      rwa [Nat.zero_add, Nat.add_sub_cancel' hk] at happ

/-- **The segments follow each other** from `0` to `n`. -/
theorem flatMap_indices : (team.segments n).flatMap Range.indices = List.range n := by
  set c : ℕ → ℕ := fun t =>
    if t = team.nt then n else (Range.mk 0 n).cut team.toRounding t team.nt with hc
  have hpos := team.nt_pos
  have hseg : ∀ t < team.nt, (Range.mk 0 n).segment team.toRounding t team.nt =
      ⟨c t, c (t + 1)⟩ := by
    intro t ht
    have hne : t ≠ team.nt := by omega
    have hlast : t = team.nt - 1 ↔ t + 1 = team.nt := by omega
    simp only [Range.segment, hc, hne, if_false, hlast]
  have hmono : ∀ t < team.nt, c t ≤ c (t + 1) := by
    intro t ht
    have hne : t ≠ team.nt := by omega
    simp only [hc, hne, if_false]
    split
    · exact team.cut_le n ht
    · exact team.cut_mono n (Nat.le_succ t)
  have h0 : c 0 = 0 := by
    simp only [hc, hpos.ne, if_false]
    exact team.cut_zero n
  have hend : c team.nt = n := by simp [hc]
  rw [segments, List.flatMap_map, ← hend, ← flatMap_range' h0 hmono, hend]
  refine List.flatMap_congr fun t ht => ?_
  rw [hseg t (List.mem_range.mp ht)]
  rfl

/-- **Each element belongs to one thread.** -/
theorem countP_has {i : ℕ} (hi : i < n) : (team.segments n).countP (fun r => r.has i) = 1 := by
  have hcount : ∀ rs : List Range, (rs.flatMap Range.indices).count i =
      rs.countP fun r => r.has i := by
    intro rs
    induction rs with
    | nil => rfl
    | cons r rs ih =>
        rw [List.flatMap_cons, List.count_append, ih, Range.count_indices]
        by_cases hr : r.has i
        · rw [if_pos hr, List.countP_cons_of_pos (by simpa using hr), Nat.add_comm]
        · rw [if_neg hr, List.countP_cons_of_neg (by simpa using hr), Nat.zero_add]
  rw [← hcount, team.flatMap_indices, List.count_eq_one_of_mem List.nodup_range]
  exact List.mem_range.mpr hi

end Team

/-! ## Sparse matrices -/

/-- `RowBlock<unsigned>`. -/
structure RowBlock (T : Type) where
  /-- batch size -/
  size : ℕ
  /-- array[size+1], row pointer to beginning of each rows -/
  offset : List ℕ
  /-- array[size] label of each instance -/
  label : List T
  /-- feature index -/
  index : List ℕ
  /-- feature value, can be NULL, indicating all values are 1 -/
  value : Option (List T)

namespace RowBlock

variable {T : Type} (D : RowBlock T)

/-- The values of `for (size_t j = D.offset[i]; j < D.offset[i+1]; ++j)`. -/
def entries (i : ℕ) : List ℕ :=
  List.range' (D.offset.getD i 0) (D.offset.getD (i + 1) 0 - D.offset.getD i 0)

/-- `D.index[j]`. -/
def col (j : ℕ) : ℕ := D.index.getD j 0

/-- The value of entry `j`. -/
def coef [Zero T] [One T] (j : ℕ) : T :=
  match D.value with
  | some v => v.getD j 0
  | none => 1

/-- The entries of row `i`: feature and value. -/
def row [Zero T] [One T] (i : ℕ) : List (ℕ × T) := (D.entries i).map fun j => (D.col j, D.coef j)

/-- The arrays are as long as the offsets say, and the features are below `n`. -/
structure Valid (n : ℕ) : Prop where
  length_offset : D.offset.length = D.size + 1
  offset_mono : ∀ i < D.size, D.offset.getD i 0 ≤ D.offset.getD (i + 1) 0
  length_label : D.label.length = D.size
  length_index : D.offset.getD D.size 0 ≤ D.index.length
  length_value : ∀ v ∈ D.value, D.offset.getD D.size 0 ≤ v.length
  col_lt : ∀ i < D.size, ∀ j ∈ D.entries i, D.col j < n

theorem entries_eq_nil {i : ℕ} (h : D.offset.getD i 0 = D.offset.getD (i + 1) 0) :
    D.entries i = [] := by
  rw [entries, h, Nat.sub_self, List.range'_zero]

end RowBlock

namespace SpMV

variable {T : Type}

section Code

variable [Zero T] [Add T] [Mul T]

/-- `y_i` of `Times`. -/
def rowTimes (D : RowBlock T) (x : List T) (i : ℕ) : T :=
  match D.value with
  | some v => (D.entries i).foldl (fun s j => s + x.getD (D.col j) 0 * v.getD j 0) 0
  | none => (D.entries i).foldl (fun s j => s + x.getD (D.col j) 0) 0

/-- One row of `Times`: an empty one keeps what was in `y`. -/
def timesRow (D : RowBlock T) (x : List T) (y : List T) (i : ℕ) : List T :=
  if D.offset.getD i 0 = D.offset.getD (i + 1) 0 then y else y.set i (rowTimes D x i)

/-- `Times`: y = D * x. -/
def times (team : Team) (D : RowBlock T) (x y : List T) : Option (List T) :=
  if y.length = D.size then
    some ((team.segments D.size).foldl (fun y rg => rg.indices.foldl (timesRow D x) y) y)
  else none

/-- One row of `TransTimes`, in the thread of `rg`. -/
def transRow (D : RowBlock T) (x : List T) (rg : Range) (y : List T) (i : ℕ) : List T :=
  if D.offset.getD i 0 = D.offset.getD (i + 1) 0 then y
  else
    match D.value with
    | some v => (D.entries i).foldl (fun y j =>
        if rg.has (D.col j) then addAt y (D.col j) (x.getD i 0 * v.getD j 0) else y) y
    | none => (D.entries i).foldl (fun y j =>
        if rg.has (D.col j) then addAt y (D.col j) (x.getD i 0) else y) y

/-- The thread of `rg`: it clears its part of `y` first. -/
def transThread (D : RowBlock T) (x : List T) (y : List T) (rg : Range) : List T :=
  (List.range D.size).foldl (transRow D x rg) (y.mapIdx fun k v => if rg.has k then 0 else v)

/-- `TransTimes`: y = D^T * x. -/
def transTimes (team : Team) (D : RowBlock T) (x y : List T) : Option (List T) :=
  if x.length = D.size then some ((team.segments y.length).foldl (transThread D x) y) else none

/-! Whatever the numbers are, the kernels keep the length of `y`. -/

section Length

variable (D : RowBlock T) (x y : List T)

theorem length_timesRow (i : ℕ) : (timesRow D x y i).length = y.length := by
  rw [timesRow]
  split
  · rfl
  · rw [List.length_set]

theorem length_transRow (rg : Range) (i : ℕ) : (transRow D x rg y i).length = y.length := by
  have hturn : ∀ (c : ℕ → T) (y : List T) (j : ℕ),
      (if rg.has (D.col j) then addAt y (D.col j) (c j) else y).length = y.length := by
    intro c y j
    split
    · exact length_addAt _ _ _
    · rfl
  rw [transRow]
  split
  · rfl
  · split
    · exact length_foldl (hturn _) _ y
    · exact length_foldl (hturn _) _ y

theorem length_transThread (rg : Range) : (transThread D x y rg).length = y.length := by
  rw [transThread, length_foldl fun y i => length_transRow D x y rg i, List.length_mapIdx]

theorem times_total (team : Team) (hy : y.length = D.size) :
    ∃ y', times team D x y = some y' ∧ y'.length = D.size := by
  rw [times, if_pos hy, ← List.foldl_flatMap]
  exact ⟨_, rfl, (length_foldl (length_timesRow D x) _ y).trans hy⟩

theorem transTimes_total (team : Team) (hx : x.length = D.size) :
    ∃ y', transTimes team D x y = some y' ∧ y'.length = y.length := by
  rw [transTimes, if_pos hx]
  exact ⟨_, rfl, length_foldl (length_transThread D x) _ y⟩

end Length

end Code

section Spec

variable [CommRing T] (D : RowBlock T) (x y : List T)

theorem rowTimes_eq (i : ℕ) :
    rowTimes D x i = ((D.row i).map fun a => x.getD a.1 0 * a.2).sum := by
  rw [rowTimes, RowBlock.row, List.map_map]
  cases hv : D.value with
  | some v =>
      simp only [foldl_add, zero_add, Function.comp_def, RowBlock.coef, hv]
  | none =>
      simp only [foldl_add, zero_add, Function.comp_def, RowBlock.coef, hv, mul_one]

/-- **`y = D * x`**; where the row is empty, `y` keeps its value. -/
theorem getD_times (team : Team) (hy : y.length = D.size) : ∃ y', times team D x y = some y' ∧
    y'.length = D.size ∧ ∀ k < D.size, y'.getD k 0 =
      if D.offset.getD k 0 = D.offset.getD (k + 1) 0 then y.getD k 0
      else ((D.row k).map fun a => x.getD a.1 0 * a.2).sum := by
  rw [times, if_pos hy, ← List.foldl_flatMap, team.flatMap_indices]
  refine ⟨_, rfl, ?_, fun k hk => ?_⟩
  · rw [length_foldl (length_timesRow D x), hy]
  · have hturn : ∀ (y : List T) (i : ℕ), k < y.length → (timesRow D x y i).getD k 0 =
        if i = k then
          if D.offset.getD k 0 = D.offset.getD (k + 1) 0 then y.getD k 0
          else ((D.row k).map fun a => x.getD a.1 0 * a.2).sum
        else y.getD k 0 := by
      intro y i hk
      rw [timesRow, ← rowTimes_eq]
      by_cases hi : i = k
      · subst hi
        rw [if_pos rfl]
        split
        · rfl
        · rw [getD_set _ _ _ _ hk, if_pos rfl]
      · rw [if_neg hi]
        split
        · rfl
        · rw [getD_set _ _ _ _ hk, if_neg hi]
    have hone : (List.range D.size).countP (fun i => i = k) = 1 := by
      have hcount := List.count_eq_one_of_mem List.nodup_range (List.mem_range.mpr hk)
      rw [List.count] at hcount
      rw [← hcount]
      exact List.countP_congr fun i _ => by simp
    exact getD_foldl_once (fun v => if D.offset.getD k 0 = D.offset.getD (k + 1) 0 then v
      else ((D.row k).map fun a => x.getD a.1 0 * a.2).sum) (length_timesRow D x) hturn hone y
      (by rwa [hy])

/-- What one row adds, in the thread of `rg`. -/
theorem transRow_eq (rg : Range) (i : ℕ) : transRow D x rg y i = scatter y
    (((D.row i).filter fun a => rg.has a.1).flatMap fun a => [(a.1, x.getD i 0 * a.2)]) := by
  have hrow : ((D.row i).filter fun a => rg.has a.1).flatMap
      (fun a => [(a.1, x.getD i 0 * a.2)]) =
        ((D.entries i).filter fun j => rg.has (D.col j)).flatMap
          fun j => [(D.col j, x.getD i 0 * D.coef j)] := by
    rw [RowBlock.row, List.filter_map, List.flatMap_map]
    rfl
  rw [hrow, transRow]
  split
  · rename_i hempty
    rw [D.entries_eq_nil hempty]
    rfl
  · cases hv : D.value with
    | some v => simp only [← scatter_singleton, foldl_scatter, RowBlock.coef, hv]
    | none => simp only [← scatter_singleton, foldl_scatter, RowBlock.coef, hv, mul_one]

/-- An element of the part of the thread is computed anew; the others stay. -/
theorem getD_transThread (rg : Range) (k : ℕ) (hk : k < y.length) :
    (transThread D x y rg).getD k 0 = if rg.has k then
      ∑ i ∈ Finset.range D.size, ((D.row i).map fun a =>
        if a.1 = k then x.getD i 0 * a.2 else 0).sum
    else y.getD k 0 := by
  have hrows : transThread D x y rg = (List.range D.size).foldl (fun y i => scatter y
      (((D.row i).filter fun a => rg.has a.1).flatMap fun a => [(a.1, x.getD i 0 * a.2)]))
        (y.mapIdx fun k v => if rg.has k then 0 else v) := by
    rw [transThread]
    congr 1
    funext y i
    exact transRow_eq D x y rg i
  have hclear : (y.mapIdx fun k v => if rg.has k then 0 else v).getD k 0 =
      if rg.has k then 0 else y.getD k 0 := by
    simp [List.getD_eq_getElem?_getD, hk]
  rw [hrows, getD_foldl_scatter _ _ _ _ (by simpa using hk), hclear]
  simp only [sum_map_flatMap, List.map_cons, List.map_nil, List.sum_cons, List.sum_nil, add_zero,
    Range.sum_filter_has]
  by_cases hown : rg.has k
  · simp only [hown, if_true, zero_add]
  · simp only [hown, if_false, Finset.sum_const_zero, add_zero]

/-- **`y = D^T * x`**, whatever `y` held before. -/
theorem getD_transTimes (team : Team) (hx : x.length = D.size) :
    ∃ y', transTimes team D x y = some y' ∧ y'.length = y.length ∧ ∀ k < y.length, y'.getD k 0 =
      ∑ i ∈ Finset.range D.size, ((D.row i).map fun a =>
        if a.1 = k then x.getD i 0 * a.2 else 0).sum := by
  rw [transTimes, if_pos hx]
  refine ⟨_, rfl, ?_, fun k hk => ?_⟩
  · exact length_foldl (length_transThread D x) _ y
  · exact getD_foldl_once (fun _ => _) (length_transThread D x)
      (fun y rg hk => getD_transThread D x y rg k hk) (team.countP_has y.length hk) y hk

end Spec

end SpMV

end Difacto.Base
