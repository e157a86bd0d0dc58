import Difacto.Base.SpMM

/-!
# Products that stay inside their arrays

The kernels of `SpMM` once more, with every product `D.index[j] * dim` and `e * dim`
compared with the true one and every element of `x` and `y` looked up: a product that
wraps, or an element outside its array, ends the run with `none`. Where neither happens
these runs are the runs of the kernels.

## Main definitions

* `SpMM.timesInside`, `SpMM.transTimesInside`.

## Main results

* `SpMM.timesInside_eq`, `SpMM.transTimesInside_eq`.
-/

namespace Difacto.Base.SpMM

open Lib

variable {T : Type}

/-- `D.index[j] * dim`, if the 32-bit product is the true one. -/
def exactAddr (e dim : ℕ) : Option ℕ := if addr e dim = e * dim then some (addr e dim) else none

section Code

variable [Add T] [Mul T]

/-- `y[i] += v`, if there is such an element. -/
def addInside (y : List T) (i : ℕ) (v : T) : Option (List T) :=
  y[i]?.map fun u => y.set i (u + v)

/-- `for (int k = 0; k < dim; ++k) y[base + k] += f(k)`. -/
def addRowInside (y : List T) (base dim : ℕ) (f : ℕ → Option T) : Option (List T) :=
  (List.range dim).foldlM (fun y k => (f k).bind (addInside y (base + k))) y

variable [Zero T]

/-- An element of `x` times the value of entry `j`; without values all are 1. -/
def weigh (D : RowBlock T) (j : ℕ) (u : T) : T :=
  match D.value with
  | some v => u * v.getD j 0
  | none => u

/-- One row of `Times`. -/
def timesRowInside (D : RowBlock T) (x : List T) (dim : ℕ) (y : List T) (i : ℕ) :
    Option (List T) :=
  if D.offset.getD i 0 = D.offset.getD (i + 1) 0 then some y
  else (D.entries i).foldlM (fun y j => (exactAddr (D.col j) dim).bind fun x_j =>
    addRowInside y (i * dim) dim fun k => x[x_j + k]?.map (weigh D j)) y

/-- `Times`: y = D * x. -/
def timesInside (team : Team) (D : RowBlock T) (x y : List T) : Option (List T) :=
  if x.isEmpty then some y
  else if D.size = 0 then none
  else
    let dim := y.length / D.size
    if D.size * dim ≤ y.length then
      let y := y.mapIdx fun k v => if k < D.size * dim then 0 else v
      (team.segments D.size).foldlM (fun y rg => rg.indices.foldlM (timesRowInside D x dim) y) y
    else none

/-- One row of `TransTimes`, in the thread of `rg`. -/
def transRowInside (D : RowBlock T) (x : List T) (dim : ℕ) (rg : Range) (y : List T) (i : ℕ) :
    Option (List T) :=
  if D.offset.getD i 0 = D.offset.getD (i + 1) 0 then some y
  else (D.entries i).foldlM (fun y j =>
    if rg.has (D.col j) then (exactAddr (D.col j) dim).bind fun y_j =>
      addRowInside y y_j dim fun k => x[i * dim + k]?.map (weigh D j)
    else some y) y

/-- The thread of `rg`. -/
def transThreadInside (D : RowBlock T) (x : List T) (dim : ℕ) (y : List T) (rg : Range) :
    Option (List T) :=
  (List.range D.size).foldlM (transRowInside D x dim rg) y

/-- `TransTimes`: y = D^T * x + p * z. -/
def transTimesInside [BEq T] (team : Team) (D : RowBlock T) (x : List T) (p : T) (z y : List T) :
    Option (List T) :=
  if x.isEmpty then some y
  else if D.size = 0 then none
  else
    let dim := x.length / D.size
    if dim = 0 then none
    else
      let y₀ := if z.length = y.length ∧ (p != 0) = true then z.map (· * p)
        else List.replicate y.length 0
      (team.segments (y.length / dim)).foldlM (transThreadInside D x dim) y₀

end Code

section Spec

variable [Zero T] [Add T] [Mul T] {D : RowBlock T} {x y : List T} {dim n : ℕ}

theorem exactAddr_eq {e : ℕ} (h : addr e dim = e * dim) : exactAddr e dim = some (addr e dim) :=
  if_pos h

omit [Mul T] in
theorem addRowInside_eq {base : ℕ} {f : ℕ → Option T} {g : ℕ → T}
    (hf : ∀ k < dim, f k = some (g k)) (hy : base + dim ≤ y.length) :
    addRowInside y base dim f = some (addRow y base dim g) := by
  refine foldlM_eq_some (fun y => base + dim ≤ y.length) (fun y hy k hk => ⟨?_, ?_⟩) hy
  · have hk : k < dim := List.mem_range.mp hk
    have hlt : base + k < y.length := by omega
    simp [hf k hk, addInside, addAt, hlt]
  · rwa [length_addAt]

omit [Add T] [Mul T] in
theorem map_getElem? {i : ℕ} (hi : i < x.length) (f : T → T) :
    x[i]?.map f = some (f (x.getD i 0)) := by
  simp [hi]

theorem timesRow_weigh (i : ℕ) : timesRow D x dim y i =
    if D.offset.getD i 0 = D.offset.getD (i + 1) 0 then y
    else (D.entries i).foldl (fun y j => addRow y (i * dim) dim fun k =>
      weigh D j (x.getD (addr (D.col j) dim + k) 0)) y := by
  cases hv : D.value with
  | some v => simp only [timesRow, weigh, hv]
  | none => simp only [timesRow, weigh, hv]

theorem transRow_weigh (rg : Range) (i : ℕ) : transRow D x dim rg y i =
    if D.offset.getD i 0 = D.offset.getD (i + 1) 0 then y
    else (D.entries i).foldl (fun y j =>
      if rg.has (D.col j) then addRow y (addr (D.col j) dim) dim fun k =>
        weigh D j (x.getD (i * dim + k) 0)
      else y) y := by
  cases hv : D.value with
  | some v => simp only [transRow, weigh, hv]
  | none => simp only [transRow, weigh, hv]

/-- The rows that the entries of `D` select are rows of an array of length `n`, and their
addresses do not wrap. -/
def Inside (D : RowBlock T) (dim n : ℕ) : Prop :=
  ∀ i < D.size, ∀ j ∈ D.entries i,
    addr (D.col j) dim = D.col j * dim ∧ D.col j * dim + dim ≤ n

omit [Zero T] [Add T] [Mul T] in
theorem Inside.of_length {m : ℕ} (h : Inside D dim n) (hm : m = D.size * dim) :
    Inside D (m / D.size) n := by
  intro i hi
  rw [hm, Nat.mul_div_cancel_left _ (Nat.zero_lt_of_lt hi)]
  exact h i hi

/-- `Times` keeps the length of `y`. -/
theorem length_of_times {team : Team} {y' : List T} (h : times team D x y = some y') :
    y'.length = y.length := by
  by_cases hsize : D.size = 0
  · simp only [times, hsize, if_true] at h
    split at h
    · exact congrArg List.length (Option.some.inj h).symm
    · cases h
  · obtain ⟨y'', hrun, hlen⟩ := times_total D x y team hsize
    rwa [Option.some.inj (h.symm.trans hrun)]

theorem timesRowInside_eq (h : Inside D dim x.length) {i : ℕ} (hi : i < D.size)
    (hy : D.size * dim ≤ y.length) :
    timesRowInside D x dim y i = some (timesRow D x dim y i) := by
  have hrow : i * dim + dim ≤ D.size * dim := by
    rw [← Nat.succ_mul]
    exact Nat.mul_le_mul_right dim hi
  rw [timesRowInside, timesRow_weigh]
  split
  · rfl
  · refine foldlM_eq_some (fun y => D.size * dim ≤ y.length) (fun y hy j hj => ⟨?_, ?_⟩) hy
    · obtain ⟨haddr, hin⟩ := h i hi j hj
      rw [exactAddr_eq haddr, Option.bind_some]
      refine addRowInside_eq (fun k hk => map_getElem? ?_ _) (by omega)
      omega
    · rwa [length_addRow]

/-- **`Times` inside its arrays.** -/
theorem timesInside_eq (team : Team) (h : Inside D (y.length / D.size) x.length) :
    timesInside team D x y = times team D x y := by
  have hsize : D.size * (y.length / D.size) ≤ y.length := Nat.mul_div_le _ _
  have hlen : D.size * (y.length / D.size) ≤
      (y.mapIdx fun k v => if k < D.size * (y.length / D.size) then 0 else v).length := by
    rwa [List.length_mapIdx]
  rw [timesInside, times]
  simp only [if_pos hsize, ← List.foldl_flatMap, team.flatMap_indices]
  split
  · rfl
  · split
    · rfl
    · rw [← team.flatMap_indices, List.foldl_flatMap]
      refine foldlM_eq_some (fun ys => D.size * (y.length / D.size) ≤ ys.length)
        (fun ys hys rg hrg => ⟨?_, ?_⟩) hlen
      · refine foldlM_eq_some (fun ys => D.size * (y.length / D.size) ≤ ys.length)
          (fun ys hys i hi => ⟨timesRowInside_eq h ?_ hys, ?_⟩) hys
        · have hmem := List.mem_flatMap.mpr ⟨rg, hrg, hi⟩
          rwa [team.flatMap_indices, List.mem_range] at hmem
        · rwa [length_timesRow]
      · rwa [length_foldl (length_timesRow D x _)]

theorem transRowInside_eq (h : Inside D dim y.length) (hx : D.size * dim ≤ x.length) (rg : Range)
    {i : ℕ} (hi : i < D.size) :
    transRowInside D x dim rg y i = some (transRow D x dim rg y i) := by
  have hrow : i * dim + dim ≤ D.size * dim := by
    rw [← Nat.succ_mul]
    exact Nat.mul_le_mul_right dim hi
  rw [transRowInside, transRow_weigh]
  split
  · rfl
  · refine foldlM_eq_some (fun ys => ys.length = y.length) (fun ys hys j hj => ?_) rfl
    obtain ⟨haddr, hin⟩ := h i hi j hj
    split
    · refine ⟨?_, by rw [length_addRow, hys]⟩
      rw [exactAddr_eq haddr, Option.bind_some]
      refine addRowInside_eq (fun k hk => map_getElem? ?_ _) (by omega)
      omega
    · exact ⟨rfl, hys⟩

/-- **`TransTimes` inside its arrays.** -/
theorem transTimesInside_eq [BEq T] (team : Team) (p : T) (z : List T)
    (h : Inside D (x.length / D.size) y.length) :
    transTimesInside team D x p z y = transTimes team D x p z y := by
  have hsize : D.size * (x.length / D.size) ≤ x.length := Nat.mul_div_le _ _
  rw [transTimesInside, transTimes]
  split
  · rfl
  · split
    · rfl
    · simp only
      split
      · rfl
      · refine foldlM_eq_some (fun ys => ys.length = y.length) (fun ys hys rg _ => ⟨?_, ?_⟩) ?_
        · refine foldlM_eq_some (fun ys => ys.length = y.length) (fun ys hys i hi => ⟨?_, ?_⟩) hys
          · exact transRowInside_eq (hys ▸ h) hsize rg (List.mem_range.mp hi)
          · rw [length_transRow, hys]
        · rw [length_transThread, hys]
        · split
          · next hz => rw [List.length_map, hz.1]
          · rw [List.length_replicate]

end Spec

end Difacto.Base.SpMM
