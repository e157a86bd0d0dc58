import Difacto.Base.SpMV

/-!
# Sparse matrix dense matrix products

`SpMM` of `base/spmm.h`. A dense matrix is an array of rows of length `dim`. The address
of a row that an entry selects is computed in 32 bits, as `D.index[j] * dim` is in the
source; division by zero is `none`.

## Main definitions

* `SpMM.times`, `SpMM.transTimes`.

## Main results

* `SpMM.getD_times`, `SpMM.getD_transTimes` — the products, where no address wraps.
-/

namespace Difacto.Base

open Lib

namespace SpMM

variable {T : Type}

/-- `D.index[j] * dim`, an `unsigned`. -/
def addr (e dim : ℕ) : ℕ := e * dim % 2 ^ 32

section Code

variable [Zero T] [Add T] [Mul T]

/-- `for (int k = 0; k < dim; ++k) y[base + k] += f(k)`. -/
def addRow (y : List T) (base dim : ℕ) (f : ℕ → T) : List T :=
  (List.range dim).foldl (fun y k => addAt y (base + k) (f k)) y

/-- One row of `Times`. -/
def timesRow (D : RowBlock T) (x : List T) (dim : ℕ) (y : List T) (i : ℕ) : List T :=
  if D.offset.getD i 0 = D.offset.getD (i + 1) 0 then y
  else
    match D.value with
    | some v => (D.entries i).foldl (fun y j => addRow y (i * dim) dim fun k =>
        x.getD (addr (D.col j) dim + k) 0 * v.getD j 0) y
    | none => (D.entries i).foldl (fun y j => addRow y (i * dim) dim fun k =>
        x.getD (addr (D.col j) dim + k) 0) y

/-- `Times`: y = D * x. -/
def times (team : Team) (D : RowBlock T) (x y : List T) : Option (List T) :=
  if x.isEmpty then some y
  else if D.size = 0 then none
  else
    let dim := y.length / D.size
    let y := y.mapIdx fun k v => if k < D.size * dim then 0 else v
    some ((team.segments D.size).foldl (fun y rg => rg.indices.foldl (timesRow D x dim) y) y)

/-- One row of `TransTimes`, in the thread of `rg`. -/
def transRow (D : RowBlock T) (x : List T) (dim : ℕ) (rg : Range) (y : List T) (i : ℕ) :
    List T :=
  if D.offset.getD i 0 = D.offset.getD (i + 1) 0 then y
  else
    match D.value with
    | some v => (D.entries i).foldl (fun y j =>
        if rg.has (D.col j) then
          addRow y (addr (D.col j) dim) dim fun k => x.getD (i * dim + k) 0 * v.getD j 0
        else y) y
    | none => (D.entries i).foldl (fun y j =>
        if rg.has (D.col j) then
          addRow y (addr (D.col j) dim) dim fun k => x.getD (i * dim + k) 0
        else y) y

/-- The thread of `rg`. -/
def transThread (D : RowBlock T) (x : List T) (dim : ℕ) (y : List T) (rg : Range) : List T :=
  (List.range D.size).foldl (transRow D x dim rg) y

/-- `TransTimes`: y = D^T * x + p * z. Without a `z` of the right size, or with `p == 0`,
`y` starts at zero. -/
def transTimes [BEq T] (team : Team) (D : RowBlock T) (x : List T) (p : T) (z y : List T) :
    Option (List T) :=
  if x.isEmpty then some y
  else if D.size = 0 then none
  else
    let dim := x.length / D.size
    if dim = 0 then none
    else
      let y₀ := if z.length = y.length ∧ (p != 0) = true then z.map (· * p)
        else List.replicate y.length 0
      some ((team.segments (y.length / dim)).foldl (transThread D x dim) y₀)

/-! Whatever the numbers are, the kernels keep the length of `y`. -/

section Length

variable (D : RowBlock T) (x : List T) (dim : ℕ) (y : List T)

omit [Mul T] in
theorem addRow_eq (base : ℕ) (f : ℕ → T) : addRow y base dim f = scatter y (block base dim f) := by
  rw [addRow, scatter, block, List.foldl_map]

omit [Mul T] in
theorem length_addRow (base : ℕ) (f : ℕ → T) : (addRow y base dim f).length = y.length :=
  length_foldl (fun y k => length_addAt y (base + k) (f k)) _ y

theorem length_timesRow (i : ℕ) : (timesRow D x dim y i).length = y.length := by
  rw [timesRow]
  split
  · rfl
  · split
    · exact length_foldl (fun y _ => length_addRow dim y _ _) _ y
    · exact length_foldl (fun y _ => length_addRow dim y _ _) _ y

theorem length_transRow (rg : Range) (i : ℕ) : (transRow D x dim rg y i).length = y.length := by
  have hturn : ∀ (c : ℕ → ℕ → T) (y : List T) (j : ℕ),
      (if rg.has (D.col j) then addRow y (addr (D.col j) dim) dim (c j) else y).length =
        y.length := by
    intro c y j
    split
    · exact length_addRow dim y _ _
    · rfl
  rw [transRow]
  split
  · rfl
  · split
    · exact length_foldl (hturn _) _ y
    · exact length_foldl (hturn _) _ y

theorem length_transThread (rg : Range) : (transThread D x dim y rg).length = y.length := by
  rw [transThread, length_foldl fun y i => length_transRow D x dim y rg i]

theorem times_total (team : Team) (hsize : D.size ≠ 0) :
    ∃ y', times team D x y = some y' ∧ y'.length = y.length := by
  rw [times]
  split
  · exact ⟨y, rfl, rfl⟩
  · simp only [← List.foldl_flatMap]
    refine ⟨_, rfl, ?_⟩
    rw [length_foldl (length_timesRow D x _), List.length_mapIdx]

theorem transTimes_total [BEq T] (team : Team) (p : T) (z : List T) (hsize : D.size ≠ 0)
    (hdim : dim ≠ 0) (hx : x.length = D.size * dim) :
    ∃ y', transTimes team D x p z y = some y' ∧ y'.length = y.length := by
  have hdiv : x.length / D.size = dim := by
    rw [hx, Nat.mul_div_cancel_left _ (Nat.pos_of_ne_zero hsize)]
  rw [transTimes]
  split
  · exact ⟨y, rfl, rfl⟩
  · simp only [hdiv, if_neg hdim]
    refine ⟨_, rfl, ?_⟩
    rw [length_foldl (length_transThread D x dim)]
    split
    · rename_i hz
      rw [List.length_map, hz.1]
    · rw [List.length_replicate]

end Length

end Code

section Spec

variable [CommRing T] (D : RowBlock T) (x : List T) (dim : ℕ) (y : List T)

omit [CommRing T] in
/-- An element lies in one row only. -/
theorem block_iff {e e' k : ℕ} (hk : k < dim) :
    e' * dim ≤ e * dim + k ∧ e * dim + k < e' * dim + dim ↔ e' = e := by
  constructor
  · rintro ⟨hle, hlt⟩
    have h₁ : e' * dim < (e + 1) * dim := by
      rw [Nat.add_mul, Nat.one_mul]
      omega
    have h₂ : e * dim < (e' + 1) * dim := by
      rw [Nat.add_mul, Nat.one_mul]
      omega
    have h₁' := Nat.lt_of_mul_lt_mul_right h₁
    have h₂' := Nat.lt_of_mul_lt_mul_right h₂
    omega
  · rintro rfl
    omega

/-- What one row adds. -/
theorem timesRow_eq (i : ℕ) : timesRow D x dim y i = scatter y ((D.row i).flatMap fun a =>
    block (i * dim) dim fun k => x.getD (addr a.1 dim + k) 0 * a.2) := by
  have hloop : ∀ (js : List ℕ) (c : ℕ → List (ℕ × T)) (y : List T),
      js.foldl (fun y j => scatter y (c j)) y = scatter y (js.flatMap c) := by
    intro js c y
    simpa using foldl_scatter js (fun _ => True) c y
  rw [RowBlock.row, List.flatMap_map, timesRow]
  split
  · rename_i hempty
    rw [D.entries_eq_nil hempty]
    rfl
  · cases hv : D.value with
    | some v => simp only [addRow_eq, hloop, RowBlock.coef, hv]
    | none => simp only [addRow_eq, hloop, RowBlock.coef, hv, mul_one]

/-- **`y = D * x`**, whatever `y` held before. -/
theorem getD_times (team : Team) (hsize : D.size ≠ 0) (hx : x ≠ [])
    (hy : y.length = D.size * dim) : ∃ y', times team D x y = some y' ∧
    y'.length = D.size * dim ∧ ∀ i < D.size, ∀ k < dim, y'.getD (i * dim + k) 0 =
      ((D.row i).map fun a => x.getD (addr a.1 dim + k) 0 * a.2).sum := by
  have hdim : y.length / D.size = dim := by
    rw [hy, Nat.mul_div_cancel_left _ (Nat.pos_of_ne_zero hsize)]
  have hclear : (y.mapIdx fun k v => if k < D.size * dim then 0 else v) =
      List.replicate (D.size * dim) 0 := by
    refine List.ext_getElem (by simpa using hy) fun k hk _ => ?_
    have hlt : k < D.size * dim := by rwa [List.length_mapIdx, hy] at hk
    simp [hlt]
  have hempty : x.isEmpty = false := by simpa using hx
  have hrows : (List.range D.size).foldl (timesRow D x dim) (List.replicate (D.size * dim) 0) =
      (List.range D.size).foldl (fun y i => scatter y ((D.row i).flatMap fun a =>
        block (i * dim) dim fun k => x.getD (addr a.1 dim + k) 0 * a.2))
          (List.replicate (D.size * dim) 0) := by
    congr 1
    funext y i
    exact timesRow_eq D x dim y i
  rw [times, hempty, if_neg (by simp), if_neg hsize]
  simp only [hdim, hclear, ← List.foldl_flatMap, team.flatMap_indices, hrows]
  refine ⟨_, rfl, ?_, fun i hi k hk => ?_⟩
  · rw [length_foldl fun ys j => length_scatter ys _, List.length_replicate]
  · have hlt : i * dim + k < (List.replicate (D.size * dim) (0 : T)).length := by
      rw [List.length_replicate]
      calc i * dim + k < (i + 1) * dim := by rw [Nat.add_mul, Nat.one_mul]; omega
        _ ≤ D.size * dim := Nat.mul_le_mul_right dim hi
    rw [getD_foldl_scatter _ _ _ _ hlt]
    simp only [sum_map_flatMap, sum_block, block_iff dim hk]
    rw [Finset.sum_eq_single_of_mem i (Finset.mem_range.mpr hi)]
    · simp only [if_true, Nat.add_sub_cancel_left, getD_zeros, zero_add]
    · intro i' _ hne
      simp [hne]

/-- What one row adds, in the thread of `rg`. -/
theorem transRow_eq (rg : Range) (i : ℕ) : transRow D x dim rg y i = scatter y
    (((D.row i).filter fun a => rg.has a.1).flatMap fun a =>
      block (addr a.1 dim) dim fun k => x.getD (i * dim + k) 0 * a.2) := by
  have hrow : ((D.row i).filter fun a => rg.has a.1).flatMap
      (fun a => block (addr a.1 dim) dim fun k => x.getD (i * dim + k) 0 * a.2) =
        ((D.entries i).filter fun j => rg.has (D.col j)).flatMap fun j =>
          block (addr (D.col j) dim) dim fun k => x.getD (i * dim + k) 0 * D.coef j := by
    rw [RowBlock.row, List.filter_map, List.flatMap_map]
    rfl
  rw [hrow, transRow]
  split
  · rename_i hempty
    rw [D.entries_eq_nil hempty]
    rfl
  · cases hv : D.value with
    | some v => simp only [addRow_eq, foldl_scatter, RowBlock.coef, hv]
    | none => simp only [addRow_eq, foldl_scatter, RowBlock.coef, hv, mul_one]

/-- What the rows add to an element, if it belongs to the thread. -/
theorem getD_transThread (haddr : ∀ i < D.size, ∀ a ∈ D.row i, addr a.1 dim = a.1 * dim)
    (rg : Range) {e k : ℕ} (hk : k < dim) (hlt : e * dim + k < y.length) :
    (transThread D x dim y rg).getD (e * dim + k) 0 = if rg.has e then
      y.getD (e * dim + k) 0 + ∑ i ∈ Finset.range D.size, ((D.row i).map fun a =>
        if a.1 = e then x.getD (i * dim + k) 0 * a.2 else 0).sum
    else y.getD (e * dim + k) 0 := by
  have hrows : transThread D x dim y rg = (List.range D.size).foldl (fun y i => scatter y
      (((D.row i).filter fun a => rg.has a.1).flatMap fun a =>
        block (addr a.1 dim) dim fun k => x.getD (i * dim + k) 0 * a.2)) y := by
    rw [transThread]
    congr 1
    funext y i
    exact transRow_eq D x dim y rg i
  have hsum : ∀ i < D.size, (((((D.row i).filter fun a => rg.has a.1).flatMap fun a =>
      block (addr a.1 dim) dim fun k => x.getD (i * dim + k) 0 * a.2)).map
        fun c => if c.1 = e * dim + k then c.2 else 0).sum =
      if rg.has e then ((D.row i).map fun a =>
        if a.1 = e then x.getD (i * dim + k) 0 * a.2 else 0).sum else 0 := by
    intro i hi
    rw [sum_map_flatMap, ← Range.sum_filter_has]
    congr 1
    refine List.map_congr_left fun a ha => ?_
    rw [haddr i hi a (List.mem_of_mem_filter ha), sum_block]
    simp only [block_iff dim hk]
    split
    · rename_i he
      rw [he, Nat.add_sub_cancel_left]
    · rfl
  rw [hrows, getD_foldl_scatter _ _ _ _ hlt,
    Finset.sum_congr rfl fun i hi => hsum i (Finset.mem_range.mp hi)]
  by_cases hown : rg.has e
  · simp only [hown, if_true]
  · simp only [hown, if_false, Finset.sum_const_zero, add_zero]

/-- **`y = D^T * x + p * z`**. -/
theorem getD_transTimes [BEq T] (team : Team) (p : T) (z : List T) (hsize : D.size ≠ 0)
    (hdim : dim ≠ 0) (hx : x.length = D.size * dim)
    (haddr : ∀ i < D.size, ∀ a ∈ D.row i, addr a.1 dim = a.1 * dim) {m : ℕ}
    (hy : y.length = m * dim) : ∃ y', transTimes team D x p z y = some y' ∧
    y'.length = y.length ∧ ∀ e < m, ∀ k < dim, y'.getD (e * dim + k) 0 =
      (if z.length = y.length ∧ (p != 0) = true then z.getD (e * dim + k) 0 * p else 0) +
        ∑ i ∈ Finset.range D.size, ((D.row i).map fun a =>
          if a.1 = e then x.getD (i * dim + k) 0 * a.2 else 0).sum := by
  have hpos : 0 < dim := Nat.pos_of_ne_zero hdim
  have hx' : x.length / D.size = dim := by
    rw [hx, Nat.mul_div_cancel_left _ (Nat.pos_of_ne_zero hsize)]
  have hy' : y.length / dim = m := by rw [hy, Nat.mul_div_cancel _ hpos]
  have hempty : x.isEmpty = false := by
    have hne : x.length ≠ 0 := hx ▸ Nat.mul_ne_zero hsize hdim
    rwa [List.isEmpty_eq_false_iff, ← List.length_pos_iff, Nat.pos_iff_ne_zero]
  set y₀ : List T := if z.length = y.length ∧ (p != 0) = true then z.map (· * p)
    else List.replicate y.length 0 with hy₀
  have hlen₀ : y₀.length = y.length := by
    rw [hy₀]
    split
    · rename_i hz
      rw [List.length_map, hz.1]
    · rw [List.length_replicate]
  have hget₀ : ∀ t, y₀.getD t 0 =
      if z.length = y.length ∧ (p != 0) = true then z.getD t 0 * p else 0 := by
    intro t
    rw [hy₀]
    split
    · rw [getD_map_of_zero z (· * p) (zero_mul p)]
    · rw [getD_zeros]
  rw [transTimes, hempty, if_neg (by simp), if_neg hsize]
  simp only [hx', if_neg hdim, hy', ← hy₀]
  refine ⟨_, rfl, ?_, fun e he k hk => ?_⟩
  · rw [length_foldl (length_transThread D x dim), hlen₀]
  · have hlt : e * dim + k < y₀.length := by
      rw [hlen₀, hy]
      calc e * dim + k < (e + 1) * dim := by rw [Nat.add_mul, Nat.one_mul]; omega
        _ ≤ m * dim := Nat.mul_le_mul_right dim he
    rw [← hget₀]
    exact getD_foldl_once (fun v => v + _) (length_transThread D x dim)
      (fun y rg hlt => getD_transThread D x dim y haddr rg hk hlt) (team.countP_has m he) y₀ hlt

omit [CommRing T] in
/-- Addresses of rows of length one do not wrap. -/
theorem addr_one [Zero T] [One T] (hunsigned : ∀ e ∈ D.index, e < 2 ^ 32) {i : ℕ}
    {a : ℕ × T} (ha : a ∈ D.row i) : addr a.1 1 = a.1 := by
  obtain ⟨j, -, rfl⟩ := List.mem_map.mp ha
  rw [addr, Nat.mul_one]
  refine Nat.mod_eq_of_lt ?_
  rw [RowBlock.col]
  by_cases hj : j < D.index.length
  · rw [List.getD_eq_getElem _ _ hj]
    exact hunsigned _ (List.getElem_mem hj)
  · rw [List.getD_eq_default _ _ (not_lt.mp hj)]
    norm_num

/-- **The two forward products leave the same `y = D * x`** if and only if `y` held zero for every
empty row: `SpMV` passes over them. -/
theorem times_agree_iff (team : Team) (_ : D.Valid x.length)
    (hunsigned : ∀ e ∈ D.index, e < 2 ^ 32) (hsize : D.size ≠ 0) (hx : x ≠ [])
    (hy : y.length = D.size) :
    (∃ y', SpMV.times team D x y = some y' ∧ times team D x y = some y' ∧
      y'.length = D.size ∧
      ∀ i < D.size, y'.getD i 0 = ((D.row i).map fun a => x.getD a.1 0 * a.2).sum) ↔
    ∀ i < D.size, D.offset.getD i 0 = D.offset.getD (i + 1) 0 → y.getD i 0 = 0 := by
  obtain ⟨y₁, hrun₁, hlen₁, hget₁⟩ := SpMV.getD_times D x y team hy
  obtain ⟨y₂, hrun₂, hlen₂, hget₂⟩ := getD_times D x 1 y team hsize hx (by rw [hy, Nat.mul_one])
  have hsum : ∀ i < D.size, y₂.getD i 0 = ((D.row i).map fun a => x.getD a.1 0 * a.2).sum := by
    intro i hi
    have hrow := hget₂ i hi 0 Nat.one_pos
    rw [Nat.mul_one, Nat.add_zero] at hrow
    rw [hrow]
    congr 1
    refine List.map_congr_left fun a ha => ?_
    rw [addr_one D hunsigned ha, Nat.add_zero]
  constructor
  · rintro ⟨y', hrun, -, -, hget⟩ i hi hempty
    obtain rfl := Option.some.inj (hrun₁.symm.trans hrun)
    have hkept := hget₁ i hi
    rw [if_pos hempty, hget i hi, RowBlock.row, D.entries_eq_nil hempty] at hkept
    exact hkept.symm
  · intro hzero
    have hsame : y₁ = y₂ := by
      refine List.ext_getElem (hlen₁.trans (hlen₂.trans (Nat.mul_one _)).symm) fun i h₁ h₂ => ?_
      have hi : i < D.size := hlen₁ ▸ h₁
      rw [← List.getD_eq_getElem _ 0 h₁, ← List.getD_eq_getElem _ 0 h₂, hsum i hi, hget₁ i hi]
      split
      · next hempty => rw [hzero i hi hempty, RowBlock.row, D.entries_eq_nil hempty]; rfl
      · rfl
    exact ⟨y₁, hrun₁, hsame ▸ hrun₂, hlen₁, fun i hi => hsame ▸ hsum i hi⟩

/-- A row with one entry, and an empty row. -/
def oneEntry : RowBlock ℤ :=
  { size := 2, offset := [0, 1, 1], label := [1, -1], index := [0], value := some [2] }

theorem oneEntry_valid : oneEntry.Valid 1 where
  length_offset := rfl
  offset_mono := by decide
  length_label := rfl
  length_index := by decide
  length_value := by
    rintro v ⟨rfl⟩
    decide
  col_lt := by decide

theorem times_agree_oneEntry : ∃ y',
    SpMV.times (.exact 2 (by decide) (by decide)) oneEntry [3] [7, 0] = some y' ∧
    times (.exact 2 (by decide) (by decide)) oneEntry [3] [7, 0] = some y' ∧ y'.length = 2 ∧
    ∀ i < 2, y'.getD i 0 = ((oneEntry.row i).map fun a => [3].getD a.1 0 * a.2).sum :=
  (times_agree_iff oneEntry [3] [7, 0] _ oneEntry_valid (by decide) (by decide) (by decide)
    rfl).mpr (by decide)

/-- **The products differ** where `y` holds 5 for the empty row. -/
theorem times_differ : ¬ ∃ y',
    SpMV.times (.exact 2 (by decide) (by decide)) oneEntry [3] [7, 5] = some y' ∧
    times (.exact 2 (by decide) (by decide)) oneEntry [3] [7, 5] = some y' ∧ y'.length = 2 ∧
    ∀ i < 2, y'.getD i 0 = ((oneEntry.row i).map fun a => [3].getD a.1 0 * a.2).sum := by
  rintro ⟨y', hrun, -, -, hget⟩
  obtain ⟨y₁, hrun₁, -, hget₁⟩ := SpMV.getD_times oneEntry [3] [7, 5]
    (.exact 2 (by decide) (by decide)) rfl
  obtain rfl := Option.some.inj (hrun₁.symm.trans hrun)
  exact absurd ((hget 1 (by decide)).symm.trans (hget₁ 1 (by decide))) (by decide)

end Spec

end SpMM

end Difacto.Base
