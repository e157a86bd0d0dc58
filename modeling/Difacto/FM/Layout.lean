import Difacto.FM.Loss

/-!
# Where the model lies

The model of a minibatch is one array with `model_siz[f]` elements for feature `f`: its
weight, then its embedding. `Data::Load` walks over it in two ways and `Data::Save` writes
back; here is where they find a feature. All positions are `unsigned`; the `CHECK` at the
end of both walks makes them exact.

## Main definitions

* `start` — where the elements of a feature begin.
* `embedded`, `rank` — the features with an embedding, and the number of one among them.

## Main results

* `Data.scanW_eq`, `Data.scanV_eq` — what the walks find.
* `Data.row_pickedBlock` — the picked columns.
* `Data.mem_writesW`, `Data.mem_writesV` — what is written.
-/

namespace Difacto.FM

open Base Lib

variable {T : Type}

/-- Where the elements of feature `f` begin. -/
def start (siz : List ℕ) (f : ℕ) : ℕ := (siz.take f).sum

/-- The features with an embedding. -/
def embedded (dim : ℕ) (siz : List ℕ) : List ℕ :=
  (List.range siz.length).filter fun f => siz.getD f 0 = dim + 1

/-- How many of them come before `f`. -/
def rank (dim : ℕ) (siz : List ℕ) (f : ℕ) : ℕ := (siz.take f).count (dim + 1)

/-- The weight of a feature; one without elements has weight 0. -/
def weightOf [Zero T] (model : List T) (siz : List ℕ) (f : ℕ) : T :=
  if siz.getD f 0 = 0 then 0 else model.getD (start siz f) 0

/-- Coordinate `k` of the embedding of a feature. -/
def embOf [Zero T] (model : List T) (siz : List ℕ) (f k : ℕ) : T :=
  model.getD (start siz f + 1 + k) 0

section Lists

variable {dim : ℕ} {siz : List ℕ} {s f : ℕ}

theorem getD_snoc_lt (hf : f < siz.length) : (siz ++ [s]).getD f 0 = siz.getD f 0 :=
  List.getD_append _ _ _ _ hf

theorem getD_snoc_last : (siz ++ [s]).getD siz.length 0 = s := by
  rw [List.getD_append_right _ _ _ _ le_rfl, Nat.sub_self]
  rfl

theorem start_snoc (hf : f ≤ siz.length) : start (siz ++ [s]) f = start siz f := by
  rw [start, start, List.take_append_of_le_length hf]

theorem rank_snoc (hf : f ≤ siz.length) : rank dim (siz ++ [s]) f = rank dim siz f := by
  rw [rank, rank, List.take_append_of_le_length hf]

theorem start_length : start siz siz.length = siz.sum := by
  rw [start, List.take_length]

theorem rank_length : rank dim siz siz.length = siz.count (dim + 1) := by
  rw [rank, List.take_length]

/-- A table of all features, with one more feature. -/
theorem map_range_snoc {α : Type} {g g' : ℕ → α} (h : ∀ f < siz.length, g' f = g f) :
    (List.range (siz ++ [s]).length).map g' =
      (List.range siz.length).map g ++ [g' siz.length] := by
  rw [List.length_append, List.length_singleton, List.range_succ, List.map_append]
  congr 1
  exact List.map_congr_left fun f hf => h f (List.mem_range.mp hf)

theorem embedded_snoc : embedded dim (siz ++ [s]) =
    embedded dim siz ++ if s = dim + 1 then [siz.length] else [] := by
  rw [embedded, embedded, List.length_append, List.length_singleton, List.range_succ,
    List.filter_append]
  congr 1
  · exact List.filter_congr fun f hf => by rw [getD_snoc_lt (List.mem_range.mp hf)]
  · rw [List.filter_singleton, getD_snoc_last]
    split <;> simp_all

theorem mem_embedded : f ∈ embedded dim siz ↔ siz.getD f 0 = dim + 1 := by
  rw [embedded, List.mem_filter, List.mem_range, decide_eq_true_eq, and_iff_right_iff_imp]
  intro hf
  by_contra hge
  rw [List.getD_eq_default _ _ (by omega)] at hf
  omega

theorem length_embedded : (embedded dim siz).length = siz.count (dim + 1) := by
  induction siz using List.reverseRecOn with
  | nil => rfl
  | append_singleton siz s ih =>
      rw [embedded_snoc, List.length_append, ih, List.count_append]
      by_cases hs : s = dim + 1
      · simp [hs]
      · simp [hs]

/-- The number of a feature leads back to it. -/
theorem getElem?_embedded (hf : f ∈ embedded dim siz) :
    (embedded dim siz)[rank dim siz f]? = some f := by
  induction siz using List.reverseRecOn with
  | nil => cases hf
  | append_singleton siz s ih =>
      rw [embedded_snoc] at hf ⊢
      rcases List.mem_append.mp hf with hold | hnew
      · have hlt : f < siz.length := by
          rw [embedded, List.mem_filter, List.mem_range] at hold
          exact hold.1
        have hget := ih hold
        rw [rank_snoc hlt.le, List.getElem?_append_left, hget]
        exact (List.getElem?_eq_some_iff.mp hget).1
      · by_cases hs : s = dim + 1
        · rw [if_pos hs, List.mem_singleton] at hnew
          subst hnew
          rw [rank_snoc le_rfl, rank_length, if_pos hs, List.getElem?_append_right
            (by rw [length_embedded]), length_embedded, Nat.sub_self]
          rfl
        · rw [if_neg hs] at hnew
          cases hnew

/-- Only its number leads to a feature. -/
theorem rank_unique {r : ℕ} (hr : (embedded dim siz)[r]? = some f) : r = rank dim siz f := by
  have hnodup : (embedded dim siz).Nodup := List.nodup_range.filter _
  have hlt : r < (embedded dim siz).length := (List.getElem?_eq_some_iff.mp hr).1
  have hrank := getElem?_embedded (List.mem_of_getElem? hr)
  exact (List.getElem?_inj hlt hnodup).mp (hr.trans hrank.symm)

theorem rank_inj {f' : ℕ} (hf : siz.getD f 0 = dim + 1) (hf' : siz.getD f' 0 = dim + 1) :
    rank dim siz f = rank dim siz f' ↔ f = f' := by
  refine ⟨fun heq => ?_, fun heq => heq ▸ rfl⟩
  have hget := getElem?_embedded (mem_embedded.mpr hf)
  rw [heq, getElem?_embedded (mem_embedded.mpr hf')] at hget
  exact (Option.some.inj hget).symm

theorem start_succ (f : ℕ) : start siz (f + 1) = start siz f + siz.getD f 0 := by
  rw [start, start, List.getD_eq_getElem?_getD]
  by_cases hf : f < siz.length
  · rw [List.take_add_one, List.sum_append]
    simp [hf]
  · rw [List.take_of_length_le (by omega), List.take_of_length_le (by omega),
      List.getElem?_eq_none (by omega)]
    rfl

theorem start_mono {siz : List ℕ} {f f' : ℕ} (h : f ≤ f') : start siz f ≤ start siz f' := by
  obtain ⟨m, rfl⟩ := Nat.exists_eq_add_of_le h
  clear h
  induction m with
  | zero => exact le_rfl
  | succ m ih =>
      rw [← Nat.add_assoc, start_succ]
      omega

/-- The elements of a feature lie in the model. -/
theorem start_add_le : start siz f + siz.getD f 0 ≤ siz.sum := by
  rw [← start_succ]
  calc start siz (f + 1) ≤ start siz (max (f + 1) siz.length) := start_mono (le_max_left _ _)
    _ = siz.sum := by rw [start, List.take_of_length_le (le_max_right _ _)]

/-- Features do not overlap. -/
theorem start_inj {f' j j' : ℕ} (hj : j < siz.getD f 0) (hj' : j' < siz.getD f' 0)
    (heq : start siz f + j = start siz f' + j') : f = f' ∧ j = j' := by
  rcases Nat.lt_trichotomy f f' with hlt | rfl | hlt
  · have hle : start siz (f + 1) ≤ start siz f' := start_mono hlt
    rw [start_succ] at hle
    omega
  · omega
  · have hle : start siz (f' + 1) ≤ start siz f := start_mono hlt
    rw [start_succ] at hle
    omega

/-- A sum over the model, feature by feature. -/
theorem sum_elements {M : Type*} [AddCommMonoid M] (F : ℕ → M) (n : ℕ) :
    ∑ s ∈ Finset.range (start siz n), F s =
      ∑ f ∈ Finset.range n, ∑ j ∈ Finset.range (siz.getD f 0), F (start siz f + j) := by
  induction n with
  | zero => simp [start]
  | succ n ih => rw [start_succ, Finset.sum_range_add, ih, Finset.sum_range_succ]

theorem start_cons (n : ℕ) (siz : List ℕ) (f : ℕ) : start (n :: siz) (f + 1) = n + start siz f := by
  rw [start, List.take_succ_cons, List.sum_cons, start]

/-- The elements of a feature in an array that has the features one after the other. -/
theorem getD_flatten [Zero T] (vs : List (List T)) {f : ℕ} {v : List T} (hv : vs[f]? = some v)
    {j : ℕ} (hj : j < v.length) :
    vs.flatten.getD (start (vs.map List.length) f + j) 0 = v.getD j 0 := by
  induction vs generalizing f with
  | nil => simp at hv
  | cons u vs ih =>
      rw [List.flatten_cons]
      cases f with
      | zero =>
          rw [List.getElem?_cons_zero, Option.some.injEq] at hv
          subst hv
          rw [start, List.take_zero, List.sum_nil, Nat.zero_add, List.getD_append _ _ _ _ hj]
      | succ f =>
          rw [List.map_cons, start_cons, List.getD_append_right _ _ _ _ (by omega),
            show u.length + start (vs.map List.length) f + j - u.length =
              start (vs.map List.length) f + j by omega]
          exact ih (by simpa using hv)

theorem count_mul_le : siz.count (dim + 1) * (dim + 1) ≤ siz.sum := by
  induction siz with
  | nil => simp
  | cons s siz ih =>
      rw [List.count_cons, List.sum_cons]
      by_cases hs : s = dim + 1
      · rw [if_pos (by simpa using hs), Nat.add_mul, Nat.one_mul]
        omega
      · rw [if_neg (by simpa using hs), Nat.add_zero]
        omega

theorem rank_lt (hf : f ∈ embedded dim siz) : rank dim siz f < siz.count (dim + 1) := by
  rw [← length_embedded]
  exact (List.getElem?_eq_some_iff.mp (getElem?_embedded hf)).1

end Lists

namespace Data

/-! ## The two walks -/

/-- `pos` of w. -/
def posW (siz : List ℕ) (f : ℕ) : ℕ := if siz.getD f 0 = 0 then noPos else start siz f % 2 ^ 32

/-- `weight` of w. -/
def weightW [Zero T] (model : List T) (siz : List ℕ) (f : ℕ) : T :=
  if siz.getD f 0 = 0 then 0 else model.getD (start siz f % 2 ^ 32) 0

/-- `col_map` of V. -/
def colOf (dim : ℕ) (siz : List ℕ) (f : ℕ) : ℕ :=
  if siz.getD f 0 = dim + 1 then (rank dim siz f + 1) % 2 ^ 32 else 0

theorem scanW_eq [Zero T] (model : List T) (siz : List ℕ) :
    siz.foldl (scanW model) { pos := [], weight := [], p := 0 } =
      { pos := (List.range siz.length).map (posW siz)
        weight := (List.range siz.length).map (weightW model siz)
        p := siz.sum % 2 ^ 32 } := by
  induction siz using List.reverseRecOn with
  | nil => rfl
  | append_singleton siz s ih =>
      have hpos : (List.range (siz ++ [s]).length).map (posW (siz ++ [s])) =
          (List.range siz.length).map (posW siz) ++ [posW (siz ++ [s]) siz.length] :=
        map_range_snoc fun f hf => by rw [posW, posW, getD_snoc_lt hf, start_snoc hf.le]
      have hweight : (List.range (siz ++ [s]).length).map (weightW model (siz ++ [s])) =
          (List.range siz.length).map (weightW model siz) ++
            [weightW model (siz ++ [s]) siz.length] :=
        map_range_snoc fun f hf => by rw [weightW, weightW, getD_snoc_lt hf, start_snoc hf.le]
      rw [List.foldl_append, List.foldl_cons, List.foldl_nil, ih, hpos, hweight, posW, weightW,
        getD_snoc_last, start_snoc le_rfl, start_length, List.sum_append, List.sum_singleton, scanW]
      split
      · rename_i hs
        simp [hs]
      · simp

theorem scanV_eq (dim : ℕ) (siz : List ℕ) :
    siz.foldl (scanV dim) { pos := [], colMap := [], k := 0, p := 0 } =
      { pos := (embedded dim siz).map fun f => (start siz f + 1) % 2 ^ 32
        colMap := (List.range siz.length).map (colOf dim siz)
        k := siz.count (dim + 1) % 2 ^ 32
        p := siz.sum % 2 ^ 32 } := by
  induction siz using List.reverseRecOn with
  | nil => rfl
  | append_singleton siz s ih =>
      have hpos : (embedded dim siz).map (fun f => (start (siz ++ [s]) f + 1) % 2 ^ 32) =
          (embedded dim siz).map fun f => (start siz f + 1) % 2 ^ 32 := by
        refine List.map_congr_left fun f hf => ?_
        rw [embedded, List.mem_filter, List.mem_range] at hf
        rw [start_snoc hf.1.le]
      have hcol : (List.range (siz ++ [s]).length).map (colOf dim (siz ++ [s])) =
          (List.range siz.length).map (colOf dim siz) ++ [colOf dim (siz ++ [s]) siz.length] :=
        map_range_snoc fun f hf => by rw [colOf, colOf, getD_snoc_lt hf, rank_snoc hf.le]
      rw [List.foldl_append, List.foldl_cons, List.foldl_nil, ih, hcol, colOf, getD_snoc_last,
        rank_snoc le_rfl, rank_length, embedded_snoc, List.map_append, hpos, List.sum_append,
        List.sum_singleton, List.count_append, scanV]
      split
      · rename_i hs
        simp [hs, start_snoc, start_length]
      · rename_i hs
        simp [hs]

/-! ## The picked columns -/

section Pick

variable [Zero T] (data : RowBlock T) (colMap : List ℕ)

/-- The entries of row `i` that are picked. -/
def sel (i : ℕ) : List ℕ := (data.entries i).filter fun j => 0 < colMap.getD (data.col j) 0

/-- The entries of the first `n` rows that are picked. -/
def sels (n : ℕ) : List ℕ := (List.range n).flatMap (sel data colMap)

omit [Zero T] in
theorem sels_succ (n : ℕ) :
    sels data colMap (n + 1) = sels data colMap n ++ sel data colMap n := by
  rw [sels, List.range_succ, List.flatMap_append, List.flatMap_singleton, sels]

omit [Zero T] in
/-- The picked entries of a row among all of them. -/
theorem sels_split {i n : ℕ} (hi : i < n) : ∃ rest,
    sels data colMap n = sels data colMap i ++ sel data colMap i ++ rest := by
  obtain ⟨m, rfl⟩ := Nat.exists_eq_add_of_lt hi
  induction m with
  | zero => exact ⟨[], by rw [Nat.add_zero, sels_succ, List.append_nil]⟩
  | succ m ih =>
      obtain ⟨rest, hrest⟩ := ih (by omega)
      refine ⟨rest ++ sel data colMap (i + m + 1), ?_⟩
      rw [show i + (m + 1) + 1 = i + m + 1 + 1 by omega, sels_succ, hrest, List.append_assoc]

/-- The values of entries, if there are any. -/
def vals (js : List ℕ) : List T :=
  match data.value with
  | some v => js.map fun j => v.getD j 0
  | none => []

theorem vals_append (js ks : List ℕ) : vals data (js ++ ks) = vals data js ++ vals data ks := by
  rw [vals, vals, vals]
  cases data.value with
  | none => rfl
  | some v => exact List.map_append

theorem foldl_pickEntry (js : List ℕ) (st : Picked T) :
    js.foldl (pickEntry data colMap) st =
      { os := st.os
        idx := st.idx ++ (js.filter fun j => 0 < colMap.getD (data.col j) 0).map fun j =>
          colMap.getD (data.col j) 0 - 1
        val := st.val ++ vals data (js.filter fun j => 0 < colMap.getD (data.col j) 0) } := by
  induction js generalizing st with
  | nil =>
      cases hv : data.value <;> simp [vals, hv]
  | cons j js ih =>
      rw [List.foldl_cons, ih, pickEntry]
      by_cases hj : 0 < colMap.getD (data.col j) 0
      · rw [if_pos hj, List.filter_cons_of_pos (by simpa using hj)]
        cases hv : data.value <;> simp [vals, hv]
      · rw [if_neg hj, List.filter_cons_of_neg (by simpa using hj)]

theorem pick_eq (n : ℕ) :
    (List.range n).foldl (pickRow data colMap) { os := [0], idx := [], val := [] } =
    { os := (List.range (n + 1)).map fun i => (sels data colMap i).length
      idx := (sels data colMap n).map fun j => colMap.getD (data.col j) 0 - 1
      val := vals data (sels data colMap n) } := by
  induction n with
  | zero => cases hv : data.value <;> simp [sels, vals, hv]
  | succ n ih =>
      have hsels := sels_succ data colMap n
      rw [List.range_succ, List.foldl_append, List.foldl_cons, List.foldl_nil, ih, pickRow,
        foldl_pickEntry]
      simp only [Picked.mk.injEq]
      refine ⟨?_, ?_, ?_⟩
      · rw [List.range_succ (n := n + 1), List.map_append, List.map_singleton, hsels,
          List.length_append, List.length_append, List.length_map, List.length_map]
        rfl
      · rw [hsels, List.map_append]
        rfl
      · rw [hsels, vals_append]
        rfl

omit [Zero T] in
/-- A part of a list, read element by element. -/
theorem map_getD_range' (as bs cs : List ℕ) :
    (List.range' as.length bs.length).map (fun t => (as ++ bs ++ cs).getD t 0) = bs := by
  refine List.ext_getElem (by simp) fun k hk _ => ?_
  have hk' : k < bs.length := by simpa using hk
  simp [List.getD_eq_getElem?_getD, List.getElem?_append, hk']

variable [One T]

/-- An entry keeps its value; without picked entries there is no array of values. -/
theorem entry_pickedBlock {t : ℕ} (ht : t < (sels data colMap data.size).length) :
    ((pickedBlock data colMap).col t, (pickedBlock data colMap).coef t) =
      (colMap.getD (data.col ((sels data colMap data.size).getD t 0)) 0 - 1,
        data.coef ((sels data colMap data.size).getD t 0)) := by
  have hpick := pick_eq data colMap data.size
  have hcol : (pickedBlock data colMap).col t =
      colMap.getD (data.col ((sels data colMap data.size).getD t 0)) 0 - 1 := by
    rw [RowBlock.col, pickedBlock, pick, hpick]
    simp [List.getD_eq_getElem?_getD, ht]
  have hcoef : (pickedBlock data colMap).coef t =
      data.coef ((sels data colMap data.size).getD t 0) := by
    rw [RowBlock.coef, RowBlock.coef, pickedBlock, pick, hpick]
    cases hv : data.value with
    | none => simp [vals, hv, beginPtr]
    | some v =>
        have hne : sels data colMap data.size ≠ [] := by
          intro hnil
          rw [hnil] at ht
          simp at ht
        simp [vals, hv, beginPtr, hne, List.getD_eq_getElem?_getD, ht]
  rw [hcol, hcoef]

omit [One T] in
theorem offset_pickedBlock {i : ℕ} (hi : i ≤ data.size) :
    (pickedBlock data colMap).offset.getD i 0 = (sels data colMap i).length := by
  rw [pickedBlock, pick, pick_eq]
  have hlt : i < data.size + 1 := by omega
  simp [List.getD_eq_getElem?_getD, hlt]

omit [One T] in
theorem entries_pickedBlock {i : ℕ} (hi : i < data.size) : (pickedBlock data colMap).entries i =
    List.range' (sels data colMap i).length (sel data colMap i).length := by
  rw [RowBlock.entries, offset_pickedBlock data colMap hi.le, offset_pickedBlock data colMap hi,
    sels_succ, List.length_append, Nat.add_sub_cancel_left]

omit [One T] in
theorem lt_of_mem_entries {i t : ℕ} (hi : i < data.size)
    (ht : t ∈ (pickedBlock data colMap).entries i) : t < (sels data colMap data.size).length := by
  obtain ⟨rest, hall⟩ := sels_split data colMap hi
  rw [entries_pickedBlock data colMap hi, List.mem_range'_1] at ht
  rw [hall, List.length_append, List.length_append]
  omega

/-- **The picked columns** of a row, renumbered. -/
theorem row_pickedBlock {i : ℕ} (hi : i < data.size) : (pickedBlock data colMap).row i =
    ((data.row i).filter fun a => 0 < colMap.getD a.1 0).map fun a =>
      (colMap.getD a.1 0 - 1, a.2) := by
  obtain ⟨rest, hall⟩ := sels_split data colMap hi
  have hrow : (data.row i).filter (fun a => 0 < colMap.getD a.1 0) =
      (sel data colMap i).map fun j => (data.col j, data.coef j) := by
    rw [RowBlock.row, List.filter_map]
    rfl
  have hpart := map_getD_range' (sels data colMap i) (sel data colMap i) rest
  rw [← hall, ← entries_pickedBlock data colMap hi] at hpart
  rw [hrow, List.map_map, ← hpart, List.map_map, RowBlock.row]
  exact List.map_congr_left fun t ht =>
    entry_pickedBlock data colMap (lt_of_mem_entries data colMap hi ht)

end Pick

theorem size_square [Zero T] [Mul T] (X : RowBlock T) : (square X).size = X.size := by
  rw [square]
  split <;> rfl

/-- Squaring a block squares its rows. -/
theorem row_square [CommRing T] (X : RowBlock T) {i : ℕ}
    (hlt : ∀ t ∈ X.entries i, t < X.offset.getD X.size 0) :
    (square X).row i = (X.row i).map fun a => (a.1, a.2 * a.2) := by
  cases hv : X.value with
  | none =>
      have hcoef : ∀ j, X.coef j = 1 := fun j => by rw [RowBlock.coef, hv]
      have hsq : square X = X := by rw [square, hv]
      rw [hsq, RowBlock.row, List.map_map]
      refine List.map_congr_left fun t _ => ?_
      simp only [Function.comp_apply, hcoef, mul_one]
  | some v =>
      have hsq : square X = { X with value := beginPtr ((List.range
          (X.offset.getD X.size 0)).map fun i => v.getD i 0 * v.getD i 0) } := by rw [square, hv]
      have hentries : (square X).entries i = X.entries i := by rw [hsq]; rfl
      rw [RowBlock.row, hentries, RowBlock.row, List.map_map]
      refine List.map_congr_left fun t ht => ?_
      have hlt' := hlt t ht
      have hcol : (square X).col t = X.col t := by rw [hsq]; rfl
      have hcoef : (square X).coef t = X.coef t * X.coef t := by
        rw [RowBlock.coef, RowBlock.coef, hv, hsq]
        generalize X.offset.getD X.size 0 = n at hlt'
        have hne : n ≠ 0 := by omega
        simp [beginPtr, hne, List.getD_eq_getElem?_getD, hlt']
      rw [Function.comp_apply, hcol, hcoef]

/-! ## What is loaded -/

section Load

variable {dim : ℕ} {siz : List ℕ} {n : ℕ}

theorem start_mod (hsum : siz.sum < 2 ^ 32) (f : ℕ) : start siz f % 2 ^ 32 = start siz f := by
  have hle : start siz f + siz.getD f 0 ≤ siz.sum := start_add_le
  exact Nat.mod_eq_of_lt (by omega)

theorem posW_eq (hsum : siz.sum < 2 ^ 32) (f : ℕ) :
    posW siz f = if siz.getD f 0 = 0 then noPos else start siz f := by
  rw [posW, start_mod hsum]

/-- The column map as a table. -/
def cols (dim : ℕ) (siz : List ℕ) : List ℕ := (List.range siz.length).map (colOf dim siz)

theorem getD_cols (hsum : siz.sum < 2 ^ 32) (f : ℕ) : (cols dim siz).getD f 0 =
    if siz.getD f 0 = dim + 1 then rank dim siz f + 1 else 0 := by
  rw [cols, getD_map_range, colOf]
  by_cases hf : siz.getD f 0 = dim + 1
  · have hmem : f ∈ embedded dim siz := mem_embedded.mpr hf
    have hlt : f < siz.length := by
      rw [embedded, List.mem_filter, List.mem_range] at hmem
      exact hmem.1
    have hrank := rank_lt hmem
    have hcount : siz.count (dim + 1) * (dim + 1) ≤ siz.sum := count_mul_le
    have hle : siz.count (dim + 1) ≤ siz.count (dim + 1) * (dim + 1) :=
      Nat.le_mul_of_pos_right _ (Nat.succ_pos dim)
    rw [if_pos hlt, if_pos hf, if_pos hf, Nat.mod_eq_of_lt (by omega)]
  · rw [if_neg hf, if_neg hf, ite_self]

variable [Zero T]

theorem weightW_eq (hsum : siz.sum < 2 ^ 32) (model : List T) (f : ℕ) :
    weightW model siz f = weightOf model siz f := by
  rw [weightW, weightOf, start_mod hsum]

/-- **The rows of V**: the entries with an embedding, by the number of the feature. -/
theorem row_blockV [One T] (data : RowBlock T) (hsum : siz.sum < 2 ^ 32) {i : ℕ}
    (hi : i < data.size) : (pickedBlock data (cols dim siz)).row i =
      ((data.row i).filter fun a => siz.getD a.1 0 = dim + 1).map fun a =>
        (rank dim siz a.1, a.2) := by
  have hfilter : (data.row i).filter (fun a => 0 < (cols dim siz).getD a.1 0) =
      (data.row i).filter fun a => siz.getD a.1 0 = dim + 1 := by
    refine List.filter_congr fun a _ => ?_
    rw [getD_cols hsum]
    split <;> simp_all
  rw [row_pickedBlock data _ hi, hfilter]
  refine List.map_congr_left fun a ha => ?_
  have hemb : siz.getD a.1 0 = dim + 1 := by simpa using (List.mem_filter.mp ha).2
  rw [getD_cols hsum, if_pos hemb, Nat.add_sub_cancel]

variable [Mul T]

/-- What is loaded for w. -/
def ofW (data : RowBlock T) (model : List T) (siz : List ℕ) : Data T :=
  { dim := 0, X := data, XX := square data, XV := [],
    weight := (List.range siz.length).map (weightOf model siz),
    pos := (List.range siz.length).map (posW siz) }

theorem loadW_eq (data : RowBlock T) {model : List T} (hsum : siz.sum = model.length)
    (hlen : model.length < 2 ^ 32) (hne : siz ≠ []) :
    loadW data model siz = some (ofW data model siz) := by
  have hlt : siz.sum < 2 ^ 32 := hsum ▸ hlen
  have hweight : (List.range siz.length).map (weightW model siz) =
      (List.range siz.length).map (weightOf model siz) :=
    List.map_congr_left fun f _ => weightW_eq hlt model f
  have hcheck : siz.sum % 2 ^ 32 = model.length := by rw [Nat.mod_eq_of_lt hlt, hsum]
  have hnonempty : ((List.range siz.length).map (weightOf model siz)).isEmpty = false := by
    simpa using hne
  rw [loadW, scanW_eq]
  simp only [hcheck, if_true, hweight, hnonempty, Bool.false_eq_true, if_false, ofW]

/-- The elements of V: the embeddings, one after the other. -/
def weightV (dim : ℕ) (model : List T) (siz : List ℕ) : List T :=
  (embedded dim siz).flatMap fun f => (List.range dim).map (embOf model siz f)

/-- What is loaded for V. -/
def ofV (dim : ℕ) (data : RowBlock T) (model : List T) (siz : List ℕ) : Data T :=
  if (weightV dim model siz).isEmpty then
    { unset with dim := dim, weight := [], pos := (embedded dim siz).map (start siz · + 1) }
  else
    { dim := dim, X := pickedBlock data (cols dim siz),
      XX := square (pickedBlock data (cols dim siz)), XV := [],
      weight := weightV dim model siz, pos := (embedded dim siz).map (start siz · + 1) }

theorem loadV_eq (data : RowBlock T) {model : List T} (hsum : siz.sum = model.length)
    (hlen : model.length < 2 ^ 32) :
    loadV dim data model siz = some (ofV dim data model siz) := by
  have hlt : siz.sum < 2 ^ 32 := hsum ▸ hlen
  have hpos : (embedded dim siz).map (fun f => (start siz f + 1) % 2 ^ 32) =
      (embedded dim siz).map (start siz · + 1) := by
    refine List.map_congr_left fun f hf => ?_
    have hle : start siz f + siz.getD f 0 ≤ siz.sum := start_add_le
    rw [mem_embedded.mp hf] at hle
    exact Nat.mod_eq_of_lt (by omega)
  have hweight : ((embedded dim siz).map (start siz · + 1)).flatMap
      (fun p => (List.range dim).map fun j => model.getD (p + j) 0) = weightV dim model siz := by
    rw [List.flatMap_map]
    rfl
  have hcheck : siz.sum % 2 ^ 32 = model.length := by rw [Nat.mod_eq_of_lt hlt, hsum]
  rw [loadV, scanV_eq]
  simp only [hcheck, if_true, hpos, hweight, ofV]
  split
  · rename_i hempty
    rw [List.isEmpty_iff] at hempty
    rw [hempty]
  · rfl

/-- A model that is too long for the positions is rejected. -/
theorem loadW_eq_none (data : RowBlock T) {model : List T} (hsum : siz.sum = model.length)
    (hlen : 2 ^ 32 ≤ model.length) : loadW data model siz = none := by
  have hcheck : siz.sum % 2 ^ 32 ≠ model.length := by omega
  rw [loadW, scanW_eq]
  simp only [hcheck, if_false]

omit [Mul T] in
theorem length_weightV (dim : ℕ) (model : List T) (siz : List ℕ) :
    (weightV dim model siz).length = (embedded dim siz).length * dim :=
  length_flatMap_range _ _ _

omit [Mul T] in
/-- The embedding of a feature in V. -/
theorem getD_weightV (model : List T) {f k : ℕ} (hf : siz.getD f 0 = dim + 1) (hk : k < dim) :
    (weightV dim model siz).getD (rank dim siz f * dim + k) 0 = embOf model siz f k :=
  getD_flatMap_range dim (embOf model siz) hk _ _ f (getElem?_embedded (mem_embedded.mpr hf))

/-- No address of an embedding wraps. -/
theorem addr_rank (hsum : siz.sum < 2 ^ 32) {f d : ℕ} (hd : d ≤ dim + 1)
    (hf : siz.getD f 0 = dim + 1) : SpMM.addr (rank dim siz f) d = rank dim siz f * d := by
  have hrank := rank_lt (mem_embedded.mpr hf)
  have hcount : siz.count (dim + 1) * (dim + 1) ≤ siz.sum := count_mul_le
  have hle : rank dim siz f * d ≤ siz.count (dim + 1) * (dim + 1) := Nat.mul_le_mul hrank.le hd
  exact Nat.mod_eq_of_lt (by omega)

end Load

/-! ## What is saved -/

section Save

variable [Zero T] {dim : ℕ} {siz : List ℕ}

/-- The number of elements for a position. -/
def width (D : Data T) : ℕ := if D.dim = 0 then 1 else D.dim

/-- What is stored where. -/
def writes (D : Data T) : List (ℕ × T) :=
  D.pos.zipIdx.flatMap fun pi =>
    if pi.1 = noPos then [] else block pi.1 D.width fun k => D.weight.getD (pi.2 * D.width + k) 0

theorem save_eq (D : Data T) (grad : List T) (hlen : D.weight.length = D.pos.length * D.width) :
    D.save grad = some (assign grad D.writes) := by
  have hcopy : ∀ (grad : List T) (pi : ℕ × ℕ),
      (if pi.1 = noPos then grad
        else copyRow grad pi.1 D.width fun k => D.weight.getD (pi.2 * D.width + k) 0) =
      assign grad (if pi.1 = noPos then [] else
        block pi.1 D.width fun k => D.weight.getD (pi.2 * D.width + k) 0) := by
    intro grad pi
    split
    · rfl
    · rw [copyRow, assign, block, List.foldl_map]
  have hwrites : assign grad D.writes = D.pos.zipIdx.foldl (fun grad pi =>
      if pi.1 = noPos then grad
      else copyRow grad pi.1 D.width fun k => D.weight.getD (pi.2 * D.width + k) 0) grad := by
    rw [assign, writes, List.foldl_flatMap]
    congr 1
    funext grad pi
    exact (hcopy grad pi).symm
  by_cases hempty : D.weight = []
  · have hpos : D.pos = [] := by
      rw [hempty, List.length_nil] at hlen
      have hwidth : D.width ≠ 0 := by
        rw [width]
        split <;> omega
      exact List.length_eq_zero_iff.mp ((Nat.mul_eq_zero.mp hlen.symm).resolve_right hwidth)
    rw [save, hwrites, hpos, hempty]
    rfl
  · rw [save, if_neg (by simpa using hempty), hwrites]
    exact if_pos hlen

theorem mem_writes {D : Data T} {c : ℕ × T} : c ∈ D.writes ↔ ∃ r p, D.pos[r]? = some p ∧
    p ≠ noPos ∧ ∃ k < D.width, c = (p + k, D.weight.getD (r * D.width + k) 0) := by
  rw [writes, List.mem_flatMap]
  constructor
  · rintro ⟨⟨p, r⟩, hpr, hc⟩
    rw [List.mem_zipIdx_iff_getElem?] at hpr
    split at hc
    · cases hc
    · rename_i hp
      obtain ⟨k, hk, rfl⟩ := List.mem_map.mp hc
      exact ⟨r, p, hpr, hp, k, List.mem_range.mp hk, rfl⟩
  · rintro ⟨r, p, hpr, hp, k, hk, rfl⟩
    refine ⟨(p, r), List.mem_zipIdx_iff_getElem?.mpr hpr, ?_⟩
    rw [if_neg hp]
    exact List.mem_map.mpr ⟨k, List.mem_range.mpr hk, rfl⟩

/-- What is stored for w. -/
theorem mem_writesW {D : Data T} (hsum : siz.sum < 2 ^ 32) (hdim : D.dim = 0)
    (hpos : D.pos = (List.range siz.length).map (posW siz)) {c : ℕ × T} :
    c ∈ D.writes ↔ ∃ f, siz.getD f 0 ≠ 0 ∧ c = (start siz f, D.weight.getD f 0) := by
  have hwidth : D.width = 1 := if_pos hdim
  rw [mem_writes, hwidth, hpos]
  constructor
  · rintro ⟨f, p, hp, hnot, k, hk, rfl⟩
    obtain rfl : k = 0 := by omega
    rw [List.getElem?_map, Option.map_eq_some_iff] at hp
    obtain ⟨f', hf', rfl⟩ := hp
    obtain ⟨hlt, rfl⟩ := List.getElem?_eq_some_iff.mp hf'
    rw [List.getElem_range] at hnot ⊢
    rw [posW_eq hsum] at hnot ⊢
    have hf : siz.getD f 0 ≠ 0 := by
      intro hzero
      exact hnot (if_pos hzero)
    refine ⟨f, hf, ?_⟩
    rw [if_neg hf, Nat.add_zero, Nat.mul_one, Nat.add_zero]
  · rintro ⟨f, hf, rfl⟩
    have hlt : f < siz.length := by
      by_contra hge
      exact hf (List.getD_eq_default _ _ (by omega))
    have hle : start siz f + siz.getD f 0 ≤ siz.sum := start_add_le
    refine ⟨f, start siz f, ?_, ?_, 0, Nat.one_pos, ?_⟩
    · rw [List.getElem?_map, List.getElem?_range hlt, Option.map_some, posW_eq hsum, if_neg hf]
    · rw [noPos]
      omega
    · rw [Nat.add_zero, Nat.mul_one, Nat.add_zero]

/-- What is stored for V. -/
theorem mem_writesV {D : Data T} (hsum : siz.sum < 2 ^ 32) (hdim : dim ≠ 0) (hD : D.dim = dim)
    (hpos : D.pos = (embedded dim siz).map (start siz · + 1)) {c : ℕ × T} :
    c ∈ D.writes ↔ ∃ f k, siz.getD f 0 = dim + 1 ∧ k < dim ∧
      c = (start siz f + 1 + k, D.weight.getD (rank dim siz f * dim + k) 0) := by
  have hwidth : D.width = dim := by rw [width, hD, if_neg hdim]
  rw [mem_writes, hwidth, hpos]
  constructor
  · rintro ⟨r, p, hp, -, k, hk, rfl⟩
    rw [List.getElem?_map, Option.map_eq_some_iff] at hp
    obtain ⟨f, hf, rfl⟩ := hp
    have hmem : f ∈ embedded dim siz := List.mem_of_getElem? hf
    exact ⟨f, k, mem_embedded.mp hmem, hk, rank_unique hf ▸ rfl⟩
  · rintro ⟨f, k, hf, hk, rfl⟩
    have hle : start siz f + siz.getD f 0 ≤ siz.sum := start_add_le
    refine ⟨rank dim siz f, start siz f + 1, ?_, ?_, k, hk, rfl⟩
    · rw [List.getElem?_map, getElem?_embedded (mem_embedded.mpr hf), Option.map_some]
    · rw [noPos]
      omega

/-- What `CalcGrad` stores: `gw f` for the weight of a feature, `gv f k` for coordinate `k`
of its embedding. -/
structure Stores (dim : ℕ) (siz : List ℕ) (gw : ℕ → T) (gv : ℕ → ℕ → T)
    (ws vs : List (ℕ × T)) : Prop where
  mem_ws : ∀ c, c ∈ ws ↔ ∃ f, siz.getD f 0 ≠ 0 ∧ c = (start siz f, gw f)
  mem_vs : ∀ c, c ∈ vs ↔ ∃ f k, siz.getD f 0 = dim + 1 ∧ k < dim ∧
    c = (start siz f + 1 + k, gv f k)

namespace Stores

variable {gw : ℕ → T} {gv : ℕ → ℕ → T} {ws vs : List (ℕ × T)} {grad : List T} {f : ℕ}

omit [Zero T] in
/-- An embedding is not stored where a weight is. -/
theorem vs_ne (h : Stores dim siz gw gv ws vs) (hf : siz.getD f 0 ≠ 0) :
    ∀ c ∈ vs, c.1 ≠ start siz f := by
  intro c hc heq
  obtain ⟨f', k, hf', hk, rfl⟩ := (h.mem_vs c).mp hc
  have heq' : start siz f' + (1 + k) = start siz f + 0 := by rw [← Nat.add_assoc]; exact heq
  have hk' : 1 + k < siz.getD f' 0 := by omega
  have hinj := start_inj hk' (Nat.pos_of_ne_zero hf) heq'
  omega

theorem getD_weight (h : Stores dim siz gw gv ws vs) (hlen : grad.length = siz.sum)
    (hf : siz.getD f 0 ≠ 0) : (assign (assign grad ws) vs).getD (start siz f) 0 = gw f := by
  have hle : start siz f + siz.getD f 0 ≤ siz.sum := start_add_le
  have hlt : start siz f < grad.length := by omega
  rw [getD_assign_of_forall_ne _ _ (by simpa using hlt) (h.vs_ne hf)]
  refine getD_assign_of_mem _ _ hlt ((h.mem_ws _).mpr ⟨f, hf, rfl⟩) fun c hc heq => ?_
  obtain ⟨f', hf', rfl⟩ := (h.mem_ws c).mp hc
  obtain ⟨rfl, -⟩ := start_inj (Nat.pos_of_ne_zero hf') (Nat.pos_of_ne_zero hf) heq
  rfl

theorem getD_emb (h : Stores dim siz gw gv ws vs) (hlen : grad.length = siz.sum) {k : ℕ}
    (hf : siz.getD f 0 = dim + 1) (hk : k < dim) :
    (assign (assign grad ws) vs).getD (start siz f + 1 + k) 0 = gv f k := by
  have hle : start siz f + siz.getD f 0 ≤ siz.sum := start_add_le
  have hlt : start siz f + 1 + k < grad.length := by omega
  refine getD_assign_of_mem _ _ (by simpa using hlt)
    ((h.mem_vs _).mpr ⟨f, k, hf, hk, rfl⟩) fun c hc heq => ?_
  obtain ⟨f', k', hf', hk', rfl⟩ := (h.mem_vs c).mp hc
  have heq' : start siz f' + (1 + k') = start siz f + (1 + k) := by
    rw [← Nat.add_assoc, ← Nat.add_assoc]
    exact heq
  have hlt' : 1 + k' < siz.getD f' 0 := by omega
  obtain ⟨rfl, hkk⟩ := start_inj hlt' (by omega) heq'
  obtain rfl : k' = k := by omega
  rfl

/-- The elements of a feature that is neither without an embedding nor has one of this
dimension keep what was there. -/
theorem getD_rest (h : Stores dim siz gw gv ws vs) (hlen : grad.length = siz.sum) {j : ℕ}
    (hf : siz.getD f 0 ≠ dim + 1) (hpos : 0 < j) (hj : j < siz.getD f 0) :
    (assign (assign grad ws) vs).getD (start siz f + j) 0 = grad.getD (start siz f + j) 0 := by
  have hle : start siz f + siz.getD f 0 ≤ siz.sum := start_add_le
  have hlt : start siz f + j < grad.length := by omega
  have hws : ∀ c ∈ ws, c.1 ≠ start siz f + j := by
    intro c hc heq
    obtain ⟨f', hf', rfl⟩ := (h.mem_ws c).mp hc
    have hinj := start_inj (Nat.pos_of_ne_zero hf') hj heq
    omega
  have hvs : ∀ c ∈ vs, c.1 ≠ start siz f + j := by
    intro c hc heq
    obtain ⟨f', k, hf', hk, rfl⟩ := (h.mem_vs c).mp hc
    have heq' : start siz f' + (1 + k) = start siz f + j := by rw [← Nat.add_assoc]; exact heq
    have hlt' : 1 + k < siz.getD f' 0 := by omega
    exact hf ((start_inj hlt' hj heq').1 ▸ hf')
  rw [getD_assign_of_forall_ne _ _ (by simpa using hlt) hvs,
    getD_assign_of_forall_ne _ _ hlt hws]

end Stores

end Save

end Data

end Difacto.FM
