import Difacto.Base.Inside
import Difacto.Lib.Ints
import Difacto.Lib.Threads
import Mathlib.Data.List.Nodup

/-!
# The transposed product with threads at the same time

`SpMM::TransTimes` when its threads run at the same time: each adds its part to `y`, one
element after the other, and the reads and stores of all of them come in any order. The
threads share `y` only, and `z` may be `y` itself.

The number of columns `dim` is an `int`, as in the source; `e * dim` is an `unsigned`.

## Main definitions

* `SpMM.transProgram`, `SpMM.transPool` — what a thread adds, and the threads of a call.

## Main results

* `SpMM.apart_programs` — no two threads add to the same element.
* `SpMM.transTimes_threads` — every run leaves `D^T * x + p * z`.
-/

namespace Difacto.Base

open Finset Lib

theorem Range.mem_indices {r : Range} {i : ℕ} : i ∈ r.indices ↔ r.has i := by
  rw [Range.indices, List.mem_range'_1, Range.has]
  omega

/-- No two segments share an element. -/
theorem Team.pairwise_segments (team : Team) (n : ℕ) :
    (team.segments n).Pairwise fun r r' => ∀ e, r.has e → ¬ r'.has e := by
  have hnodup : ((team.segments n).flatMap Range.indices).Nodup := by
    rw [team.flatMap_indices]
    exact List.nodup_range
  refine (List.nodup_flatMap.mp hnodup).2.imp fun hdisj e he he' => ?_
  exact List.disjoint_left.mp hdisj (Range.mem_indices.mpr he) (Range.mem_indices.mpr he')

theorem Team.lt_of_has (team : Team) {n e : ℕ} {r : Range} (hr : r ∈ team.segments n)
    (he : r.has e) : e < n := by
  have hmem : e ∈ (team.segments n).flatMap Range.indices :=
    List.mem_flatMap.mpr ⟨r, hr, Range.mem_indices.mpr he⟩
  rwa [team.flatMap_indices, List.mem_range] at hmem

namespace SpMM

variable {T : Type}

/-- `z` of `TransTimes`: another vector, or `y`. -/
inductive Addend (T : Type)
  | other (z : List T)
  | self

/-- The elements of `z`, when `y` holds these. -/
def Addend.read : Addend T → List T → List T
  | other z, _ => z
  | self, y => y

section Code

variable [Zero T] [Add T] [Mul T]

/-- `for (size_t i = 0; i < y_size; ++i) y[i] = z[i] * p`. -/
def scaleLoop (z : Addend T) (p : T) (y : List T) : List T :=
  (List.range y.length).foldl (fun y i => y.set i ((z.read y).getD i 0 * p)) y

/-- `y` before the threads begin. -/
def startFrom [BEq T] (z : Addend T) (p : T) (y : List T) : List T :=
  if (z.read y).length = y.length ∧ (p != 0) = true then scaleLoop z p y
  else List.replicate y.length 0

/-- What one row adds, in the thread of `rg`. -/
def rowProgram (D : RowBlock T) (x : List T) (dim : ℕ) (rg : Range) (i : ℕ) : List (ℕ × T) :=
  ((D.entries i).filter fun j => rg.has (D.col j)).flatMap fun j =>
    block (addr (D.col j) dim) dim fun k => weigh D j (x.getD (i * dim + k) 0)

/-- What the thread of `rg` adds. -/
def transProgram (D : RowBlock T) (x : List T) (dim : ℕ) (rg : Range) : List (ℕ × T) :=
  (List.range D.size).flatMap (rowProgram D x dim rg)

/-- The threads of `TransTimes`. -/
def transPool [BEq T] (team : Team) (D : RowBlock T) (x : List T) (p : T) (z : Addend T)
    (y : List T) : Option (Pool T) :=
  if x.isEmpty then some (.start y [])
  else if D.size = 0 then none
  else
    let dim := toSizeT (toInt (x.length / D.size))
    if dim = 0 then none
    else some (.start (startFrom z p y)
      ((team.segments (y.length / dim)).map (transProgram D x dim)))

/-! ## A thread on its own -/

variable {D : RowBlock T} {x y : List T} {dim : ℕ}

theorem transRow_eq_program (rg : Range) (y : List T) (i : ℕ) :
    transRow D x dim rg y i = scatter y (rowProgram D x dim rg i) := by
  rw [transRow_weigh, rowProgram]
  split
  · next hempty =>
    rw [D.entries_eq_nil hempty]
    rfl
  · simp only [addRow_eq, foldl_scatter]

/-- A thread alone adds its program. -/
theorem transThread_eq (y : List T) (rg : Range) :
    transThread D x dim y rg = scatter y (transProgram D x dim rg) := by
  have hrow : transRow D x dim rg = fun y i => scatter y (rowProgram D x dim rg i) := by
    ext1 y
    ext1 i
    exact transRow_eq_program rg y i
  have hrows := foldl_scatter (List.range D.size) (fun _ => True) (rowProgram D x dim rg) y
  rw [transThread, transProgram, hrow]
  simpa using hrows

omit [Add T] in
theorem mem_transProgram {rg : Range} {c : ℕ × T} (hc : c ∈ transProgram D x dim rg) :
    ∃ i < D.size, ∃ j ∈ D.entries i, rg.has (D.col j) ∧
      ∃ k < dim, c.1 = addr (D.col j) dim + k := by
  obtain ⟨i, hi, hc⟩ := List.mem_flatMap.mp hc
  obtain ⟨j, hj, hc⟩ := List.mem_flatMap.mp hc
  obtain ⟨hj, hown⟩ := List.mem_filter.mp hj
  obtain ⟨k, hk, rfl⟩ := List.mem_map.mp hc
  exact ⟨i, List.mem_range.mp hi, j, hj, by simpa using hown, k, List.mem_range.mp hk, rfl⟩

omit [Add T] in
/-- **No two threads add to the same element.** -/
theorem apart_programs (team : Team) (n : ℕ)
    (haddr : ∀ i < D.size, ∀ j ∈ D.entries i, addr (D.col j) dim = D.col j * dim) :
    ((team.segments n).map (transProgram D x dim)).Pairwise Apart := by
  refine List.pairwise_map.mpr ((team.pairwise_segments n).imp fun hsep c hc d hd heq => ?_)
  obtain ⟨i, hi, j, hj, hown, k, hk, hc⟩ := mem_transProgram hc
  obtain ⟨i', hi', j', hj', hown', k', hk', hd⟩ := mem_transProgram hd
  rw [haddr i hi j hj] at hc
  rw [haddr i' hi' j' hj'] at hd
  have hsame : D.col j' = D.col j := (block_iff dim hk).mp (by omega)
  exact hsep _ hown (hsame ▸ hown')

/-! ## Before the threads begin -/

omit [Add T] in
/-- The loop reads an element of `z` before it writes it, also where `z` is `y`. -/
theorem scaleLoop_eq (z : Addend T) (p : T) (hlen : (z.read y).length = y.length) :
    scaleLoop z p y = (z.read y).map (· * p) := by
  have hloop : ∀ n ≤ y.length,
      (List.range n).foldl (fun y i => y.set i ((z.read y).getD i 0 * p)) y =
        ((z.read y).take n).map (· * p) ++ y.drop n := by
    intro n
    induction n with
    | zero => simp
    | succ n ih =>
        intro hn
        have hfront : (((z.read y).take n).map (· * p)).length = n := by
          rw [List.length_map, List.length_take]
          omega
        have hread : (z.read (((z.read y).take n).map (· * p) ++ y.drop n)).getD n 0 =
            (z.read y).getD n 0 := by
          cases z with
          | other z => rfl
          | self =>
              simp only [Addend.read] at hfront ⊢
              rw [List.getD_append_right _ _ _ _ hfront.le, hfront]
              simp [List.getD_eq_getElem?_getD]
        have hnext : (z.read y).take (n + 1) = (z.read y).take n ++ [(z.read y).getD n 0] := by
          rw [List.take_add_one, List.getD_eq_getElem?_getD,
            List.getElem?_eq_getElem (by omega : n < (z.read y).length)]
          rfl
        rw [List.range_succ, List.foldl_append, ih (by omega), List.foldl_cons, List.foldl_nil,
          hread, List.set_append_right _ _ hfront.le, hfront, Nat.sub_self, hnext,
          List.drop_eq_getElem_cons (by omega : n < y.length), List.set_cons_zero, List.map_append,
          List.append_assoc]
        rfl
  rw [scaleLoop, hloop _ le_rfl, List.drop_length, List.append_nil, ← hlen, List.take_length]

omit [Add T] in
theorem startFrom_eq [BEq T] (z : Addend T) (p : T) : startFrom z p y =
    if (z.read y).length = y.length ∧ (p != 0) = true then (z.read y).map (· * p)
    else List.replicate y.length 0 := by
  rw [startFrom]
  split
  · next hz => rw [scaleLoop_eq z p hz.1]
  · rfl

omit [Add T] in
theorem transPool_eq [BEq T] (team : Team) {d : ℕ} (hx : x ≠ []) (hsize : D.size ≠ 0)
    (hd : toSizeT (toInt (x.length / D.size)) = d) (hdim : d ≠ 0) (p : T) (z : Addend T) :
    transPool team D x p z y = some (.start (startFrom z p y)
      ((team.segments (y.length / d)).map (transProgram D x d))) := by
  simp [transPool, hx, hsize, hd, hdim]

/-- **A run that ends leaves what `TransTimes` leaves**, whatever the numbers are. -/
theorem mem_of_done [BEq T] {team : Team} {p : T} {z : Addend T} {s₀ s : Pool T}
    (hsize : D.size ≠ 0) (hdim : dim ≠ 0) (hint : dim < 2 ^ 31) (hx : x.length = D.size * dim)
    (haddr : ∀ i < D.size, ∀ j ∈ D.entries i, addr (D.col j) dim = D.col j * dim)
    (hs₀ : transPool team D x p z y = some s₀) (hrun : Reach Pool.step anyStep s₀ s)
    (hdone : s.Done) : transTimes team D x p (z.read y) y = some s.mem := by
  have hdiv : x.length / D.size = dim := by
    rw [hx, Nat.mul_div_cancel_left _ (Nat.pos_of_ne_zero hsize)]
  rw [transPool] at hs₀
  rw [transTimes]
  split at hs₀
  · next hempty =>
    obtain rfl := Option.some.inj hs₀
    rw [if_pos hempty, Pool.mem_of_done List.Pairwise.nil hrun hdone]
    rfl
  · next hempty =>
    simp only [hdiv, toSizeT_toInt hint, if_neg hdim] at hs₀
    obtain rfl := Option.some.inj hs₀
    rw [if_neg hempty, if_neg hsize]
    simp only [hdiv, if_neg hdim]
    have hthread : transThread D x dim = fun y rg => scatter y (transProgram D x dim rg) := by
      ext1 y
      ext1 rg
      exact transThread_eq y rg
    rw [Pool.mem_of_done (apart_programs team _ haddr) hrun hdone, List.foldl_map, startFrom_eq,
      hthread]

end Code

/-! ## What a run leaves -/

section Spec

variable [CommRing T] {D : RowBlock T} {x y : List T} {m dim : ℕ}

/-- Column `k` of row `c` of `D^T * x`. -/
def transposed (D : RowBlock T) (x : List T) (dim c k : ℕ) : T :=
  ∑ i ∈ range D.size, ((D.row i).map fun a =>
    if a.1 = c then a.2 * x.getD (i * dim + k) 0 else 0).sum

/-- `p * z`, if `z` has the length of `y`. -/
def scaled (z : Addend T) (p : T) (y : List T) (t : ℕ) : T :=
  if (z.read y).length = y.length then p * (z.read y).getD t 0 else 0

/-- The entries stay inside `m` rows of length `dim`, and their addresses do not wrap. -/
structure Fits (D : RowBlock T) (dim m : ℕ) : Prop where
  col_lt : ∀ i < D.size, ∀ j ∈ D.entries i, D.col j < m
  addr_lt : ∀ i < D.size, ∀ j ∈ D.entries i, D.col j * dim < 2 ^ 32

omit [CommRing T] in
theorem Fits.addr_eq (h : Fits D dim m) : ∀ i < D.size, ∀ j ∈ D.entries i,
    addr (D.col j) dim = D.col j * dim :=
  fun i hi j hj => Nat.mod_eq_of_lt (h.addr_lt i hi j hj)

theorem Fits.row_addr (h : Fits D dim m) {i : ℕ} (hi : i < D.size) {a : ℕ × T}
    (ha : a ∈ D.row i) : addr a.1 dim = a.1 * dim ∧ a.1 < m := by
  obtain ⟨j, hj, rfl⟩ := List.mem_map.mp ha
  exact ⟨h.addr_eq i hi j hj, h.col_lt i hi j hj⟩

/-- **The elements that `TransTimes` leaves.** -/
theorem getD_of_transTimes [BEq T] [LawfulBEq T] {team : Team} (hD : Fits D dim m)
    (hsize : D.size ≠ 0) (hdim : dim ≠ 0) (hx : x.length = D.size * dim) (hy : y.length = m * dim)
    (p : T) (z : Addend T) {w : List T} (hw : transTimes team D x p (z.read y) y = some w) :
    w.length = y.length ∧ ∀ c < m, ∀ k < dim,
      w.getD (c * dim + k) 0 = transposed D x dim c k + scaled z p y (c * dim + k) := by
  obtain ⟨w', hw', hlen, hget⟩ := getD_transTimes D x dim y team p (z.read y) hsize hdim hx
    (fun i hi a ha => (hD.row_addr hi ha).1) hy
  obtain rfl := Option.some.inj (hw.symm.trans hw')
  refine ⟨hlen, fun c hc k hk => ?_⟩
  have hz : (if (z.read y).length = y.length ∧ (p != 0) = true
      then (z.read y).getD (c * dim + k) 0 * p else 0) = scaled z p y (c * dim + k) := by
    rw [scaled]
    by_cases hp : p = 0
    · simp [hp]
    · simp [hp, mul_comm]
  have hrow : ∀ i, ((D.row i).map fun a =>
      if a.1 = c then x.getD (i * dim + k) 0 * a.2 else 0).sum = ((D.row i).map fun a =>
        if a.1 = c then a.2 * x.getD (i * dim + k) 0 else 0).sum := by
    intro i
    congr 1
    exact List.map_congr_left fun a _ => by rw [mul_comm]
  rw [hget c hc k hk, hz, add_comm, transposed]
  simp only [hrow]

/-- **The two products are adjoint.** -/
theorem adjoint (team : Team) (hD : Fits D dim m) (hsize : D.size ≠ 0) {u v : List T} (hu : u ≠ [])
    (hv : v.length = D.size * dim) : ∃ du, times team D u v = some du ∧
      ∑ t ∈ range (D.size * dim), du.getD t 0 * x.getD t 0 =
        ∑ c ∈ range m, ∑ k ∈ range dim, u.getD (c * dim + k) 0 * transposed D x dim c k := by
  obtain ⟨du, hdu, -, hget⟩ := getD_times D u dim v team hsize hu hv
  refine ⟨du, hdu, ?_⟩
  have hleft : ∀ i ∈ range D.size, ∀ k ∈ range dim,
      du.getD (i * dim + k) 0 * x.getD (i * dim + k) 0 = ((D.row i).map fun a =>
        a.2 * x.getD (i * dim + k) 0 * u.getD (a.1 * dim + k) 0).sum := by
    intro i hi k hk
    have hi := mem_range.mp hi
    rw [hget i hi k (mem_range.mp hk), ← List.sum_map_mul_right]
    congr 1
    refine List.map_congr_left fun a ha => ?_
    rw [(hD.row_addr hi ha).1]
    ring
  have hright : ∀ k, ∑ c ∈ range m, u.getD (c * dim + k) 0 * transposed D x dim c k =
      ∑ i ∈ range D.size, ((D.row i).map fun a =>
        a.2 * x.getD (i * dim + k) 0 * u.getD (a.1 * dim + k) 0).sum := by
    intro k
    rw [← sum_transpose D.row Prod.fst (fun i a => a.2 * x.getD (i * dim + k) 0)
      (fun c => u.getD (c * dim + k) 0) fun i hi a ha => (hD.row_addr hi ha).2]
    exact sum_congr rfl fun c _ => mul_comm _ _
  rw [sum_range_rows, sum_comm (s := range m)]
  simp only [hright]
  rw [sum_comm]
  exact sum_congr rfl fun k hk => sum_congr rfl fun i hi => hleft i hi k hk

omit [CommRing T] in
/-- Rows that agree in every column. -/
theorem eq_of_rows [Zero T] {w w' : List T} (hdim : dim ≠ 0) (hw : w.length = m * dim)
    (hw' : w'.length = m * dim)
    (h : ∀ c < m, ∀ k < dim, w.getD (c * dim + k) 0 = w'.getD (c * dim + k) 0) : w = w' := by
  refine List.ext_getElem (hw.trans hw'.symm) fun t ht ht' => ?_
  have hpos : 0 < dim := Nat.pos_of_ne_zero hdim
  have hrow : t / dim < m := by
    rw [Nat.div_lt_iff_lt_mul hpos, ← hw]
    exact ht
  have hsplit : t / dim * dim + t % dim = t := by rw [Nat.mul_comm, Nat.div_add_mod]
  have hsame := h (t / dim) hrow (t % dim) (Nat.mod_lt t hpos)
  rwa [hsplit, List.getD_eq_getElem _ _ ht, List.getD_eq_getElem _ _ ht'] at hsame

/-- **The threads of `TransTimes`.** No element is written by two threads. Every run comes to an
end, in whatever order the threads take their steps, and leaves what any number of threads
leave in turn: `D^T * x + p * z`, where `D^T` is the adjoint of `Times`. -/
theorem transTimes_threads [BEq T] [LawfulBEq T] (team : Team) (hD : Fits D dim m)
    (hsize : D.size ≠ 0) (hdim : dim ≠ 0) (hint : dim < 2 ^ 31) (hx : x.length = D.size * dim)
    (hy : y.length = m * dim) (p : T) (z : Addend T) :
    ∃ s₀, transPool team D x p z y = some s₀ ∧
      (s₀.threads.map Thread.program).Pairwise Apart ∧
      (∀ s, Reach Pool.step anyStep s₀ s → ∃ s', Reach Pool.step anyStep s s' ∧ s'.Done) ∧
      ∀ s, Reach Pool.step anyStep s₀ s → s.Done →
        (∀ team', transTimes team' D x p (z.read y) y = some s.mem) ∧
        s.mem.length = y.length ∧
        (∀ c < m, ∀ k < dim, s.mem.getD (c * dim + k) 0 =
          transposed D x dim c k + scaled z p y (c * dim + k)) ∧
        ∀ team' u v, u ≠ [] → v.length = D.size * dim → ∃ du, times team' D u v = some du ∧
          ∑ t ∈ range (D.size * dim), du.getD t 0 * x.getD t 0 =
            ∑ t ∈ range (m * dim), u.getD t 0 * (s.mem.getD t 0 - scaled z p y t) := by
  have hdiv : x.length / D.size = dim := by
    rw [hx, Nat.mul_div_cancel_left _ (Nat.pos_of_ne_zero hsize)]
  have hpool : transPool team D x p z y = some (.start (startFrom z p y)
      ((team.segments (y.length / dim)).map (transProgram D x dim))) := by
    have hne : x ≠ [] := by
      rw [← List.length_pos_iff, hx]
      exact Nat.mul_pos (Nat.pos_of_ne_zero hsize) (Nat.pos_of_ne_zero hdim)
    exact transPool_eq team hne hsize (by rw [hdiv, toSizeT_toInt hint]) hdim p z
  refine ⟨_, hpool, ?_, fun s _ => s.exists_done, fun s hrun hdone => ?_⟩
  · rw [Pool.start, Pool.program_start]
    exact apart_programs team _ hD.addr_eq
  · have hleft := mem_of_done hsize hdim hint hx hD.addr_eq hpool hrun hdone
    obtain ⟨hlen, hget⟩ := getD_of_transTimes hD hsize hdim hx hy p z hleft
    refine ⟨fun team' => ?_, hlen, hget, fun team' u v hu hv => ?_⟩
    · obtain ⟨w, hw, -⟩ := transTimes_total D x dim y team' p (z.read y) hsize hdim hx
      obtain ⟨hlenw, hgetw⟩ := getD_of_transTimes hD hsize hdim hx hy p z hw
      have hsame : w = s.mem := eq_of_rows hdim (hlenw.trans hy) (hlen.trans hy)
        fun c hc k hk => (hgetw c hc k hk).trans (hget c hc k hk).symm
      rw [hw, hsame]
    · obtain ⟨du, hdu, hsum⟩ := adjoint team' hD hsize hu hv
      refine ⟨du, hdu, hsum.trans ?_⟩
      rw [sum_range_rows]
      refine sum_congr rfl fun c hc => sum_congr rfl fun k hk => ?_
      rw [hget c (mem_range.mp hc) k (mem_range.mp hk), add_sub_cancel_right]

/-- `z` is `y`: 7 becomes 2 * 3 + 7. -/
theorem transTimes_threads_self :
    ∃ s₀, transPool (.exact 2 (by decide) (by decide)) oneEntry [3, 4] 1 .self [7] = some s₀ ∧
      (∃ s, Reach Pool.step anyStep s₀ s ∧ s.Done) ∧
      ∀ s, Reach Pool.step anyStep s₀ s → s.Done → s.mem.getD 0 0 = 13 := by
  have hD : Fits oneEntry 1 1 := ⟨by decide, by decide⟩
  have hx : [3, (4 : ℤ)].length = oneEntry.size * 1 := rfl
  have hy : [(7 : ℤ)].length = 1 * 1 := rfl
  obtain ⟨s₀, hs₀, -, hends, hleaves⟩ := transTimes_threads (.exact 2 (by decide) (by decide)) hD
    (by decide) (by decide) (by decide) hx hy 1 .self
  refine ⟨s₀, hs₀, hends s₀ .refl, fun s hrun hdone => ?_⟩
  obtain ⟨-, -, hget, -⟩ := hleaves s hrun hdone
  exact (hget 0 (by decide) 0 (by decide)).trans (by decide)

end Spec

/-! ## Outside the bounds -/

/-- One row with one entry, without values. -/
def oneColumn (c : ℕ) : RowBlock ℤ :=
  { size := 1, offset := [0, 1], label := [1], index := [c], value := none }

/-- A thread alone takes its turn. -/
theorem oneThread (ys : List ℤ) (cs : List (ℕ × ℤ)) :
    ∃ s, Reach Pool.step anyStep (.start ys [cs]) s ∧ s.Done ∧ s.mem = scatter ys cs := by
  obtain ⟨s, hrun, hdone⟩ := Pool.exists_done (.start ys [cs])
  exact ⟨s, hrun, hdone, Pool.mem_of_done (List.pairwise_singleton _ _) hrun hdone⟩

/-- An element that nothing is added to stays zero. -/
theorem getD_oneThread {y : List ℤ} {cs : List (ℕ × ℤ)} {t : ℕ} (ht : t < y.length)
    (h : ∀ c ∈ cs, c.1 ≠ t) : (scatter (startFrom (.other []) 0 y) cs).getD t 0 = 0 := by
  have hzero : startFrom (.other []) 0 y = List.replicate y.length (0 : ℤ) := by
    rw [startFrom]
    exact if_neg fun hz => absurd hz.2 (by decide)
  rw [hzero, getD_scatter _ cs t (by rwa [List.length_replicate]), getD_zeros, List.sum_eq_zero,
    add_zero]
  intro v hv
  obtain ⟨c, hc, rfl⟩ := List.mem_map.mp hv
  exact if_neg (h c hc)

/-- The product `2^31 * 2` wraps to 0, so that the last row gets nothing. -/
theorem product_wraps {y : List ℤ} (hy : y.length = (2 ^ 31 + 1) * 2) :
    ∃ s₀ s, transPool (.exact 1 (by decide) (by decide)) (oneColumn (2 ^ 31)) [1, 1] 0 (.other [])
        y = some s₀ ∧ Reach Pool.step anyStep s₀ s ∧ s.Done ∧
      s.mem.getD (2 ^ 31 * 2 + 0) 0 = 0 := by
  have hpool := transPool_eq (.exact 1 (by decide) (by decide)) (D := oneColumn (2 ^ 31))
    (x := [1, 1]) (y := y) (d := 2) (by decide) (by decide) (by decide) (by decide) 0 (.other [])
  obtain ⟨s, hrun, hdone, hmem⟩ := oneThread (startFrom (.other []) 0 y)
    (transProgram (oneColumn (2 ^ 31)) [1, 1] 2
      ((Range.mk 0 (y.length / 2)).segment Rounding.exact 0 1))
  refine ⟨_, s, hpool, hrun, hdone, ?_⟩
  rw [hmem]
  refine getD_oneThread (by rw [hy]; norm_num) fun c hc => ?_
  obtain ⟨i, hi, j, hj, -, k, hk, hc⟩ := mem_transProgram hc
  obtain rfl : i = 0 := Nat.lt_one_iff.mp hi
  obtain rfl : j = 0 := by simpa [oneColumn, RowBlock.entries] using hj
  have haddr : addr ((oneColumn (2 ^ 31)).col 0) 2 = 0 := by
    norm_num [addr, oneColumn, RowBlock.col]
  omega

/-- A number of columns that `int` cannot hold leaves no thread a row. -/
theorem columns_overflow {x y : List ℤ} (hx : x.length = 2 ^ 31) (hy : y.length = 2 ^ 31) :
    ∃ s₀ s, transPool (.exact 1 (by decide) (by decide)) (oneColumn 0) x 0 (.other []) y = some s₀ ∧
      Reach Pool.step anyStep s₀ s ∧ s.Done ∧ s.mem.getD (0 * 2 ^ 31 + 0) 0 = 0 := by
  obtain ⟨d, hd⟩ : ∃ d, toSizeT (toInt (x.length / (oneColumn 0).size)) = d := ⟨_, rfl⟩
  have hlarge : 2 ^ 32 ≤ d := by
    rw [← hd, hx]
    exact le_toSizeT_toInt (by norm_num [oneColumn]) (by norm_num [oneColumn])
  have hne : x ≠ [] := by
    rintro rfl
    norm_num at hx
  have hpool := transPool_eq (.exact 1 (by decide) (by decide)) (D := oneColumn 0) (y := y) hne
    (by decide) hd (by omega) 0 (.other [])
  obtain ⟨s, hrun, hdone, hmem⟩ := oneThread (startFrom (.other []) 0 y)
    (transProgram (oneColumn 0) x d ((Range.mk 0 (y.length / d)).segment Rounding.exact 0 1))
  refine ⟨_, s, hpool, hrun, hdone, ?_⟩
  rw [hmem]
  refine getD_oneThread (by rw [hy]; norm_num) fun c hc => ?_
  obtain ⟨i, -, j, -, hown, -⟩ := mem_transProgram hc
  have hrows : y.length / d = 0 := Nat.div_eq_of_lt (by omega)
  rw [hrows] at hown
  have hin := Team.lt_of_has (.exact 1 (by decide) (by decide)) (n := 0)
    (r := (Range.mk 0 0).segment Rounding.exact 0 1) (List.mem_singleton_self _) hown
  exact absurd hin (Nat.not_lt_zero _)

/-- One row without entries. -/
def noColumns : RowBlock ℤ :=
  { size := 1, offset := [0, 0], label := [1], index := [], value := none }

/-- **The bounds are needed**: an address that wraps, a number of columns that is not an
`int`, and an empty `y`, for which `Times` returns at once and leaves the 5 in its result. -/
theorem transTimes_unbounded :
    (∃ s₀ s, transPool (.exact 1 (by decide) (by decide)) (oneColumn (2 ^ 31)) [1, 1] 0 (.other [])
        (List.replicate ((2 ^ 31 + 1) * 2) 0) = some s₀ ∧ Reach Pool.step anyStep s₀ s ∧ s.Done ∧
      s.mem.getD (2 ^ 31 * 2 + 0) 0 ≠ transposed (oneColumn (2 ^ 31)) [1, 1] 2 (2 ^ 31) 0) ∧
    (∃ s₀ s, transPool (.exact 1 (by decide) (by decide)) (oneColumn 0)
        (List.replicate (2 ^ 31) 1) 0 (.other []) (List.replicate (2 ^ 31) 0) = some s₀ ∧
      Reach Pool.step anyStep s₀ s ∧ s.Done ∧ s.mem.getD (0 * 2 ^ 31 + 0) 0 ≠
        transposed (oneColumn 0) (List.replicate (2 ^ 31) 1) (2 ^ 31) 0 0) ∧
    ∃ du, times (.exact 1 (by decide) (by decide)) noColumns [] [5] = some du ∧
      ∑ t ∈ range 1, du.getD t 0 * [1].getD t 0 ≠
        ∑ t ∈ range 0, ([] : List ℤ).getD t 0 * transposed noColumns [1] 1 t 0 := by
  refine ⟨?_, ?_, [5], rfl, by decide⟩
  · obtain ⟨s₀, s, hpool, hrun, hdone, hzero⟩ := product_wraps (y := List.replicate _ 0)
      List.length_replicate
    refine ⟨s₀, s, hpool, hrun, hdone, ?_⟩
    have hone : transposed (oneColumn (2 ^ 31)) [1, 1] 2 (2 ^ 31) 0 = 1 := by
      rw [transposed, oneColumn, sum_range_one]
      simp [RowBlock.row, RowBlock.entries, RowBlock.col, RowBlock.coef]
    rw [hzero, hone]
    decide
  · obtain ⟨s₀, s, hpool, hrun, hdone, hzero⟩ := columns_overflow (x := List.replicate _ 1)
      (y := List.replicate _ 0) List.length_replicate List.length_replicate
    refine ⟨s₀, s, hpool, hrun, hdone, ?_⟩
    have hone : ∀ n, 0 < n → transposed (oneColumn 0) (List.replicate n 1) n 0 0 = 1 := by
      intro n hn
      rw [transposed, oneColumn, sum_range_one]
      simp [RowBlock.row, RowBlock.entries, RowBlock.col, RowBlock.coef,
        List.getD_eq_getElem?_getD, hn]
    rw [hzero, hone _ (by norm_num)]
    decide

end SpMM

end Difacto.Base
