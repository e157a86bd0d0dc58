import Mathlib.Algebra.BigOperators.Ring.Finset
import Mathlib.Algebra.BigOperators.Group.Finset.Sigma
import Mathlib.Algebra.BigOperators.Group.List.Basic
import Mathlib.Data.List.GetD
import Mathlib.Tactic.Ring

/-!
# Arrays that loops accumulate into

An array is a list; it is read with `getD`, so that reading outside it gives `0`. Loops
that add to elements of an array in any order leave in each element the sum of what was
added to it. Loops whose turns each take care of their own elements leave in each
element what its one turn puts there.

## Main definitions

* `addAt`, `scatter`, `block` — add to one element, to several elements.
* `assign` — store in several elements.
* `pairs` — the unordered pairs of a list.

## Main results

* `getD_scatter`, `getD_foldl_once` — the two kinds of loops.
* `getD_assign_of_mem` — stores.
* `sq_sum_eq` — the square of a sum through its pairs.
-/

namespace Difacto.Lib

open Finset

variable {T : Type*}

section Access

variable [Zero T]

/-- `y[k] += v`. -/
def addAt [Add T] (ys : List T) (k : ℕ) (v : T) : List T := ys.set k (ys.getD k 0 + v)

/-- Add values to elements, one after the other. -/
def scatter [Add T] (ys : List T) (cs : List (ℕ × T)) : List T :=
  cs.foldl (fun ys c => addAt ys c.1 c.2) ys

@[simp] theorem length_addAt [Add T] (ys : List T) (k : ℕ) (v : T) :
    (addAt ys k v).length = ys.length := by
  simp [addAt]

@[simp] theorem length_scatter [Add T] (ys : List T) (cs : List (ℕ × T)) :
    (scatter ys cs).length = ys.length := by
  induction cs generalizing ys with
  | nil => rfl
  | cons c cs ih =>
      rw [scatter, List.foldl_cons]
      exact (ih _).trans (length_addAt ys c.1 c.2)

theorem scatter_singleton [Add T] (ys : List T) (k : ℕ) (v : T) :
    scatter ys [(k, v)] = addAt ys k v := rfl

/-- Some turns of a loop add, each to several elements. -/
theorem foldl_scatter [Add T] {α : Type*} (l : List α) (P : α → Prop) [DecidablePred P]
    (c : α → List (ℕ × T)) (ys : List T) :
    l.foldl (fun ys a => if P a then scatter ys (c a) else ys) ys =
      scatter ys ((l.filter fun a => P a).flatMap c) := by
  induction l generalizing ys with
  | nil => rfl
  | cons a l ih =>
      by_cases ha : P a
      · rw [List.foldl_cons, if_pos ha, ih, List.filter_cons_of_pos (by simpa using ha),
          List.flatMap_cons]
        exact List.foldl_append.symm
      · rw [List.foldl_cons, if_neg ha, ih, List.filter_cons_of_neg (by simpa using ha)]

theorem getD_zeros (n i : ℕ) : (List.replicate n (0 : T)).getD i 0 = 0 := by
  rw [List.getD_eq_getElem?_getD, List.getElem?_replicate]
  split <;> rfl

theorem getD_map_range (n i : ℕ) (g : ℕ → T) :
    ((List.range n).map g).getD i 0 = if i < n then g i else 0 := by
  rw [List.getD_eq_getElem?_getD, List.getElem?_map]
  split
  · rename_i hi
    rw [List.getElem?_range hi]
    rfl
  · rename_i hi
    rw [List.getElem?_eq_none (by rw [List.length_range]; omega)]
    rfl

theorem getD_map_of_zero (xs : List T) (f : T → T) (hf : f 0 = 0) (i : ℕ) :
    (xs.map f).getD i 0 = f (xs.getD i 0) := by
  rw [List.getD_eq_getElem?_getD, List.getD_eq_getElem?_getD, List.getElem?_map]
  cases xs[i]? with
  | none => exact hf.symm
  | some v => rfl

theorem getD_mapIdx (xs : List T) (f : ℕ → T → T) {i : ℕ} (hi : i < xs.length) :
    (xs.mapIdx f).getD i 0 = f i (xs.getD i 0) := by
  simp [List.getD_eq_getElem?_getD, hi]

theorem getD_set (ys : List T) (k i : ℕ) (v : T) (hi : i < ys.length) :
    (ys.set k v).getD i 0 = if k = i then v else ys.getD i 0 := by
  simp only [List.getD_eq_getElem?_getD, List.getElem?_set]
  split
  · rename_i hk
    rw [hk, if_pos hi, Option.getD_some]
  · rfl

theorem getD_addAt [Add T] (ys : List T) (k i : ℕ) (v : T) (hi : i < ys.length) :
    (addAt ys k v).getD i 0 = if k = i then ys.getD i 0 + v else ys.getD i 0 := by
  rw [addAt, getD_set _ _ _ _ hi]
  split
  · rename_i hk
    rw [hk]
  · rfl

end Access

/-- Store values in elements, one after the other. -/
def assign (ys : List T) (cs : List (ℕ × T)) : List T :=
  cs.foldl (fun ys c => ys.set c.1 c.2) ys

theorem assign_cons (ys : List T) (c : ℕ × T) (cs : List (ℕ × T)) :
    assign ys (c :: cs) = assign (ys.set c.1 c.2) cs := rfl

@[simp] theorem length_assign (ys : List T) (cs : List (ℕ × T)) :
    (assign ys cs).length = ys.length := by
  induction cs generalizing ys with
  | nil => rfl
  | cons c cs ih => rw [assign_cons, ih, List.length_set]

/-- An element that nothing is stored in. -/
theorem getD_assign_of_forall_ne [Zero T] (ys : List T) (cs : List (ℕ × T)) {i : ℕ}
    (hi : i < ys.length) (hne : ∀ c ∈ cs, c.1 ≠ i) : (assign ys cs).getD i 0 = ys.getD i 0 := by
  induction cs generalizing ys with
  | nil => rfl
  | cons c cs ih =>
      rw [assign_cons, ih (ys.set c.1 c.2) (by rwa [List.length_set])
        fun c' hc' => hne c' (List.mem_cons_of_mem _ hc'), getD_set _ _ _ _ hi,
        if_neg (hne c (by simp))]

/-- **Stores that agree**: an element that only `v` is stored in. -/
theorem getD_assign_of_mem [Zero T] (ys : List T) (cs : List (ℕ × T)) {i : ℕ} {v : T}
    (hi : i < ys.length) (hmem : (i, v) ∈ cs) (honly : ∀ c ∈ cs, c.1 = i → c.2 = v) :
    (assign ys cs).getD i 0 = v := by
  induction cs generalizing ys with
  | nil => cases hmem
  | cons c cs ih =>
      have honly' : ∀ c' ∈ cs, c'.1 = i → c'.2 = v :=
        fun c' hc' => honly c' (List.mem_cons_of_mem _ hc')
      have hi' : i < (ys.set c.1 c.2).length := by rwa [List.length_set]
      rw [assign_cons]
      by_cases hlater : (i, v) ∈ cs
      · exact ih (ys.set c.1 c.2) hi' hlater honly'
      · have hc : c = (i, v) := ((List.mem_cons.mp hmem).resolve_right hlater).symm
        have hne : ∀ c' ∈ cs, c'.1 ≠ i := by
          rintro c' hc' rfl
          exact hlater (honly' c' hc' rfl ▸ hc')
        rw [getD_assign_of_forall_ne _ _ hi' hne, getD_set _ _ _ _ hi, hc, if_pos rfl]

/-- **Accumulation**: an element ends with what was added to it. -/
theorem getD_scatter [AddCommMonoid T] (ys : List T) (cs : List (ℕ × T)) (i : ℕ)
    (hi : i < ys.length) : (scatter ys cs).getD i 0 =
      ys.getD i 0 + (cs.map fun c => if c.1 = i then c.2 else 0).sum := by
  induction cs generalizing ys with
  | nil => simp [scatter]
  | cons c cs ih =>
      have hstep := ih (addAt ys c.1 c.2) (by simpa using hi)
      rw [getD_addAt _ _ _ _ hi] at hstep
      rw [scatter, List.foldl_cons, List.map_cons, List.sum_cons]
      refine hstep.trans ?_
      split
      · rw [add_assoc]
      · rw [zero_add]

theorem length_foldl {τ : Type*} {turn : List T → τ → List T}
    (hlen : ∀ ys t, (turn ys t).length = ys.length) (ts : List τ) (ys : List T) :
    (ts.foldl turn ys).length = ys.length := by
  induction ts generalizing ys with
  | nil => rfl
  | cons t ts ih => rw [List.foldl_cons, ih, hlen]

/-- A loop with checks that all hold is the loop without them. -/
theorem foldlM_eq_some {σ τ : Type*} (P : σ → Prop) {turn : σ → τ → σ}
    {checked : σ → τ → Option σ} {ts : List τ}
    (hturn : ∀ s, P s → ∀ t ∈ ts, checked s t = some (turn s t) ∧ P (turn s t)) {s : σ} (hs : P s) :
    ts.foldlM checked s = some (ts.foldl turn s) := by
  induction ts generalizing s with
  | nil => rfl
  | cons t ts ih =>
      obtain ⟨hrun, hkeep⟩ := hturn s hs t (List.mem_cons_self ..)
      rw [List.foldlM_cons, hrun, List.foldl_cons]
      exact ih (fun s hs t ht => hturn s hs t (List.mem_cons_of_mem _ ht)) hkeep

/-- A loop of such loops. -/
theorem getD_foldl_scatter [AddCommMonoid T] (ys : List T) (n : ℕ) (c : ℕ → List (ℕ × T)) (i : ℕ)
    (hi : i < ys.length) : ((List.range n).foldl (fun ys j => scatter ys (c j)) ys).getD i 0 =
      ys.getD i 0 + ∑ j ∈ range n, ((c j).map fun c => if c.1 = i then c.2 else 0).sum := by
  induction n with
  | zero => simp
  | succ n ih =>
      have hlen : i < ((List.range n).foldl (fun ys j => scatter ys (c j)) ys).length := by
        rwa [length_foldl fun ys j => length_scatter ys (c j)]
      rw [List.range_succ, List.foldl_append, List.foldl_cons, List.foldl_nil,
        getD_scatter _ _ _ hlen, ih, sum_range_succ, add_assoc]

/-- **One turn for each element**: if turn `t` changes the element `i` only when it is
responsible for it, and exactly one turn is, that turn decides what the element is. -/
theorem getD_foldl_once [Zero T] {τ : Type*} {turn : List T → τ → List T} {i : ℕ} (f : T → T)
    {own : τ → Prop} [DecidablePred own]
    (hlen : ∀ ys t, (turn ys t).length = ys.length)
    (hturn : ∀ ys t, i < ys.length →
      (turn ys t).getD i 0 = if own t then f (ys.getD i 0) else ys.getD i 0)
    {ts : List τ} (hown : ts.countP own = 1) (ys : List T) (hi : i < ys.length) :
    (ts.foldl turn ys).getD i 0 = f (ys.getD i 0) := by
  have hrest : ∀ (ts : List τ) (ys : List T), i < ys.length → ts.countP own = 0 →
      (ts.foldl turn ys).getD i 0 = ys.getD i 0 := by
    intro ts
    induction ts with
    | nil => intro ys _ _; rfl
    | cons t ts ih =>
        intro ys hi hnone
        rw [List.countP_eq_zero] at hnone
        have hnot : ¬ own t := by simpa using hnone t (by simp)
        rw [List.foldl_cons, ih (turn ys t) (by rwa [hlen]), hturn ys t hi, if_neg hnot]
        exact List.countP_eq_zero.mpr fun t' ht' => hnone t' (List.mem_cons_of_mem _ ht')
  induction ts generalizing ys with
  | nil => simp at hown
  | cons t ts ih =>
      rw [List.foldl_cons]
      by_cases ht : own t
      · have hnone : ts.countP own = 0 := by
          rw [List.countP_cons_of_pos (by simpa using ht)] at hown
          omega
        rw [hrest ts (turn ys t) (by rwa [hlen]) hnone, hturn ys t hi, if_pos ht]
      · rw [List.countP_cons_of_neg (by simpa using ht)] at hown
        rw [ih hown (turn ys t) (by rwa [hlen]), hturn ys t hi, if_neg ht]

/-- Values for `dim` elements from `base` on. -/
def block (base dim : ℕ) (f : ℕ → T) : List (ℕ × T) := (List.range dim).map fun k => (base + k, f k)

/-- What such additions do to an element. -/
theorem sum_block [AddCommMonoid T] (base dim i : ℕ) (f : ℕ → T) :
    ((block base dim f).map fun c => if c.1 = i then c.2 else 0).sum =
      if base ≤ i ∧ i < base + dim then f (i - base) else 0 := by
  induction dim with
  | zero =>
      have hnot : ¬ (base ≤ i ∧ i < base + 0) := by omega
      rw [if_neg hnot]
      rfl
  | succ dim ih =>
      rw [block] at ih ⊢
      rw [List.range_succ, List.map_append, List.map_append, List.sum_append, ih]
      simp only [List.map_cons, List.map_nil, List.sum_cons, List.sum_nil, add_zero]
      by_cases hlast : base + dim = i
      · have hnot : ¬ (base ≤ i ∧ i < base + dim) := by omega
        have hin : base ≤ i ∧ i < base + (dim + 1) := by omega
        have hk : i - base = dim := by omega
        rw [if_neg hnot, if_pos hlast, if_pos hin, hk, zero_add]
      · have hiff : (base ≤ i ∧ i < base + dim) ↔ (base ≤ i ∧ i < base + (dim + 1)) := by omega
        rw [if_neg hlast, add_zero]
        simp only [hiff]

/-! ## Rows of one length -/

theorem length_flatMap_range {α : Type*} (l : List α) (dim : ℕ) (g : α → ℕ → T) :
    (l.flatMap fun a => (List.range dim).map (g a)).length = l.length * dim := by
  induction l with
  | nil => simp
  | cons a l ih =>
      rw [List.flatMap_cons, List.length_append, ih, List.length_map, List.length_range,
        List.length_cons, Nat.add_mul, Nat.one_mul, Nat.add_comm]

/-- Element `k` of row `r`. -/
theorem getD_flatMap_range [Zero T] {α : Type*} (dim : ℕ) (g : α → ℕ → T) {k : ℕ} (hk : k < dim) :
    ∀ (l : List α) (r : ℕ) (a : α), l[r]? = some a →
      (l.flatMap fun a => (List.range dim).map (g a)).getD (r * dim + k) 0 = g a k := by
  intro l
  induction l with
  | nil => intro r a ha; simp at ha
  | cons b l ih =>
      intro r a ha
      rw [List.flatMap_cons]
      cases r with
      | zero =>
          rw [List.getElem?_cons_zero, Option.some.injEq] at ha
          subst ha
          rw [Nat.zero_mul, Nat.zero_add, List.getD_append _ _ _ _ (by simpa using hk)]
          simp [List.getD_eq_getElem?_getD, hk]
      | succ r =>
          have hrest := ih r a (by simpa using ha)
          have hge : ((List.range dim).map (g b)).length ≤ (r + 1) * dim + k := by
            rw [List.length_map, List.length_range, Nat.add_mul, Nat.one_mul]
            omega
          have hidx : (r + 1) * dim + k - ((List.range dim).map (g b)).length = r * dim + k := by
            rw [List.length_map, List.length_range, Nat.add_mul, Nat.one_mul]
            omega
          rw [List.getD_append_right _ _ _ _ hge, hidx, hrest]

/-! ## Sums -/

/-- A loop that adds up. -/
theorem foldl_add [AddMonoid T] {α : Type*} (l : List α) (f : α → T) (s : T) :
    l.foldl (fun s a => s + f a) s = s + (l.map f).sum := by
  induction l generalizing s with
  | nil => simp
  | cons a l ih => rw [List.foldl_cons, ih, List.map_cons, List.sum_cons, add_assoc]

theorem sum_map_flatMap [AddMonoid T] {α β : Type*} (l : List α) (g : α → List β) (f : β → T) :
    ((l.flatMap g).map f).sum = (l.map fun a => ((g a).map f).sum).sum := by
  induction l with
  | nil => rfl
  | cons a l ih =>
      rw [List.flatMap_cons, List.map_append, List.sum_append, ih, List.map_cons, List.sum_cons]

theorem sum_range_list [AddCommMonoid T] (n : ℕ) (f : ℕ → T) :
    ((List.range n).map f).sum = ∑ i ∈ range n, f i := by
  induction n with
  | zero => simp
  | succ n ih =>
      rw [List.range_succ, List.map_append, List.sum_append, ih, sum_range_succ]
      simp

/-- The elements of `n` rows of length `d`. -/
theorem sum_range_rows [AddCommMonoid T] (n d : ℕ) (f : ℕ → T) :
    ∑ t ∈ range (n * d), f t = ∑ c ∈ range n, ∑ k ∈ range d, f (c * d + k) := by
  induction n with
  | zero => simp
  | succ n ih => rw [Nat.succ_mul, sum_range_add, ih, sum_range_succ]

/-- Sums over the entries of a list, sorted by an index. -/
theorem sum_range_ite [CommSemiring T] {α : Type*} (l : List α) (key : α → ℕ) (g : α → T)
    (d : ℕ → T) {n : ℕ} (hn : ∀ a ∈ l, key a < n) :
    ∑ f ∈ range n, (l.map fun a => if key a = f then g a else 0).sum * d f =
      (l.map fun a => g a * d (key a)).sum := by
  induction l with
  | nil => simp
  | cons a l ih =>
      have ha : key a ∈ range n := mem_range.mpr (hn a (by simp))
      simp only [List.map_cons, List.sum_cons, add_mul, sum_add_distrib, ite_mul, zero_mul]
      rw [ih fun b hb => hn b (List.mem_cons_of_mem _ hb), sum_ite_eq, if_pos ha]

/-- A transposed product, tested with `d`: each entry meets the value of its index. -/
theorem sum_transpose [CommSemiring T] {α : Type*} (l : ℕ → List α) (key : α → ℕ) (g : ℕ → α → T)
    (d : ℕ → T) {m n : ℕ} (hn : ∀ i < m, ∀ a ∈ l i, key a < n) :
    ∑ f ∈ range n, (∑ i ∈ range m, ((l i).map fun a => if key a = f then g i a else 0).sum) * d f =
      ∑ i ∈ range m, ((l i).map fun a => g i a * d (key a)).sum := by
  simp only [sum_mul]
  rw [sum_comm]
  exact sum_congr rfl fun i hi => sum_range_ite (l i) key (g i) d (hn i (mem_range.mp hi))

/-- The unordered pairs of the entries of a list. -/
def pairs {α : Type*} : List α → List (α × α)
  | [] => []
  | a :: l => l.map (fun b => (a, b)) ++ pairs l

/-- The square of a sum: the squares and every pair twice. -/
theorem sq_sum_eq [CommSemiring T] {α : Type*} (l : List α) (f : α → T) :
    (l.map f).sum * (l.map f).sum = (l.map fun a => f a * f a).sum +
      2 * ((pairs l).map fun ab => f ab.1 * f ab.2).sum := by
  induction l with
  | nil => simp [pairs]
  | cons a l ih =>
      have hpairs : ((l.map fun b => (a, b)).map fun ab => f ab.1 * f ab.2).sum =
          f a * (l.map f).sum := by
        rw [List.map_map, ← List.sum_map_mul_left]
        rfl
      simp only [List.map_cons, List.sum_cons, pairs, List.map_append, List.sum_append, hpairs]
      rw [add_mul, mul_add, mul_add, ih]
      ring

theorem sum_map_filter [AddMonoid T] {α : Type*} (l : List α) (P : α → Prop) [DecidablePred P]
    (f : α → T) :
    ((l.filter fun a => P a).map f).sum = (l.map fun a => if P a then f a else 0).sum := by
  induction l with
  | nil => rfl
  | cons a l ih =>
      rw [List.map_cons, List.sum_cons]
      by_cases ha : P a
      · rw [List.filter_cons_of_pos (by simpa using ha), List.map_cons, List.sum_cons, ih,
          if_pos ha]
      · rw [List.filter_cons_of_neg (by simpa using ha), ih, if_neg ha, zero_add]

theorem pairs_map {α β : Type*} (f : α → β) (l : List α) :
    pairs (l.map f) = (pairs l).map (Prod.map f f) := by
  induction l with
  | nil => rfl
  | cons a l ih => simp [pairs, ih]

theorem mem_of_mem_pairs {α : Type*} {l : List α} {ab : α × α} (h : ab ∈ pairs l) :
    ab.1 ∈ l ∧ ab.2 ∈ l := by
  induction l with
  | nil => cases h
  | cons a l ih =>
      rw [pairs, List.mem_append, List.mem_map] at h
      rcases h with ⟨b, hb, rfl⟩ | h
      · exact ⟨List.mem_cons_self, List.mem_cons_of_mem _ hb⟩
      · exact (ih h).imp (List.mem_cons_of_mem _) (List.mem_cons_of_mem _)

/-- The pairs of some of the entries. -/
theorem sum_pairs_filter [AddMonoid T] {α : Type*} (l : List α) (P : α → Prop) [DecidablePred P]
    (g : α × α → T) : ((pairs (l.filter fun a => P a)).map g).sum =
      ((pairs l).map fun ab => if P ab.1 ∧ P ab.2 then g ab else 0).sum := by
  induction l with
  | nil => rfl
  | cons a l ih =>
      rw [pairs, List.map_append, List.sum_append, List.map_map, ← ih]
      by_cases ha : P a
      · rw [List.filter_cons_of_pos (by simpa using ha), pairs, List.map_append, List.sum_append,
          List.map_map, sum_map_filter]
        simp [Function.comp_def, ha]
      · rw [List.filter_cons_of_neg (by simpa using ha)]
        simp [Function.comp_def, ha]

theorem sum_list_comm [AddCommMonoid T] {α : Type*} (l : List α) (n : ℕ) (h : ℕ → α → T) :
    ∑ k ∈ range n, (l.map (h k)).sum = (l.map fun a => ∑ k ∈ range n, h k a).sum := by
  induction l with
  | nil => simp
  | cons a l ih => simp only [List.map_cons, List.sum_cons, sum_add_distrib, ih]

end Difacto.Lib
