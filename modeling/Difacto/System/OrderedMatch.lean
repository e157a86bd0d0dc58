import Difacto.System.KeySpace

/-!
# Ordered match

`ParallelOrderedMatch` of `ps-lite/src/base/parallel_ordered_match.h` with the assignment
operator `ASSIGN` and values of one element: the values of the keys that two sorted lists have
in common are copied. `SArray::range` and `SArray::FindRange` are from
`ps-lite/src/ps/shared_array.h`. A failed `CHECK` is `none`.

An array is a list of keys with a list of values, or a list of pairs where both are read
together. The two threads write to different halves of the destination.

## Main definitions

* `matchLoop`, `orderedMatch` — the merge, and its halving for long destinations.
* `parallelOrderedMatch` — the part of the destination that may match.

## Main results

* `orderedMatch_eq` — the halving does not change the result of the merge.
* `parallelOrderedMatch_eq` — all keys of a slice match.
-/

namespace Difacto.System

variable {K W : Type} [LinearOrder K]

/-- The loop over both lists. Source keys below the next destination key are skipped. -/
def matchLoop : List (K × W) → List (K × W) → List W × ℕ
  | _, [] => ([], 0)
  | src, (k, v) :: dst =>
    match src.dropWhile (·.1 < k) with
    | [] => (v :: dst.map Prod.snd, 0)
    | (k', v') :: src =>
      if k < k' then (v :: (matchLoop ((k', v') :: src) dst).1, (matchLoop ((k', v') :: src) dst).2)
      else (v' :: (matchLoop src dst).1, (matchLoop src dst).2 + 1)

/-- The recursive `ParallelOrderedMatch`: a destination above the grain size is halved. -/
def orderedMatch (grainsize : ℕ) : ℕ → List (K × W) → List (K × W) → List W × ℕ
  | 0, _, dst => (dst.map Prod.snd, 0)
  | _ + 1, _, [] => ([], 0)
  | _ + 1, [], dst => (dst.map Prod.snd, 0)
  | fuel + 1, x :: src, d :: dst =>
    -- `std::lower_bound` in the source keys
    let src := (x :: src).dropWhile (·.1 < d.1)
    let half := (d :: dst).length / 2
    if (d :: dst).length ≤ grainsize then matchLoop src (d :: dst)
    else
      let left := orderedMatch grainsize fuel src ((d :: dst).take half)
      let right := orderedMatch grainsize fuel src ((d :: dst).drop half)
      (left.1 ++ right.1, left.2 + right.2)

/-- `SArray::range` -/
def rangeOf : List UInt64 → Range UInt64
  | [] => { begin_ := 0, end_ := 0 }
  | k :: keys => { begin_ := k, end_ := (k :: keys).getLastD 0 + 1 }

/-- `SArray::FindRange` -/
def findRange (keys : List K) (bound : Range K) : Option (ℕ × ℕ) :=
  if keys = [] then some (0, 0)
  else if bound.begin_ ≤ bound.end_ then
    some (lowerBound keys bound.begin_, lowerBound keys bound.end_)
  else none

/-- `ParallelOrderedMatch` with two threads: the destination values, and the number of values
that were assigned. -/
def parallelOrderedMatch [Zero W] (srcKey : List UInt64) (srcVal : List W) (dstKey : List UInt64)
    (dstVal : List W) : Option (List W × ℕ) :=
  if dstKey = [] then some (dstVal, 0)
  else
    let dstVal := if dstVal.isEmpty then List.replicate dstKey.length 0 else dstVal
    if srcKey.length = srcVal.length ∧ dstVal.length = dstKey.length then do
      let (first, last) ← findRange dstKey (rangeOf srcKey)
      let grainsize := max ((last - first) / 2 + 5) (1024 * 1024)
      let dst := ((dstKey.zip dstVal).take last).drop first
      let (vals, n) := orderedMatch grainsize dst.length (srcKey.zip srcVal) dst
      return (dstVal.take first ++ vals ++ dstVal.drop last, n)
    else none

/-! ## The merge -/

section Merge

/-- The keys are in increasing order. -/
def Increasing (xs : List (K × W)) : Prop := xs.Pairwise fun x y => x.1 < y.1

/-- What the match makes of a destination. -/
def matched (src dst : List (K × W)) : List W × ℕ :=
  (dst.map fun d => (src.lookup d.1).getD d.2, dst.countP fun d => (src.lookup d.1).isSome)

variable {src dst : List (K × W)}

theorem matched_cons (d : K × W) : matched src (d :: dst) =
    ((src.lookup d.1).getD d.2 :: (matched src dst).1,
      (matched src dst).2 + if (src.lookup d.1).isSome then 1 else 0) := by
  rw [matched, List.map_cons, List.countP_cons]
  rfl

theorem matched_append (dst' : List (K × W)) : matched src (dst ++ dst') =
    ((matched src dst).1 ++ (matched src dst').1, (matched src dst).2 + (matched src dst').2) := by
  rw [matched, List.map_append, List.countP_append]
  rfl

/-- Only the keys of the destination are looked up. -/
theorem matched_congr {src' : List (K × W)} (h : ∀ d ∈ dst, src.lookup d.1 = src'.lookup d.1) :
    matched src dst = matched src' dst := by
  rw [matched, matched, Prod.mk.injEq]
  constructor
  · apply List.map_congr_left
    intro d hd
    rw [h d hd]
  · apply List.countP_congr
    intro d hd
    rw [h d hd]

theorem matched_nil : matched [] dst = (dst.map Prod.snd, 0) := by
  simp [matched]

theorem lookup_eq_none_of_lt {k : K} (h : ∀ x ∈ src, k < x.1) : src.lookup k = none := by
  rw [List.lookup_eq_none_iff]
  intro x hx
  simpa using (h x hx).ne

/-- Keys that are too small are not found. -/
theorem lookup_dropWhile {k a : K} (h : a ≤ k) :
    (src.dropWhile (·.1 < a)).lookup k = src.lookup k := by
  induction src with
  | nil => rfl
  | cons x src ih =>
      by_cases hx : x.1 < a
      · rw [List.dropWhile_cons_of_pos (by simpa using hx), ih, List.lookup_cons]
        have hne : (k == x.1) = false := by
          rw [beq_eq_false_iff_ne]
          exact (hx.trans_le h).ne'
        rw [hne]
      · rw [List.dropWhile_cons_of_neg (by simpa using hx)]

/-- **The merge** of two lists in increasing order. -/
theorem matchLoop_eq (hsrc : Increasing src) (hdst : Increasing dst) :
    matchLoop src dst = matched src dst := by
  induction dst generalizing src with
  | nil => rfl
  | cons d dst ih =>
      obtain ⟨k, v⟩ := d
      obtain ⟨hlt, hrest⟩ := List.pairwise_cons.mp hdst
      have hdrop : Increasing (src.dropWhile (·.1 < k)) :=
        List.Pairwise.sublist (List.dropWhile_sublist _) hsrc
      have hsame : matched (src.dropWhile (·.1 < k)) ((k, v) :: dst) =
          matched src ((k, v) :: dst) := by
        apply matched_congr
        intro x hx
        apply lookup_dropWhile
        rcases List.mem_cons.mp hx with rfl | hmem
        · exact le_rfl
        · exact (hlt x hmem).le
      rw [matchLoop, ← hsame]
      cases hcases : src.dropWhile (·.1 < k) with
      | nil => rw [matched_nil, List.map_cons]
      | cons x src' =>
          obtain ⟨k', v'⟩ := x
          rw [hcases] at hdrop
          obtain ⟨hlt', hrest'⟩ := List.pairwise_cons.mp hdrop
          have hle : k ≤ k' := by
            have hhead := List.head?_dropWhile_not (fun x : K × W => decide (x.1 < k)) src
            simpa [hcases] using hhead
          dsimp only
          by_cases hk : k < k'
          · have hnone : List.lookup k ((k', v') :: src') = none := by
              apply lookup_eq_none_of_lt
              intro x hx
              rcases List.mem_cons.mp hx with rfl | hmem
              · exact hk
              · exact hk.trans (hlt' x hmem)
            rw [if_pos hk, ih hdrop hrest, matched_cons, hnone]
            rfl
          · obtain rfl := le_antisymm hle (not_lt.mp hk)
            have hother : matched ((k, v') :: src') dst = matched src' dst := by
              apply matched_congr
              intro x hx
              rw [List.lookup_cons, beq_eq_false_iff_ne.mpr (hlt x hx).ne']
            rw [if_neg hk, ih hrest' hrest, matched_cons, hother, List.lookup_cons_self]
            rfl

/-- **The halving** does not change the result. -/
theorem orderedMatch_eq {grainsize fuel : ℕ} (hgrain : 0 < grainsize) (hfuel : dst.length ≤ fuel)
    (hsrc : Increasing src) (hdst : Increasing dst) :
    orderedMatch grainsize fuel src dst = matched src dst := by
  induction fuel generalizing src dst with
  | zero =>
      obtain rfl := List.length_eq_zero_iff.mp (Nat.le_zero.mp hfuel)
      rfl
  | succ fuel ih =>
      cases dst with
      | nil => rw [orderedMatch]; rfl
      | cons d dst =>
          cases src with
          | nil => rw [orderedMatch, matched_nil]; simp
          | cons x src =>
              have hdrop : Increasing ((x :: src).dropWhile (·.1 < d.1)) :=
                List.Pairwise.sublist (List.dropWhile_sublist _) hsrc
              have hsame : matched ((x :: src).dropWhile (·.1 < d.1)) (d :: dst) =
                  matched (x :: src) (d :: dst) := by
                apply matched_congr
                intro y hy
                apply lookup_dropWhile
                rcases List.mem_cons.mp hy with rfl | hmem
                · exact le_rfl
                · exact ((List.pairwise_cons.mp hdst).1 y hmem).le
              rw [orderedMatch, ← hsame]
              dsimp only
              split
              · exact matchLoop_eq hdrop hdst
              · rename_i hlong
                generalize hhalf : (d :: dst).length / 2 = half
                have hlength : (d :: dst).length = dst.length + 1 := rfl
                have hleft := ih (show ((d :: dst).take half).length ≤ fuel by
                  rw [List.length_take]; omega) hdrop (hdst.sublist (List.take_sublist _ _))
                have hright := ih (show ((d :: dst).drop half).length ≤ fuel by
                  rw [List.length_drop]; omega) hdrop (hdst.sublist (List.drop_sublist _ _))
                rw [hleft, hright, ← matched_append, List.take_append_drop]

end Merge

/-! ## The part that may match -/

section Range

variable {keys : List UInt64}

/-- From the lower bound on, keys are not smaller. -/
theorem le_of_mem_drop_lowerBound {keys : List K} (hsorted : keys.Pairwise (· < ·)) {a k : K}
    (hk : k ∈ keys.drop (lowerBound keys a)) : a ≤ k := by
  induction keys with
  | nil => cases hk
  | cons x keys ih =>
      obtain ⟨hlt, hrest⟩ := List.pairwise_cons.mp hsorted
      rw [lowerBound_cons] at hk
      by_cases hx : x < a
      · rw [if_pos hx, List.drop_succ_cons] at hk
        exact ih hrest hk
      · rw [if_neg hx, List.drop_zero] at hk
        rcases List.mem_cons.mp hk with rfl | hmem
        · exact not_lt.mp hx
        · exact (not_lt.mp hx).trans (hlt k hmem).le

/-- Below the upper end of a range, adding one does not overflow. -/
theorem lt_add_one_of_lt {k b : UInt64} (h : k < b) {x : UInt64} : x < k + 1 ↔ x ≤ k := by
  have hk : k.toNat < b.toNat := UInt64.lt_iff_toNat_lt.mp h
  have hb : b.toNat < 2 ^ 64 := b.toNat_lt
  rw [UInt64.lt_iff_toNat_lt, UInt64.le_iff_toNat_le, UInt64.toNat_add]
  simp only [UInt64.toNat_one]
  omega

theorem lookup_map_mk {keys : List K} (f : K → W) (k : K) :
    (keys.map fun x => (x, f x)).lookup k = if k ∈ keys then some (f k) else none := by
  induction keys with
  | nil => rfl
  | cons x keys ih =>
      rw [List.map_cons, List.lookup_cons, ih]
      by_cases hk : k = x
      · subst hk
        simp
      · rw [beq_eq_false_iff_ne.mpr hk]
        simp [hk]

/-- All keys of a list are in its range. -/
theorem contains_rangeOf {b : UInt64} (hsorted : keys.Pairwise (· < ·)) (hlt : ∀ k ∈ keys, k < b)
    {k : UInt64} (hk : k ∈ keys) : (rangeOf keys).contains k := by
  cases keys with
  | nil => cases hk
  | cons x keys =>
      constructor
      · show x ≤ k
        rcases List.mem_cons.mp hk with rfl | hmem
        · exact le_rfl
        · exact ((List.pairwise_cons.mp hsorted).1 k hmem).le
      · show k < (x :: keys).getLastD 0 + 1
        have hlast : (x :: keys).getLastD 0 = (x :: keys).getLast (List.cons_ne_nil x keys) := by
          rw [List.getLastD_cons, List.getLast_eq_getLastD]
        have hmax := hlt _ (List.getLast_mem (List.cons_ne_nil x keys))
        rw [hlast, lt_add_one_of_lt hmax]
        exact (hsorted.imp le_of_lt).rel_getLast hk

/-- The destination is cut into what lies before the range, in it and behind it. -/
theorem cut_eq {α : Type} (xs : List α) {first last : ℕ} (h : first ≤ last) :
    xs.take first ++ (xs.take last).drop first ++ xs.drop last = xs := by
  have htake : xs.take first = (xs.take last).take first := by
    rw [List.take_take, min_eq_left h]
  rw [htake, List.take_append_drop, List.take_append_drop]

/-- What the match makes of values that are given by functions. -/
theorem matched_map (src dst : List K) (f g : K → W) :
    matched (src.map fun k => (k, f k)) (dst.map fun k => (k, g k)) =
      (dst.map fun k => if k ∈ src then f k else g k, dst.countP fun k => k ∈ src) := by
  rw [matched, List.map_map, List.countP_map, Prod.mk.injEq]
  constructor
  · apply List.map_congr_left
    intro k _
    rw [Function.comp_apply, lookup_map_mk]
    by_cases hk : k ∈ src
    · simp [hk]
    · simp [hk]
  · apply List.countP_congr
    intro k _
    rw [Function.comp_apply, lookup_map_mk]
    by_cases hk : k ∈ src
    · simp [hk]
    · simp [hk]

theorem increasing_map {keys : List K} (hsorted : keys.Pairwise (· < ·)) (f : K → W) :
    Increasing (keys.map fun k => (k, f k)) := by
  rw [Increasing, List.pairwise_map]
  exact hsorted

theorem zip_map_self {α β : Type} (xs : List α) (f : α → β) :
    xs.zip (xs.map f) = xs.map fun x => (x, f x) := by
  induction xs with
  | nil => rfl
  | cons x xs ih => rw [List.map_cons, List.zip_cons_cons, ih, List.map_cons]

/-- The slice is found again among the keys in a larger range. -/
theorem countP_mem_between {keys src : List K} {a b : K} {r : Range K}
    (hsrc : src = between keys a b) (hrange : ∀ k ∈ src, r.contains k) :
    (between keys r.begin_ r.end_).countP (fun k => decide (k ∈ src)) = src.length := by
  have hmem : ∀ k ∈ keys, k ∈ src ↔ a ≤ k ∧ k < b := by
    intro k hk
    rw [hsrc, mem_between]
    exact and_iff_right hk
  have hfilter : keys.filter (fun k => decide (k ∈ src) && decide (r.begin_ ≤ k ∧ k < r.end_)) =
      between keys a b := by
    apply List.filter_congr
    intro k hk
    rw [← Bool.decide_and, decide_eq_decide, ← hmem k hk]
    exact and_iff_left_of_imp (hrange k)
  rw [List.countP_eq_length_filter, between, List.filter_filter, hfilter, hsrc]

/-- Outside of the range nothing is assigned. -/
theorem map_cut {keys src : List K} {r : Range K} (hsorted : keys.Pairwise (· < ·))
    (hvalid : r.begin_ ≤ r.end_) (hrange : ∀ k ∈ src, r.contains k) (f g : K → W) :
    (keys.take (lowerBound keys r.begin_)).map g ++
        (between keys r.begin_ r.end_).map (fun k => if k ∈ src then f k else g k) ++
        (keys.drop (lowerBound keys r.end_)).map g =
      keys.map (fun k => if k ∈ src then f k else g k) := by
  have hmono : lowerBound keys r.begin_ ≤ lowerBound keys r.end_ := lowerBound_mono hvalid
  have hmid := segment_eq_between hsorted hvalid
  rw [segment, if_pos ⟨hmono, lowerBound_le _⟩, Option.some.injEq] at hmid
  have hbefore : ∀ k ∈ keys.take (lowerBound keys r.begin_), k ∉ src := by
    intro k hk hmem
    rw [take_lowerBound hsorted, List.mem_filter, decide_eq_true_eq] at hk
    exact absurd (hrange k hmem).1 (not_le.mpr hk.2)
  have hbehind : ∀ k ∈ keys.drop (lowerBound keys r.end_), k ∉ src := by
    intro k hk hmem
    exact absurd (hrange k hmem).2 (not_lt.mpr (le_of_mem_drop_lowerBound hsorted hk))
  conv_rhs => rw [← cut_eq keys hmono]
  rw [List.map_append, List.map_append, hmid,
    List.map_congr_left fun k hk => (if_neg (hbefore k hk)).symm,
    List.map_congr_left fun k hk => (if_neg (hbehind k hk)).symm]

/-- **All keys of a slice match**, and their values are assigned. -/
theorem parallelOrderedMatch_eq [Zero W] (hsorted : keys.Pairwise (· < ·)) {src : List UInt64}
    {a b : UInt64} (hsrc : src = between keys a b) (hne : src ≠ []) (f g : UInt64 → W) :
    parallelOrderedMatch src (src.map f) keys (keys.map g) =
      some (keys.map fun k => if k ∈ src then f k else g k, src.length) := by
  have hsub : ∀ k ∈ src, k ∈ keys ∧ a ≤ k ∧ k < b := by
    rw [hsrc]
    exact fun k hk => mem_between.mp hk
  have hsrcSorted : src.Pairwise (· < ·) := by
    rw [hsrc]
    exact hsorted.sublist List.filter_sublist
  obtain ⟨k₀, hk₀⟩ := List.exists_mem_of_ne_nil src hne
  have hkeys : keys ≠ [] := List.ne_nil_of_mem (hsub k₀ hk₀).1
  have hrange : ∀ k ∈ src, (rangeOf src).contains k :=
    fun k hk => contains_rangeOf hsrcSorted (fun x hx => (hsub x hx).2.2) hk
  have hvalid : (rangeOf src).begin_ ≤ (rangeOf src).end_ :=
    ((hrange k₀ hk₀).1.trans_lt (hrange k₀ hk₀).2).le
  have hmid := segment_eq_between hsorted hvalid
  rw [segment, if_pos ⟨lowerBound_mono hvalid, lowerBound_le _⟩, Option.some.injEq] at hmid
  have hnonempty : (keys.map g).isEmpty = false := by simpa using hkeys
  have hincreasing : Increasing ((between keys (rangeOf src).begin_ (rangeOf src).end_).map
      fun k => (k, g k)) := increasing_map (hsorted.sublist List.filter_sublist) g
  rw [parallelOrderedMatch, if_neg hkeys]
  simp only [hnonempty, List.length_map, and_self, if_true, findRange, hkeys, hvalid,
    Bool.false_eq_true, if_false, Option.bind_eq_bind, Option.bind_some, Option.pure_def,
    zip_map_self, ← List.map_take, ← List.map_drop, hmid]
  rw [orderedMatch_eq (by omega) (by rw [List.length_map]) (increasing_map hsrcSorted f)
    hincreasing, matched_map]
  dsimp only
  rw [countP_mem_between hsrc hrange, map_cut hsorted hvalid hrange]
  congr!

end Range

end Difacto.System
