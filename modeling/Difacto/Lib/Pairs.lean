import Mathlib.Algebra.Ring.Nat
import Mathlib.Data.List.Perm.Basic
import Mathlib.Algebra.BigOperators.Group.List.Basic

/-!
# Counting pairs of a list

How many pairs of elements are related, and how many of them stand in that order.

## Main definitions

* `pairCount` — the pairs of an element of one list and an element of another.
* `inOrder` — the pairs of one list whose first part stands before the second.

## Main results

* `inOrder_eq_pairCount` — a list that an order sorts has all its related pairs in order.
-/

namespace Difacto.Lib

variable {α : Type}

/-- The number of pairs that `r` relates. -/
def pairCount (r : α → α → Bool) (xs ys : List α) : ℕ :=
  (xs.map fun x => ys.countP (r x)).sum

/-- The number of pairs that `r` relates and that stand in that order. -/
def inOrder (r : α → α → Bool) : List α → ℕ
  | [] => 0
  | x :: xs => xs.countP (r x) + inOrder r xs

variable (r s : α → α → Bool)

theorem pairCount_cons_left (x : α) (xs ys : List α) :
    pairCount r (x :: xs) ys = ys.countP (r x) + pairCount r xs ys := rfl

theorem pairCount_cons_right (xs : List α) (y : α) (ys : List α) :
    pairCount r xs (y :: ys) = xs.countP (r · y) + pairCount r xs ys := by
  induction xs with
  | nil => rfl
  | cons x xs ih =>
    rw [pairCount_cons_left, pairCount_cons_left, ih, List.countP_cons, List.countP_cons]
    omega

variable {r s}

/-- The number of pairs does not depend on the arrangement. -/
theorem pairCount_perm {xs xs' ys ys' : List α} (hx : xs.Perm xs') (hy : ys.Perm ys') :
    pairCount r xs ys = pairCount r xs' ys' := by
  have hcount : (fun x => ys.countP (r x)) = fun x => ys'.countP (r x) := by
    funext x
    exact hy.countP_eq _
  rw [pairCount, pairCount, hcount]
  exact (hx.map _).sum_eq

/-- Pairs of two kinds. -/
theorem pairCount_add {t : α → α → Bool} {xs ys : List α}
    (hone : ∀ x ∈ xs, ∀ y ∈ ys,
      (if t x y then 1 else 0) = (if r x y then 1 else 0) + if s x y then 1 else 0) :
    pairCount t xs ys = pairCount r xs ys + pairCount s xs ys := by
  have hcount : ∀ x ∈ xs, ys.countP (t x) = ys.countP (r x) + ys.countP (s x) := by
    intro x hx
    have hx := hone x hx
    clear hone
    induction ys with
    | nil => rfl
    | cons y ys ih =>
      have hy := hx y List.mem_cons_self
      have hys := ih fun z hz => hx z (List.mem_cons_of_mem _ hz)
      rw [List.countP_cons, List.countP_cons, List.countP_cons, hys, hy]
      omega
  rw [pairCount, pairCount, pairCount, List.map_congr_left hcount, List.sum_map_add]

/-- Every pair of two lists. -/
theorem pairCount_and (p q : α → Bool) (xs ys : List α) :
    pairCount (fun x y => p x && q y) xs ys = xs.countP p * ys.countP q := by
  induction xs with
  | nil => simp [pairCount]
  | cons x xs ih =>
    rw [pairCount_cons_left, ih, List.countP_cons]
    cases hp : p x with
    | false => simp
    | true => simp [Nat.add_mul, Nat.add_comm]

theorem pairCount_eq_zero_iff {xs ys : List α} :
    pairCount r xs ys = 0 ↔ ∀ x ∈ xs, ∀ y ∈ ys, ¬ r x y := by
  simp [pairCount, List.sum_eq_zero_iff_forall_eq_nat, List.countP_eq_zero]

/-- **All related pairs are in order** where an element is never related to one before it. -/
theorem inOrder_eq_pairCount {xs : List α} (hirrefl : ∀ x, s x x = false)
    (hsorted : xs.Pairwise fun x y => r x y = s x y ∧ s y x = false) :
    inOrder r xs = pairCount s xs xs := by
  induction xs with
  | nil => rfl
  | cons x xs ih =>
    obtain ⟨hx, hxs⟩ := List.pairwise_cons.mp hsorted
    have hafter : xs.countP (r x) = xs.countP (s x) :=
      List.countP_congr fun y hy => by rw [(hx y hy).1]
    have hbefore : xs.countP (s · x) = 0 :=
      List.countP_eq_zero.mpr fun y hy => by simp [(hx y hy).2]
    rw [inOrder, pairCount_cons_left, List.countP_cons, hirrefl, pairCount_cons_right, hbefore,
      hafter, ih hxs]
    simp

end Difacto.Lib
