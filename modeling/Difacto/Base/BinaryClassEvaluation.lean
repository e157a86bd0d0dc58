import Difacto.Lib.Pairs
import Mathlib.Algebra.Order.Field.Basic
import Mathlib.Data.Prod.Lex
import Mathlib.Tactic.FieldSimp
import Mathlib.Tactic.Linarith
import Mathlib.Tactic.Ring

/-!
# The area under the curve

`AUC` of `base/binary_class_evaluation.h` in exact arithmetic. `std::sort` may leave examples with
equal predictions in any order.

## Main definitions

* `auc` — what is computed from the sorted examples; `accuracy`, `logitObjv`.
* `areaUnderCurve` — the fraction of pairs that it stands for.

## Main results

* `auc_eq_areaUnderCurve_iff` — when the result is that fraction for every order of the examples.
-/

namespace Difacto.Base.BinClassEval

open Lib

variable {V : Type} [Field V] [LinearOrder V]

/-- `Entry` of `AUC` -/
structure Entry (V : Type) where
  label : V
  predict : V

def Entry.positive (e : Entry V) : Bool := decide (0 < e.label)

/-- What `std::sort` may leave in `buff`. -/
structure Arrangement (examples buff : List (Entry V)) : Prop where
  perm : buff.Perm examples
  sorted : buff.Pairwise fun a b => ¬ b.predict < a.predict

/-- One round of the loop, on `area` and `cum_tp`. -/
def Entry.add (s : V × V) (e : Entry V) : V × V :=
  if 0 < e.label then (s.1, s.2 + 1) else (s.1 + s.2, s.2)

/-- `AUC` after `std::sort` -/
def auc (buff : List (Entry V)) : V :=
  let (area, cumTp) := buff.foldl Entry.add (0, 0)
  if cumTp = 0 ∨ cumTp = buff.length then 1
  else
    let area := area / (cumTp * (buff.length - cumTp))
    if area < 0.5 then 1 - area else area

/-- `Accuracy` -/
def accuracy (examples : List (Entry V)) (threshold : V) : V :=
  let correct := examples.countP fun e =>
    (0 < e.label ∧ threshold < e.predict) ∨ (e.label ≤ 0 ∧ e.predict ≤ threshold)
  let acc := (correct : V) / examples.length
  if 0.5 < acc then acc else 1 - acc

/-- `LogitObjv`, with the `exp` and `log` of the library. -/
def logitObjv (exp log : V → V) (examples : List (Entry V)) : V :=
  examples.foldl (fun objv e =>
    let y := if 0 < e.label then 1 else -1
    let score := y * e.predict
    if score < -30 then objv + -score
    else if score ≤ 30 then objv + log (1 + exp (-score))
    else objv) 0

/-! ## The fraction of pairs -/

/-- The number of pairs of a positive and a negative example whose predictions `r` relates. -/
def mixedPairs (r : V → V → Prop) [DecidableRel r] (examples : List (Entry V)) : ℕ :=
  pairCount (fun p q => p.positive && !q.positive && decide (r p.predict q.predict))
    examples examples

def positives (examples : List (Entry V)) : ℕ := examples.countP Entry.positive

def negatives (examples : List (Entry V)) : ℕ := examples.countP fun e => !e.positive

/-- The fraction of the pairs in which the positive example has the larger prediction. Ties count
one half. -/
def pairFraction (examples : List (Entry V)) : V :=
  (mixedPairs (· > ·) examples + 0.5 * mixedPairs (· = ·) examples) /
    (positives examples * negatives examples)

/-- The value of the curve. -/
def areaUnderCurve (examples : List (Entry V)) : V :=
  if positives examples = 0 ∨ negatives examples = 0 then 1
  else max (pairFraction examples) (1 - pairFraction examples)

/-- No positive and negative example have the same prediction. -/
def NoTies (examples : List (Entry V)) : Prop :=
  ∀ p ∈ examples, ∀ q ∈ examples, 0 < p.label → ¬ 0 < q.label → p.predict ≠ q.predict

theorem mixedPairs_perm {r : V → V → Prop} [DecidableRel r] {examples buff : List (Entry V)}
    (h : buff.Perm examples) : mixedPairs r buff = mixedPairs r examples :=
  pairCount_perm h h

theorem mixedPairs_le (examples : List (Entry V)) :
    mixedPairs (· ≤ ·) examples =
      mixedPairs (· < ·) examples + mixedPairs (· = ·) examples := by
  refine pairCount_add fun p _ q _ => ?_
  rcases lt_trichotomy p.predict q.predict with h | h | h
  · simp [h, h.le, h.ne]
  · simp [h]
  · simp [h.not_ge, h.not_gt, h.ne']

/-- Every pair of a positive and a negative example is of one of three kinds. -/
theorem mixedPairs_sum (examples : List (Entry V)) :
    mixedPairs (· < ·) examples + mixedPairs (· = ·) examples + mixedPairs (· > ·) examples =
      positives examples * negatives examples := by
  rw [← mixedPairs_le, positives, negatives, ← pairCount_and]
  refine (pairCount_add fun p _ q _ => ?_).symm
  rcases le_or_gt p.predict q.predict with h | h
  · simp [h, h.not_gt]
  · simp [h, h.not_ge]

theorem mixedPairs_eq_iff (examples : List (Entry V)) :
    mixedPairs (· = ·) examples = 0 ↔ NoTies examples := by
  rw [mixedPairs, pairCount_eq_zero_iff]
  simp [NoTies, Entry.positive]

/-! ## The loop -/

/-- The pairs that the loop counts: a positive example and a later negative one. -/
def countedPairs (buff : List (Entry V)) : ℕ :=
  inOrder (fun p q => p.positive && !q.positive) buff

theorem positives_add_negatives (examples : List (Entry V)) :
    positives examples + negatives examples = examples.length := by
  have hlength := List.length_eq_countP_add_countP (l := examples) Entry.positive
  simp only [Bool.not_eq_true, Bool.decide_eq_false] at hlength
  exact hlength.symm

theorem foldl_add (buff : List (Entry V)) (s : V × V) :
    buff.foldl Entry.add s =
      (s.1 + s.2 * negatives buff + countedPairs buff, s.2 + positives buff) := by
  induction buff generalizing s with
  | nil => simp [negatives, positives, countedPairs, inOrder]
  | cons e buff ih =>
    rw [List.foldl_cons, ih]
    by_cases hlabel : 0 < e.label
    · have hpositive : e.positive = true := decide_eq_true hlabel
      simp [Entry.add, hlabel, negatives, positives, countedPairs, inOrder, hpositive]
      constructor <;> ring
    · have hpositive : e.positive = false := decide_eq_false hlabel
      simp [Entry.add, hlabel, negatives, positives, countedPairs, inOrder, hpositive]
      ring

/-- Positive examples stand before the negative ones with the larger predictions. -/
theorem Arrangement.countedPairs_lt {examples buff : List (Entry V)} (h : Arrangement examples buff)
    (hties : buff.Pairwise fun p q => p.positive → ¬ q.positive → p.predict ≠ q.predict) :
    countedPairs buff = mixedPairs (· < ·) buff := by
  refine inOrder_eq_pairCount (fun e => by simp) ((h.sorted.and hties).imp ?_)
  rintro p q ⟨hsorted, htie⟩
  cases hp : p.positive <;> cases hq : q.positive <;>
    simp_all [lt_of_le_of_ne, not_lt.mp hsorted]

/-- The same where the positive examples stand first among equal predictions. -/
theorem Arrangement.countedPairs_le {examples buff : List (Entry V)} (h : Arrangement examples buff)
    (hties : buff.Pairwise fun p q => ¬ p.positive → q.positive → p.predict ≠ q.predict) :
    countedPairs buff = mixedPairs (· ≤ ·) buff := by
  refine inOrder_eq_pairCount (fun e => by simp) ((h.sorted.and hties).imp ?_)
  rintro p q ⟨hsorted, htie⟩
  cases hp : p.positive <;> cases hq : q.positive <;>
    simp_all [lt_of_le_of_ne, not_lt.mp hsorted]

/-- An order by prediction that puts the examples of one kind first among equal ones. -/
def standsBefore (first : Entry V → Bool) (a b : Entry V) : Bool :=
  decide (toLex (a.predict, !first a) ≤ toLex (b.predict, !first b))

omit [Field V] in
/-- `std::sort` may put the examples of one kind first among equal predictions. -/
theorem exists_arrangement (examples : List (Entry V)) (first : Entry V → Bool) :
    ∃ buff, Arrangement examples buff ∧
      buff.Pairwise fun a b => a.predict = b.predict → first b → first a := by
  have hsorted : (examples.mergeSort (standsBefore first)).Pairwise
      fun a b => standsBefore first a b :=
    List.pairwise_mergeSort
      (fun a b c hab hbc => decide_eq_true ((of_decide_eq_true hab).trans (of_decide_eq_true hbc)))
      (fun a b => by simpa [standsBefore] using le_total (toLex (a.predict, !first a)) _) examples
  refine ⟨_, ⟨List.mergeSort_perm _ _, hsorted.imp ?_⟩, hsorted.imp ?_⟩
  · intro a b hab
    rcases Prod.Lex.toLex_le_toLex.mp (of_decide_eq_true hab) with hlt | ⟨heq, -⟩
    · exact hlt.not_gt
    · exact heq.not_gt
  · intro a b hab heq hb
    rcases Prod.Lex.toLex_le_toLex.mp (of_decide_eq_true hab) with hlt | ⟨-, hle⟩
    · exact absurd heq hlt.ne
    · simpa [hb, Bool.le_iff_imp] using hle

variable [IsStrictOrderedRing V]

/-- `AUC` from the pairs that the loop counts. -/
theorem auc_eq (buff : List (Entry V)) :
    auc buff =
      if positives buff = 0 ∨ negatives buff = 0 then 1
      else max (countedPairs buff / (positives buff * negatives buff) : V)
        (1 - countedPairs buff / (positives buff * negatives buff)) := by
  have hlength := positives_add_negatives buff
  have hcast : (buff.length : V) = positives buff + negatives buff := by
    rw [← hlength, Nat.cast_add]
  have hsub : (buff.length : V) - positives buff = negatives buff := by
    rw [hcast, add_sub_cancel_left]
  have hend : ((positives buff : V) = 0 ∨ (positives buff : V) = buff.length) ↔
      (positives buff = 0 ∨ negatives buff = 0) := by
    rw [Nat.cast_eq_zero, Nat.cast_inj]
    omega
  rw [auc, foldl_add]
  simp only [zero_mul, zero_add, hend, hsub]
  split
  · rfl
  · split
    · next hlt => rw [max_eq_right (by linarith)]
    · next hge => rw [max_eq_left (by linarith [not_lt.mp hge])]

/-! ## The result -/

/-- The counts in the fraction of the pairs. -/
theorem pairFraction_eq {examples : List (Entry V)} (hpos : positives examples ≠ 0)
    (hneg : negatives examples ≠ 0) :
    pairFraction examples =
      1 - (mixedPairs (· < ·) examples : V) / (positives examples * negatives examples) -
        (mixedPairs (· = ·) examples : V) / (positives examples * negatives examples) / 2 := by
  have hp : (positives examples : V) ≠ 0 := Nat.cast_ne_zero.mpr hpos
  have hn : (negatives examples : V) ≠ 0 := Nat.cast_ne_zero.mpr hneg
  have hsum : (mixedPairs (· < ·) examples + mixedPairs (· = ·) examples +
      mixedPairs (· > ·) examples : V) = positives examples * negatives examples := by
    exact_mod_cast mixedPairs_sum examples
  rw [pairFraction]
  field_simp
  linarith

/-- `AUC` of an arrangement, from the examples. -/
theorem Arrangement.auc_eq {examples buff : List (Entry V)} (h : Arrangement examples buff) :
    auc buff =
      if positives examples = 0 ∨ negatives examples = 0 then 1
      else max (countedPairs buff / (positives examples * negatives examples) : V)
        (1 - countedPairs buff / (positives examples * negatives examples)) := by
  have hpos : positives buff = positives examples := h.perm.countP_eq _
  have hneg : negatives buff = negatives examples := h.perm.countP_eq _
  rw [BinClassEval.auc_eq, hpos, hneg]

theorem eq_or_eq_of_max_eq {x y : V} (h : max x (1 - x) = max y (1 - y)) : x = y ∨ x = 1 - y := by
  rcases max_choice x (1 - x) with hx | hx <;> rcases max_choice y (1 - y) with hy | hy
  · exact .inl (by rw [← hx, h, hy])
  · exact .inr (by rw [← hx, h, hy])
  · exact .inr (by linarith)
  · exact .inl (by linarith)

/-- With ties the two extreme arrangements cannot both give the fraction. -/
theorem no_common_value {x t a : V} (ht : t ≠ 0) (ha : a = 1 - x - t / 2)
    (hfirst : max x (1 - x) = max a (1 - a))
    (hlast : max (x + t) (1 - (x + t)) = max a (1 - a)) : False := by
  refine ht ?_
  rcases eq_or_eq_of_max_eq hfirst with h | h <;>
    rcases eq_or_eq_of_max_eq hlast with h' | h' <;> linarith

/-- **`AUC` is the fraction of pairs for every order of the examples** if and only if no positive
and negative example have the same prediction. -/
theorem auc_eq_areaUnderCurve_iff (examples : List (Entry V)) :
    (∀ examples' buff, examples'.Perm examples → Arrangement examples' buff →
      auc buff = areaUnderCurve examples) ↔ NoTies examples := by
  constructor
  · intro hall
    by_contra hties
    rw [← mixedPairs_eq_iff] at hties
    have hsum := mixedPairs_sum examples
    have hclasses : ¬ (positives examples = 0 ∨ negatives examples = 0) := by
      rintro (h | h) <;> rw [h] at hsum <;> omega
    obtain ⟨hpos, hneg⟩ := not_or.mp hclasses
    obtain ⟨buff, harr, hbuff⟩ := exists_arrangement examples fun e => !e.positive
    obtain ⟨buff', harr', hbuff'⟩ := exists_arrangement examples Entry.positive
    have hlt : countedPairs buff = mixedPairs (· < ·) examples := by
      rw [harr.countedPairs_lt (hbuff.imp fun h hp hq heq => by simp_all),
        mixedPairs_perm harr.perm]
    have hle : countedPairs buff' =
        mixedPairs (· < ·) examples + mixedPairs (· = ·) examples := by
      rw [harr'.countedPairs_le (hbuff'.imp fun h hp hq heq => by simp_all),
        mixedPairs_perm harr'.perm, mixedPairs_le]
    have hfirst := hall examples buff .rfl harr
    have hlast := hall examples buff' .rfl harr'
    rw [harr.auc_eq, areaUnderCurve, if_neg hclasses, if_neg hclasses, hlt] at hfirst
    rw [harr'.auc_eq, areaUnderCurve, if_neg hclasses, if_neg hclasses, hle, Nat.cast_add,
      add_div] at hlast
    refine no_common_value ?_ (pairFraction_eq hpos hneg) hfirst hlast
    exact div_ne_zero (Nat.cast_ne_zero.mpr hties)
      (mul_ne_zero (Nat.cast_ne_zero.mpr hpos) (Nat.cast_ne_zero.mpr hneg))
  · intro hties examples' buff hperm harr
    have harr : Arrangement examples buff := ⟨harr.perm.trans hperm, harr.sorted⟩
    rw [harr.auc_eq, areaUnderCurve]
    split
    · rfl
    · next hclasses =>
      obtain ⟨hpos, hneg⟩ := not_or.mp hclasses
      have hlt : countedPairs buff = mixedPairs (· < ·) examples := by
        rw [harr.countedPairs_lt, mixedPairs_perm harr.perm]
        refine List.pairwise_of_forall_mem_list fun p hp q hq hp' hq' => ?_
        exact hties p (harr.perm.mem_iff.mp hp) q (harr.perm.mem_iff.mp hq)
          (by simpa [Entry.positive] using hp') (by simpa [Entry.positive] using hq')
      rw [pairFraction_eq hpos hneg, (mixedPairs_eq_iff examples).mpr hties, hlt, max_comm]
      simp

theorem auc_eq_areaUnderCurve_twoPoints :
    auc [(⟨-1, 1⟩ : Entry ℚ), ⟨1, 2⟩] = areaUnderCurve [⟨1, 2⟩, ⟨-1, 1⟩] := by
  have hties : NoTies [(⟨1, 2⟩ : Entry ℚ), ⟨-1, 1⟩] := by
    intro p hp q hq hpos hneg
    simp only [List.mem_cons, List.not_mem_nil, or_false] at hp hq
    rcases hp with rfl | rfl <;> rcases hq with rfl | rfl <;> norm_num at *
  exact (auc_eq_areaUnderCurve_iff [⟨1, 2⟩, ⟨-1, 1⟩]).mpr hties _ _ .rfl
    ⟨List.Perm.swap _ _ _, by simp⟩

/-- **Ties change the result**: two positive examples and a negative one with the prediction 0. -/
theorem auc_ties : ¬ ∀ examples' buff,
    examples'.Perm [(⟨1, 0⟩ : Entry ℚ), ⟨1, 0⟩, ⟨-1, 0⟩] → Arrangement examples' buff →
      auc buff = areaUnderCurve [(⟨1, 0⟩ : Entry ℚ), ⟨1, 0⟩, ⟨-1, 0⟩] := by
  intro hall
  have hsame := hall _ [⟨1, 0⟩, ⟨1, 0⟩, ⟨-1, 0⟩] .rfl ⟨.rfl, by simp⟩
  exact absurd hsame (by decide +kernel)

end Difacto.Base.BinClassEval
