import Mathlib.Data.List.Basic
import Mathlib.Data.List.Range
import Mathlib.Algebra.Ring.Int.Defs
import Mathlib.Algebra.Ring.Nat

/-!
# Blocks of input rows

`RowBlock<IndexType>` of `dmlc-core/include/dmlc/data.h`, as the parsers deliver it: rows
of feature ids, in compressed form. A block with or without a value array stands for a list
of rows.

## Main definitions

* `InputBlock`, `InputBlock.Valid` — a block, and that its arrays fit together.
* `InputRow`, `InputBlock.rows` — the rows of a block.
* `cut` — a part of an array.
-/

namespace Difacto.Base

variable {α I F : Type}

/-! ## Parts of an array -/

/-- The elements from `a` to `b`. -/
def cut (a b : ℕ) (xs : List α) : List α := (xs.drop a).take (b - a)

theorem length_cut {a b : ℕ} {xs : List α} (hb : b ≤ xs.length) : (cut a b xs).length = b - a := by
  rw [cut, List.length_take, List.length_drop]
  omega

@[simp] theorem cut_self (a : ℕ) (xs : List α) : cut a a xs = [] := by
  rw [cut, Nat.sub_self, List.take_zero]

theorem cut_append {a b c : ℕ} (xs : List α) (hab : a ≤ b) (hbc : b ≤ c) :
    cut a b xs ++ cut b c xs = cut a c xs := by
  have hdrop : xs.drop b = (xs.drop a).drop (b - a) := by
    rw [List.drop_drop, Nat.add_sub_cancel' hab]
  have hlen : c - a = (b - a) + (c - b) := by omega
  rw [cut, cut, cut, hdrop, hlen, List.take_add]

/-! ## Blocks -/

/-- `RowBlock<IndexType>` -/
structure InputBlock (I F : Type) where
  /-- batch size -/
  size : ℕ
  /-- array[size+1], row pointer to beginning of each rows -/
  offset : List ℕ
  /-- array[size] label of each instance -/
  label : List F
  /-- with weight: array[size] label of each instance, otherwise nullptr -/
  weight : Option (List F)
  /-- feature index -/
  index : List I
  /-- feature value, can be NULL, indicating all values are 1 -/
  value : Option (List F)
  deriving DecidableEq

/-- A row; `value` is absent if its block has no values. -/
structure InputRow (I F : Type) where
  label : F
  index : List I
  value : Option (List F)
  deriving DecidableEq

/-- The features of a row with their values. -/
def InputRow.features [One F] (r : InputRow I F) : List (I × F) :=
  r.index.zip (r.value.getD (List.replicate r.index.length 1))

namespace InputBlock

variable (b : InputBlock I F)

/-- `offset[i]` -/
def off (i : ℕ) : ℕ := b.offset.getD i 0

/-- Row `i`. -/
def row [One F] (i : ℕ) : InputRow I F where
  label := b.label.getD i 1
  index := cut (b.off i) (b.off (i + 1)) b.index
  value := b.value.map (cut (b.off i) (b.off (i + 1)))

/-- The rows. -/
def rows [One F] : List (InputRow I F) := (List.range b.size).map b.row

/-- The rows of a sequence of blocks. -/
def sourceRows [One F] (bs : List (InputBlock I F)) : List (InputRow I F) :=
  bs.flatMap fun b => b.rows

omit b in
theorem sourceRows_cons [One F] (b : InputBlock I F) (bs : List (InputBlock I F)) :
    sourceRows (b :: bs) = b.rows ++ sourceRows bs :=
  List.flatMap_cons

/-- The arrays are as long as the offsets say. -/
structure Valid : Prop where
  length_offset : b.offset.length = b.size + 1
  off_le : ∀ i < b.size, b.off i ≤ b.off (i + 1)
  length_label : b.label.length = b.size
  length_index : b.off b.size ≤ b.index.length
  length_value : ∀ v ∈ b.value, b.off b.size ≤ v.length

variable {b}

theorem Valid.off_mono (h : b.Valid) {i j : ℕ} (hij : i ≤ j) (hj : j ≤ b.size) :
    b.off i ≤ b.off j := by
  induction j with
  | zero => rw [Nat.le_zero.mp hij]
  | succ j ih =>
      rcases Nat.le_succ_iff.mp hij with hle | rfl
      · exact (ih hle (Nat.le_of_succ_le hj)).trans (h.off_le j hj)
      · exact le_rfl

/-- The rows from `p` on, `n` of them, have the part of an array between their offsets. -/
theorem Valid.flatMap_cut (h : b.Valid) (xs : List α) (p n : ℕ) (hn : p + n ≤ b.size) :
    (List.range' p n).flatMap (fun i => cut (b.off i) (b.off (i + 1)) xs) =
      cut (b.off p) (b.off (p + n)) xs := by
  induction n generalizing p with
  | zero => simp
  | succ n ih =>
      rw [List.range'_succ, List.flatMap_cons, ih (p + 1) (by omega),
        cut_append xs (h.off_le p (by omega)) (h.off_mono (by omega) (by omega))]
      congr 2
      omega

/-- A row of a valid block has as many values as features, if it has values. -/
theorem Valid.length_value_row [One F] (h : b.Valid) {i : ℕ} (hi : i < b.size) :
    ∀ vs ∈ (b.row i).value, vs.length = (b.row i).index.length := by
  intro vs hvs
  obtain ⟨v, hv, rfl⟩ := Option.map_eq_some_iff.mp hvs
  have hoff := h.off_mono (show i + 1 ≤ b.size from hi) le_rfl
  rw [length_cut (hoff.trans (h.length_value v hv)), row,
    length_cut (hoff.trans h.length_index)]

end InputBlock

end Difacto.Base
