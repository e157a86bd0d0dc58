import Difacto.Base.InputBlock
import Mathlib.Tactic.Tauto

/-!
# The minibatch iterator

`MinibatchIter` of `base/minibatch_iter.h` without shuffling, and `RowBlockContainer` of
`dmlc-core/src/data/row_block.h`. The parser is the list of the blocks it will deliver. A
failed `CHECK` is `none`; so is a loop that is not over after `fuel` turns, which never
happens.

`mb_size_` is unsigned and the loop compares with `mb_size_ + 1`, which is 0 for the largest
size.

## Main definitions

* `RowBlockContainer` with `push` and `getBlock`.
* `MinibatchIter.next` — `Next`, with the minibatch it leaves in `out_blk_`.
* `MinibatchIter.Delivers` — the minibatches of repeated calls.
* `Uniform` — rows that fit in one minibatch.

## Main results

* `RowBlockContainer.push_slice` — a container holds the rows that were pushed.
* `MinibatchIter.fill_eq`, `MinibatchIter.next_eq` — what one call takes.
* `MinibatchIter.partition_iff` — the minibatches partition the rows.
-/

namespace Difacto.Base

variable {I F : Type} [One F]

/-! ## Containers -/

/-- `RowBlockContainer` -/
structure RowBlockContainer (I F : Type) where
  offset : List ℕ
  label : List F
  weight : List F
  index : List I
  value : List F

namespace RowBlockContainer

/-- `Clear` -/
def clear : RowBlockContainer I F :=
  { offset := [0], label := [], weight := [], index := [], value := [] }

/-- `Push(RowBlock)`. The entries are written from `offset.back()` on, which is the end of
`index`. -/
def push (c : RowBlockContainer I F) (batch : InputBlock I F) : RowBlockContainer I F :=
  let ndata := batch.off batch.size - batch.off 0
  let shift := c.offset.getD c.label.length 0
  { offset := c.offset ++
      (List.range batch.size).map fun i => shift + batch.off (i + 1) - batch.off 0
    label := c.label ++ batch.label.take batch.size
    weight := c.weight ++ (batch.weight.getD []).take batch.size
    index := c.index ++ batch.index.take ndata
    value := c.value ++ (batch.value.getD []).take ndata }

/-- `BeginPtr` of a vector that may be empty. -/
def beginPtr (xs : List F) : Option (List F) := if xs.isEmpty then none else some xs

/-- `GetBlock` -/
def getBlock (c : RowBlockContainer I F) : Option (InputBlock I F) :=
  if c.label.length + 1 = c.offset.length ∧ c.offset.getLastD 0 = c.index.length ∧
      (c.offset.getLastD 0 = c.value.length ∨ c.value.length = 0) then
    some
      { size := c.offset.length - 1
        offset := c.offset
        label := c.label
        weight := beginPtr c.weight
        index := c.index
        value := beginPtr c.value }
  else none

/-- Where the rows end when the first begins at `o`. -/
def ends (o : ℕ) : List (InputRow I F) → List ℕ
  | [] => []
  | r :: rs => (o + r.index.length) :: ends (o + r.index.length) rs

/-- The container of a list of rows: values are only there for rows that have some. -/
def ofRows (rs : List (InputRow I F)) : RowBlockContainer I F :=
  { offset := 0 :: ends 0 rs
    label := rs.map InputRow.label
    weight := []
    index := rs.flatMap InputRow.index
    value := rs.flatMap fun r => r.value.getD [] }

end RowBlockContainer

/-- The block of the rows from `pos` on, as `MinibatchIter::Push` makes it. -/
def InputBlock.slice (b : InputBlock I F) (pos len : ℕ) : InputBlock I F :=
  { size := len
    offset := b.offset.drop pos
    label := b.label.drop pos
    weight := none
    index := b.index.drop (b.off pos)
    value := b.value.map (List.drop (b.off pos)) }

/-! ## The iterator -/

/-- `MinibatchIter` -/
structure MinibatchIter (I F : Type) where
  mbSize : ℕ
  start : ℕ
  end_ : ℕ
  inBlk : InputBlock I F
  mb : RowBlockContainer I F
  /-- what the parser has not delivered yet -/
  source : List (InputBlock I F)

namespace MinibatchIter

/-- `MinibatchIter::MinibatchIter` -/
def init (mbSize : ℕ) (source : List (InputBlock I F)) : MinibatchIter I F :=
  { mbSize, start := 0, end_ := 0
    inBlk := { size := 0, offset := [], label := [], weight := none, index := [], value := none }
    mb := .clear
    source }

/-- `mb_size_ + 1` -/
def limit (s : MinibatchIter I F) : ℕ := (s.mbSize + 1) % 2 ^ 32

/-- `Push(start_, len); start_ += len` -/
def pushRows (s : MinibatchIter I F) : Option (MinibatchIter I F) :=
  let len := min (s.end_ - s.start) (s.limit - s.mb.offset.length)
  if len = 0 then some s
  else if s.start + len ≤ s.inBlk.size then
    some { s with mb := s.mb.push (s.inBlk.slice s.start len), start := s.start + len }
  else none

/-- `in_blk_ = parser_->Value(); start_ = 0; end_ = in_blk_.size` -/
def take (s : MinibatchIter I F) (blk : InputBlock I F) (source : List (InputBlock I F)) :
    MinibatchIter I F :=
  { s with inBlk := blk, start := 0, end_ := blk.size, source }

/-- The loop of `Next`. -/
def fill : ℕ → MinibatchIter I F → Option (MinibatchIter I F)
  | 0, _ => none
  | fuel + 1, s =>
    if s.mb.offset.length < s.limit then
      if s.start = s.end_ then
        match s.source with
        | [] => some s
        | blk :: source => (s.take blk source).pushRows.bind (fill fuel)
      else s.pushRows.bind (fill fuel)
    else some s

/-- The values are dropped when all of them are 1. -/
def dropBinary [DecidableEq F] (mb : RowBlockContainer I F) : RowBlockContainer I F :=
  if ∀ f ∈ mb.value, f = 1 then { mb with value := [] } else mb

/-- `Next`: its result and `out_blk_`. A turn of the loop takes a new block, but for the
first and the last. -/
def next [DecidableEq F] (s : MinibatchIter I F) :
    Option (Bool × InputBlock I F × MinibatchIter I F) := do
  let s ← fill (s.source.length + 2) { s with mb := .clear }
  let s := { s with mb := dropBinary s.mb }
  let outBlk ← s.mb.getBlock
  return (decide (0 < outBlk.size), outBlk, s)

/-- The minibatches that `Next` delivers until it returns false. -/
inductive Delivers [DecidableEq F] : MinibatchIter I F → List (InputBlock I F) → Prop
  | done {s s' : MinibatchIter I F} {blk : InputBlock I F} :
      s.next = some (false, blk, s') → Delivers s []
  | step {s s' : MinibatchIter I F} {blk : InputBlock I F} {blks : List (InputBlock I F)} :
      s.next = some (true, blk, s') → Delivers s' blks → Delivers s (blk :: blks)

end MinibatchIter

/-! ## Containers hold rows -/

omit [One F] in
theorem InputBlock.off_slice (b : InputBlock I F) (pos len i : ℕ) :
    (b.slice pos len).off i = b.off (pos + i) := by
  simp [InputBlock.off, InputBlock.slice, List.getD_eq_getElem?_getD]

namespace RowBlockContainer

variable {rs : List (InputRow I F)}

omit [One F] in
@[simp] theorem length_ends (o : ℕ) (rs : List (InputRow I F)) :
    (ends o rs).length = rs.length := by
  induction rs generalizing o with
  | nil => rfl
  | cons r rs ih => simp [ends, ih]

omit [One F] in
theorem ends_append (o : ℕ) (rs rs' : List (InputRow I F)) :
    ends o (rs ++ rs') = ends o rs ++ ends (o + (rs.flatMap InputRow.index).length) rs' := by
  induction rs generalizing o with
  | nil => simp [ends]
  | cons r rs ih => simp [ends, ih, Nat.add_assoc]

omit [One F] in
/-- The last row ends at the end of the entries. -/
theorem getLastD_ends (o : ℕ) (rs : List (InputRow I F)) :
    (o :: ends o rs).getLastD 0 = o + (rs.flatMap InputRow.index).length := by
  induction rs generalizing o with
  | nil => simp [ends]
  | cons r rs ih =>
      have hrest := ih (o + r.index.length)
      simp only [ends, List.getLastD_cons, List.flatMap_cons, List.length_append] at hrest ⊢
      omega

omit [One F] in
theorem getD_ends (o : ℕ) (rs : List (InputRow I F)) :
    (o :: ends o rs).getD rs.length 0 = o + (rs.flatMap InputRow.index).length := by
  induction rs generalizing o with
  | nil => simp [ends]
  | cons r rs ih =>
      have hrest := ih (o + r.index.length)
      simp only [ends, List.length_cons, List.getD_cons_succ, List.flatMap_cons,
        List.length_append] at hrest ⊢
      omega

/-- The ends of consecutive rows of a block. -/
theorem ends_rows {b : InputBlock I F} (hb : b.Valid) (o p n : ℕ) (hn : p + n ≤ b.size) :
    ends o ((List.range' p n).map b.row) =
      (List.range n).map fun i => o + b.off (p + (i + 1)) - b.off p := by
  induction n generalizing o p with
  | zero => rfl
  | succ n ih =>
      have hoff := hb.off_le p (by omega)
      have hmax := hb.off_mono (show p + 1 ≤ b.size by omega) le_rfl
      have hlen : (b.row p).index.length = b.off (p + 1) - b.off p :=
        length_cut (hmax.trans hb.length_index)
      rw [List.range'_succ, List.map_cons, ends, ih _ (p + 1) (by omega), hlen,
        List.range_succ_eq_map, List.map_cons, List.map_map]
      refine congrArg₂ List.cons ?_ (List.map_congr_left fun i hi => ?_)
      · rw [Nat.zero_add]
        omega
      · have hi' := List.mem_range.mp hi
        have hidx : p + 1 + (i + 1) = p + (i + 1 + 1) := by omega
        have hmono := hb.off_mono (show p + 1 ≤ p + 1 + (i + 1) by omega) (by omega)
        simp only [Function.comp_apply, Nat.succ_eq_add_one]
        rw [hidx] at hmono ⊢
        omega

omit [One F] in
/-- The labels of consecutive rows. -/
theorem take_drop_eq_map_getD (d : F) (xs : List F) (p n : ℕ) (hn : p + n ≤ xs.length) :
    (xs.drop p).take n = (List.range' p n).map fun i => xs.getD i d := by
  apply List.ext_getElem
  · simp
    omega
  · intro i h₁ h₂
    simp only [List.length_map, List.length_range'] at h₂
    simp [List.getD_eq_getElem?_getD, List.getElem?_eq_getElem (show p + i < xs.length by omega)]

/-- **What a container holds** after the rows from `pos` on are pushed. -/
theorem push_slice {b : InputBlock I F} (hb : b.Valid) {pos len : ℕ} (hlen : pos + len ≤ b.size) :
    (ofRows rs).push (b.slice pos len) = ofRows (rs ++ (List.range' pos len).map b.row) := by
  have hoff : (b.slice pos len).off (b.slice pos len).size - (b.slice pos len).off 0 =
      b.off (pos + len) - b.off pos := by
    rw [InputBlock.off_slice, InputBlock.off_slice]
    rfl
  have hshift : (ofRows rs).offset.getD (ofRows rs).label.length 0 =
      (rs.flatMap InputRow.index).length := by
    have hget := getD_ends 0 rs
    rw [ofRows, List.length_map, hget, Nat.zero_add]
  rw [push, hoff, hshift, ofRows, ofRows]
  congr 1
  · rw [List.cons_append, ends_append, ends_rows hb _ _ _ hlen, Nat.zero_add]
    simp only [InputBlock.off_slice, Nat.add_zero]
    rfl
  · rw [List.map_append, List.map_map]
    congr 1
    exact take_drop_eq_map_getD 1 b.label pos len (by rw [hb.length_label]; exact hlen)
  · simp [InputBlock.slice]
  · rw [List.flatMap_append, List.flatMap_map]
    congr 1
    exact (hb.flatMap_cut b.index pos len hlen).symm
  · rw [List.flatMap_append, List.flatMap_map]
    congr 1
    cases hv : b.value with
    | none => simp [InputBlock.slice, InputBlock.row, hv]
    | some v =>
        have hcut := (hb.flatMap_cut v pos len hlen).symm
        simpa [InputBlock.slice, InputBlock.row, hv, cut] using hcut

end RowBlockContainer

/-! ## Rows that fit in one minibatch -/

/-- A row with as many values as features, if it has values. -/
def InputRow.Wf (r : InputRow I F) : Prop := ∀ vs ∈ r.value, vs.length = r.index.length

/-- The features come all from rows with values, or all values are 1. -/
def Uniform (rs : List (InputRow I F)) : Prop :=
  (∀ r ∈ rs, r.value = none → r.index = []) ∨ ∀ r ∈ rs, ∀ vs ∈ r.value, ∀ v ∈ vs, v = 1

namespace RowBlockContainer

variable {rs : List (InputRow I F)}

omit [One F] in
/-- There are as many values as features if and only if every feature has one. -/
theorem length_values_iff (hwf : ∀ r ∈ rs, r.Wf) :
    (rs.flatMap InputRow.index).length = (rs.flatMap fun r => r.value.getD []).length ↔
      ∀ r ∈ rs, r.value = none → r.index = [] := by
  have hle : ∀ rs : List (InputRow I F), (∀ r ∈ rs, r.Wf) →
      (rs.flatMap fun r => r.value.getD []).length ≤ (rs.flatMap InputRow.index).length := by
    intro rs hwf
    induction rs with
    | nil => simp
    | cons r rs ih =>
        have hrest := ih fun r' hr' => hwf r' (List.mem_cons_of_mem _ hr')
        have hr : (r.value.getD []).length ≤ r.index.length := by
          cases hv : r.value with
          | none => simp
          | some vs => exact (hwf r (by simp) vs hv).le
        simp only [List.flatMap_cons, List.length_append]
        omega
  induction rs with
  | nil => simp
  | cons r rs ih =>
      have hwf' : ∀ r' ∈ rs, r'.Wf := fun r' hr' => hwf r' (List.mem_cons_of_mem _ hr')
      have hrest := hle rs hwf'
      refine Iff.trans ?_ (List.forall_mem_cons.trans (and_congr_right' (ih hwf').symm)).symm
      simp only [List.flatMap_cons, List.length_append]
      cases hv : r.value with
      | none =>
          simp only [Option.getD_none, List.length_nil, forall_const, ← List.length_eq_zero_iff]
          omega
      | some vs =>
          have hlen := hwf r (by simp) vs hv
          simp only [Option.getD_some, reduceCtorEq, false_implies, true_and]
          omega

omit [One F] in
theorem forall_value_eq_one [One F] : (∀ f ∈ (ofRows rs).value, f = 1) ↔
    ∀ r ∈ rs, ∀ vs ∈ r.value, ∀ v ∈ vs, v = 1 := by
  simp only [ofRows, List.mem_flatMap, forall_exists_index, and_imp]
  constructor
  · intro h r hr vs hvs v hv
    exact h v r hr (by rw [Option.mem_def.mp hvs]; exact hv)
  · intro h f r hr hf
    cases hv : r.value with
    | none =>
        rw [hv] at hf
        cases hf
    | some vs =>
        rw [hv] at hf
        exact h r hr vs hv f hf

omit [One F] in
/-- The part of a concatenation that belongs to row `i`. -/
theorem cut_ends {α : Type} {g : InputRow I F → List α} {i : ℕ} (hi : i < rs.length)
    (hg : ∀ r ∈ rs, (g r).length = r.index.length) (o : ℕ) (pre : List α) (ho : pre.length = o) :
    cut ((o :: ends o rs).getD i 0) ((o :: ends o rs).getD (i + 1) 0) (pre ++ rs.flatMap g) =
      g rs[i] := by
  induction rs generalizing i o pre with
  | nil => exact absurd hi (Nat.not_lt_zero i)
  | cons r rs ih =>
      have hr := hg r (by simp)
      have hg' : ∀ r' ∈ rs, (g r').length = r'.index.length :=
        fun r' hr' => hg r' (List.mem_cons_of_mem _ hr')
      rw [ends, List.flatMap_cons]
      cases i with
      | zero =>
          simp only [List.getD_cons_zero, List.getD_cons_succ, List.getElem_cons_zero]
          rw [cut, List.drop_left' ho, Nat.add_sub_cancel_left, List.take_left' hr]
      | succ i =>
          have hrest := ih (Nat.lt_of_succ_lt_succ hi) hg' (o + r.index.length) (pre ++ g r)
            (by rw [List.length_append, ho, hr])
          rw [List.append_assoc] at hrest
          simp only [List.getD_cons_succ, List.getElem_cons_succ] at hrest ⊢
          exact hrest

/-- The features of a row when the values are given for all rows. -/
theorem features_eq {r : InputRow I F} (h : r.value = none → r.index = []) :
    r.features = r.index.zip (r.value.getD []) := by
  rw [InputRow.features]
  cases hv : r.value with
  | none => simp [h hv]
  | some vs => rfl

/-- The features of a row whose values are all 1. -/
theorem features_of_ones {r : InputRow I F} (hwf : r.Wf) (h : ∀ vs ∈ r.value, ∀ v ∈ vs, v = 1) :
    r.features = r.index.zip (List.replicate r.index.length 1) := by
  rw [InputRow.features]
  cases hv : r.value with
  | none => rfl
  | some vs => rw [Option.getD_some, List.eq_replicate_iff.mpr ⟨hwf vs hv, h vs hv⟩]

/-- The block that `GetBlock` makes of a list of rows, with the given values. -/
def blockOf (rs : List (InputRow I F)) (value : Option (List F)) : InputBlock I F :=
  { size := rs.length
    offset := 0 :: ends 0 rs
    label := rs.map InputRow.label
    weight := none
    index := rs.flatMap InputRow.index
    value }

/-- **The rows of a minibatch** are those that were pushed, and `GetBlock` fails for rows
that do not fit together. -/
theorem getBlock_eq [DecidableEq F] (hwf : ∀ r ∈ rs, r.Wf) :
    (Uniform rs → ∃ blk, (MinibatchIter.dropBinary (ofRows rs)).getBlock = some blk ∧
      blk.size = rs.length ∧
      blk.rows.map (fun r => (r.label, r.features)) = rs.map fun r => (r.label, r.features)) ∧
    (¬ Uniform rs → (MinibatchIter.dropBinary (ofRows rs)).getBlock = none) := by
  have hlast : (0 :: ends 0 rs).getLastD 0 = (rs.flatMap InputRow.index).length := by
    rw [getLastD_ends, Nat.zero_add]
  have hindex : ∀ (i : ℕ) (hi : i < rs.length),
      cut ((0 :: ends 0 rs).getD i 0) ((0 :: ends 0 rs).getD (i + 1) 0)
        (rs.flatMap InputRow.index) = rs[i].index :=
    fun i hi => cut_ends hi (fun _ _ => rfl) 0 [] rfl
  have hlabel : ∀ (i : ℕ) (hi : i < rs.length), (rs.map InputRow.label).getD i 1 = rs[i].label := by
    intro i hi
    simp [List.getD_eq_getElem?_getD, List.getElem?_eq_getElem hi]
  by_cases hones : ∀ r ∈ rs, ∀ vs ∈ r.value, ∀ v ∈ vs, v = 1
  · refine ⟨fun _ => ⟨blockOf rs none, ?_, rfl, ?_⟩, fun hnot => absurd (.inr hones) hnot⟩
    · rw [MinibatchIter.dropBinary, if_pos (forall_value_eq_one.mpr hones), getBlock, if_pos]
      · simp [ofRows, beginPtr, blockOf]
      · exact ⟨by simp [ofRows], hlast, .inr rfl⟩
    · apply List.ext_getElem
      · simp [InputBlock.rows, blockOf]
      · intro i h₁ h₂
        have hi : i < rs.length := by simpa using h₂
        have hrow := features_of_ones (hwf rs[i] (List.getElem_mem hi))
          (hones _ (List.getElem_mem hi))
        simp only [blockOf, InputBlock.rows, List.getElem_map, List.getElem_range, InputBlock.row,
          InputBlock.off, hindex i hi, hlabel i hi, InputRow.features, Option.map_none,
          Option.getD_none]
        rw [← hrow]
        rfl
  · have hdrop : MinibatchIter.dropBinary (ofRows rs) = ofRows rs := by
      rw [MinibatchIter.dropBinary, if_neg fun h => hones (forall_value_eq_one.mp h)]
    have hne : (rs.flatMap fun r => r.value.getD []) ≠ [] := by
      intro hnil
      refine hones (forall_value_eq_one.mp fun f hf => ?_)
      rw [show (ofRows rs).value = rs.flatMap fun r => r.value.getD [] from rfl, hnil] at hf
      cases hf
    rw [hdrop]
    by_cases hall : ∀ r ∈ rs, r.value = none → r.index = []
    · have hlen := (length_values_iff hwf).mpr hall
      refine ⟨fun _ => ⟨blockOf rs (some (rs.flatMap fun r => r.value.getD [])), ?_, rfl, ?_⟩,
        fun hnot => absurd (.inl hall) hnot⟩
      · rw [getBlock, if_pos]
        · simp [ofRows, beginPtr, blockOf, hne]
        · exact ⟨by simp [ofRows], hlast, .inl (hlast.trans hlen)⟩
      · have hvalue : ∀ (i : ℕ) (hi : i < rs.length),
            cut ((0 :: ends 0 rs).getD i 0) ((0 :: ends 0 rs).getD (i + 1) 0)
              (rs.flatMap fun r => r.value.getD []) = rs[i].value.getD [] := by
          intro i hi
          refine cut_ends hi (fun r hr => ?_) 0 [] rfl
          cases hv : r.value with
          | none => simp [hall r hr hv]
          | some vs => exact hwf r hr vs hv
        apply List.ext_getElem
        · simp [InputBlock.rows, blockOf]
        · intro i h₁ h₂
          have hi : i < rs.length := by simpa using h₂
          have hrow := features_eq (hall rs[i] (List.getElem_mem hi))
          simp only [blockOf, InputBlock.rows, List.getElem_map, List.getElem_range, InputBlock.row,
            InputBlock.off, hindex i hi, hlabel i hi, hvalue i hi, InputRow.features,
            Option.map_some, Option.getD_some]
          rw [← hrow]
          rfl
    · have hlen := (length_values_iff hwf).not.mpr hall
      refine ⟨fun huni => absurd huni (not_or.mpr ⟨hall, hones⟩), fun _ => ?_⟩
      rw [getBlock, if_neg]
      rintro ⟨-, -, heq | hzero⟩
      · exact hlen (hlast.symm.trans heq)
      · exact hne (List.length_eq_zero_iff.mp hzero)

end RowBlockContainer

/-! ## One call -/

namespace MinibatchIter

open RowBlockContainer

variable {s : MinibatchIter I F} {rs : List (InputRow I F)}

/-- The rows that are still to be delivered. -/
def pending (s : MinibatchIter I F) : List (InputRow I F) :=
  (List.range' s.start (s.end_ - s.start)).map s.inBlk.row ++ InputBlock.sourceRows s.source

/-- The block that is being read and those to come are valid, and `mb_size_ + 1` does not
wrap around. -/
structure Inv (s : MinibatchIter I F) : Prop where
  limit : s.limit = s.mbSize + 1
  le : s.start ≤ s.end_
  end_eq : s.end_ = s.inBlk.size
  inBlk : s.start < s.end_ → s.inBlk.Valid
  source : ∀ b ∈ s.source, b.Valid

omit [One F] in
@[simp] theorem length_offset_ofRows :
    (ofRows rs : RowBlockContainer I F).offset.length = rs.length + 1 := by
  simp [ofRows]

/-- One turn of the loop pushes as many rows of the block as there is room for. -/
theorem pushRows_eq (hs : s.Inv) (hmb : s.mb = ofRows rs) (hlt : rs.length < s.mbSize) :
    ∃ s' len, s.pushRows = some s' ∧ s'.Inv ∧ s'.mbSize = s.mbSize ∧ s'.source = s.source ∧
      len ≤ s.pending.length ∧ rs.length + len ≤ s.mbSize ∧
      (rs.length + len = s.mbSize ∨ s'.start = s'.end_) ∧
      s'.mb = ofRows (rs ++ s.pending.take len) ∧ s'.pending = s.pending.drop len := by
  obtain ⟨len, hlen⟩ : ∃ len, len = min (s.end_ - s.start) (s.limit - s.mb.offset.length) :=
    ⟨_, rfl⟩
  have hle := hs.le
  have hend := hs.end_eq
  have hlen' : len = min (s.end_ - s.start) (s.mbSize - rs.length) := by
    rw [hlen, hs.limit, hmb, length_offset_ofRows]
    congr 1
    omega
  have hroom : len ≤ s.pending.length := by
    rw [pending, List.length_append, List.length_map, List.length_range']
    omega
  by_cases hzero : len = 0
  · refine ⟨s, len, ?_, hs, rfl, rfl, hroom, by omega, by omega, ?_, ?_⟩
    · rw [pushRows, ← hlen, if_pos hzero]
    · rw [hzero, List.take_zero, List.append_nil, hmb]
    · rw [hzero, List.drop_zero]
  · have hblk := hs.inBlk (by omega)
    have hrows : (List.range' s.start (s.end_ - s.start)).map s.inBlk.row =
        (List.range' s.start len).map s.inBlk.row ++
          (List.range' (s.start + len) (s.end_ - (s.start + len))).map s.inBlk.row := by
      rw [← List.map_append, List.range'_append_1]
      congr 2
      omega
    have hpending : s.pending = (List.range' s.start len).map s.inBlk.row ++
        ((List.range' (s.start + len) (s.end_ - (s.start + len))).map s.inBlk.row ++
          InputBlock.sourceRows s.source) := by
      rw [pending, hrows, List.append_assoc]
    refine ⟨{ s with mb := s.mb.push (s.inBlk.slice s.start len), start := s.start + len }, len,
      ?_, ⟨hs.limit, ?_, hend, fun _ => hblk, hs.source⟩, rfl, rfl, hroom, by omega, ?_, ?_, ?_⟩
    · rw [pushRows, ← hlen, if_neg hzero, if_pos (by omega)]
    · show s.start + len ≤ s.end_
      omega
    · show rs.length + len = s.mbSize ∨ s.start + len = s.end_
      omega
    · rw [hpending, List.take_left' (by simp)]
      show s.mb.push _ = _
      rw [hmb, push_slice hblk (by omega)]
    · rw [hpending, List.drop_left' (by simp)]
      rfl

/-- How many turns the loop may take. -/
def turns (s : MinibatchIter I F) (rs : List (InputRow I F)) : ℕ :=
  if rs.length = s.mbSize then 1
  else if s.start = s.end_ then s.source.length + 1 else s.source.length + 2

/-- **The loop of `Next`** takes rows until there are `mb_size_` of them or none is left. -/
theorem fill_eq (fuel : ℕ) (hs : s.Inv) (hmb : s.mb = ofRows rs) (hle : rs.length ≤ s.mbSize)
    (hfuel : s.turns rs ≤ fuel) : ∃ s', fill fuel s = some s' ∧ s'.Inv ∧
      s'.mbSize = s.mbSize ∧ s'.mb = ofRows ((rs ++ s.pending).take s.mbSize) ∧
      s'.pending = (rs ++ s.pending).drop s.mbSize := by
  induction fuel generalizing s rs with
  | zero =>
      exfalso
      rw [turns] at hfuel
      split at hfuel
      · omega
      · split at hfuel <;> omega
  | succ fuel ih =>
      rw [fill, hmb, length_offset_ofRows, hs.limit]
      by_cases hfull : rs.length = s.mbSize
      · rw [if_neg (by omega)]
        refine ⟨s, rfl, hs, rfl, ?_, ?_⟩
        · rw [List.take_left' hfull, hmb]
        · rw [List.drop_left' hfull]
      · have hlt : rs.length < s.mbSize := by omega
        rw [if_pos (by omega)]
        -- after the rows of a block are pushed, the loop goes on as the induction says
        have hgo : ∀ t : MinibatchIter I F, t.Inv → t.mb = ofRows rs → t.mbSize = s.mbSize →
            t.pending = s.pending → t.source.length + 1 ≤ fuel →
            ∃ s', t.pushRows.bind (fill fuel) = some s' ∧ s'.Inv ∧ s'.mbSize = s.mbSize ∧
              s'.mb = ofRows ((rs ++ s.pending).take s.mbSize) ∧
              s'.pending = (rs ++ s.pending).drop s.mbSize := by
          intro t ht htmb hsize hpend hturns
          obtain ⟨t', len, hpush, ht', hsize', hsource, hroom, hmax, hdone, hmb', hpend'⟩ :=
            pushRows_eq ht htmb (hsize ▸ hlt)
          have hlen : (rs ++ t.pending.take len).length = rs.length + len := by
            rw [List.length_append, List.length_take, min_eq_left hroom]
          have hneed : t'.turns (rs ++ t.pending.take len) ≤ fuel := by
            rw [turns, hlen]
            rcases hdone with hdone | hdone
            · rw [if_pos (by omega)]
              omega
            · rw [if_pos hdone, hsource]
              split <;> omega
          obtain ⟨s', hfill, hs', hsz, hmbs, hpends⟩ := ih ht' hmb' (by omega) hneed
          refine ⟨s', by rw [hpush, Option.bind_some, hfill], hs', by rw [hsz, hsize', hsize],
            ?_, ?_⟩
          · rw [hmbs, hpend', List.append_assoc, List.take_append_drop, hsize', hsize, hpend]
          · rw [hpends, hpend', List.append_assoc, List.take_append_drop, hsize', hsize, hpend]
        rw [turns, if_neg hfull] at hfuel
        by_cases hempty : s.start = s.end_
        · rw [if_pos hempty] at hfuel ⊢
          have hpend : s.pending = InputBlock.sourceRows s.source := by
            rw [pending, hempty, Nat.sub_self]
            rfl
          cases hsource : s.source with
          | nil =>
              have hnil : s.pending = [] := by
                rw [hpend, hsource]
                rfl
              refine ⟨s, rfl, hs, rfl, ?_, ?_⟩
              · rw [hnil, List.append_nil, List.take_of_length_le hle, hmb]
              · rw [hnil, List.append_nil, List.drop_of_length_le hle]
          | cons blk source =>
              refine hgo (s.take blk source) ?_ hmb rfl ?_ ?_
              · exact ⟨hs.limit, Nat.zero_le _, rfl, fun _ => hs.source blk (by simp [hsource]),
                  fun b hb => hs.source b (by rw [hsource]; exact List.mem_cons_of_mem _ hb)⟩
              · rw [hpend, hsource, InputBlock.sourceRows_cons, InputBlock.rows,
                  List.range_eq_range']
                rfl
              · show source.length + 1 ≤ fuel
                rw [hsource, List.length_cons] at hfuel
                omega
        · rw [if_neg hempty] at hfuel ⊢
          exact hgo s hs hmb rfl rfl (by omega)

theorem Inv.wf_pending (hs : s.Inv) : ∀ r ∈ s.pending, r.Wf := by
  intro r hr
  rcases List.mem_append.mp hr with hmem | hmem
  · obtain ⟨i, hi, rfl⟩ := List.mem_map.mp hmem
    have hrange := List.mem_range'_1.mp hi
    have hend := hs.end_eq
    exact (hs.inBlk (by omega)).length_value_row (by omega)
  · obtain ⟨b, hb, hrow⟩ := List.mem_flatMap.mp hmem
    obtain ⟨i, hi, rfl⟩ := List.mem_map.mp hrow
    exact (hs.source b hb).length_value_row (List.mem_range.mp hi)

variable [DecidableEq F]

omit [DecidableEq F] in
/-- The loop of `Next` begins with an empty minibatch, and has enough turns. -/
theorem fill_clear (hs : s.Inv) :
    ∃ s', fill (s.source.length + 2) { s with mb := .clear } = some s' ∧ s'.Inv ∧
      s'.mbSize = s.mbSize ∧ s'.mb = ofRows (s.pending.take s.mbSize) ∧
      s'.pending = s.pending.drop s.mbSize := by
  have hclear : ({ s with mb := .clear } : MinibatchIter I F).Inv :=
    ⟨hs.limit, hs.le, hs.end_eq, hs.inBlk, hs.source⟩
  have hturns : ({ s with mb := .clear } : MinibatchIter I F).turns [] ≤ s.source.length + 2 := by
    rw [turns]
    split
    · omega
    · split
      · exact Nat.le_succ _
      · exact le_rfl
  have hempty : ({ s with mb := .clear } : MinibatchIter I F).mb = ofRows [] := rfl
  exact fill_eq _ hclear hempty (Nat.zero_le _) hturns

/-- **One call of `Next`** takes the next rows if they fit in one minibatch, and aborts
otherwise. -/
theorem next_eq (hs : s.Inv) :
    (Uniform (s.pending.take s.mbSize) → ∃ blk s',
      s.next = some (decide (0 < blk.size), blk, s') ∧ s'.Inv ∧ s'.mbSize = s.mbSize ∧
      s'.pending = s.pending.drop s.mbSize ∧ blk.size = (s.pending.take s.mbSize).length ∧
      blk.rows.map (fun r => (r.label, r.features)) =
        (s.pending.take s.mbSize).map fun r => (r.label, r.features)) ∧
    (¬ Uniform (s.pending.take s.mbSize) → s.next = none) := by
  obtain ⟨s', hfill, hs', hsize, hmb, hpend⟩ := fill_clear hs
  have hwf : ∀ r ∈ s.pending.take s.mbSize, r.Wf :=
    fun r hr => hs.wf_pending r (List.mem_of_mem_take hr)
  obtain ⟨hgood, hbad⟩ := getBlock_eq hwf
  constructor
  · intro huni
    obtain ⟨blk, hblk, hlen, hrows⟩ := hgood huni
    refine ⟨blk, { s' with mb := dropBinary s'.mb }, ?_,
      ⟨hs'.limit, hs'.le, hs'.end_eq, hs'.inBlk, hs'.source⟩, hsize, hpend, hlen, hrows⟩
    simp only [next, hfill, Option.bind_eq_bind, Option.bind_some, hmb, hblk]
    rfl
  · intro hnot
    simp only [next, hfill, Option.bind_eq_bind, Option.bind_some, hmb, hbad hnot]
    rfl

omit [One F] [DecidableEq F] in
/-- Where a row ends. -/
theorem getD_ends_take (o : ℕ) {rs : List (InputRow I F)} {i : ℕ} (hi : i ≤ rs.length) :
    (o :: ends o rs).getD i 0 = o + ((rs.take i).flatMap InputRow.index).length := by
  induction rs generalizing o i with
  | nil =>
      rw [List.length_nil, Nat.le_zero] at hi
      simp [hi]
  | cons r rs ih =>
      cases i with
      | zero => simp
      | succ i =>
          rw [ends, List.getD_cons_succ, ih _ (Nat.le_of_succ_le_succ hi), List.take_succ_cons,
            List.flatMap_cons, List.length_append, Nat.add_assoc]

omit [One F] [DecidableEq F] in
/-- The block of a container of rows, with or without the values, is valid. -/
theorem valid_of_getBlock {rs : List (InputRow I F)} {mb : RowBlockContainer I F}
    {blk : InputBlock I F} (hoffset : mb.offset = 0 :: ends 0 rs)
    (hlabel : mb.label = rs.map InputRow.label) (hindex : mb.index = rs.flatMap InputRow.index)
    (hblk : mb.getBlock = some blk) : blk.Valid ∧ blk.off 0 = 0 := by
  have hlast : mb.offset.getLastD 0 = mb.index.length := by
    rw [hoffset, hindex, getLastD_ends, Nat.zero_add]
  rw [RowBlockContainer.getBlock] at hblk
  split at hblk
  · next hcheck =>
    cases hblk
    have hsize : mb.offset.length - 1 = rs.length := by simp [hoffset]
    have hget : ∀ i ≤ rs.length, mb.offset.getD i 0 =
        ((rs.take i).flatMap InputRow.index).length := by
      intro i hi
      rw [hoffset, getD_ends_take 0 hi, Nat.zero_add]
    have hend : mb.offset.getD (mb.offset.length - 1) 0 = mb.index.length := by
      rw [hsize, hget _ le_rfl, List.take_length, hindex]
    refine ⟨⟨?_, ?_, ?_, hend.le, ?_⟩, ?_⟩
    · simp [hoffset]
    · intro i hi
      have hi' : i < rs.length := hsize ▸ hi
      simp only [InputBlock.off]
      rw [hget i hi'.le, hget (i + 1) hi', List.take_succ_eq_append_getElem hi',
        List.flatMap_append, List.length_append]
      exact Nat.le_add_right _ _
    · simp [hoffset, hlabel]
    · intro v hv
      simp only [beginPtr] at hv
      split at hv
      · cases hv
      · next hne =>
        cases hv
        have hvalue : mb.offset.getLastD 0 = mb.value.length :=
          hcheck.2.2.resolve_right fun hzero => hne (by simp [List.length_eq_zero_iff.mp hzero])
        exact (hend.trans (hlast.symm.trans hvalue)).le
    · simp only [InputBlock.off]
      rw [hget 0 (Nat.zero_le _)]
      rfl
  · cases hblk

/-- **What `Next` delivers** is a valid block with a row. -/
theorem next_valid {s' : MinibatchIter I F} {blk : InputBlock I F} (hs : s.Inv)
    (hnext : s.next = some (true, blk, s')) : blk.Valid ∧ blk.off 0 = 0 ∧ blk.size ≠ 0 := by
  obtain ⟨t, hfill, -, -, hmb, -⟩ := fill_clear hs
  simp only [next, hfill, Option.bind_eq_bind, Option.bind_some, hmb] at hnext
  obtain ⟨blk', hblk, heq⟩ := Option.bind_eq_some_iff.mp hnext
  obtain ⟨hsize, heq⟩ := Prod.mk.inj (Option.some.inj heq)
  obtain ⟨rfl, -⟩ := Prod.mk.inj heq
  have hvalid : blk'.Valid ∧ blk'.off 0 = 0 := by
    rw [dropBinary] at hblk
    split at hblk
    · exact valid_of_getBlock rfl rfl rfl hblk
    · exact valid_of_getBlock rfl rfl rfl hblk
  exact ⟨hvalid.1, hvalid.2, (of_decide_eq_true hsize).ne'⟩

/-! ## All calls -/

/-- The rows of minibatch `k`. -/
def window {α : Type} (m : ℕ) (rows : List α) (k : ℕ) : List α := (rows.drop (k * m)).take m

theorem window_zero {α : Type} (m : ℕ) (rows : List α) : window m rows 0 = rows.take m := by
  rw [window, Nat.zero_mul, List.drop_zero]

theorem window_drop {α : Type} (m : ℕ) (rows : List α) (k : ℕ) :
    window m (rows.drop m) k = window m rows (k + 1) := by
  rw [window, window, List.drop_drop]
  congr 2
  rw [Nat.succ_mul, Nat.add_comm]

omit [DecidableEq F] in
theorem uniform_nil : Uniform ([] : List (InputRow I F)) := .inl (by simp)

/-- Repeated calls do not abort only if the rows of every minibatch fit together. -/
theorem Delivers.uniform {blks : List (InputBlock I F)} (h : Delivers s blks) (hs : s.Inv)
    (hm : 1 ≤ s.mbSize) (k : ℕ) : Uniform (window s.mbSize s.pending k) := by
  have hfirst : ∀ {s : MinibatchIter I F} {r}, s.Inv → s.next = some r →
      Uniform (s.pending.take s.mbSize) := by
    intro s r hs hnext
    by_contra hnot
    rw [(next_eq hs).2 hnot] at hnext
    cases hnext
  induction h generalizing k with
  | @done t _ _ hnext =>
      obtain ⟨blk, s', hnext', -, -, -, hlen, -⟩ := (next_eq hs).1 (hfirst hs hnext)
      rw [hnext, Option.some.injEq, Prod.mk.injEq] at hnext'
      have hsize : ¬ 0 < blk.size := of_decide_eq_false hnext'.1.symm
      rw [hlen, List.length_take] at hsize
      have hnil : t.pending = [] := List.length_eq_zero_iff.mp (by omega)
      rw [hnil, window, List.drop_nil, List.take_nil]
      exact uniform_nil
  | step hnext _ ih =>
      have huni := hfirst hs hnext
      obtain ⟨blk, s', hnext', hs', hsize, hpend, -, -⟩ := (next_eq hs).1 huni
      rw [hnext, Option.some.injEq, Prod.mk.injEq, Prod.mk.injEq] at hnext'
      obtain ⟨-, -, rfl⟩ := hnext'
      cases k with
      | zero =>
          rw [window_zero]
          exact huni
      | succ k =>
          rw [← window_drop, ← hpend, ← hsize]
          exact ih hs' (hsize ▸ hm) k

/-- If they do, the minibatches are the rows in order, `mb_size_` of them at a time. -/
theorem exists_delivers (hs : s.Inv) (hm : 1 ≤ s.mbSize)
    (huni : ∀ k, Uniform (window s.mbSize s.pending k)) : ∃ blks, Delivers s blks ∧
      (s.pending = [] → blks = []) ∧ (∀ b ∈ blks.dropLast, b.size = s.mbSize) ∧
      (InputBlock.sourceRows blks).map (fun r => (r.label, r.features)) =
        s.pending.map fun r => (r.label, r.features) := by
  induction hn : s.pending.length using Nat.strong_induction_on generalizing s with
  | _ n ih =>
      have hfirst : Uniform (s.pending.take s.mbSize) := by
        rw [← window_zero]
        exact huni 0
      obtain ⟨blk, s', hnext, hs', hsize, hpend, hlen, hrows⟩ := (next_eq hs).1 hfirst
      rw [List.length_take] at hlen
      by_cases hnil : s.pending = []
      · rw [decide_eq_false (by rw [hlen, hnil, List.length_nil]; omega)] at hnext
        exact ⟨[], .done hnext, fun _ => rfl, by simp, by rw [hnil]; rfl⟩
      · have hpos : 0 < s.pending.length := List.length_pos_iff.mpr hnil
        rw [decide_eq_true (by omega)] at hnext
        have hlen' : s'.pending.length < n := by
          rw [hpend, List.length_drop]
          omega
        obtain ⟨blks, hblks, hempty, hfull, hall⟩ := ih _ hlen' hs' (hsize ▸ hm)
          (fun k => by rw [hpend, hsize, window_drop]; exact huni (k + 1)) rfl
        refine ⟨blk :: blks, .step hnext hblks, fun h => absurd h hnil, ?_, ?_⟩
        · cases blks with
          | nil => simp
          | cons b bs =>
              -- there are further rows, so this minibatch is full
              have hmore : s'.pending ≠ [] := fun h => by cases hempty h
              rw [hpend, Ne, List.drop_eq_nil_iff] at hmore
              rw [List.dropLast_cons_cons, List.forall_mem_cons, ← hsize]
              exact ⟨by omega, hfull⟩
        · rw [InputBlock.sourceRows_cons, List.map_append, hrows, hall, hpend, ← List.map_append,
            List.take_append_drop]

/-- The minibatches are determined by the source. -/
theorem Delivers.unique {blks blks' : List (InputBlock I F)} (h : Delivers s blks)
    (h' : Delivers s blks') : blks = blks' := by
  induction h generalizing blks' with
  | done hnext =>
      cases h' with
      | done _ => rfl
      | step hnext' _ =>
          rw [hnext] at hnext'
          cases hnext'
  | step hnext _ ih =>
      cases h' with
      | done hnext' =>
          rw [hnext] at hnext'
          cases hnext'
      | step hnext' hrest =>
          rw [hnext, Option.some.injEq, Prod.mk.injEq, Prod.mk.injEq] at hnext'
          obtain ⟨-, rfl, rfl⟩ := hnext'
          rw [ih hrest]

/-- If no call aborts, all rows are delivered in order. -/
theorem Delivers.rows {blks : List (InputBlock I F)} (h : Delivers s blks) (hs : s.Inv)
    (hm : 1 ≤ s.mbSize) : (InputBlock.sourceRows blks).map (fun r => (r.label, r.features)) =
      s.pending.map fun r => (r.label, r.features) := by
  obtain ⟨blks', hblks', -, -, hrows⟩ := exists_delivers hs hm (h.uniform hs hm)
  rw [h.unique hblks', hrows]

/-- A minibatch that is delivered has a row. -/
theorem Delivers.size_pos {blks : List (InputBlock I F)} (h : Delivers s blks) :
    ∀ b ∈ blks, 0 < b.size := by
  induction h with
  | done _ => simp
  | step hnext _ ih =>
      simp only [next, Option.bind_eq_bind, Option.bind_eq_some_iff, Option.pure_def,
        Option.some.injEq, Prod.mk.injEq] at hnext
      obtain ⟨t, -, blk, -, hpos, rfl, -⟩ := hnext
      rw [List.forall_mem_cons]
      exact ⟨of_decide_eq_true hpos, ih⟩

omit [One F] [DecidableEq F] in
theorem inv_init {mbSize : ℕ} {source : List (InputBlock I F)} (hlt : mbSize + 1 < 2 ^ 32)
    (hsource : ∀ b ∈ source, b.Valid) : (init mbSize source).Inv :=
  ⟨Nat.mod_eq_of_lt hlt, le_rfl, rfl, fun h => absurd h (lt_irrefl 0), hsource⟩

/-- With the largest size `Next` takes nothing. -/
theorem next_of_wrap {mbSize : ℕ} (source : List (InputBlock I F)) (hmax : mbSize + 1 = 2 ^ 32) :
    ∃ blk s', (init mbSize source).next = some (false, blk, s') := by
  have hlimit : ({ init mbSize source with mb := .clear } : MinibatchIter I F).limit = 0 := by
    show (mbSize + 1) % 2 ^ 32 = 0
    rw [hmax, Nat.mod_self]
  rw [next, fill, hlimit]
  exact ⟨_, _, rfl⟩

/-- **The minibatches partition the rows** if and only if `mb_size_ + 1` does not wrap
around, or there is no row, and no minibatch has both features from blocks without values
and values other than 1. -/
theorem partition_iff (mbSize : ℕ) (hm : 1 ≤ mbSize) (hlt : mbSize < 2 ^ 32)
    (source : List (InputBlock I F)) (hsource : ∀ b ∈ source, b.Valid) :
    (∃ blks, Delivers (init mbSize source) blks ∧ (∀ b ∈ blks.dropLast, b.size = mbSize) ∧
      (InputBlock.sourceRows blks).map (fun r => (r.label, r.features)) =
        (InputBlock.sourceRows source).map fun r => (r.label, r.features)) ↔
    (mbSize + 1 < 2 ^ 32 ∨ InputBlock.sourceRows source = []) ∧
      ∀ k, Uniform (window mbSize (InputBlock.sourceRows source) k) := by
  by_cases hwrap : mbSize + 1 < 2 ^ 32
  · have hinv : (init mbSize source).Inv := inv_init hwrap hsource
    have hpending : (init mbSize source).pending = InputBlock.sourceRows source := rfl
    rw [← hpending]
    constructor
    · rintro ⟨blks, hblks, -, -⟩
      exact ⟨.inl hwrap, hblks.uniform hinv hm⟩
    · rintro ⟨-, huni⟩
      obtain ⟨blks, hblks, -, hsizes, hrows⟩ := exists_delivers hinv hm huni
      exact ⟨blks, hblks, hsizes, hrows⟩
  · obtain ⟨blk, s', hnext⟩ := next_of_wrap source (show mbSize + 1 = 2 ^ 32 by omega)
    constructor
    · rintro ⟨blks, hblks, -, hrows⟩
      have hnil : blks = [] := by
        cases hblks with
        | done _ => rfl
        | step hnext' _ =>
            rw [hnext] at hnext'
            cases hnext'
      have hempty : InputBlock.sourceRows source = [] := by
        rw [hnil] at hrows
        exact List.map_eq_nil_iff.mp hrows.symm
      refine ⟨.inr hempty, fun k => ?_⟩
      rw [hempty, window, List.drop_nil, List.take_nil]
      exact uniform_nil
    · rintro ⟨hor, -⟩
      have hempty := hor.resolve_left hwrap
      refine ⟨[], .done hnext, by simp, ?_⟩
      rw [hempty]
      rfl

/-- One row with a feature of value 2. -/
def valuedBlock : InputBlock UInt64 ℤ :=
  { size := 1, offset := [0, 1], label := [1], weight := none, index := [3], value := some [2] }

/-- One row with a feature, in a block without values. -/
def plainBlock : InputBlock UInt64 ℤ :=
  { size := 1, offset := [0, 1], label := [-1], weight := none, index := [5], value := none }

theorem valid_valuedBlock : valuedBlock.Valid :=
  ⟨rfl, by decide, rfl, by decide, by simp [valuedBlock, InputBlock.off]⟩

theorem valid_plainBlock : plainBlock.Valid :=
  ⟨rfl, by decide, rfl, by decide, by simp [plainBlock]⟩

/-- Two blocks with values fill a minibatch; the row without values is in the next. -/
theorem partition_blocks : ∃ blks,
    Delivers (init 2 [valuedBlock, valuedBlock, plainBlock]) blks ∧
    (∀ b ∈ blks.dropLast, b.size = 2) ∧
    (InputBlock.sourceRows blks).map (fun r => (r.label, r.features)) =
      [(1, [(3, 2)]), (1, [(3, 2)]), (-1, [(5, 1)])] := by
  refine (partition_iff 2 (by decide) (by decide) [valuedBlock, valuedBlock, plainBlock]
    ?_).mpr ⟨.inl (by decide), fun k => ?_⟩
  · intro b hb
    simp only [List.mem_cons, List.not_mem_nil, or_false] at hb
    rcases hb with rfl | rfl | rfl
    · exact valid_valuedBlock
    · exact valid_valuedBlock
    · exact valid_plainBlock
  · have hrows : InputBlock.sourceRows [valuedBlock, valuedBlock, plainBlock] =
        [⟨1, [3], some [2]⟩, ⟨1, [3], some [2]⟩, ⟨-1, [5], none⟩] := by decide
    rw [hrows]
    match k with
    | 0 => exact .inl (by simp [window])
    | 1 => exact .inr (by simp [window])
    | k + 2 =>
        have hnil : window 2 ([⟨1, [3], some [2]⟩, ⟨1, [3], some [2]⟩, ⟨-1, [5], none⟩] :
            List (InputRow UInt64 ℤ)) (k + 2) = [] := by
          rw [window, List.drop_of_length_le (by simp; omega), List.take_nil]
        rw [hnil]
        exact uniform_nil

/-- **A mixed minibatch aborts**: one feature has no value, the other has the value 2. -/
theorem mixed_aborts : plainBlock.Valid ∧ valuedBlock.Valid ∧
    (init 2 [plainBlock, valuedBlock]).next = none ∧
    ¬ ∃ blks, Delivers (init 2 [plainBlock, valuedBlock]) blks := by
  have hnone : (init 2 [plainBlock, valuedBlock]).next = none := rfl
  refine ⟨valid_plainBlock, valid_valuedBlock, hnone, ?_⟩
  rintro ⟨blks, hblks⟩
  cases hblks with
  | done hnext =>
      rw [hnone] at hnext
      cases hnext
  | step hnext _ =>
      rw [hnone] at hnext
      cases hnext

end MinibatchIter

end Difacto.Base
