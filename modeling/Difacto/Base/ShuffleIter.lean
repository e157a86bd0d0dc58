import Difacto.Base.MinibatchIter
import Difacto.Lib.Ints
import Mathlib.Order.Defs.LinearOrder
import Mathlib.Data.List.Range

/-!
# The minibatch iterator with shuffling

`MinibatchIter` of `base/minibatch_iter.h` with `shuf_buf > 0`: an inner iterator delivers blocks
of `shuf_buf` rows, and the rows of a block are visited in a random order. Rows with a label that
is not positive are skipped at random if `negative_sampling < 1`. The outcomes of
`std::random_shuffle` and of `rand` are parameters. A failed `CHECK` is `none`, and so is a read
outside of an array.

`base` and `kept` are history: the number of rows in the blocks before the current one, and the
positions, in the source, of the rows that were pushed.

## Main definitions

* `Randomness` — the outcomes of the random functions.
* `ShuffleIter`, `ShuffleIter.next`, `ShuffleIter.Delivers` — the iterator.
* `visits`, `sampled` — the order in which the rows of a source are visited, and which of them
  are kept.

## Main results

* `ShuffleIter.fill_eq` — what one call does.
* `ShuffleIter.Delivers.kept_eq` — a run keeps what `sampled` says.
-/

namespace Difacto.Base

open Lib

variable {I F : Type}

/-- The outcome of each shuffle and each draw. -/
structure Randomness (F : Type) where
  /-- what `std::random_shuffle` makes of a vector in its call number `t` -/
  shuffle : ℕ → List ℕ → List ℕ
  shuffle_perm : ∀ t rdp, (shuffle t rdp).Perm rdp
  /-- `(float)rand() / (float)RAND_MAX` in draw number `t` -/
  draw : ℕ → F

/-- `Push(Row)`. -/
def RowBlockContainer.pushRow (c : RowBlockContainer I F) (r : InputRow I F) (weight : F) :
    RowBlockContainer I F :=
  { offset := c.offset ++ [(c.index ++ r.index).length]
    label := c.label ++ [r.label]
    weight := c.weight ++ [weight]
    index := c.index ++ r.index
    value := c.value ++ r.value.getD [] }

/-- The weight of row `i`, as `operator[]` sets it. -/
def InputBlock.rowWeight [One F] (b : InputBlock I F) (i : ℕ) : F :=
  (b.weight.map fun w => w.getD i 1).getD 1

/-- `MinibatchIter` with `shuf_buf_ > 0`. -/
structure ShuffleIter (I F : Type) where
  mbSize : ℕ
  shufBuf : ℕ
  negativeSampling : F
  start : ℕ
  end_ : ℕ
  inBlk : InputBlock I F
  mb : RowBlockContainer I F
  rdp : List ℕ
  bufReader : MinibatchIter I F
  /-- how often `std::random_shuffle` was called -/
  shuffles : ℕ
  /-- how often `rand` was called -/
  draws : ℕ
  base : ℕ
  kept : List ℕ

namespace ShuffleIter

/-- `MinibatchIter::MinibatchIter`, for `shuf_buf` greater than `minibatch_size`. -/
def init (mbSize shufBuf : ℕ) (negativeSampling : F) (source : List (InputBlock I F)) :
    ShuffleIter I F :=
  { mbSize, shufBuf, negativeSampling, start := 0, end_ := 0
    inBlk := { size := 0, offset := [], label := [], weight := none, index := [], value := none }
    mb := .clear
    rdp := []
    bufReader := .init shufBuf source
    shuffles := 0
    draws := 0
    base := 0
    kept := [] }

/-- `mb_size_ + 1` -/
def limit (s : ShuffleIter I F) : ℕ := (s.mbSize + 1) % 2 ^ 32

/-- `rdp_` for a block of `n` rows: it is only initialised again when the size changes. -/
def resetRdp (rdp : List ℕ) (n : ℕ) : List ℕ := if rdp.length ≠ n then List.range n else rdp

variable [One F] [Zero F] [Sub F] [LinearOrder F] (rnd : Randomness F)

/-- `mb_.Push(in_blk_[j])` -/
def push (s : ShuffleIter I F) (j : ℕ) : ShuffleIter I F :=
  { s with
    mb := s.mb.pushRow (s.inBlk.row j) (s.inBlk.rowWeight j)
    kept := s.kept ++ [s.base + j] }

/-- The body of the loop over `i` for row `j` of the block. -/
def visitRow (s : ShuffleIter I F) (j : ℕ) : ShuffleIter I F :=
  if s.negativeSampling < 1 ∧ s.inBlk.label.getD j 1 ≤ 0 then
    if 1 - s.negativeSampling < rnd.draw s.draws then { s with draws := s.draws + 1 }
    else { s with draws := s.draws + 1 }.push j
  else s.push j

/-- The same after `CHECK(rowid < size)` of `operator[]`. -/
def checkRow (s : ShuffleIter I F) (rowid : ℕ) : Option (ShuffleIter I F) :=
  if rowid < s.inBlk.size then some (s.visitRow rnd rowid) else none

/-- The body of the loop over `i`. `j` is an `int`: from `2 ^ 31` on it is no row of the block. -/
def visit (s : ShuffleIter I F) (i : ℕ) : Option (ShuffleIter I F) :=
  s.rdp[i]?.bind fun j => s.checkRow rnd (toSizeT (toInt j))

/-- The rest of a turn of the loop of `Next`, after the new block. -/
def turn (s : ShuffleIter I F) : Option (ShuffleIter I F) :=
  let len := min (s.end_ - s.start) (s.limit - s.mb.offset.length)
  ((List.range' s.start len).foldlM (visit rnd) s).map fun t => { t with start := s.start + len }

/-- `in_blk_ = buf_reader_->Value()`, and the new order of its rows. -/
def take (s : ShuffleIter I F) (blk : InputBlock I F) (reader : MinibatchIter I F) :
    ShuffleIter I F :=
  { s with
    inBlk := blk
    start := 0
    end_ := blk.size
    rdp := rnd.shuffle s.shuffles (resetRdp s.rdp blk.size)
    shuffles := s.shuffles + 1
    bufReader := reader
    base := s.base + s.inBlk.size }

/-- The loop of `Next`. -/
def fill : ℕ → ShuffleIter I F → Option (ShuffleIter I F)
  | 0, _ => none
  | fuel + 1, s =>
    if s.mb.offset.length < s.limit then
      if s.start = s.end_ then
        match s.bufReader.next with
        | none => none
        | some (false, _, reader) => some { s with bufReader := reader }
        | some (true, blk, reader) => ((s.take rnd blk reader).turn rnd).bind (fill fuel)
      else (s.turn rnd).bind (fill fuel)
    else some s

/-- The number of rows that are still to be visited. -/
def remaining (s : ShuffleIter I F) : ℕ :=
  s.end_ - s.start + (s.bufReader.end_ - s.bufReader.start) +
    (s.bufReader.source.map InputBlock.size).sum

/-- `Next`: its result and `out_blk_`. Every turn of the loop but the last visits a row. -/
def next (s : ShuffleIter I F) : Option (Bool × InputBlock I F × ShuffleIter I F) := do
  let s ← fill rnd (s.remaining + 1) { s with mb := .clear }
  let s := { s with mb := MinibatchIter.dropBinary s.mb }
  let outBlk ← s.mb.getBlock
  return (decide (0 < outBlk.size), outBlk, s)

/-- The minibatches that `Next` delivers until it returns false, and the state then. -/
inductive Delivers : ShuffleIter I F → List (InputBlock I F) → ShuffleIter I F → Prop
  | done {s s' : ShuffleIter I F} {blk : InputBlock I F} :
      s.next rnd = some (false, blk, s') → Delivers s [] s'
  | step {s s' t : ShuffleIter I F} {blk : InputBlock I F} {blks : List (InputBlock I F)} :
      s.next rnd = some (true, blk, s') → Delivers s' blks t → Delivers s (blk :: blks) t

end ShuffleIter

/-! ## What the iterator is for -/

section Abstract

variable (rnd : Randomness F)

/-- The order in which `n` rows from position `base` on are visited, `m` of them at a time, when
`rdp` is the last order and `t` shuffles were made. -/
def visits (m : ℕ) (t : ℕ) (rdp : List ℕ) (base n : ℕ) : List ℕ :=
  if _h : n = 0 ∨ m = 0 then []
  else
    let order := rnd.shuffle t (ShuffleIter.resetRdp rdp (min m n))
    order.map (base + ·) ++ visits m (t + 1) order (base + min m n) (n - min m n)
  termination_by n
  decreasing_by omega

variable [One F] [Zero F] [Sub F] [LinearOrder F]

/-- The rows that sampling keeps of those that are visited in this order, from draw `k` on. -/
def sampled (rate : F) (label : ℕ → F) : ℕ → List ℕ → List ℕ
  | _, [] => []
  | k, p :: ps =>
    if rate < 1 ∧ label p ≤ 0 then
      if 1 - rate < rnd.draw k then sampled rate label (k + 1) ps
      else p :: sampled rate label (k + 1) ps
    else p :: sampled rate label k ps

end Abstract

/-! ## The order of the visits -/

section Visits

variable {rnd : Randomness F} {m t base n : ℕ} {rdp : List ℕ}

theorem ShuffleIter.resetRdp_perm (h : rdp.Perm (List.range rdp.length)) (k : ℕ) :
    (resetRdp rdp k).Perm (List.range k) := by
  rw [resetRdp]
  split
  · exact List.Perm.refl _
  · rename_i hlen
    rw [not_not] at hlen
    rw [hlen] at h
    exact h

/-- The order of the rows of the next block is a permutation of them. -/
theorem shuffle_reset_perm (rnd : Randomness F) (t : ℕ) (h : rdp.Perm (List.range rdp.length))
    (k : ℕ) :
    (rnd.shuffle t (ShuffleIter.resetRdp rdp k)).Perm (List.range k) :=
  (rnd.shuffle_perm t _).trans (ShuffleIter.resetRdp_perm h k)

theorem perm_range_length {order : List ℕ} {k : ℕ} (h : order.Perm (List.range k)) :
    order.Perm (List.range order.length) := by
  have hlen : order.length = k := by rw [h.length_eq, List.length_range]
  rw [hlen]
  exact h

theorem visits_zero : visits rnd m t rdp base 0 = [] := by
  rw [visits, dif_pos (.inl rfl)]

theorem visits_pos (hn : 0 < n) (hm : 0 < m) : visits rnd m t rdp base n =
    (rnd.shuffle t (ShuffleIter.resetRdp rdp (min m n))).map (base + ·) ++
      visits rnd m (t + 1) (rnd.shuffle t (ShuffleIter.resetRdp rdp (min m n))) (base + min m n)
        (n - min m n) := by
  rw [visits, dif_neg (by omega)]

/-- **Every row is visited once.** -/
theorem visits_perm (hm : 0 < m) (h : rdp.Perm (List.range rdp.length)) :
    (visits rnd m t rdp base n).Perm (List.range' base n) := by
  induction n using Nat.strong_induction_on generalizing t rdp base with
  | _ n ih =>
      rcases Nat.eq_zero_or_pos n with rfl | hn
      · rw [visits_zero]
        exact List.Perm.refl _
      · have horder := shuffle_reset_perm rnd t h (min m n)
        have hrest : (visits rnd m (t + 1) (rnd.shuffle t (ShuffleIter.resetRdp rdp (min m n)))
            (base + min m n) (n - min m n)).Perm
            (List.range' (base + min m n) (n - min m n)) :=
          ih (n - min m n) (by omega) (perm_range_length horder)
        have hblock := horder.map (base + ·)
        rw [← List.range'_eq_map_range] at hblock
        have hsplit : List.range' base n =
            List.range' base (min m n) ++ List.range' (base + min m n) (n - min m n) := by
          rw [List.range'_append_1]
          congr 1
          omega
        rw [visits_pos hn hm, hsplit]
        exact hblock.append hrest

/-- **The rows of a block are visited before those of the next.** -/
theorem visits_pairwise (hm : 0 < m) (h : rdp.Perm (List.range rdp.length)) (b : ℕ) :
    (visits rnd m t rdp (b * m) n).Pairwise fun p q => p / m ≤ q / m := by
  induction n using Nat.strong_induction_on generalizing t rdp b with
  | _ n ih =>
      rcases Nat.eq_zero_or_pos n with rfl | hn
      · rw [visits_zero]
        exact List.Pairwise.nil
      · have horder := shuffle_reset_perm rnd t h (min m n)
        have hperm := perm_range_length horder
        have hblock : ∀ p ∈ (rnd.shuffle t (ShuffleIter.resetRdp rdp (min m n))).map (b * m + ·),
            p / m = b := by
          intro p hp
          obtain ⟨j, hj, rfl⟩ := List.mem_map.mp hp
          have hlt := List.mem_range.mp (horder.mem_iff.mp hj)
          rw [Nat.mul_comm, Nat.mul_add_div hm, Nat.div_eq_of_lt (by omega), Nat.add_zero]
        rw [visits_pos hn hm, List.pairwise_append]
        refine ⟨?_, ?_, ?_⟩
        · refine List.pairwise_of_forall_mem_list fun p hp q hq => ?_
          rw [hblock p hp, hblock q hq]
        · by_cases hlast : n ≤ m
          · rw [show n - min m n = 0 by omega, visits_zero]
            exact List.Pairwise.nil
          · have hbase : b * m + min m n = (b + 1) * m := by
              rw [min_eq_left (by omega), Nat.succ_mul]
            rw [hbase]
            exact ih (n - min m n) (by omega) hperm (b + 1)
        · intro p hp q hq
          have hmem := ((visits_perm hm hperm).mem_iff).mp hq
          rw [List.mem_range'_1] at hmem
          rw [hblock p hp, Nat.le_div_iff_mul_le hm]
          omega

end Visits

/-! ## Sampling -/

section Sampling

variable [One F] [Zero F] [Sub F] [LinearOrder F] {rnd : Randomness F} {rate : F} {label : ℕ → F}

theorem sampled_sublist (k : ℕ) (order : List ℕ) :
    (sampled rnd rate label k order).Sublist order := by
  induction order generalizing k with
  | nil => exact List.Sublist.refl _
  | cons p ps ih =>
      rw [sampled]
      split
      · split
        · exact (ih (k + 1)).cons p
        · exact (ih (k + 1)).cons_cons p
      · exact (ih k).cons_cons p

/-- At rate 1 every row is kept. -/
theorem sampled_of_not_lt (hrate : ¬ rate < 1) (k : ℕ) (order : List ℕ) :
    sampled rnd rate label k order = order := by
  induction order generalizing k with
  | nil => rfl
  | cons p ps ih => rw [sampled, if_neg fun h => hrate h.1, ih k]

/-- Positive rows are kept at every rate. -/
theorem mem_sampled_of_pos {p : ℕ} (hp : 0 < label p) (k : ℕ) {order : List ℕ} (hmem : p ∈ order) :
    p ∈ sampled rnd rate label k order := by
  induction order generalizing k with
  | nil => cases hmem
  | cons q ps ih =>
      rw [sampled]
      rcases List.mem_cons.mp hmem with rfl | hmem
      · rw [if_neg fun h => not_lt.mpr h.2 hp]
        exact List.mem_cons_self
      · split
        · split
          · exact ih (k + 1) hmem
          · exact List.mem_cons_of_mem q (ih (k + 1) hmem)
        · exact List.mem_cons_of_mem q (ih k hmem)

/-- **Two rates below 1**: what the first keeps the second keeps, if and only if no draw of a
negative row is between the two thresholds. -/
theorem sampled_subset_iff {s₁ s₂ : F} (h₁ : s₁ < 1) (h₂ : s₂ < 1) (k : ℕ) {order : List ℕ}
    (hnodup : order.Nodup) :
    sampled rnd s₁ label k order ⊆ sampled rnd s₂ label k order ↔
      ∀ i < order.countP (label · ≤ 0),
        ¬ (1 - s₂ < rnd.draw (k + i) ∧ rnd.draw (k + i) ≤ 1 - s₁) := by
  induction order generalizing k with
  | nil => simp [sampled]
  | cons p ps ih =>
      rw [List.nodup_cons] at hnodup
      have hfresh : ∀ {s : F} {k : ℕ}, p ∉ sampled rnd s label k ps :=
        fun hp => hnodup.1 ((sampled_sublist _ ps).subset hp)
      by_cases hlabel : label p ≤ 0
      · have hneg₁ : s₁ < 1 ∧ label p ≤ 0 := ⟨h₁, hlabel⟩
        have hneg₂ : s₂ < 1 ∧ label p ≤ 0 := ⟨h₂, hlabel⟩
        rw [sampled, sampled, if_pos hneg₁, if_pos hneg₂,
          List.countP_cons_of_pos (by simpa using hlabel)]
        have hshift : (∀ i < ps.countP (label · ≤ 0) + 1,
            ¬ (1 - s₂ < rnd.draw (k + i) ∧ rnd.draw (k + i) ≤ 1 - s₁)) ↔
            ¬ (1 - s₂ < rnd.draw k ∧ rnd.draw k ≤ 1 - s₁) ∧
              sampled rnd s₁ label (k + 1) ps ⊆ sampled rnd s₂ label (k + 1) ps := by
          rw [ih (k + 1) hnodup.2, Nat.forall_lt_succ_left]
          simp only [Nat.add_zero, Nat.add_assoc, Nat.add_comm 1]
        rw [hshift]
        by_cases hskip₁ : 1 - s₁ < rnd.draw k
        · have hout : ¬ (1 - s₂ < rnd.draw k ∧ rnd.draw k ≤ 1 - s₁) :=
            fun h => not_le.mpr hskip₁ h.2
          rw [if_pos hskip₁]
          split
          · exact ⟨fun h => ⟨hout, h⟩, fun h => h.2⟩
          · refine ⟨fun h => ⟨hout, fun q hq => ?_⟩, fun h => (List.subset_cons_of_subset _ h.2)⟩
            rcases List.mem_cons.mp (h hq) with rfl | hmem
            · exact absurd hq hfresh
            · exact hmem
        · rw [if_neg hskip₁]
          split
          · rename_i hskip₂
            refine ⟨fun h => absurd (h List.mem_cons_self) hfresh, fun h => ?_⟩
            exact absurd ⟨hskip₂, not_lt.mp hskip₁⟩ h.1
          · rename_i hskip₂
            refine ⟨fun h => ⟨fun hd => hskip₂ hd.1, fun q hq => ?_⟩,
              fun h => List.cons_subset_cons p h.2⟩
            rcases List.mem_cons.mp (h (List.mem_cons_of_mem p hq)) with rfl | hmem
            · exact absurd hq hfresh
            · exact hmem
      · rw [sampled, sampled, if_neg fun h => hlabel h.2, if_neg fun h => hlabel h.2,
          List.countP_cons_of_neg (by simpa using hlabel), ← ih k hnodup.2]
        refine ⟨fun h q hq => ?_, fun h => List.cons_subset_cons p h⟩
        rcases List.mem_cons.mp (h (List.mem_cons_of_mem p hq)) with rfl | hmem
        · exact absurd hq hfresh
        · exact hmem

end Sampling

/-! ## One turn of the loop -/

/-- Row `p` of the source. -/
def rowAt [One F] (rows : List (InputRow I F)) (p : ℕ) : InputRow I F :=
  rows.getD p { label := 1, index := [], value := none }

namespace ShuffleIter

variable [One F] [Zero F] [Sub F] [LinearOrder F] {rnd : Randomness F}
  {rows : List (InputRow I F)} {s s' : ShuffleIter I F}

/-- The rows that are still to be visited, in their order. -/
def rest (rnd : Randomness F) (s : ShuffleIter I F) : List ℕ :=
  (s.rdp.drop s.start).map (s.base + ·) ++
    visits rnd s.shufBuf s.shuffles s.rdp (s.base + s.inBlk.size) s.bufReader.pending.length

/-- The rows that will have been kept in the end. -/
def outcome (rnd : Randomness F) (rows : List (InputRow I F)) (s : ShuffleIter I F) : List ℕ :=
  s.kept ++ sampled rnd s.negativeSampling (fun p => (rowAt rows p).label) s.draws (s.rest rnd)

/-- The block is the part of the source from `base` on, in an order given by `rdp_`, and the inner
iterator has the rows after it. -/
structure Inv (rows : List (InputRow I F)) (s : ShuffleIter I F) : Prop where
  pos : 1 ≤ s.mbSize
  lt : s.mbSize < s.shufBuf
  bound : s.shufBuf < 2 ^ 32
  limit : s.limit = s.mbSize + 1
  reader : s.bufReader.Inv
  readerSize : s.bufReader.mbSize = s.shufBuf
  le : s.start ≤ s.end_
  end_eq : s.end_ = s.inBlk.size
  size_le : s.inBlk.size ≤ s.shufBuf
  rdp : s.rdp.Perm (List.range s.inBlk.size)
  label : ∀ j < s.inBlk.size, s.inBlk.label.getD j 1 = (rowAt rows (s.base + j)).label
  pending : s.bufReader.pending = rows.drop (s.base + s.inBlk.size)
  dvd : s.shufBuf ∣ s.base
  full : s.bufReader.pending ≠ [] → s.shufBuf ∣ s.inBlk.size
  small : ∀ p ∈ s.kept, p % s.shufBuf < 2 ^ 31

/-- The rows `js` of the block, one after the other. -/
def visitRows (rnd : Randomness F) (s : ShuffleIter I F) (js : List ℕ) : ShuffleIter I F :=
  js.foldl (visitRow rnd) s

/-- Only the minibatch and the random state change. -/
theorem visitRow_frame (rnd : Randomness F) (s : ShuffleIter I F) (j : ℕ) : ∃ mb kept draws,
    s.visitRow rnd j = { s with mb := mb, kept := kept, draws := draws } := by
  rw [visitRow]
  split
  · split
    · exact ⟨_, _, _, rfl⟩
    · exact ⟨_, _, _, rfl⟩
  · exact ⟨_, _, _, rfl⟩

theorem visitRows_frame (rnd : Randomness F) (s : ShuffleIter I F) (js : List ℕ) : ∃ mb kept draws,
    s.visitRows rnd js = { s with mb := mb, kept := kept, draws := draws } := by
  induction js generalizing s with
  | nil => exact ⟨_, _, _, rfl⟩
  | cons j js ih =>
      obtain ⟨mb, kept, draws, hrow⟩ := visitRow_frame rnd s j
      obtain ⟨mb', kept', draws', hrows⟩ := ih (s.visitRow rnd j)
      refine ⟨mb', kept', draws', ?_⟩
      rw [visitRows, List.foldl_cons, ← visitRows, hrows, hrow]

/-- A row is kept or not as `sampled` says. -/
theorem visitRow_kept (rnd : Randomness F) {j : ℕ}
    (hlabel : s.inBlk.label.getD j 1 = (rowAt rows (s.base + j)).label)
    (ps : List ℕ) : (s.visitRow rnd j).kept ++ sampled rnd s.negativeSampling
        (fun p => (rowAt rows p).label) (s.visitRow rnd j).draws ps =
      s.kept ++ sampled rnd s.negativeSampling (fun p => (rowAt rows p).label) s.draws
        ((s.base + j) :: ps) := by
  rw [sampled, visitRow, hlabel]
  split
  · split
    · rfl
    · simp [push]
  · simp [push]

theorem visitRows_kept (rnd : Randomness F) {js : List ℕ}
    (hlabel : ∀ j ∈ js, s.inBlk.label.getD j 1 = (rowAt rows (s.base + j)).label) (ps : List ℕ) :
    (s.visitRows rnd js).kept ++ sampled rnd s.negativeSampling
        (fun p => (rowAt rows p).label) (s.visitRows rnd js).draws ps =
      s.kept ++ sampled rnd s.negativeSampling (fun p => (rowAt rows p).label) s.draws
        (js.map (s.base + ·) ++ ps) := by
  induction js generalizing s with
  | nil => rfl
  | cons j js ih =>
      obtain ⟨mb, kept, draws, hrow⟩ := visitRow_frame rnd s j
      have hhead := visitRow_kept rnd (hlabel j List.mem_cons_self)
        (js.map (s.base + ·) ++ ps)
      rw [List.map_cons, List.cons_append, ← hhead]
      rw [visitRows, List.foldl_cons, ← visitRows]
      rw [hrow] at hhead ⊢
      exact ih fun j' hj' => hlabel j' (List.mem_cons_of_mem j hj')

/-- The rows that are kept are among those that were kept before and those that are visited. -/
theorem mem_visitRows_kept {js : List ℕ} {p : ℕ} (hp : p ∈ (s.visitRows rnd js).kept) :
    p ∈ s.kept ∨ ∃ j ∈ js, p = s.base + j := by
  induction js generalizing s with
  | nil => exact .inl hp
  | cons j js ih =>
      rw [visitRows, List.foldl_cons, ← visitRows] at hp
      have hstep : ∀ q ∈ (s.visitRow rnd j).kept, q ∈ s.kept ∨ q = s.base + j := by
        intro q hq
        rw [visitRow] at hq
        split at hq
        · split at hq
          · exact .inl hq
          · simpa [push] using hq
        · simpa [push] using hq
      have hbase : (s.visitRow rnd j).base = s.base := by
        obtain ⟨mb, kept, draws, hrow⟩ := visitRow_frame rnd s j
        rw [hrow]
      rcases ih hp with hmem | ⟨j', hj', rfl⟩
      · rcases hstep p hmem with hmem | rfl
        · exact .inl hmem
        · exact .inr ⟨j, List.mem_cons_self, rfl⟩
      · exact .inr ⟨j', List.mem_cons_of_mem j hj', by rw [hbase]⟩

/-- A visit of a row that `int` can count goes through, any other aborts. -/
theorem visit_eq {i j : ℕ} (hj : s.rdp[i]? = some j) (hsize : j < s.inBlk.size)
    (hlt : s.inBlk.size < 2 ^ 32) :
    s.visit rnd i = if j < 2 ^ 31 then some (s.visitRow rnd j) else none := by
  rw [visit, hj, Option.bind_some]
  by_cases hsmall : j < 2 ^ 31
  · rw [toSizeT_toInt hsmall, checkRow, if_pos hsize, if_pos hsmall]
  · have hlarge := le_toSizeT_toInt (not_lt.mp hsmall) (hsize.trans hlt)
    rw [checkRow, if_neg (by omega), if_neg hsmall]

/-- The loop over `i`. -/
theorem foldlM_visit (rnd : Randomness F) (hrdp : ∀ j ∈ s.rdp, j < s.inBlk.size)
    (hlt : s.inBlk.size < 2 ^ 32) (i len : ℕ) (hlen : i + len ≤ s.rdp.length) :
    (List.range' i len).foldlM (visit rnd) s =
      if ∀ j ∈ (s.rdp.drop i).take len, j < 2 ^ 31 then
        some (s.visitRows rnd ((s.rdp.drop i).take len)) else none := by
  induction len generalizing i s with
  | zero => simp [visitRows]
  | succ len ih =>
      have hi : i < s.rdp.length := by omega
      have hget : s.rdp[i]? = some s.rdp[i] := List.getElem?_eq_getElem hi
      rw [List.range'_succ, List.foldlM_cons, List.drop_eq_getElem_cons hi, List.take_succ_cons,
        visit_eq hget (hrdp _ (List.getElem_mem hi)) hlt]
      by_cases hsmall : s.rdp[i] < 2 ^ 31
      · obtain ⟨mb, kept, draws, hrow⟩ := visitRow_frame rnd s s.rdp[i]
        have hrest := ih (s := s.visitRow rnd s.rdp[i]) (by rw [hrow]; exact hrdp)
          (by rw [hrow]; exact hlt) (i + 1) (by rw [hrow]; show i + 1 + len ≤ s.rdp.length; omega)
        rw [if_pos hsmall, Option.bind_eq_bind, Option.bind_some, hrest]
        rw [show (s.visitRow rnd s.rdp[i]).rdp = s.rdp by rw [hrow]]
        simp only [List.forall_mem_cons, hsmall, true_and, visitRows, List.foldl_cons]
      · rw [if_neg hsmall, if_neg]
        · rfl
        · intro hall
          exact hsmall (hall _ List.mem_cons_self)

/-- How many rows one turn visits. -/
def len (s : ShuffleIter I F) : ℕ := min (s.end_ - s.start) (s.limit - s.mb.offset.length)

omit [Zero F] [Sub F] [LinearOrder F] in
theorem Inv.length_rdp (hs : s.Inv rows) : s.rdp.length = s.end_ := by
  rw [hs.rdp.length_eq, List.length_range, hs.end_eq]

/-- **One turn** visits the next rows of the block, unless one of them is out of the range of
`int`. -/
theorem turn_eq (hs : s.Inv rows) : s.turn rnd =
    if ∀ j ∈ (s.rdp.drop s.start).take s.len, j < 2 ^ 31 then
      some { s.visitRows rnd ((s.rdp.drop s.start).take s.len) with start := s.start + s.len }
    else none := by
  have hrdp : ∀ j ∈ s.rdp, j < s.inBlk.size := fun j hj =>
    List.mem_range.mp (hs.rdp.mem_iff.mp hj)
  have hsize : s.inBlk.size < 2 ^ 32 := hs.size_le.trans_lt hs.bound
  have hfit : s.start + s.len ≤ s.rdp.length := by
    have hle := hs.le
    rw [hs.length_rdp, len]
    omega
  have hloop := foldlM_visit rnd hrdp hsize s.start s.len hfit
  rw [turn, ← len, hloop]
  split
  · rfl
  · rfl

theorem Inv.turn (hs : s.Inv rows) (hturn : s.turn rnd = some s') :
    s'.Inv rows ∧ s'.outcome rnd rows = s.outcome rnd rows ∧
      (s'.rest rnd).length + s.len = (s.rest rnd).length := by
  rw [turn_eq hs] at hturn
  split at hturn
  · rename_i hsmall
    rw [Option.some.injEq] at hturn
    subst hturn
    obtain ⟨mb, kept, draws, hrows⟩ := visitRows_frame rnd s ((s.rdp.drop s.start).take s.len)
    have hle := hs.le
    have hlen : s.len ≤ s.end_ - s.start := min_le_left _ _
    have hsplit : s.rest rnd = ((s.rdp.drop s.start).take s.len).map (s.base + ·) ++
        ((s.rdp.drop (s.start + s.len)).map (s.base + ·) ++
          visits rnd s.shufBuf s.shuffles s.rdp (s.base + s.inBlk.size)
            s.bufReader.pending.length) := by
      rw [rest, ← List.append_assoc, ← List.map_append, ← List.drop_drop, List.take_append_drop]
    have hlabel : ∀ j ∈ (s.rdp.drop s.start).take s.len,
        s.inBlk.label.getD j 1 = (rowAt rows (s.base + j)).label := by
      intro j hj
      have hmem := List.mem_of_mem_drop (List.mem_of_mem_take hj)
      exact hs.label j (List.mem_range.mp (hs.rdp.mem_iff.mp hmem))
    have hkept := visitRows_kept rnd hlabel
      ((s.rdp.drop (s.start + s.len)).map (s.base + ·) ++
        visits rnd s.shufBuf s.shuffles s.rdp (s.base + s.inBlk.size) s.bufReader.pending.length)
    have hnew : ∀ p ∈ (s.visitRows rnd ((s.rdp.drop s.start).take s.len)).kept,
        p % s.shufBuf < 2 ^ 31 := by
      intro p hp
      rcases mem_visitRows_kept hp with hmem | ⟨j, hj, rfl⟩
      · exact hs.small p hmem
      · obtain ⟨q, hq⟩ := hs.dvd
        rw [hq, Nat.mul_add_mod]
        exact (Nat.mod_le j s.shufBuf).trans_lt (hsmall j hj)
    rw [← hsplit] at hkept
    refine ⟨?_, ?_, ?_⟩
    · rw [hrows] at hnew ⊢
      exact ⟨hs.pos, hs.lt, hs.bound, hs.limit, hs.reader, hs.readerSize,
        show s.start + s.len ≤ s.end_ by omega, hs.end_eq, hs.size_le, hs.rdp, hs.label, hs.pending,
        hs.dvd, hs.full, hnew⟩
    · rw [outcome, outcome, ← hkept]
      rw [hrows]
      rfl
    · rw [hsplit, List.length_append, List.length_map, List.length_take, List.length_drop,
        hs.length_rdp, min_eq_left hlen, rest, hrows]
      exact Nat.add_comm _ _
  · cases hturn

/-- A turn does not change the sizes. -/
theorem Inv.turn_sizes (hs : s.Inv rows) (hturn : s.turn rnd = some s') :
    s'.mbSize = s.mbSize ∧ s'.shufBuf = s.shufBuf := by
  rw [turn_eq hs] at hturn
  split at hturn
  · obtain ⟨mb, kept, draws, hrows⟩ := visitRows_frame rnd s ((s.rdp.drop s.start).take s.len)
    rw [Option.some.injEq, hrows] at hturn
    rw [← hturn]
    exact ⟨rfl, rfl⟩
  · cases hturn

/-! ## A new block -/

omit [Zero F] [Sub F] [LinearOrder F] in
/-- When the block is used up, the rows of the inner iterator are left. -/
theorem Inv.rest_of_eq (hs : s.Inv rows) (hend : s.start = s.end_) : s.rest rnd =
    visits rnd s.shufBuf s.shuffles s.rdp (s.base + s.inBlk.size) s.bufReader.pending.length := by
  rw [rest, hend, ← hs.length_rdp, List.drop_length]
  rfl

omit [Zero F] [Sub F] [LinearOrder F] in
theorem getElem?_rows (b : InputBlock I F) {j : ℕ} (hj : j < b.size) :
    b.rows[j]? = some (b.row j) := by
  simp [InputBlock.rows, hj]

omit [Zero F] [Sub F] in
/-- What the inner iterator does, if it does not abort. -/
theorem next_some {t t' : MinibatchIter I F} (ht : t.Inv) {more : Bool} {blk : InputBlock I F}
    (hnext : t.next = some (more, blk, t')) : more = decide (0 < blk.size) ∧ t'.Inv ∧
      t'.mbSize = t.mbSize ∧ t'.pending = t.pending.drop t.mbSize ∧
      blk.size = min t.mbSize t.pending.length ∧
      blk.rows.map (fun r => (r.label, r.features)) =
        (t.pending.take t.mbSize).map fun r => (r.label, r.features) := by
  have huni : Uniform (t.pending.take t.mbSize) := by
    by_contra hnot
    rw [(MinibatchIter.next_eq ht).2 hnot] at hnext
    cases hnext
  obtain ⟨blk', reader, hnext', hreader, hsize, hpend, hlen, hrows⟩ :=
    (MinibatchIter.next_eq ht).1 huni
  rw [hnext, Option.some.injEq, Prod.mk.injEq, Prod.mk.injEq] at hnext'
  obtain ⟨hpos, rfl, rfl⟩ := hnext'
  rw [List.length_take] at hlen
  exact ⟨hpos, hreader, hsize, hpend, hlen, hrows⟩

/-- **A new block** is the next part of the source. -/
theorem Inv.take (rnd : Randomness F) (hs : s.Inv rows) (hend : s.start = s.end_)
    {blk : InputBlock I F} {reader : MinibatchIter I F}
    (hnext : s.bufReader.next = some (true, blk, reader)) :
    (s.take rnd blk reader).Inv rows ∧
      (s.take rnd blk reader).outcome rnd rows = s.outcome rnd rows ∧
      (s.take rnd blk reader).rest rnd = s.rest rnd ∧ 0 < blk.size := by
  obtain ⟨hpos, hreader, hsize, hpend, hlen, hrows⟩ := next_some hs.reader hnext
  have hblk : 0 < blk.size := of_decide_eq_true hpos.symm
  rw [hs.readerSize] at hpend hlen hrows
  have hpos' : 0 < s.bufReader.pending.length := by omega
  have hne : s.bufReader.pending ≠ [] := List.ne_nil_of_length_pos hpos'
  have hm : 0 < s.shufBuf := Nat.zero_lt_of_lt hs.lt
  have hrdp := perm_range_length hs.rdp
  have hlabel : ∀ j < blk.size, blk.label.getD j 1 =
      (rowAt rows (s.base + s.inBlk.size + j)).label := by
    intro j hj
    have hget := congrArg (fun l => l[j]?.map Prod.fst) hrows
    simp only [List.getElem?_map, getElem?_rows blk hj, Option.map_some, hs.pending,
      List.getElem?_take_of_lt (show j < s.shufBuf by omega), List.getElem?_drop] at hget
    cases hrow : rows[s.base + s.inBlk.size + j]? with
    | none =>
        rw [hrow] at hget
        cases hget
    | some r =>
        have hat : rowAt rows (s.base + s.inBlk.size + j) = r := by
          rw [rowAt, List.getD_eq_getElem?_getD, hrow]
          rfl
        rw [hrow] at hget
        rw [hat]
        exact Option.some.inj hget
  have hrest : (s.take rnd blk reader).rest rnd = s.rest rnd := by
    rw [hs.rest_of_eq hend, visits_pos hpos' hm]
    simp only [rest, ShuffleIter.take, List.drop_zero, hlen, hpend, List.length_drop]
    rw [show s.bufReader.pending.length - min s.shufBuf s.bufReader.pending.length =
      s.bufReader.pending.length - s.shufBuf by omega]
  refine ⟨?_, ?_, hrest, hblk⟩
  · refine ⟨hs.pos, hs.lt, hs.bound, hs.limit, hreader, hsize.trans hs.readerSize, Nat.zero_le _,
      rfl, ?_, shuffle_reset_perm rnd _ hrdp _, hlabel, ?_, ?_, ?_, hs.small⟩
    · show blk.size ≤ s.shufBuf
      omega
    · show reader.pending = rows.drop (s.base + s.inBlk.size + blk.size)
      rw [hpend, hs.pending, List.drop_drop]
      rw [hs.pending, List.length_drop] at hlen
      by_cases hfull : s.shufBuf ≤ rows.length - (s.base + s.inBlk.size)
      · rw [hlen, min_eq_left hfull]
      · rw [List.drop_of_length_le (by omega), List.drop_of_length_le (by omega)]
    · exact Nat.dvd_add hs.dvd (hs.full hne)
    · intro hmore
      show s.shufBuf ∣ blk.size
      rw [show (s.take rnd blk reader).bufReader.pending = s.bufReader.pending.drop s.shufBuf from
        hpend, Ne, List.drop_eq_nil_iff] at hmore
      have hfull : blk.size = s.shufBuf := by omega
      exact ⟨1, by rw [hfull, Nat.mul_one]⟩
  · rw [outcome, outcome, hrest]
    rfl

omit [Zero F] [Sub F] in
/-- Nothing is left when the inner iterator has nothing. -/
theorem Inv.rest_of_done (rnd : Randomness F) (hs : s.Inv rows) (hend : s.start = s.end_)
    {blk : InputBlock I F} {reader : MinibatchIter I F}
    (hnext : s.bufReader.next = some (false, blk, reader)) :
    s.rest rnd = [] ∧ s.bufReader.pending = [] ∧ reader.pending = [] ∧ reader.Inv ∧
      reader.mbSize = s.bufReader.mbSize := by
  obtain ⟨hpos, hreader, hsize, hpend, hlen, -⟩ := next_some hs.reader hnext
  have hzero : ¬ 0 < blk.size := of_decide_eq_false hpos.symm
  have hm : 0 < s.shufBuf := Nat.zero_lt_of_lt hs.lt
  have hnil : s.bufReader.pending = [] := by
    rw [hs.readerSize] at hlen
    exact List.length_eq_zero_iff.mp (by omega)
  refine ⟨?_, hnil, ?_, hreader, hsize⟩
  · rw [hs.rest_of_eq hend, hnil]
    exact visits_zero
  · rw [hpend, hnil, List.drop_nil]

/-! ## One call -/

/-- **The invariant rule for the loop of `Next`**: what a turn and a new block preserve holds in
the end, when the minibatch is full or the inner iterator has nothing more. -/
theorem fill_invariant (rnd : Randomness F) {P : ShuffleIter I F → Prop}
    (hturn : ∀ s s' : ShuffleIter I F, P s → s.turn rnd = some s' → P s')
    (htake : ∀ (s : ShuffleIter I F) blk reader, P s → s.start = s.end_ →
      s.bufReader.next = some (true, blk, reader) → P (s.take rnd blk reader))
    {fuel : ℕ} (hs : P s) (hfill : fill rnd fuel s = some s') :
    P s' ∧ s'.limit ≤ s'.mb.offset.length ∨
      ∃ t blk reader, P t ∧ t.start = t.end_ ∧ t.bufReader.next = some (false, blk, reader) ∧
        s' = { t with bufReader := reader } := by
  induction fuel generalizing s with
  | zero => cases hfill
  | succ fuel ih =>
      rw [fill] at hfill
      split at hfill
      · split at hfill
        · rename_i hend
          split at hfill
          · cases hfill
          · rename_i blk reader hnext
            rw [Option.some.injEq] at hfill
            exact .inr ⟨s, blk, reader, hs, hend, hnext, hfill.symm⟩
          · rename_i blk reader hnext
            obtain ⟨t, ht, hrest⟩ := Option.bind_eq_some_iff.mp hfill
            exact ih (hturn _ t (htake s blk reader hs hend hnext) ht) hrest
        · obtain ⟨t, ht, hrest⟩ := Option.bind_eq_some_iff.mp hfill
          exact ih (hturn s t hs ht) hrest
      · rename_i hfull
        rw [Option.some.injEq] at hfill
        subst hfill
        exact .inl ⟨hs, not_lt.mp hfull⟩

omit [Zero F] [Sub F] [LinearOrder F] in
/-- The minibatch is not part of the invariant. -/
theorem Inv.setMb (hs : s.Inv rows) (mb : RowBlockContainer I F) : Inv rows { s with mb := mb } :=
  ⟨hs.pos, hs.lt, hs.bound, hs.limit, hs.reader, hs.readerSize, hs.le, hs.end_eq, hs.size_le,
    hs.rdp, hs.label, hs.pending, hs.dvd, hs.full, hs.small⟩

/-- A call visits the rows that come next, until the minibatch is full or no row is left. -/
theorem Inv.fill (hs : s.Inv rows) {fuel : ℕ} (hfill : fill rnd fuel s = some s') :
    s'.Inv rows ∧ s'.outcome rnd rows = s.outcome rnd rows ∧
      (s'.mbSize = s.mbSize ∧ s'.shufBuf = s.shufBuf) ∧
      (s'.limit ≤ s'.mb.offset.length ∨ s'.rest rnd = []) := by
  have hrule := fill_invariant rnd (P := fun t => t.Inv rows ∧
      t.outcome rnd rows = s.outcome rnd rows ∧ t.mbSize = s.mbSize ∧ t.shufBuf = s.shufBuf)
      ?_ ?_ ⟨hs, rfl, rfl, rfl⟩ hfill
  · rcases hrule with ⟨⟨hs', hout, hsizes⟩, hfull⟩ |
      ⟨t, blk, reader, ⟨ht, hout, hsizes⟩, hend, hnext, rfl⟩
    · exact ⟨hs', hout, hsizes, .inl hfull⟩
    · obtain ⟨hrest, hnil, hnil', hreader, hsize⟩ := ht.rest_of_done rnd hend hnext
      have hrest' : rest rnd { t with bufReader := reader } = t.rest rnd := by
        rw [rest, rest, hnil, hnil']
      refine ⟨⟨ht.pos, ht.lt, ht.bound, ht.limit, hreader, hsize.trans ht.readerSize, ht.le,
        ht.end_eq, ht.size_le, ht.rdp, ht.label, ?_, ht.dvd, fun h => absurd hnil' h, ht.small⟩,
        ?_, hsizes, .inr (hrest'.trans hrest)⟩
      · show reader.pending = _
        rw [hnil', ← hnil, ht.pending]
      · rw [← hout, outcome, outcome, hrest']
  · intro t t' ht hturn
    obtain ⟨ht', hout, -⟩ := ht.1.turn hturn
    obtain ⟨hmb, hbuf⟩ := ht.1.turn_sizes hturn
    exact ⟨ht', hout.trans ht.2.1, hmb.trans ht.2.2.1, hbuf.trans ht.2.2.2⟩
  · intro t blk reader ht hend hnext
    obtain ⟨ht', hout, -, -⟩ := ht.1.take rnd hend hnext
    exact ⟨ht', hout.trans ht.2.1, ht.2.2⟩

omit [Zero F] [Sub F] in
theorem offset_dropBinary {mb : RowBlockContainer I F} :
    (MinibatchIter.dropBinary mb).offset = mb.offset := by
  rw [MinibatchIter.dropBinary]
  split <;> rfl

/-- **One call of `Next`**; when it returns false no row is left. -/
theorem Inv.next (hs : s.Inv rows) {more : Bool} {blk : InputBlock I F}
    (hnext : s.next rnd = some (more, blk, s')) :
    s'.Inv rows ∧ s'.outcome rnd rows = s.outcome rnd rows ∧
      (s'.mbSize = s.mbSize ∧ s'.shufBuf = s.shufBuf) ∧ (blk.size < s.mbSize → s'.rest rnd = []) ∧
      more = decide (0 < blk.size) := by
  simp only [ShuffleIter.next, Option.bind_eq_bind, Option.bind_eq_some_iff, Option.pure_def,
    Option.some.injEq, Prod.mk.injEq] at hnext
  obtain ⟨t, hfill, out, hout, hmore, rfl, rfl⟩ := hnext
  obtain ⟨ht, hsame, hsizes, hend⟩ := (hs.setMb .clear).fill hfill
  refine ⟨ht.setMb _, hsame, hsizes, fun hless => ?_, hmore.symm⟩
  rcases hend with hfull | hrest
  · -- the block has as many rows as the minibatch
    rw [RowBlockContainer.getBlock] at hout
    split at hout
    · rw [Option.some.injEq] at hout
      have hlen : t.mb.offset.length - 1 < s.mbSize := by
        rw [← offset_dropBinary]
        rwa [← hout] at hless
      have hsize : t.mbSize = s.mbSize := hsizes.1
      rw [ht.limit] at hfull
      omega
    · cases hout
  · exact hrest

/-- **A run keeps what sampling keeps** of the rows that are visited. -/
theorem Delivers.kept_eq {blks : List (InputBlock I F)} (h : Delivers rnd s blks s')
    (hs : s.Inv rows) : s'.Inv rows ∧ s'.kept = s.outcome rnd rows := by
  induction h with
  | done hnext =>
      obtain ⟨hs', hout, -, hrest, hmore⟩ := hs.next hnext
      have hzero := of_decide_eq_false hmore.symm
      have hpos := hs.pos
      refine ⟨hs', ?_⟩
      rw [← hout, outcome, hrest (by omega), sampled, List.append_nil]
  | step hnext _ ih =>
      obtain ⟨hs', hout, -⟩ := hs.next hnext
      rw [← hout]
      exact ih hs'

theorem Delivers.sizes {blks : List (InputBlock I F)} (h : Delivers rnd s blks s')
    (hs : s.Inv rows) : s'.mbSize = s.mbSize ∧ s'.shufBuf = s.shufBuf := by
  induction h with
  | done hnext => exact (hs.next hnext).2.2.1
  | step hnext _ ih =>
      obtain ⟨hs', -, hsizes, -⟩ := hs.next hnext
      obtain ⟨hmb, hbuf⟩ := ih hs'
      exact ⟨hmb.trans hsizes.1, hbuf.trans hsizes.2⟩

/-! ## A run from the beginning -/

variable {mbSize shufBuf : ℕ} {rate : F} {source : List (InputBlock I F)}

omit [Zero F] [Sub F] [LinearOrder F] in
theorem inv_init (hm : 1 ≤ mbSize) (hlt : mbSize < shufBuf) (hbuf : shufBuf + 1 < 2 ^ 32)
    (hsource : ∀ b ∈ source, b.Valid) :
    Inv (InputBlock.sourceRows source) (init mbSize shufBuf rate source) := by
  refine ⟨hm, hlt, Nat.lt_of_succ_lt hbuf, Nat.mod_eq_of_lt ?_, MinibatchIter.inv_init hbuf hsource,
    rfl, le_rfl, rfl, Nat.zero_le _, List.Perm.refl _, fun j hj => absurd hj (Nat.not_lt_zero j),
    rfl, Nat.dvd_zero _, fun _ => Nat.dvd_zero _, fun p hp => ?_⟩
  · show mbSize + 1 < 2 ^ 32
    omega
  · cases hp

theorem outcome_init : (init mbSize shufBuf rate source).outcome rnd (InputBlock.sourceRows source) =
    sampled rnd rate (fun p => (rowAt (InputBlock.sourceRows source) p).label) 0
      (visits rnd shufBuf 0 [] 0 (InputBlock.sourceRows source).length) := rfl

omit [One F] [Zero F] [Sub F] [LinearOrder F] in
/-- The rows of the source are visited once each. -/
theorem visits_source_perm (rnd : Randomness F) (hbuf : 0 < shufBuf) (n : ℕ) :
    (visits rnd shufBuf 0 [] 0 n).Perm (List.range n) := by
  rw [List.range_eq_range']
  exact visits_perm hbuf (List.Perm.refl _)

end ShuffleIter

end Difacto.Base
