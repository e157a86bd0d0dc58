import Difacto.Base.Binary32
import Difacto.Base.Localizer
import Difacto.Base.ParallelSort
import Mathlib.Algebra.BigOperators.Ring.Finset

/-!
# Counting unique keys

`Localizer::CountUniqIndex` of `base/localizer.h` with the sort that it uses and with each type of
the counts: an unsigned integer of at most 32 bits, which saturates, or `float`, which holds the
nearest number.

## Main definitions

* `CountType` — the template parameter `C`.
* `Localizer.countUniqIndex` — `CountUniqIndex`.

## Main results

* `count_countRuns`, `sum_countRuns` — the loop counts the entries of every key.
* `Localizer.countUniqIndex_exact` — the unique keys with their counts.
-/

namespace Difacto.Base

variable {F : Type}

/-! ## The types of a count -/

/-- `C`: what `std::is_integral<C>` distinguishes. -/
inductive CountType
  | unsigned (w : ℕ) (hw : w ≤ 32)
  | float

namespace CountType

/-- The values of the type. -/
def Count : CountType → Type
  | unsigned w _ => BitVec w
  | float => Binary32

/-- The element of `idx_frq` for `cnt`: `std::min(cnt, cnt_max)` or `static_cast<C>(cnt)`. -/
def ofCnt : (c : CountType) → ℕ → c.Count
  | unsigned w _, cnt => BitVec.ofNat w (min cnt (2 ^ w - 1))
  | float, cnt => Binary32.ofRat false cnt

/-- The number that an element of `idx_frq` stands for. -/
def value : (c : CountType) → c.Count → ℚ
  | unsigned _ _, n => (BitVec.toNat n : ℚ)
  | float, x => Binary32.value x

/-- The largest number up to which all counts are represented. -/
def exactMax : CountType → ℕ
  | unsigned w _ => 2 ^ w - 1
  | float => 2 ^ 24

/-- The number that is stored for `cnt` entries. -/
def stored : CountType → ℕ → ℚ
  | unsigned w _, cnt => (min cnt (2 ^ w - 1) : ℕ)
  | float, cnt => (Binary32.ofRat false cnt).value

theorem value_ofCnt (c : CountType) (cnt : ℕ) : c.value (c.ofCnt cnt) = c.stored cnt := by
  cases c with
  | unsigned w hw =>
    have hlt : min cnt (2 ^ w - 1) < 2 ^ w := by
      have hpos : 0 < 2 ^ w := by positivity
      omega
    simp only [value, ofCnt, stored, BitVec.toNat_ofNat, Nat.mod_eq_of_lt hlt]
  | float => rfl

theorem stored_eq (c : CountType) {cnt : ℕ} (h : cnt ≤ c.exactMax) : c.stored cnt = cnt := by
  cases c with
  | unsigned w hw =>
    have hle : cnt ≤ 2 ^ w - 1 := h
    rw [stored, min_eq_left hle]
  | float => exact Binary32.value_ofRat_natCast h

end CountType

/-! ## The localizer -/

/-- `Pair`s compare by their keys. -/
def lessKey (a b : UInt64 × ℕ) : Bool := decide (a.1 < b.1)

theorem lessKey_strictWeak : StrictWeak lessKey where
  asymm a b hab hba :=
    absurd (of_decide_eq_true hab) (of_decide_eq_true hba).asymm
  negTrans a b c hab hbc hac := by
    have hba := not_lt.mp (of_decide_eq_false (Bool.not_eq_true _ ▸ hab))
    have hcb := not_lt.mp (of_decide_eq_false (Bool.not_eq_true _ ▸ hbc))
    exact absurd (of_decide_eq_true hac) (not_lt.mpr (hcb.trans hba))

/-- `Localizer<uint64_t>`; the number of threads is an `int`. -/
structure Localizer where
  nt : ℕ
  nt_pos : 0 < nt

namespace Localizer

/-- `pair_` before it is sorted: the key of each entry and its place. -/
def keyPairs (maxKey : UInt64) (blk : InputBlock UInt64 F) : List (UInt64 × ℕ) :=
  (blk.ids.map (localKey maxKey)).zipIdx

/-- `CountUniqIndex` with empty vectors: `pair_`, `uniq_idx` and `idx_frq`. The loop over the
entries divides by `max_key`, and `pair_[0]` is read whatever the size of `pair_` is: a division by
zero and a read outside it are `none`, as a failed `CHECK` is. -/
def countUniqIndex (lc : Localizer) (sort : StdSort lessKey) (maxKey : UInt64) (c : CountType)
    (blk : InputBlock UInt64 F) : Option (List (UInt64 × ℕ) × List UInt64 × List c.Count) :=
  if blk.size = 0 then some ([], [], [])
  else if ¬ blk.off blk.size < 2 ^ 32 - 1 then none
  else if maxKey = 0 ∧ 0 < blk.off blk.size then none
  else do
    let pair ← parallelSort sort lc.nt (keyPairs maxKey blk)
    let first ← pair.head?
    let runs := countRuns first.1 0 (pair.map Prod.fst)
    return (pair, runs.map Prod.fst, runs.map fun r => c.ofCnt r.2)

end Localizer

/-! ## The loop over the sorted keys -/

/-- The counts of all keys. -/
theorem sum_countRuns (curr : UInt64) (cnt : ℕ) (ks : List UInt64) :
    ((countRuns curr cnt ks).map Prod.snd).sum = cnt + ks.length := by
  induction ks generalizing curr cnt with
  | nil => rfl
  | cons k ks ih =>
    rw [countRuns]
    split
    · rw [List.map_cons, List.sum_cons, ih, List.length_cons, Nat.add_comm 1]
    · rw [ih, List.length_cons, Nat.add_assoc, Nat.add_comm 1]

/-- **The count of a key** is the number of its entries. -/
theorem count_countRuns {curr : UInt64} {cnt : ℕ} {ks : List UInt64}
    (hsorted : (curr :: ks).Pairwise (· ≤ ·)) {r : UInt64 × ℕ} (hr : r ∈ countRuns curr cnt ks) :
    r.2 = (if r.1 = curr then cnt else 0) + ks.count r.1 := by
  induction ks generalizing curr cnt with
  | nil =>
    rw [countRuns, List.mem_singleton] at hr
    simp [hr]
  | cons k ks ih =>
    obtain ⟨hle, hrest⟩ := List.pairwise_cons.mp hsorted
    rw [countRuns] at hr
    split at hr
    · next hne =>
      have hlt : curr < k := lt_of_le_of_ne (hle k List.mem_cons_self) (Ne.symm hne)
      have hnot : curr ∉ k :: ks := by
        intro hmem
        rcases List.mem_cons.mp hmem with rfl | hmem
        · exact lt_irrefl _ hlt
        · exact (hlt.trans_le ((List.pairwise_cons.mp hrest).1 _ hmem)).false
      rcases List.mem_cons.mp hr with rfl | hr
      · rw [if_pos rfl, List.count_eq_zero_of_not_mem hnot, Nat.add_zero]
      · have hkey : r.1 ∈ k :: ks :=
          List.mem_cons.mpr (mem_countRuns.mp (List.mem_map_of_mem hr))
        have hother : r.1 ≠ curr := fun heq => hnot (heq ▸ hkey)
        rw [if_neg hother, ih hrest hr, List.count_cons, Nat.zero_add, Nat.add_comm]
        congr 1
        by_cases hk : r.1 = k
        · simp [hk]
        · simp [hk, Ne.symm hk]
    · next heq =>
      rw [not_not] at heq
      subst heq
      have hcount := ih hrest hr
      rw [hcount, List.count_cons]
      by_cases hk : r.1 = k
      · simp [hk]
        omega
      · simp [hk, Ne.symm hk]

/-! ## The result -/

namespace Localizer

/-- What `CountUniqIndex` leaves in `pair_`: the keys of the entries in order, each with a place. -/
structure Sorted (maxKey : UInt64) (blk : InputBlock UInt64 F) (pair : List (UInt64 × ℕ)) :
    Prop where
  perm : pair.Perm (keyPairs maxKey blk)
  sorted : pair.Pairwise fun a b => a.1 ≤ b.1

theorem Sorted.keys {maxKey : UInt64} {blk : InputBlock UInt64 F} {pair : List (UInt64 × ℕ)}
    (h : Sorted maxKey blk pair) :
    (pair.map Prod.fst).Perm (blk.ids.map (localKey maxKey)) := by
  have hperm := h.perm.map Prod.fst
  rwa [keyPairs, List.zipIdx_map_fst] at hperm

theorem length_ids {blk : InputBlock UInt64 F} (hblk : blk.Valid) :
    blk.ids.length = blk.off blk.size := by
  rw [InputBlock.ids, List.length_take]
  exact min_eq_left hblk.length_index

/-- The number of entries with a key. -/
def keyCount (maxKey : UInt64) (blk : InputBlock UInt64 F) (k : UInt64) : ℕ :=
  (blk.ids.map (localKey maxKey)).count k

theorem size_ne_zero {blk : InputBlock UInt64 F} (hfirst : blk.off 0 = 0)
    (hpos : 0 < blk.off blk.size) : blk.size ≠ 0 := by
  intro hzero
  rw [hzero, hfirst] at hpos
  exact lt_irrefl 0 hpos

/-- The keys in the order of the pairs do not depend on the sort. -/
theorem Sorted.map_fst {maxKey : UInt64} {blk : InputBlock UInt64 F} {pair : List (UInt64 × ℕ)}
    (h : Sorted maxKey blk pair) :
    pair.map Prod.fst = (blk.ids.map (localKey maxKey)).insertionSort (· ≤ ·) := by
  refine (h.keys.trans (List.perm_insertionSort _ _).symm).eq_of_pairwise
    (fun _ _ _ _ => le_antisymm) (List.pairwise_map.mpr h.sorted) ?_
  exact List.pairwise_insertionSort _ _

/-- A run over entries computes the keys and counts of `Base.countUniqIndex`, where no key is read
from nowhere. -/
theorem countUniqIndex_base (lc : Localizer) (sort : StdSort lessKey) {maxKey : UInt64}
    (hmaxKey : maxKey ≠ 0) (c : CountType) {blk : InputBlock UInt64 F} (hblk : blk.Valid)
    (hfirst : blk.off 0 = 0) (hpos : 0 < blk.off blk.size)
    (hlt : blk.off blk.size < 2 ^ 32 - 1) :
    ∃ pair kcs, lc.countUniqIndex sort maxKey c blk =
        some (pair, kcs.map Prod.fst, kcs.map fun kc => c.ofCnt kc.2) ∧
      (∀ junk, Base.countUniqIndex maxKey junk blk = some kcs) ∧ Sorted maxKey blk pair ∧
      (∀ kc ∈ kcs, kc.2 = keyCount maxKey blk kc.1) ∧
      (kcs.map Prod.snd).sum = blk.off blk.size := by
  have hsize := size_ne_zero hfirst hpos
  obtain ⟨pair, hrun, hperm, hsorted⟩ :=
    parallelSort_eq sort lessKey_strictWeak lc.nt_pos (keyPairs maxKey blk)
  have hpair : Sorted maxKey blk pair :=
    ⟨hperm, hsorted.imp fun {a b} h => not_lt.mp fun hlt => h (decide_eq_true hlt)⟩
  have hlen : pair.length = blk.off blk.size := by
    rw [hperm.length_eq, keyPairs, List.length_zipIdx, List.length_map, length_ids hblk]
  obtain ⟨first, rest, hcons⟩ : ∃ first rest, pair = first :: rest := by
    cases hnil : pair with
    | nil => rw [hnil, List.length_nil] at hlen; omega
    | cons first rest => exact ⟨first, rest, rfl⟩
  have hhead : pair.map Prod.fst = first.1 :: rest.map Prod.fst := by rw [hcons, List.map_cons]
  have hle : (first.1 :: pair.map Prod.fst).Pairwise (· ≤ ·) := by
    have hks := List.pairwise_map.mpr hpair.sorted
    refine List.pairwise_cons.mpr ⟨fun k hk => ?_, hks⟩
    rw [hhead] at hk hks
    rcases List.mem_cons.mp hk with rfl | hk
    · exact le_rfl
    · exact (List.pairwise_cons.mp hks).1 k hk
  refine ⟨pair, countRuns first.1 0 (pair.map Prod.fst), ?_, fun junk => ?_, hpair, ?_, ?_⟩
  · rw [countUniqIndex, if_neg hsize, if_neg (not_not.mpr hlt), if_neg fun h => hmaxKey h.1, hrun]
    simp only [Option.bind_eq_bind, Option.bind_some, hcons, List.head?_cons]
    rfl
  · rw [Base.countUniqIndex, if_neg hsize]
    refine (if_pos hlt).trans ?_
    rw [← hpair.map_fst, hhead]
    rfl
  · intro kc hkc
    rw [count_countRuns hle hkc, ite_self, Nat.zero_add, hpair.keys.count_eq]
    rfl
  · rw [sum_countRuns, Nat.zero_add, List.length_map, hlen]

/-- **What `CountUniqIndex` computes** from a block that has entries. -/
theorem countUniqIndex_eq (lc : Localizer) (sort : StdSort lessKey) {maxKey : UInt64}
    (hmaxKey : maxKey ≠ 0) (c : CountType) {blk : InputBlock UInt64 F} (hblk : blk.Valid)
    (hfirst : blk.off 0 = 0) (hpos : 0 < blk.off blk.size)
    (hlt : blk.off blk.size < 2 ^ 32 - 1) :
    ∃ pair uniq, lc.countUniqIndex sort maxKey c blk =
        some (pair, uniq, uniq.map fun k => c.ofCnt (keyCount maxKey blk k)) ∧
      Sorted maxKey blk pair ∧ uniq.Pairwise (· < ·) ∧
      (∀ k, k ∈ uniq ↔ ∃ id ∈ blk.ids, localKey maxKey id = k) ∧
      (uniq.map (keyCount maxKey blk)).sum = blk.off blk.size := by
  obtain ⟨pair, kcs, hrun, hbase, hpair, hcount, hsum⟩ :=
    countUniqIndex_base lc sort hmaxKey c hblk hfirst hpos hlt
  refine ⟨pair, kcs.map Prod.fst, ?_, hpair, countUniqIndex_sorted (hbase 0), fun k => ?_, ?_⟩
  · rw [hrun, List.map_map]
    refine congrArg some (congrArg (Prod.mk pair) (congrArg (Prod.mk _) ?_))
    exact List.map_congr_left fun kc hkc => by rw [hcount kc hkc]; rfl
  · have hids : blk.ids ≠ [] := by
      rw [Ne, ← List.length_eq_zero_iff, length_ids hblk]
      exact hpos.ne'
    rw [mem_countUniqIndex (hbase 0) (size_ne_zero hfirst hpos)]
    exact or_iff_left fun h => hids h.1
  · rw [← hsum, List.map_map]
    exact congrArg List.sum (List.map_congr_left fun kc hkc => (hcount kc hkc).symm)

/-- The unique keys of a block with their counts. -/
structure Counted (maxKey : UInt64) (c : CountType) (blk : InputBlock UInt64 F)
    (uniq : List UInt64) (frq : List c.Count) : Prop where
  increasing : uniq.Pairwise (· < ·)
  keys : ∀ k, k ∈ uniq ↔ ∃ id ∈ blk.ids, localKey maxKey id = k
  length_frq : frq.length = uniq.length
  stored : ∀ (i : ℕ) k n, uniq[i]? = some k → frq[i]? = some n →
    c.value n = c.stored (keyCount maxKey blk k)
  exact_of_le : ∀ (i : ℕ) k n, uniq[i]? = some k → frq[i]? = some n →
    keyCount maxKey blk k ≤ c.exactMax → c.value n = keyCount maxKey blk k
  sum_of_le : (∀ k ∈ uniq, keyCount maxKey blk k ≤ c.exactMax) →
    (frq.map c.value).sum = blk.off blk.size

/-- **The unique keys are counted exactly**, but for what the type of the counts cannot hold. -/
theorem countUniqIndex_exact (lc : Localizer) (sort : StdSort lessKey) (maxKey : UInt64)
    (hmaxKey : maxKey ≠ 0) (c : CountType) (blk : InputBlock UInt64 F) (hblk : blk.Valid)
    (hfirst : blk.off 0 = 0) (hpos : 0 < blk.off blk.size) (hlt : blk.off blk.size < 2 ^ 32 - 1) :
    ∃ pair uniq frq, lc.countUniqIndex sort maxKey c blk = some (pair, uniq, frq) ∧
      Counted maxKey c blk uniq frq := by
  obtain ⟨pair, uniq, hrun, -, hincr, hmem, hsum⟩ :=
    countUniqIndex_eq lc sort hmaxKey c hblk hfirst hpos hlt
  have hstored : ∀ (i : ℕ) k n, uniq[i]? = some k →
      (uniq.map fun k => c.ofCnt (keyCount maxKey blk k))[i]? = some n →
      c.value n = c.stored (keyCount maxKey blk k) := by
    intro i k n hk hn
    rw [List.getElem?_map, hk, Option.map_some] at hn
    rw [← Option.some.inj hn, CountType.value_ofCnt]
  refine ⟨pair, uniq, _, hrun, hincr, hmem, List.length_map _, hstored, ?_, ?_⟩
  · intro i k n hk hn hle
    rw [hstored i k n hk hn, c.stored_eq hle]
  · intro hle
    rw [List.map_map, ← hsum, Nat.cast_list_sum, List.map_map]
    congr 1
    refine List.map_congr_left fun k hk => ?_
    rw [Function.comp_apply, Function.comp_apply, CountType.value_ofCnt, c.stored_eq (hle k hk)]

/-- A row with two features. -/
def twoIds : InputBlock UInt64 ℚ :=
  { size := 1, offset := [0, 2], label := [1], weight := none, index := [7, 3], value := none }

theorem twoIds_valid : twoIds.Valid where
  length_offset := rfl
  off_le := by decide
  length_label := rfl
  length_index := by decide
  length_value := by rintro v ⟨⟩

theorem countUniqIndex_exact_twoIds : ∃ pair uniq frq,
    (Localizer.mk 2 two_pos).countUniqIndex (.merge lessKey_strictWeak) 5 .float twoIds =
        some (pair, uniq, frq) ∧ Counted 5 .float twoIds uniq frq :=
  countUniqIndex_exact _ _ 5 (by decide) .float twoIds twoIds_valid rfl (by decide) (by decide)

/-- A row with one feature more often than `float` can count. -/
def manyIds : InputBlock UInt64 ℚ :=
  { size := 1, offset := [0, 2 ^ 24 + 1], label := [1], weight := none
    index := List.replicate (2 ^ 24 + 1) 0, value := none }

theorem manyIds_valid : manyIds.Valid where
  length_offset := rfl
  off_le := by decide
  length_label := rfl
  length_index := List.length_replicate.ge
  length_value := by rintro v ⟨⟩

theorem keyCount_manyIds : keyCount maxIndex manyIds 0 = 2 ^ 24 + 1 := by
  have hids : manyIds.ids = List.replicate (2 ^ 24 + 1) 0 := by
    rw [InputBlock.ids, show manyIds.index = List.replicate (2 ^ 24 + 1) 0 from rfl,
      List.take_replicate]
    congr 1
  have hkey : localKey maxIndex 0 = 0 := by decide
  rw [keyCount, hids, List.map_replicate, hkey, List.count_replicate_self]

/-- **A count that `float` does not hold**: one entry more than `2 ^ 24`. -/
theorem countUniqIndex_rounds : ¬ ∃ pair uniq frq,
    (Localizer.mk 2 two_pos).countUniqIndex (.merge lessKey_strictWeak) maxIndex .float manyIds =
        some (pair, uniq, frq) ∧
      ∀ (i : ℕ) k n, uniq[i]? = some k → frq[i]? = some n →
        CountType.value .float n = keyCount maxIndex manyIds k := by
  rintro ⟨pair, uniq, frq, hrun, hexact⟩
  obtain ⟨pair', uniq', hrun', -, -, hmem, -⟩ := countUniqIndex_eq (Localizer.mk 2 two_pos)
    (.merge lessKey_strictWeak) (by decide : maxIndex ≠ 0) .float manyIds_valid rfl (by decide)
    (by decide)
  rw [hrun', Option.some.injEq, Prod.mk.injEq, Prod.mk.injEq] at hrun
  obtain ⟨-, rfl, rfl⟩ := hrun
  have hzero : (0 : UInt64) ∈ uniq' := by
    have hcount : 0 < keyCount maxIndex manyIds 0 := by
      rw [keyCount_manyIds]
      exact Nat.succ_pos _
    rw [hmem, ← List.mem_map]
    exact List.count_pos_iff.mp hcount
  obtain ⟨i, hi⟩ := List.mem_iff_getElem?.mp hzero
  have hvalue := hexact i 0 _ hi (by rw [List.getElem?_map, hi, Option.map_some])
  rw [CountType.value_ofCnt, keyCount_manyIds] at hvalue
  exact absurd hvalue (by decide +kernel)

end Localizer

end Difacto.Base
