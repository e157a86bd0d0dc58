import Difacto.Base.InputBlock
import Mathlib.Data.UInt
import Mathlib.Data.List.Sort

/-!
# Feature ids

`ReverseBytes` and `Localizer::CountUniqIndex` of `base/localizer.h`, for feature ids of 64
bits. The keys of a minibatch are its ids modulo `max_key`, or the reversed ids when
`max_key` is not set; the dump programs undo the reversal.

A minibatch that has rows but no id makes `CountUniqIndex` read `pair_[0]` of an empty
vector: `junk` is what it reads there.

## Main definitions

* `reverseBytes` — `ReverseBytes`.
* `localKey` — the key of an id.
* `countUniqIndex` — the keys of a minibatch with their counts.

## Main results

* `reverseBytes_reverseBytes`, `nibble_reverseBytes` — reversing twice, and what is reversed.
* `countUniqIndex_sorted`, `mem_countUniqIndex` — what `CountUniqIndex` returns.
-/

namespace Difacto.Base

instance instLinearOrderUInt64 : LinearOrder UInt64 where
  le_refl := UInt64.le_refl
  le_trans _ _ _ := UInt64.le_trans
  le_antisymm _ _ := UInt64.le_antisymm
  le_total := UInt64.le_total
  lt_iff_le_not_ge a b := by
    rw [UInt64.le_iff_toNat_le, UInt64.le_iff_toNat_le, UInt64.lt_iff_toNat_lt]
    omega
  toDecidableLE := inferInstance

/-- `ReverseBytes`. -/
def reverseBytes (x : UInt64) : UInt64 :=
  let x := x <<< 32 ||| x >>> 32
  let x := (x &&& 0x0000FFFF0000FFFF) <<< 16 ||| (x &&& 0xFFFF0000FFFF0000) >>> 16
  let x := (x &&& 0x00FF00FF00FF00FF) <<< 8 ||| (x &&& 0xFF00FF00FF00FF00) >>> 8
  (x &&& 0x0F0F0F0F0F0F0F0F) <<< 4 ||| (x &&& 0xF0F0F0F0F0F0F0F0) >>> 4

/-! ## Reversing twice

`ReverseBytes` commutes with `|||`, so it is known by its values on numbers with one bit
set and on numbers with all bits but one: it moves every bit to the place of its mirror image. -/

theorem or_and_distrib (a b c : UInt64) : (a ||| b) &&& c = (a &&& c) ||| (b &&& c) := by
  apply UInt64.toBitVec_inj.1
  ext i hi
  simp [Bool.and_or_distrib_right]

theorem or_or_or_comm (a b c d : UInt64) : (a ||| b) ||| (c ||| d) = (a ||| c) ||| (b ||| d) := by
  rw [UInt64.or_assoc, ← UInt64.or_assoc b, UInt64.or_comm b c, UInt64.or_assoc c,
    ← UInt64.or_assoc]

/-- Exchange neighbouring groups of `s` bits. -/
def swapBits (m m' s x : UInt64) : UInt64 := (x &&& m) <<< s ||| (x &&& m') >>> s

theorem swapBits_or (m m' s x y : UInt64) :
    swapBits m m' s (x ||| y) = swapBits m m' s x ||| swapBits m m' s y := by
  rw [swapBits, or_and_distrib, or_and_distrib, UInt64.shiftLeft_or, UInt64.shiftRight_or,
    or_or_or_comm]
  rfl

theorem reverseBytes_eq (x : UInt64) : reverseBytes x =
    swapBits 0x0F0F0F0F0F0F0F0F 0xF0F0F0F0F0F0F0F0 4
      (swapBits 0x00FF00FF00FF00FF 0xFF00FF00FF00FF00 8
        (swapBits 0x0000FFFF0000FFFF 0xFFFF0000FFFF0000 16 (x <<< 32 ||| x >>> 32))) := rfl

theorem reverseBytes_or (x y : UInt64) :
    reverseBytes (x ||| y) = reverseBytes x ||| reverseBytes y := by
  rw [reverseBytes_eq, UInt64.shiftLeft_or, UInt64.shiftRight_or, or_or_or_comm, swapBits_or,
    swapBits_or, swapBits_or]
  rfl

/-- Only bit `i`. -/
def bit (i : Fin 64) : UInt64 := ⟨BitVec.twoPow 64 i⟩

/-- All bits but `i`. -/
def allBut (i : Fin 64) : UInt64 := ⟨~~~BitVec.twoPow 64 i⟩

theorem or_bit_iff (x : UInt64) (i : Fin 64) : x ||| bit i = x ↔ x.toBitVec[i] = true := by
  constructor
  · intro h
    rw [← h]
    simp [bit]
  · intro hi
    apply UInt64.toBitVec_inj.1
    ext j hj
    by_cases hij : j = i
    · subst hij
      simpa [bit] using hi
    · simp [bit, hij]

theorem or_allBut_iff (x : UInt64) (i : Fin 64) :
    x ||| allBut i = allBut i ↔ x.toBitVec[i] = false := by
  constructor
  · intro h
    have hbit := congrArg (fun y : UInt64 => y.toBitVec[i]) h
    simpa [allBut] using hbit
  · intro hi
    apply UInt64.toBitVec_inj.1
    ext j hj
    by_cases hij : j = i
    · subst hij
      simpa [allBut] using hi
    · simp [allBut, hij]

/-- Where a bit is after reversing: the groups of four bits are in the opposite order. -/
def mirror (i : ℕ) : ℕ := 4 * (15 - i / 4) + i % 4

theorem mirror_lt (i : ℕ) : mirror i < 64 := by
  rw [mirror]
  omega

theorem mirror_mirror {i : ℕ} (hi : i < 64) : mirror (mirror i) = i := by
  simp only [mirror]
  omega

/-- **Reversing moves every bit** with its group. -/
theorem getLsbD_reverseBytes (x : UInt64) {i : ℕ} (hi : i < 64) :
    (reverseBytes x).toBitVec.getLsbD (mirror i) = x.toBitVec.getLsbD i := by
  have hbit : ∀ i : Fin 64, reverseBytes (bit i) = bit ⟨mirror i, mirror_lt i⟩ := by
    decide +kernel
  have hallBut : ∀ i : Fin 64, reverseBytes (allBut i) = allBut ⟨mirror i, mirror_lt i⟩ := by
    decide +kernel
  rw [BitVec.getLsbD_eq_getElem (mirror_lt i), BitVec.getLsbD_eq_getElem hi]
  cases hx : x.toBitVec[i] with
  | true =>
      refine (or_bit_iff _ ⟨mirror i, mirror_lt i⟩).mp ?_
      rw [← hbit ⟨i, hi⟩, ← reverseBytes_or, (or_bit_iff x ⟨i, hi⟩).mpr hx]
  | false =>
      refine (or_allBut_iff _ ⟨mirror i, mirror_lt i⟩).mp ?_
      rw [← hallBut ⟨i, hi⟩, ← reverseBytes_or, (or_allBut_iff x ⟨i, hi⟩).mpr hx]

/-- **Reversing twice** gives the number back. -/
theorem reverseBytes_reverseBytes (x : UInt64) : reverseBytes (reverseBytes x) = x := by
  apply UInt64.toBitVec_inj.1
  ext i hi
  rw [← BitVec.getLsbD_eq_getElem, ← BitVec.getLsbD_eq_getElem]
  conv_lhs => rw [← mirror_mirror hi]
  rw [getLsbD_reverseBytes _ (mirror_lt i), getLsbD_reverseBytes x hi]

/-- `ReverseBytes` is its own inverse. -/
theorem reverseBytes_bijective : Function.Bijective reverseBytes :=
  Function.Involutive.bijective reverseBytes_reverseBytes

/-- The group `i` of four bits, from the lowest on. -/
def nibble (x : UInt64) (i : ℕ) : BitVec 4 := x.toBitVec.extractLsb' (4 * i) 4

/-- **The sixteen groups of four bits** are in the opposite order. -/
theorem nibble_reverseBytes (x : UInt64) {i : ℕ} (hi : i < 16) :
    nibble (reverseBytes x) i = nibble x (15 - i) := by
  ext j hj
  have hmirror : mirror (4 * (15 - i) + j) = 4 * i + j := by
    rw [mirror]
    omega
  rw [nibble, nibble, BitVec.getElem_extractLsb', BitVec.getElem_extractLsb', ← hmirror]
  exact getLsbD_reverseBytes x (by omega)

/-! ## The keys of a minibatch -/

variable {F : Type}

/-- `std::numeric_limits<I>::max()`, also the value of `max_key` when it is not set. -/
def maxIndex : UInt64 := 0xFFFFFFFFFFFFFFFF

/-- The key of a feature id. -/
def localKey (maxKey id : UInt64) : UInt64 :=
  if maxKey < maxIndex then id % maxKey else reverseBytes id

/-- The loop over the sorted keys: `curr` has been seen `cnt` times. -/
def countRuns (curr : UInt64) (cnt : ℕ) : List UInt64 → List (UInt64 × ℕ)
  | [] => [(curr, cnt)]
  | k :: ks => if k ≠ curr then (curr, cnt) :: countRuns k 1 ks else countRuns curr (cnt + 1) ks

/-- The ids of a minibatch. -/
def InputBlock.ids (blk : InputBlock UInt64 F) : List UInt64 :=
  blk.index.take (blk.offset.getD blk.size 0)

/-- `CountUniqIndex`: the unique keys with their counts. -/
def countUniqIndex (maxKey junk : UInt64) (blk : InputBlock UInt64 F) :
    Option (List (UInt64 × ℕ)) :=
  if blk.size = 0 then some []
  else if blk.offset.getD blk.size 0 < 2 ^ 32 - 1 then
    let ks := (blk.ids.map (localKey maxKey)).insertionSort (· ≤ ·)
    some (countRuns (ks.headD junk) 0 ks)
  else none

theorem mem_countRuns {curr k : UInt64} {cnt : ℕ} {ks : List UInt64} :
    k ∈ (countRuns curr cnt ks).map Prod.fst ↔ k = curr ∨ k ∈ ks := by
  induction ks generalizing curr cnt with
  | nil => simp [countRuns]
  | cons k' ks ih =>
      rw [countRuns]
      split
      · rw [List.map_cons, List.mem_cons, ih, List.mem_cons]
      · rename_i heq
        rw [not_not] at heq
        rw [ih, List.mem_cons, heq]
        tauto

theorem pairwise_countRuns {curr : UInt64} {cnt : ℕ} {ks : List UInt64}
    (hsorted : (curr :: ks).Pairwise (· ≤ ·)) :
    ((countRuns curr cnt ks).map Prod.fst).Pairwise (· < ·) := by
  induction ks generalizing curr cnt with
  | nil => simp [countRuns]
  | cons k ks ih =>
      obtain ⟨hle, hrest⟩ := List.pairwise_cons.mp hsorted
      rw [countRuns]
      split
      · rename_i hne
        have hlt : curr < k := lt_of_le_of_ne (hle k (by simp)) (Ne.symm hne)
        rw [List.map_cons, List.pairwise_cons]
        refine ⟨fun k' hk' => ?_, ih hrest⟩
        rcases mem_countRuns.mp hk' with rfl | hmem
        · exact hlt
        · exact hlt.trans_le ((List.pairwise_cons.mp hrest).1 k' hmem)
      · exact ih (List.pairwise_cons.mpr
          ⟨fun k' hk' => hle k' (List.mem_cons_of_mem _ hk'), (List.pairwise_cons.mp hrest).2⟩)

variable {maxKey junk : UInt64} {blk : InputBlock UInt64 F} {kcs : List (UInt64 × ℕ)}

/-- The keys are in strictly increasing order. -/
theorem countUniqIndex_sorted (h : countUniqIndex maxKey junk blk = some kcs) :
    (kcs.map Prod.fst).Pairwise (· < ·) := by
  simp only [countUniqIndex] at h
  split at h
  · cases h
    exact List.Pairwise.nil
  · split at h
    · cases h
      have hsorted := List.pairwise_insertionSort (· ≤ ·) (blk.ids.map (localKey maxKey))
      cases hks : (blk.ids.map (localKey maxKey)).insertionSort (· ≤ ·) with
      | nil => simp [countRuns]
      | cons k ks =>
          rw [hks] at hsorted
          apply pairwise_countRuns
          rw [List.headD_cons, List.pairwise_cons]
          refine ⟨fun k' hk' => ?_, hsorted⟩
          rcases List.mem_cons.mp hk' with rfl | hmem
          · exact le_rfl
          · exact (List.pairwise_cons.mp hsorted).1 k' hmem
    · cases h

/-- The keys are those of the ids; without any id there is one that was read from
nowhere. -/
theorem mem_countUniqIndex (h : countUniqIndex maxKey junk blk = some kcs) (hsize : blk.size ≠ 0)
    {k : UInt64} : k ∈ kcs.map Prod.fst ↔
      (∃ id ∈ blk.ids, localKey maxKey id = k) ∨ blk.ids = [] ∧ k = junk := by
  have hmem : ∀ k, k ∈ (blk.ids.map (localKey maxKey)).insertionSort (· ≤ ·) ↔
      ∃ id ∈ blk.ids, localKey maxKey id = k := by
    intro k
    rw [List.mem_insertionSort, List.mem_map]
  simp only [countUniqIndex, if_neg hsize] at h
  split at h
  · cases h
    rw [mem_countRuns, hmem]
    cases hids : blk.ids with
    | nil => simp
    | cons id ids =>
        have hne : (blk.ids.map (localKey maxKey)).insertionSort (· ≤ ·) ≠ [] :=
          List.ne_nil_of_mem ((hmem _).mpr ⟨id, by rw [hids]; simp, rfl⟩)
        obtain ⟨k₀, ks, hks⟩ := List.exists_cons_of_ne_nil hne
        rw [← hids, hks, List.headD_cons]
        have hk₀ : ∃ id ∈ blk.ids, localKey maxKey id = k₀ := (hmem k₀).mp (by rw [hks]; simp)
        constructor
        · rintro (rfl | hk)
          · exact .inl hk₀
          · exact .inl hk
        · rintro (hk | ⟨hnil, -⟩)
          · exact .inr hk
          · rw [hids] at hnil
            cases hnil
  · cases h

end Difacto.Base
