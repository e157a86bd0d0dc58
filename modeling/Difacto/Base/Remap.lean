import Difacto.Base.Localizer
import Difacto.Base.MinibatchIter

/-!
# Localized minibatches

`Localizer::RemapIndex` and `Localizer::Localize` of `base/localizer.h`: the feature ids of a
minibatch are replaced by the positions of their keys in a dictionary, and features whose key
is not in it are dropped. The pairs are sorted by their keys; the order of equal keys plays no
role, as they get the same position.

## Main definitions

* `sortedPairs` — `pair_` after `CountUniqIndex`.
* `remapPairs`, `remapIndex` — `RemapIndex`.
* `localize` — `Localize` with `uniq_idx`.

## Main results

* `size_of_localize` — a localized minibatch has the rows of the minibatch.
-/

namespace Difacto.Base

variable {F : Type}

/-- `pair_` after `CountUniqIndex`: the keys, each with its place in the block. -/
def sortedPairs (maxKey : UInt64) (blk : InputBlock UInt64 F) : List (UInt64 × ℕ) :=
  (blk.ids.map (localKey maxKey)).zipIdx.insertionSort (·.1 ≤ ·.1)

/-- Advance `cur_dict`, which is at position `d`, to the first key that is not below `k`. -/
def skipBelow (k : UInt64) : ℕ → List UInt64 → ℕ × List UInt64
  | d, [] => (d, [])
  | d, key :: dict => if key < k then skipBelow k (d + 1) dict else (d, key :: dict)

/-- The loop over the pairs with `cur_dict` at position `d`: the places that are matched, with
the position in the dictionary plus one. -/
def remapPairs : ℕ → List UInt64 → List (UInt64 × ℕ) → List (ℕ × ℕ)
  | _, _, [] => []
  | d, dict, (k, i) :: pairs =>
    let (d, dict) := skipBelow k d dict
    if dict.head? = some k then (i, d + 1) :: remapPairs d dict pairs
    else remapPairs d dict pairs

/-- The entries of row `i` that are kept. -/
def keptEntries (remapped : List ℕ) (blk : InputBlock UInt64 F) (i : ℕ) : List ℕ :=
  (List.range' (blk.off i) (blk.off (i + 1) - blk.off i)).filter fun j => remapped.getD j 0 ≠ 0

/-- `RemapIndex`; the container is new, and `none` is a failed `CHECK`. -/
def remapIndex [One F] (pairs : List (UInt64 × ℕ)) (dict : List UInt64)
    (blk : InputBlock UInt64 F) : Option (RowBlockContainer ℕ F) :=
  if blk.size = 0 ∨ dict = [] then some .clear
  else if dict.length < 2 ^ 32 - 1 ∧ blk.off blk.size = pairs.length then
    let matched := remapPairs 0 dict pairs
    let remapped := matched.foldl (fun r m => r.set m.1 m.2) (List.replicate pairs.length 0)
    let kept := (List.range blk.size).map (keptEntries remapped blk)
    if kept.flatten.length = matched.length then
      some
        { offset := (List.range (blk.size + 1)).map fun i => (kept.take i).flatten.length
          label := blk.label.take blk.size
          weight := []
          index := kept.flatten.map fun j => remapped.getD j 0 - 1
          value := match blk.value with
            | some v => kept.flatten.map fun j => v.getD j 1
            | none => [] }
    else none
  else none

/-- `Localize`: the keys, their counts and the localized minibatch. -/
def localize [One F] (maxKey junk : UInt64) (blk : InputBlock UInt64 F) :
    Option (List (UInt64 × ℕ) × RowBlockContainer ℕ F) := do
  let kcs ← countUniqIndex maxKey junk blk
  let data ← remapIndex (sortedPairs maxKey blk) (kcs.map Prod.fst) blk
  return (kcs, data)

theorem countRuns_ne_nil (curr : UInt64) (cnt : ℕ) (ks : List UInt64) :
    countRuns curr cnt ks ≠ [] := by
  intro hnil
  have hmem : curr ∈ (countRuns curr cnt ks).map Prod.fst := mem_countRuns.mpr (.inl rfl)
  rw [hnil] at hmem
  cases hmem

/-- A minibatch with a row has a key. -/
theorem ne_nil_of_countUniqIndex {maxKey junk : UInt64} {blk : InputBlock UInt64 F}
    {kcs : List (UInt64 × ℕ)} (hsize : blk.size ≠ 0)
    (h : countUniqIndex maxKey junk blk = some kcs) : kcs ≠ [] := by
  rw [countUniqIndex, if_neg hsize] at h
  split at h
  · cases h
    exact countRuns_ne_nil _ _ _
  · cases h

variable [One F] {maxKey junk : UInt64} {blk : InputBlock UInt64 F}

theorem length_offset_of_remapIndex {pairs : List (UInt64 × ℕ)} {dict : List UInt64}
    {data : RowBlockContainer ℕ F} (hsize : blk.size ≠ 0) (hdict : dict ≠ [])
    (h : remapIndex pairs dict blk = some data) : data.offset.length = blk.size + 1 := by
  rw [remapIndex, if_neg (not_or.mpr ⟨hsize, hdict⟩)] at h
  split at h
  · dsimp only at h
    split at h
    · cases h
      rw [List.length_map, List.length_range]
    · cases h
  · cases h

/-- **A localized minibatch** has keys and as many rows as the minibatch. -/
theorem size_of_localize {kcs : List (UInt64 × ℕ)} {data : RowBlockContainer ℕ F}
    {block : InputBlock ℕ F} (hsize : blk.size ≠ 0)
    (h : localize maxKey junk blk = some (kcs, data)) (hblock : data.getBlock = some block) :
    kcs ≠ [] ∧ block.size = blk.size := by
  simp only [localize, Option.bind_eq_bind, Option.bind_eq_some_iff, Option.pure_def,
    Option.some.injEq, Prod.mk.injEq] at h
  obtain ⟨kcs', hkcs, data', hdata, rfl, rfl⟩ := h
  have hne := ne_nil_of_countUniqIndex hsize hkcs
  have hoffset := length_offset_of_remapIndex hsize (by simpa using hne) hdata
  refine ⟨hne, ?_⟩
  rw [RowBlockContainer.getBlock] at hblock
  split at hblock
  · cases hblock
    show data'.offset.length - 1 = blk.size
    omega
  · cases hblock

end Difacto.Base
