import Difacto.Base.CountUniq
import Difacto.Base.Remap
import Difacto.Base.SpMV

/-!
# Remapping to a dictionary

`RemapIndex` of `base/localizer.h` with the pairs that `CountUniqIndex` left, and `Localize`. The
loop over the pairs advances the dictionary to the first key that is not smaller than that of the
pair, so a pair is matched if and only if its key is in the dictionary, wherever the other keys
are. The container is new.

## Main definitions

* `Localizer.Remapped` — a block with the entries whose keys are in a dictionary.
* `Localizer.localize` — `Localize`.

## Main results

* `remapPairs_eq` — the places that are matched.
* `Localizer.remapIndex_exact` — the result of `RemapIndex`.
* `Localizer.localize_eq` — the sort makes no difference.
* `Localizer.localize_total_iff` — when `Localize` returns the localized block.
-/

namespace Difacto.Base

open Lib

variable {F : Type}

/-! ## The loop over the pairs -/

/-- `skipBelow` passes over the keys that are smaller. -/
theorem skipBelow_eq (k : UInt64) (d : ℕ) (dict : List UInt64) : ∃ skipped,
    dict = skipped ++ (skipBelow k d dict).2 ∧ (skipBelow k d dict).1 = d + skipped.length ∧
      (∀ x ∈ skipped, x < k) ∧ ∀ x ∈ (skipBelow k d dict).2.head?, k ≤ x := by
  induction dict generalizing d with
  | nil => exact ⟨[], rfl, rfl, by simp, by simp [skipBelow]⟩
  | cons key dict ih =>
    rw [skipBelow]
    by_cases hlt : key < k
    · rw [if_pos hlt]
      obtain ⟨skipped, hdict, hd, hsmall, hhead⟩ := ih (d + 1)
      refine ⟨key :: skipped, ?_, ?_, ?_, hhead⟩
      · rw [List.cons_append, ← hdict]
      · rw [hd, List.length_cons]
        omega
      · exact List.forall_mem_cons.mpr ⟨hlt, hsmall⟩
    · rw [if_neg hlt]
      refine ⟨[], rfl, rfl, by simp, ?_⟩
      rintro x ⟨rfl⟩
      exact not_lt.mp hlt

/-- **The places that are matched** are those of the pairs whose key is in the dictionary, with its
position plus one. `pre` has been passed over. -/
theorem remapPairs_eq {pre dict : List UInt64} {pairs : List (UInt64 × ℕ)}
    (hdict : (pre ++ dict).Pairwise (· < ·)) (hpairs : pairs.Pairwise fun a b => a.1 ≤ b.1)
    (hpre : ∀ x ∈ pre, ∀ p ∈ pairs, x < p.1) :
    remapPairs pre.length dict pairs =
      (pairs.filter fun p => p.1 ∈ pre ++ dict).map
        fun p => (p.2, (pre ++ dict).idxOf p.1 + 1) := by
  induction pairs generalizing pre dict with
  | nil => rfl
  | cons p pairs ih =>
    obtain ⟨k, i⟩ := p
    obtain ⟨hle, hpairs'⟩ := List.pairwise_cons.mp hpairs
    obtain ⟨skipped, hsplit, hd, hsmall, hhead⟩ := skipBelow_eq k pre.length dict
    set rest := (skipBelow k pre.length dict).2 with hrest
    have hall : pre ++ dict = (pre ++ skipped) ++ rest := by rw [hsplit, List.append_assoc]
    have hskip : skipBelow k pre.length dict = ((pre ++ skipped).length, rest) :=
      Prod.ext (by rw [hd, List.length_append]) rfl
    have hbelow : ∀ x ∈ pre ++ skipped, x < k := by
      intro x hx
      rcases List.mem_append.mp hx with hx | hx
      · exact hpre x hx _ List.mem_cons_self
      · exact hsmall x hx
    have hgo := ih (hall ▸ hdict) hpairs' fun x hx p hp => (hbelow x hx).trans_le (hle p hp)
    have hnot : k ∉ pre ++ skipped := fun hmem => lt_irrefl k (hbelow k hmem)
    rw [remapPairs, hskip, hall]
    dsimp only
    rw [hgo]
    by_cases hhead' : rest.head? = some k
    · obtain ⟨rest', hrest'⟩ := List.head?_eq_some_iff.mp hhead'
      have hmem : k ∈ pre ++ skipped ++ rest := by
        rw [hrest']
        exact List.mem_append_right _ List.mem_cons_self
      have hidx : (pre ++ skipped ++ rest).idxOf k = (pre ++ skipped).length := by
        rw [hrest', List.idxOf_append_of_notMem hnot, List.idxOf_cons_self, Nat.add_zero]
      simp only [if_pos hhead', List.filter_cons, hmem, decide_true, if_true, List.map_cons, hidx]
    · have hmem : k ∉ pre ++ skipped ++ rest := by
        intro hmem
        cases hcons : rest with
        | nil =>
          rw [hcons, List.append_nil] at hmem
          exact hnot hmem
        | cons x rest' =>
          rw [hcons] at hmem hhead hhead'
          have hlt : k < x := lt_of_le_of_ne (hhead x rfl) fun heq => hhead' (heq ▸ rfl)
          rw [hall, hcons] at hdict
          rcases List.mem_append.mp hmem with hmem | hmem
          · exact hnot hmem
          · rcases List.mem_cons.mp hmem with rfl | hmem
            · exact lt_irrefl _ hlt
            · have hlater := (List.pairwise_cons.mp (List.pairwise_append.mp hdict).2.1).1 k hmem
              exact lt_asymm hlt hlater
      simp only [if_neg hhead', List.filter_cons, hmem, decide_false, Bool.false_eq_true, if_false]

/-! ## The new rows -/

/-- The part of a concatenation that belongs to list `i`. -/
theorem cut_flatten {α : Type} (L : List (List α)) {i : ℕ} (hi : i < L.length) :
    cut (L.take i).flatten.length (L.take (i + 1)).flatten.length L.flatten = L[i] := by
  have hsplit : L.flatten = (L.take i).flatten ++ (L[i] ++ (L.drop (i + 1)).flatten) := by
    rw [← List.flatten_cons, ← List.flatten_append, List.getElem_cons_drop, List.take_append_drop]
  have hnext : (L.take (i + 1)).flatten.length = (L.take i).flatten.length + L[i].length := by
    rw [List.take_succ_eq_append_getElem hi, List.flatten_append, List.length_append]
    simp
  rw [cut, hnext, hsplit, List.drop_left' rfl, Nat.add_sub_cancel_left, List.take_left' rfl]

namespace Localizer

variable {maxKey : UInt64} {blk : InputBlock UInt64 F} {pair : List (UInt64 × ℕ)}
  {dict : List UInt64}

/-- The key of entry `j`. -/
def keyAt (maxKey : UInt64) (blk : InputBlock UInt64 F) (j : ℕ) : UInt64 :=
  localKey maxKey (blk.index.getD j 0)

/-- The entries of row `i` whose key is in the dictionary. -/
def known (maxKey : UInt64) (dict : List UInt64) (blk : InputBlock UInt64 F) (i : ℕ) : List ℕ :=
  (List.range' (blk.off i) (blk.off (i + 1) - blk.off i)).filter fun j => keyAt maxKey blk j ∈ dict

theorem keyPairs_eq (hblk : blk.Valid) :
    keyPairs maxKey blk = (List.range (blk.off blk.size)).map fun j => (keyAt maxKey blk j, j) := by
  have hlen := length_ids hblk
  refine List.ext_getElem ?_ fun j h₁ h₂ => ?_
  · rw [keyPairs, List.length_zipIdx, List.length_map, List.length_map, List.length_range, hlen]
  · have hj : j < blk.ids.length := by simpa [keyPairs] using h₁
    have hj' : j < blk.index.length := hj.trans_le (by simp [InputBlock.ids])
    simp [keyPairs, keyAt, InputBlock.ids, List.getElem?_eq_getElem hj']

/-- The places of the pairs are the entries, each with its key. -/
theorem Sorted.mem_iff (h : Sorted maxKey blk pair) (hblk : blk.Valid) {p : UInt64 × ℕ} :
    p ∈ pair ↔ p.2 < blk.off blk.size ∧ p.1 = keyAt maxKey blk p.2 := by
  rw [h.perm.mem_iff, keyPairs_eq hblk, List.mem_map]
  constructor
  · rintro ⟨j, hj, rfl⟩
    exact ⟨List.mem_range.mp hj, rfl⟩
  · rintro ⟨hj, hkey⟩
    exact ⟨p.2, List.mem_range.mpr hj, Prod.ext hkey.symm rfl⟩

theorem Sorted.length_eq (h : Sorted maxKey blk pair) (hblk : blk.Valid) :
    pair.length = blk.off blk.size := by
  rw [h.perm.length_eq, keyPairs_eq hblk, List.length_map, List.length_range]

/-- `remapped_idx`: the position of the key in the dictionary plus one, and 0 for other keys. -/
theorem getD_remapped (h : Sorted maxKey blk pair) (hblk : blk.Valid)
    (hdict : dict.Pairwise (· < ·)) {j : ℕ} (hj : j < blk.off blk.size) :
    (assign (List.replicate pair.length 0) (remapPairs 0 dict pair)).getD j 0 =
      if keyAt maxKey blk j ∈ dict then dict.idxOf (keyAt maxKey blk j) + 1 else 0 := by
  have hmatched := @remapPairs_eq [] dict pair hdict h.sorted (by simp)
  simp only [List.length_nil, List.nil_append] at hmatched
  have hlt : j < (List.replicate pair.length 0).length := by
    rw [List.length_replicate, h.length_eq hblk]
    exact hj
  have hmem : ∀ c, c ∈ remapPairs 0 dict pair ↔ c.1 < blk.off blk.size ∧
      keyAt maxKey blk c.1 ∈ dict ∧ c.2 = dict.idxOf (keyAt maxKey blk c.1) + 1 := by
    intro c
    rw [hmatched, List.mem_map]
    constructor
    · rintro ⟨p, hp, rfl⟩
      obtain ⟨hp, hin⟩ := List.mem_filter.mp hp
      obtain ⟨hplace, hkey⟩ := (h.mem_iff hblk).mp hp
      exact ⟨hplace, hkey ▸ of_decide_eq_true hin, by rw [hkey]⟩
    · rintro ⟨hplace, hin, hpos⟩
      refine ⟨(keyAt maxKey blk c.1, c.1), List.mem_filter.mpr ⟨?_, decide_eq_true hin⟩,
        Prod.ext rfl hpos.symm⟩
      exact (h.mem_iff hblk).mpr ⟨hplace, rfl⟩
  split
  · next hin =>
    refine getD_assign_of_mem _ _ hlt ((hmem _).mpr ⟨hj, hin, rfl⟩) fun c hc heq => ?_
    rw [((hmem c).mp hc).2.2, heq]
  · next hout =>
    rw [getD_assign_of_forall_ne _ _ hlt, getD_zeros]
    rintro c hc rfl
    exact hout ((hmem c).mp hc).2.1

/-- The entries of the rows whose key is in the dictionary. -/
def knownRows (maxKey : UInt64) (dict : List UInt64) (blk : InputBlock UInt64 F) :
    List (List ℕ) :=
  (List.range blk.size).map (known maxKey dict blk)

theorem lt_of_mem_row (hblk : blk.Valid) {i j : ℕ} (hi : i < blk.size)
    (hj : j ∈ List.range' (blk.off i) (blk.off (i + 1) - blk.off i)) : j < blk.off blk.size := by
  have hend := hblk.off_mono (i := i + 1) hi le_rfl
  have hlt := (List.mem_range'_1.mp hj).2
  have hmono := hblk.off_le i hi
  omega

/-- The entries that `RemapIndex` keeps are those whose key is in the dictionary. -/
theorem map_keptEntries (h : Sorted maxKey blk pair) (hblk : blk.Valid)
    (hdict : dict.Pairwise (· < ·)) :
    (List.range blk.size).map
        (keptEntries (assign (List.replicate pair.length 0) (remapPairs 0 dict pair)) blk) =
      knownRows maxKey dict blk := by
  refine List.map_congr_left fun i hi => List.filter_congr fun j hj => ?_
  rw [getD_remapped h hblk hdict (lt_of_mem_row hblk (List.mem_range.mp hi) hj)]
  split
  · next hin => simp [hin]
  · next hout => simp [hout]

/-- As many entries are kept as pairs were matched. -/
theorem length_knownRows (h : Sorted maxKey blk pair) (hblk : blk.Valid) (hfirst : blk.off 0 = 0)
    (hdict : dict.Pairwise (· < ·)) :
    (knownRows maxKey dict blk).flatten.length = (remapPairs 0 dict pair).length := by
  have hrows : (knownRows maxKey dict blk).flatten =
      (List.range (blk.off blk.size)).filter fun j => keyAt maxKey blk j ∈ dict := by
    rw [← Team.flatMap_range' hfirst hblk.off_le, List.flatMap_def, List.filter_flatten,
      List.map_map]
    rfl
  have hmatched := @remapPairs_eq [] dict pair hdict h.sorted (by simp)
  simp only [List.length_nil, List.nil_append] at hmatched
  rw [hrows, hmatched, List.length_map, (h.perm.filter _).length_eq, keyPairs_eq hblk,
    List.filter_map, List.length_map]
  rfl

/-- Where row `i` begins in an array that holds the kept entries row by row. -/
def rowStart (maxKey : UInt64) (dict : List UInt64) (blk : InputBlock UInt64 F) (i : ℕ) : ℕ :=
  ((knownRows maxKey dict blk).take i).flatten.length

theorem rowStart_succ {i : ℕ} (hi : i < blk.size) :
    rowStart maxKey dict blk (i + 1) =
      rowStart maxKey dict blk i + (known maxKey dict blk i).length := by
  have hi' : i < (knownRows maxKey dict blk).length := by simpa [knownRows] using hi
  rw [rowStart, rowStart, List.take_succ_eq_append_getElem hi', List.flatten_append,
    List.length_append]
  simp [knownRows]

/-- The elements of row `i` in such an array. -/
theorem cut_rowStart {α : Type} (g : ℕ → α) {i : ℕ} (hi : i < blk.size) :
    cut (rowStart maxKey dict blk i) (rowStart maxKey dict blk (i + 1))
        ((knownRows maxKey dict blk).flatten.map g) =
      (known maxKey dict blk i).map g := by
  have hi' : i < (knownRows maxKey dict blk).length := by simpa [knownRows] using hi
  have hrow : (knownRows maxKey dict blk)[i] = known maxKey dict blk i := by simp [knownRows]
  rw [cut, ← List.map_drop, ← List.map_take]
  exact congrArg (List.map g) ((cut_flatten _ hi').trans hrow)

/-- The new container. -/
def remapped [One F] (maxKey : UInt64) (dict : List UInt64) (blk : InputBlock UInt64 F) :
    RowBlockContainer ℕ F :=
  { offset := (List.range (blk.size + 1)).map (rowStart maxKey dict blk)
    label := blk.label.take blk.size
    weight := []
    index := (knownRows maxKey dict blk).flatten.map fun j => dict.idxOf (keyAt maxKey blk j)
    value := match blk.value with
      | some v => (knownRows maxKey dict blk).flatten.map fun j => v.getD j 1
      | none => [] }

/-- **What `RemapIndex` returns**; no `CHECK` fails. -/
theorem Sorted.remapIndex_eq [One F] (h : Sorted maxKey blk pair) (hblk : blk.Valid)
    (hfirst : blk.off 0 = 0) (hsize : blk.size ≠ 0) (hdict : dict.Pairwise (· < ·))
    (hne : dict ≠ []) (hlen : dict.length < 2 ^ 32 - 1) :
    remapIndex pair dict blk = some (remapped maxKey dict blk) := by
  have hkept := map_keptEntries h hblk hdict
  have hindex : (knownRows maxKey dict blk).flatten.map (fun j =>
        (assign (List.replicate pair.length 0) (remapPairs 0 dict pair)).getD j 0 - 1) =
      (knownRows maxKey dict blk).flatten.map fun j => dict.idxOf (keyAt maxKey blk j) := by
    refine List.map_congr_left fun j hj => ?_
    obtain ⟨row, hrow, hj⟩ := List.mem_flatten.mp hj
    obtain ⟨i, hi, rfl⟩ := List.mem_map.mp hrow
    obtain ⟨hj, hin⟩ := List.mem_filter.mp hj
    rw [getD_remapped h hblk hdict (lt_of_mem_row hblk (List.mem_range.mp hi) hj),
      if_pos (of_decide_eq_true hin), Nat.add_sub_cancel]
  rw [remapIndex, if_neg (not_or.mpr ⟨hsize, hne⟩), if_pos ⟨hlen, (h.length_eq hblk).symm⟩]
  refine (if_pos ?_).trans (congrArg some ?_)
  · exact (congrArg (fun rows => rows.flatten.length) hkept).trans
      (length_knownRows h hblk hfirst hdict)
  · have hstart : rowStart maxKey dict blk =
        fun i => ((knownRows maxKey dict blk).take i).flatten.length := rfl
    rw [remapped, ← hindex, hstart, ← hkept]
    rfl

/-- `RemapIndex` keeps the entries whose key is in the dictionary, in their order. -/
structure Remapped [One F] (maxKey : UInt64) (dict : List UInt64) (blk : InputBlock UInt64 F)
    (o : RowBlockContainer ℕ F) : Prop where
  label : o.label = blk.label
  length_offset : o.offset.length = blk.size + 1
  offset_zero : o.offset.getD 0 0 = 0
  offset_succ : ∀ i < blk.size,
    o.offset.getD (i + 1) 0 = o.offset.getD i 0 + (known maxKey dict blk i).length
  offset_last : o.offset.getD blk.size 0 = o.index.length
  index_row : ∀ i < blk.size, cut (o.offset.getD i 0) (o.offset.getD (i + 1) 0) o.index =
    (known maxKey dict blk i).map fun j => dict.idxOf (keyAt maxKey blk j)
  index_key : ∀ i < blk.size, ∀ j ∈ known maxKey dict blk i,
    dict[dict.idxOf (keyAt maxKey blk j)]? = some (keyAt maxKey blk j)
  index_lt : ∀ d ∈ o.index, d < dict.length
  value_row : ∀ v ∈ blk.value, ∀ i < blk.size,
    cut (o.offset.getD i 0) (o.offset.getD (i + 1) 0) o.value =
      (known maxKey dict blk i).map fun j => v.getD j 1
  no_value : blk.value = none → o.value = []

theorem getD_offset [One F] {i : ℕ} (hi : i ≤ blk.size) :
    (remapped maxKey dict blk).offset.getD i 0 = rowStart maxKey dict blk i := by
  rw [remapped, getD_map_range, if_pos (Nat.lt_succ_of_le hi)]

theorem remapped_spec [One F] (hblk : blk.Valid) :
    Remapped maxKey dict blk (remapped maxKey dict blk) where
  label := by
    rw [remapped, ← hblk.length_label, List.take_length]
  length_offset := by
    rw [remapped, List.length_map, List.length_range]
  offset_zero := by
    rw [getD_offset (Nat.zero_le _), rowStart, List.take_zero]
    rfl
  offset_succ i hi := by
    rw [getD_offset hi, getD_offset hi.le, rowStart_succ hi]
  offset_last := by
    have hall : (knownRows maxKey dict blk).length = blk.size := by simp [knownRows]
    rw [getD_offset le_rfl, rowStart, ← hall, List.take_length, remapped, List.length_map]
  index_row i hi := by
    rw [getD_offset hi, getD_offset hi.le]
    exact cut_rowStart _ hi
  index_key i _ j hj := by
    have hin := of_decide_eq_true (List.mem_filter.mp hj).2
    rw [List.getElem?_eq_getElem (List.idxOf_lt_length_of_mem hin), List.getElem_idxOf]
  index_lt := by
    intro d hd
    obtain ⟨j, hj, rfl⟩ := List.mem_map.mp hd
    obtain ⟨row, hrow, hj⟩ := List.mem_flatten.mp hj
    obtain ⟨i, -, rfl⟩ := List.mem_map.mp hrow
    exact List.idxOf_lt_length_of_mem (of_decide_eq_true (List.mem_filter.mp hj).2)
  value_row := by
    rintro v hv i hi
    rw [getD_offset hi, getD_offset hi.le, remapped, Option.mem_def.mp hv]
    exact cut_rowStart _ hi
  no_value := by
    intro hv
    rw [remapped, hv]

/-- A run of `CountUniqIndex` over entries leaves the sorted pairs. -/
theorem sorted_of_countUniqIndex {lc : Localizer} {sort : StdSort lessKey} {c : CountType}
    (hblk : blk.Valid) (hfirst : blk.off 0 = 0) (hpos : 0 < blk.off blk.size)
    {uniq : List UInt64} {frq : List c.Count}
    (hrun : lc.countUniqIndex sort maxKey c blk = some (pair, uniq, frq)) :
    Sorted maxKey blk pair := by
  have hsize := size_ne_zero hfirst hpos
  by_cases hlt : blk.off blk.size < 2 ^ 32 - 1
  · by_cases hmaxKey : maxKey = 0
    · rw [countUniqIndex, if_neg hsize, if_neg (not_not.mpr hlt), if_pos ⟨hmaxKey, hpos⟩] at hrun
      cases hrun
    · obtain ⟨pair', uniq', hrun', hpair, -⟩ :=
        countUniqIndex_eq lc sort hmaxKey c hblk hfirst hpos hlt
      rw [hrun', Option.some.injEq, Prod.mk.injEq] at hrun
      exact hrun.1 ▸ hpair
  · rw [countUniqIndex, if_neg hsize, if_pos hlt] at hrun
    cases hrun

/-- **Remapping is exact** for every dictionary whose positions fit into `unsigned`. -/
theorem remapIndex_exact [One F] (lc : Localizer) (sort : StdSort lessKey) (maxKey : UInt64)
    (c : CountType) (blk : InputBlock UInt64 F) (hblk : blk.Valid) (hfirst : blk.off 0 = 0)
    (hpos : 0 < blk.off blk.size) (pair : List (UInt64 × ℕ)) (uniq : List UInt64)
    (frq : List c.Count) (hrun : lc.countUniqIndex sort maxKey c blk = some (pair, uniq, frq))
    (dict : List UInt64) (hdict : dict.Pairwise (· < ·)) (hne : dict ≠ [])
    (hlen : dict.length < 2 ^ 32 - 1) :
    ∃ o, remapIndex pair dict blk = some o ∧ Remapped maxKey dict blk o :=
  ⟨_, (sorted_of_countUniqIndex hblk hfirst hpos hrun).remapIndex_eq hblk hfirst
    (size_ne_zero hfirst hpos) hdict hne hlen, remapped_spec hblk⟩

theorem remapIndex_exact_otherKeys : ∃ pair uniq frq,
    (Localizer.mk 2 two_pos).countUniqIndex (.merge lessKey_strictWeak) 5 .float twoIds =
        some (pair, uniq, frq) ∧
      ∃ o, remapIndex pair [1, 3, 8] twoIds = some o ∧ Remapped 5 [1, 3, 8] twoIds o := by
  obtain ⟨pair, uniq, hrun, -⟩ := countUniqIndex_eq (Localizer.mk 2 two_pos)
    (.merge lessKey_strictWeak) (by decide : (5 : UInt64) ≠ 0) .float twoIds_valid rfl (by decide)
    (by decide)
  exact ⟨pair, uniq, _, hrun, remapIndex_exact _ _ 5 .float twoIds twoIds_valid rfl (by decide)
    pair uniq _ hrun [1, 3, 8] (by decide) (by decide) (by decide)⟩

/-- A dictionary with more keys than `unsigned` has positions. -/
def hugeDict : List UInt64 := (List.range (2 ^ 32 - 1)).map UInt64.ofNat

theorem length_hugeDict : hugeDict.length = 2 ^ 32 - 1 := by
  rw [hugeDict, List.length_map, List.length_range]

theorem hugeDict_increasing : hugeDict.Pairwise (· < ·) := by
  refine List.pairwise_map.mpr (List.pairwise_lt_range.imp_of_mem fun {a b} ha hb hlt => ?_)
  have ha := List.mem_range.mp ha
  have hb := List.mem_range.mp hb
  rw [UInt64.lt_iff_toNat_lt, UInt64.toNat_ofNat', UInt64.toNat_ofNat']
  omega

/-- **A dictionary of `2 ^ 32 - 1` keys** does not pass the first `CHECK`. -/
theorem remapIndex_huge : ∃ pair uniq frq,
    (Localizer.mk 2 two_pos).countUniqIndex (.merge lessKey_strictWeak) 5 .float twoIds =
        some (pair, uniq, frq) ∧
      hugeDict.Pairwise (· < ·) ∧ hugeDict ≠ [] ∧
      ¬ ∃ o, remapIndex pair hugeDict twoIds = some o ∧ Remapped 5 hugeDict twoIds o := by
  obtain ⟨pair, uniq, hrun, -⟩ := countUniqIndex_eq (Localizer.mk 2 two_pos)
    (.merge lessKey_strictWeak) (by decide : (5 : UInt64) ≠ 0) .float twoIds_valid rfl (by decide)
    (by decide)
  have hne : hugeDict ≠ [] := by
    intro hnil
    have hlen := length_hugeDict
    rw [hnil, List.length_nil] at hlen
    omega
  refine ⟨pair, uniq, _, hrun, hugeDict_increasing, hne, ?_⟩
  rintro ⟨o, hremap, -⟩
  rw [remapIndex, if_neg (not_or.mpr ⟨by decide, hne⟩), if_neg fun h => ?_] at hremap
  · cases hremap
  · have hlen := h.1
    rw [length_hugeDict] at hlen
    exact lt_irrefl _ hlen

/-! ## Localizing a minibatch -/

/-- `Localize` with a new container: `uniq_idx`, `idx_frq` and the localized block. -/
def localize [One F] (lc : Localizer) (sort : StdSort lessKey) (maxKey : UInt64) (c : CountType)
    (blk : InputBlock UInt64 F) :
    Option (List UInt64 × List c.Count × RowBlockContainer ℕ F) := do
  let (pair, uniq, frq) ← lc.countUniqIndex sort maxKey c blk
  let o ← remapIndex pair uniq blk
  return (uniq, frq, o)

/-- `CountUniqIndex` reads `pair_[0]` though there is no pair. -/
theorem countUniqIndex_noEntry (lc : Localizer) (sort : StdSort lessKey) (c : CountType)
    (hblk : blk.Valid) (hsize : blk.size ≠ 0) (hnone : blk.off blk.size = 0) :
    lc.countUniqIndex sort maxKey c blk = none := by
  obtain ⟨pair, hrun, hperm, -⟩ :=
    parallelSort_eq sort lessKey_strictWeak lc.nt_pos (keyPairs maxKey blk)
  have hnil : pair = [] := by
    refine List.length_eq_zero_iff.mp ?_
    rw [hperm.length_eq, keyPairs, List.length_zipIdx, List.length_map, length_ids hblk, hnone]
  have hzero : ¬ (maxKey = 0 ∧ 0 < blk.off blk.size) := fun h => h.2.ne' hnone
  have hlt : ¬ ¬ blk.off blk.size < 2 ^ 32 - 1 := by
    rw [hnone]
    norm_num
  rw [countUniqIndex, if_neg hsize, if_neg hlt, if_neg hzero, hrun, hnil]
  rfl

/-- A dictionary of all keys drops no entry. -/
theorem known_of_forall_mem (hblk : blk.Valid)
    (hall : ∀ k ∈ blk.ids.map (localKey maxKey), k ∈ dict) {i : ℕ} (hi : i < blk.size) :
    known maxKey dict blk i = List.range' (blk.off i) (blk.off (i + 1) - blk.off i) := by
  refine List.filter_eq_self.mpr fun j hj => decide_eq_true (hall _ ?_)
  have hj := lt_of_mem_row hblk hi hj
  have hlen : j < blk.index.length := hj.trans_le hblk.length_index
  refine List.mem_map.mpr ⟨blk.index.getD j 0, ?_, rfl⟩
  rw [InputBlock.ids, List.getD_eq_getElem _ _ hlen, List.mem_take_iff_getElem]
  exact ⟨j, by simpa using ⟨hj, hlen⟩, rfl⟩

/-- There are no more unique keys than entries. -/
theorem length_uniq_le (hblk : blk.Valid) (hfirst : blk.off 0 = 0) (hpos : 0 < blk.off blk.size)
    {junk : UInt64} {kcs : List (UInt64 × ℕ)}
    (h : Base.countUniqIndex maxKey junk blk = some kcs) :
    (kcs.map Prod.fst).length ≤ blk.off blk.size := by
  have hids : blk.ids ≠ [] := by
    rw [Ne, ← List.length_eq_zero_iff, length_ids hblk]
    exact hpos.ne'
  have hsub : kcs.map Prod.fst ⊆ blk.ids.map (localKey maxKey) := by
    intro k hk
    rw [mem_countUniqIndex h (size_ne_zero hfirst hpos)] at hk
    exact List.mem_map.mpr (hk.resolve_right fun hnone => hids hnone.1)
  have hle := (List.subperm_of_subset (countUniqIndex_sorted h).nodup hsub).length_le
  rwa [List.length_map (localKey maxKey), length_ids hblk] at hle

theorem sorted_sortedPairs (maxKey : UInt64) (blk : InputBlock UInt64 F) :
    Sorted maxKey blk (sortedPairs maxKey blk) where
  perm := List.perm_insertionSort _ _
  sorted := by
    have : Std.Total fun a b : UInt64 × ℕ => a.1 ≤ b.1 := ⟨fun a b => le_total a.1 b.1⟩
    have : IsTrans (UInt64 × ℕ) fun a b => a.1 ≤ b.1 := ⟨fun _ _ _ => le_trans⟩
    exact List.pairwise_insertionSort _ _

/-- A run over entries localizes as `Base.localize` does, whatever the sort leaves. -/
theorem localize_eq [One F] (lc : Localizer) (sort : StdSort lessKey) (hmaxKey : maxKey ≠ 0)
    (c : CountType) (hblk : blk.Valid) (hfirst : blk.off 0 = 0) (hpos : 0 < blk.off blk.size)
    (hlt : blk.off blk.size < 2 ^ 32 - 1) (junk : UInt64) :
    ∃ kcs, Base.countUniqIndex maxKey junk blk = some kcs ∧
      Base.localize maxKey junk blk = some (kcs, remapped maxKey (kcs.map Prod.fst) blk) ∧
      lc.localize sort maxKey c blk = some (kcs.map Prod.fst, kcs.map fun kc => c.ofCnt kc.2,
        remapped maxKey (kcs.map Prod.fst) blk) := by
  have hsize := size_ne_zero hfirst hpos
  obtain ⟨pair, kcs, hrun, hbase, hpair, -⟩ :=
    countUniqIndex_base lc sort hmaxKey c hblk hfirst hpos hlt
  have hincr := countUniqIndex_sorted (hbase junk)
  have hne : kcs.map Prod.fst ≠ [] := by
    simpa using ne_nil_of_countUniqIndex hsize (hbase junk)
  have hdict : (kcs.map Prod.fst).length < 2 ^ 32 - 1 :=
    (length_uniq_le hblk hfirst hpos (hbase junk)).trans_lt hlt
  refine ⟨kcs, hbase junk, ?_, ?_⟩
  · rw [Base.localize, hbase junk]
    simp only [Option.bind_eq_bind, Option.bind_some,
      (sorted_sortedPairs maxKey blk).remapIndex_eq hblk hfirst hsize hincr hne hdict]
    rfl
  · rw [localize, hrun]
    simp only [Option.bind_eq_bind, Option.bind_some,
      hpair.remapIndex_eq hblk hfirst hsize hincr hne hdict]
    rfl

/-- **`Localize` returns the localized block**, reading nothing outside `pair_`, if and only if the
minibatch has an entry, fewer than `2 ^ 32 - 1` of them, and `max_key` is not 0. The blocks are
those of `MinibatchIter.next_valid`. -/
theorem localize_total_iff [One F] (lc : Localizer) (sort : StdSort lessKey) (maxKey : UInt64)
    (c : CountType) (blk : InputBlock UInt64 F) (hblk : blk.Valid) (hfirst : blk.off 0 = 0)
    (hsize : blk.size ≠ 0) :
    (∃ uniq frq o, lc.localize sort maxKey c blk = some (uniq, frq, o) ∧
      o.offset.length = blk.size + 1 ∧ o.label = blk.label ∧
      (∀ i < blk.size, o.offset.getD (i + 1) 0 - o.offset.getD i 0 =
        blk.off (i + 1) - blk.off i) ∧
      (blk.off blk.size = 0 → uniq = [])) ↔
    0 < blk.off blk.size ∧ blk.off blk.size < 2 ^ 32 - 1 ∧ maxKey ≠ 0 := by
  constructor
  · rintro ⟨uniq, frq, o, hrun, -⟩
    obtain ⟨⟨pair, uniq', frq'⟩, hcount, -⟩ := Option.bind_eq_some_iff.mp hrun
    have hpos : 0 < blk.off blk.size := by
      refine Nat.pos_of_ne_zero fun hnone => ?_
      rw [countUniqIndex_noEntry lc sort c hblk hsize hnone] at hcount
      cases hcount
    refine ⟨hpos, ?_, fun hmaxKey => ?_⟩
    · by_contra hlt
      rw [countUniqIndex, if_neg hsize, if_pos hlt] at hcount
      cases hcount
    · rw [countUniqIndex, if_neg hsize, if_pos (⟨hmaxKey, hpos⟩ : maxKey = 0 ∧ _)] at hcount
      split at hcount
      · cases hcount
      · cases hcount
  · rintro ⟨hpos, hlt, hmaxKey⟩
    obtain ⟨kcs, hbase, -, hrun⟩ := localize_eq lc sort hmaxKey c hblk hfirst hpos hlt 0
    have hall : ∀ k ∈ blk.ids.map (localKey maxKey), k ∈ kcs.map Prod.fst := by
      intro k hk
      exact (mem_countUniqIndex hbase hsize).mpr (.inl (List.mem_map.mp hk))
    have hspec : Remapped maxKey (kcs.map Prod.fst) blk (remapped maxKey (kcs.map Prod.fst) blk) :=
      remapped_spec hblk
    refine ⟨_, _, _, hrun, hspec.length_offset, hspec.label, fun i hi => ?_,
      fun hnone => absurd hnone hpos.ne'⟩
    rw [hspec.offset_succ i hi, Nat.add_sub_cancel_left, known_of_forall_mem hblk hall hi,
      List.length_range']

theorem localize_total_twoIds : twoIds.Valid ∧
    ∃ uniq frq o, (Localizer.mk 2 two_pos).localize (.merge lessKey_strictWeak) 5 .float twoIds =
        some (uniq, frq, o) ∧
      o.offset.length = 2 ∧ o.label = [1] ∧
      (∀ i < 1, o.offset.getD (i + 1) 0 - o.offset.getD i 0 =
        twoIds.off (i + 1) - twoIds.off i) ∧
      (twoIds.off 1 = 0 → uniq = []) :=
  ⟨twoIds_valid, (localize_total_iff _ _ 5 .float twoIds twoIds_valid rfl (by decide)).mpr
    (by decide)⟩

/-- A row without features. -/
def emptyRow : InputBlock UInt64 ℚ :=
  { size := 1, offset := [0, 0], label := [1], weight := none, index := [], value := none }

theorem emptyRow_valid : emptyRow.Valid where
  length_offset := rfl
  off_le := by decide
  length_label := rfl
  length_index := by decide
  length_value := by rintro v ⟨⟩

/-- **A minibatch without features**, which `Next` delivers, makes `Localize` read outside
`pair_`. -/
theorem localize_emptyRow :
    (∃ s', (MinibatchIter.init 1 [emptyRow]).next = some (true, emptyRow, s')) ∧
    ¬ ∃ uniq frq o, (Localizer.mk 2 two_pos).localize (.merge lessKey_strictWeak) maxIndex .float
          emptyRow = some (uniq, frq, o) ∧
      o.offset.length = 2 ∧ o.label = [1] ∧
      (∀ i < 1, o.offset.getD (i + 1) 0 - o.offset.getD i 0 =
        emptyRow.off (i + 1) - emptyRow.off i) ∧
      (emptyRow.off 1 = 0 → uniq = []) := by
  refine ⟨⟨_, rfl⟩, ?_⟩
  rintro ⟨uniq, frq, o, hrun, -⟩
  rw [localize, countUniqIndex_noEntry _ _ _ emptyRow_valid (by decide) rfl] at hrun
  cases hrun

end Localizer

end Difacto.Base
