import Difacto.Base.RemapExact

/-!
# The rows of a localized minibatch

`Localizer::Localize` of `base/localizer.h` and `GetBlock` of the container that it fills: the rows
of the localized block are the rows of the minibatch, with the place of its key in the list of keys
in the stead of every id.

## Main definitions

* `InputBlock.toRowBlock` — a block as the products see it.
* `LocalRows` — what a worker uses of a localized minibatch.

## Main results

* `Localizer.row_localized` — a row of the localized block.
* `Localizer.localize_rows` — `Localize` gives such a block.
-/

namespace Difacto.Base

variable {F : Type}

/-- A block as the products see it. -/
def InputBlock.toRowBlock (b : InputBlock ℕ F) : RowBlock F :=
  { size := b.size, offset := b.offset, label := b.label, index := b.index, value := b.value }

theorem map_getD_eq_cut {α : Type} (d : α) (xs : List α) {a b : ℕ} (hb : b ≤ xs.length) :
    (List.range' a (b - a)).map (fun j => xs.getD j d) = cut a b xs := by
  rcases le_total a b with hab | hba
  · rw [cut, RowBlockContainer.take_drop_eq_map_getD d xs a (b - a) (by omega)]
  · rw [cut, Nat.sub_eq_zero_of_le hba, List.range'_zero, List.map_nil, List.take_zero]

/-- The features of a row, entry by entry. -/
theorem InputBlock.Valid.features_row [One F] {blk : InputBlock UInt64 F} (h : blk.Valid) {i : ℕ}
    (hi : i < blk.size) : (blk.row i).features =
      (List.range' (blk.off i) (blk.off (i + 1) - blk.off i)).map fun j =>
        (blk.index.getD j 0, match blk.value with
          | some v => v.getD j 1
          | none => 1) := by
  have hoff := h.off_mono (show i + 1 ≤ blk.size from hi) le_rfl
  rw [InputRow.features, InputBlock.row, ← map_getD_eq_cut 0 blk.index (hoff.trans h.length_index)]
  cases hv : blk.value with
  | none =>
    rw [Option.map_none, Option.getD_none, List.length_map, ← List.map_const', List.zip_map']
  | some v =>
    simp only [Option.map_some, Option.getD_some]
    rw [← map_getD_eq_cut 1 v (hoff.trans (h.length_value v hv)), List.zip_map']

/-- A minibatch by the places of its keys. -/
structure LocalRows [Zero F] [One F] (maxKey : UInt64) (mb : InputBlock UInt64 F)
    (keys : List UInt64) (data : RowBlock F) : Prop where
  ne_nil : keys ≠ []
  sorted : keys.Pairwise (· < ·)
  mem_iff : ∀ k, k ∈ keys ↔ ∃ id ∈ mb.ids, localKey maxKey id = k
  size : data.size = mb.size
  label : data.label = mb.label
  valid : data.Valid keys.length
  /-- the place of its key in the stead of every id -/
  row : ∀ i < mb.size, data.row i =
    (mb.row i).features.map fun a => (keys.idxOf (localKey maxKey a.1), a.2)
  key_mem : ∀ i < mb.size, ∀ a ∈ (mb.row i).features, localKey maxKey a.1 ∈ keys

namespace Localizer

variable [One F] {maxKey : UInt64} {blk : InputBlock UInt64 F} {dict : List UInt64}

/-- The block of the new container. -/
def localBlock (maxKey : UInt64) (dict : List UInt64) (blk : InputBlock UInt64 F) :
    InputBlock ℕ F :=
  let o := remapped maxKey dict blk
  { size := blk.size, offset := o.offset, label := o.label, weight := none, index := o.index
    value := RowBlockContainer.beginPtr o.value }

/-- There is a value for each entry that is kept, or none at all. -/
theorem length_value_remapped (hblk : blk.Valid) :
    (remapped maxKey dict blk).index.length = (remapped maxKey dict blk).value.length ∨
      (remapped maxKey dict blk).value = [] := by
  cases hv : blk.value with
  | none => exact .inr ((remapped_spec hblk).no_value hv)
  | some v =>
    refine .inl ?_
    simp only [remapped, hv, List.length_map]

theorem getBlock_remapped (hblk : blk.Valid) :
    (remapped maxKey dict blk).getBlock = some (localBlock maxKey dict blk) := by
  have hspec : Remapped maxKey dict blk (remapped maxKey dict blk) := remapped_spec hblk
  have hlast : (remapped maxKey dict blk).offset.getLastD 0 =
      (remapped maxKey dict blk).index.length := by
    rw [← hspec.offset_last, List.getLastD_eq_getLast?, List.getLast?_eq_getElem?,
      hspec.length_offset, Nat.add_sub_cancel, List.getD_eq_getElem?_getD]
  have hvalue : (remapped maxKey dict blk).index.length =
      (remapped maxKey dict blk).value.length ∨ (remapped maxKey dict blk).value.length = 0 :=
    (length_value_remapped hblk).imp_right fun h => by rw [h, List.length_nil]
  have hlabel : (remapped maxKey dict blk).label.length + 1 =
      (remapped maxKey dict blk).offset.length := by
    rw [hspec.label, hblk.length_label, hspec.length_offset]
  rw [RowBlockContainer.getBlock, hlast, if_pos ⟨hlabel, rfl, hvalue⟩, localBlock,
    hspec.length_offset, Nat.add_sub_cancel]
  rfl

theorem valid_localBlock (hblk : blk.Valid) (hne : dict ≠ []) :
    (localBlock maxKey dict blk).toRowBlock.Valid dict.length := by
  obtain ⟨o, ho⟩ : ∃ o, o = remapped maxKey dict blk := ⟨_, rfl⟩
  have hspec : Remapped maxKey dict blk o := ho ▸ remapped_spec hblk
  have hblock : (localBlock maxKey dict blk).toRowBlock =
      { size := blk.size, offset := o.offset, label := o.label, index := o.index
        value := RowBlockContainer.beginPtr o.value } := by
    rw [ho]
    rfl
  rw [hblock]
  refine ⟨hspec.length_offset, fun i hi => ?_, ?_, hspec.offset_last.le, ?_, fun i hi j hj => ?_⟩
  · exact (Nat.le_add_right _ _).trans (hspec.offset_succ i hi).ge
  · exact (congrArg List.length hspec.label).trans hblk.length_label
  · intro v hv
    obtain ⟨hempty, hv⟩ := Option.ite_none_left_eq_some.mp (Option.mem_def.mp hv)
    have hlen := (@length_value_remapped F _ maxKey blk dict hblk).resolve_right
    rw [← ho] at hlen
    rw [← Option.some.inj hv]
    exact hspec.offset_last.le.trans (hlen (by simpa using hempty)).le
  · show o.index.getD j 0 < dict.length
    by_cases hj : j < o.index.length
    · rw [List.getD_eq_getElem _ _ hj]
      exact hspec.index_lt _ (List.getElem_mem hj)
    · rw [List.getD_eq_default _ _ (not_lt.mp hj)]
      exact List.length_pos_of_ne_nil hne

/-- The id of an entry of a row is an id of the minibatch. -/
theorem mem_ids_of_features (hblk : blk.Valid) {i : ℕ} (hi : i < blk.size) {a : UInt64 × F}
    (ha : a ∈ (blk.row i).features) : a.1 ∈ blk.ids := by
  rw [hblk.features_row hi] at ha
  obtain ⟨j, hj, rfl⟩ := List.mem_map.mp ha
  rw [List.mem_range'_1] at hj
  have hmono := hblk.off_mono (show i + 1 ≤ blk.size from hi) le_rfl
  have hle := hblk.length_index
  have hlt : j < blk.off blk.size := by omega
  have hin : j < blk.index.length := by omega
  rw [InputBlock.ids, List.getD_eq_getElem _ _ hin, List.mem_take_iff_getElem]
  exact ⟨j, lt_min hlt hin, rfl⟩

variable [Zero F]

/-- A part of an array as long as its bounds say is inside. -/
theorem le_length_of_cut {α : Type} {a b : ℕ} {xs ys : List α} (h : cut a b xs = ys)
    (hlen : a + ys.length = b) (hne : ys ≠ []) : b ≤ xs.length := by
  have hpos := List.length_pos_of_ne_nil hne
  have hcut := congrArg List.length h
  rw [cut, List.length_take, List.length_drop] at hcut
  omega

/-- **A row of the localized block**, when the dictionary has all keys. -/
theorem row_localized (hblk : blk.Valid)
    (hall : ∀ k ∈ blk.ids.map (localKey maxKey), k ∈ dict) {i : ℕ} (hi : i < blk.size) :
    (localBlock maxKey dict blk).toRowBlock.row i =
      (blk.row i).features.map fun a => (dict.idxOf (localKey maxKey a.1), a.2) := by
  obtain ⟨o, ho⟩ : ∃ o, o = remapped maxKey dict blk := ⟨_, rfl⟩
  have hspec : Remapped maxKey dict blk o := ho ▸ remapped_spec hblk
  obtain ⟨js, hjs⟩ : ∃ js, js = List.range' (blk.off i) (blk.off (i + 1) - blk.off i) := ⟨_, rfl⟩
  have hknown : known maxKey dict blk i = js := hjs ▸ known_of_forall_mem hblk hall hi
  have hnext := hspec.offset_succ i hi
  have hindex := hspec.index_row i hi
  rw [hknown] at hnext hindex
  have hrow : (localBlock maxKey dict blk).toRowBlock.row i =
      (List.range' (o.offset.getD i 0) (o.offset.getD (i + 1) 0 - o.offset.getD i 0)).map fun j =>
        (o.index.getD j 0, match RowBlockContainer.beginPtr o.value with
          | some v => v.getD j 0
          | none => 1) := by
    rw [ho]
    rfl
  rw [hrow, hblk.features_row hi, ← hjs, List.map_map]
  by_cases hnil : js = []
  · rw [hnil] at hnext
    rw [hnil, hnext, List.length_nil, Nat.add_zero, Nat.sub_self, List.range'_zero, List.map_nil,
      List.map_nil]
  have hne : js.map (fun j => dict.idxOf (keyAt maxKey blk j)) ≠ [] := by simpa using hnil
  have hlen := le_length_of_cut hindex (by rw [List.length_map, hnext]) hne
  rw [← map_getD_eq_cut 0 o.index hlen] at hindex
  cases hv : blk.value with
  | none =>
    rw [hspec.no_value hv]
    have hpair := congrArg (List.map fun d => (d, (1 : F))) hindex
    rw [List.map_map, List.map_map] at hpair
    exact hpair
  | some v =>
    have hvalue := hspec.value_row v hv i hi
    rw [hknown] at hvalue
    have hle := le_length_of_cut hvalue (by rw [List.length_map, hnext]) (by simpa using hnil)
    have hsome : RowBlockContainer.beginPtr o.value = some o.value := by
      refine if_neg fun hempty => hnil ?_
      rw [List.isEmpty_iff.mp hempty, cut, List.drop_nil, List.take_nil] at hvalue
      exact List.map_eq_nil_iff.mp hvalue.symm
    rw [hsome]
    rw [← map_getD_eq_cut 0 o.value hle] at hvalue
    have hpair := congrArg₂ List.zip hindex hvalue
    rw [List.zip_map', List.zip_map'] at hpair
    exact hpair

/-- **`Localize` gives the keys in order**, and a block whose rows are those of the minibatch. -/
theorem localize_rows (lc : Localizer) (sort : StdSort lessKey) (hmaxKey : maxKey ≠ 0)
    (c : CountType) (hblk : blk.Valid) (hfirst : blk.off 0 = 0) (hpos : 0 < blk.off blk.size)
    (hlt : blk.off blk.size < 2 ^ 32 - 1) :
    ∃ uniq frq o block, lc.localize sort maxKey c blk = some (uniq, frq, o) ∧
      o.getBlock = some block ∧ LocalRows maxKey blk uniq block.toRowBlock := by
  obtain ⟨kcs, hbase, -, hrun⟩ := localize_eq lc sort hmaxKey c hblk hfirst hpos hlt 0
  have hsize := size_ne_zero hfirst hpos
  have hids : blk.ids ≠ [] := by
    rw [Ne, ← List.length_eq_zero_iff, length_ids hblk]
    exact hpos.ne'
  have hmem : ∀ k, k ∈ kcs.map Prod.fst ↔ ∃ id ∈ blk.ids, localKey maxKey id = k := by
    intro k
    rw [mem_countUniqIndex hbase hsize]
    exact or_iff_left fun h => hids h.1
  have hall : ∀ k ∈ blk.ids.map (localKey maxKey), k ∈ kcs.map Prod.fst :=
    fun k hk => (hmem k).mpr (List.mem_map.mp hk)
  have hne : kcs.map Prod.fst ≠ [] := by simpa using ne_nil_of_countUniqIndex hsize hbase
  have hspec : Remapped maxKey (kcs.map Prod.fst) blk (remapped maxKey (kcs.map Prod.fst) blk) :=
    remapped_spec hblk
  exact ⟨_, _, _, _, hrun, getBlock_remapped hblk,
    { ne_nil := hne
      sorted := countUniqIndex_sorted hbase
      mem_iff := hmem
      size := rfl
      label := hspec.label
      valid := valid_localBlock hblk hne
      row := fun i hi => row_localized hblk hall hi
      key_mem := fun i hi a ha =>
        hall _ (List.mem_map_of_mem (mem_ids_of_features hblk hi ha)) }⟩

end Localizer

end Difacto.Base
