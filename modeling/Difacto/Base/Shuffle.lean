import Difacto.Base.ShuffleIter

/-!
# Shuffled minibatches

Sources without values never make `GetBlock` fail, so that a run of the shuffling iterator only
depends on the range of `int`: `int j = rdp_[i]` cannot count more than `2 ^ 31` rows of a buffer.

## Main definitions

* `ShuffleIter.Plain` — the rows of the block and of the minibatch, without values.

## Main results

* `ShuffleIter.exists_delivers` — every run ends, and delivers the rows that are kept.
* `ShuffleIter.shuffled_iff` — when shuffling loses and duplicates no row.
-/

namespace Difacto.Base

open Lib RowBlockContainer

variable {I F : Type} [One F] {rows rs : List (InputRow I F)}

/-! ## Rows without values -/

/-- The container of rows that were pushed one by one. -/
def weighted (rs : List (InputRow I F)) : RowBlockContainer I F :=
  { ofRows rs with weight := List.replicate rs.length 1 }

theorem pushRow_weighted (rs : List (InputRow I F)) (r : InputRow I F) :
    (weighted rs).pushRow r 1 = weighted (rs ++ [r]) := by
  have hoffset : (ofRows rs).offset ++ [((ofRows rs).index ++ r.index).length] =
      (ofRows (rs ++ [r])).offset := by
    simp only [ofRows, ends_append, ends, List.cons_append, List.length_append, Nat.zero_add]
  rw [weighted, pushRow, hoffset, weighted]
  simp only [ofRows, List.map_append, List.map_cons, List.map_nil, List.flatMap_append,
    List.flatMap_cons, List.flatMap_nil, List.append_nil, List.length_append, List.length_cons,
    List.length_nil, Nat.zero_add, List.replicate_succ']

theorem length_offset_weighted (rs : List (InputRow I F)) :
    (weighted rs).offset.length = rs.length + 1 := by
  simp [weighted, ofRows]

/-- The rows of a block that was made of rows without values. -/
theorem rows_blockOf (hplain : ∀ r ∈ rs, r.value = none) (weight : Option (List F)) :
    InputBlock.rows { blockOf rs none with weight := weight } = rs := by
  have hindex : ∀ (i : ℕ) (hi : i < rs.length),
      cut ((0 :: ends 0 rs).getD i 0) ((0 :: ends 0 rs).getD (i + 1) 0)
        (rs.flatMap InputRow.index) = rs[i].index :=
    fun i hi => cut_ends hi (fun _ _ => rfl) 0 [] rfl
  apply List.ext_getElem
  · simp [InputBlock.rows, blockOf]
  · intro i h₁ h₂
    have hvalue := hplain rs[i] (List.getElem_mem h₂)
    have hlabel : (rs.map InputRow.label).getD i 1 = rs[i].label := by
      simp [List.getD_eq_getElem?_getD, List.getElem?_eq_getElem h₂]
    have hrow : rs[i] = { label := rs[i].label, index := rs[i].index, value := none } := by
      rw [← hvalue]
    simp only [blockOf, InputBlock.rows, List.getElem_map, List.getElem_range, InputBlock.row,
      InputBlock.off, hindex i h₂, hlabel, Option.map_none]
    exact hrow.symm

omit [One F] in
theorem value_ofRows (hplain : ∀ r ∈ rs, r.value = none) : (ofRows rs).value = [] := by
  refine List.flatMap_eq_nil_iff.mpr fun r hr => ?_
  rw [hplain r hr, Option.getD_none]

/-- `GetBlock` for rows without values. -/
theorem getBlock_plain [DecidableEq F] (hplain : ∀ r ∈ rs, r.value = none) (weight : List F) :
    (MinibatchIter.dropBinary { ofRows rs with weight := weight }).getBlock =
      some { blockOf rs none with weight := beginPtr weight } := by
  have hvalue := value_ofRows hplain
  have hdrop : MinibatchIter.dropBinary { ofRows rs with weight := weight } =
      { ofRows rs with weight := weight } := by
    rw [MinibatchIter.dropBinary]
    split
    · rw [← hvalue]
    · rfl
  have hlast : (0 :: ends 0 rs).getLastD 0 = (rs.flatMap InputRow.index).length := by
    rw [getLastD_ends, Nat.zero_add]
  rw [hdrop, getBlock, if_pos]
  · rw [show beginPtr ({ ofRows rs with weight := weight } : RowBlockContainer I F).value = none by
      rw [hvalue]; rfl]
    simp [ofRows, blockOf]
  · exact ⟨by simp [ofRows], hlast, .inr (by rw [hvalue]; rfl)⟩

/-- The inner iterator delivers the next rows as they are. -/
theorem next_plain [DecidableEq F] {t : MinibatchIter I F} (ht : t.Inv)
    (hplain : ∀ r ∈ t.pending, r.value = none) : ∃ t',
      t.next = some (decide (0 < min t.mbSize t.pending.length),
        blockOf (t.pending.take t.mbSize) none, t') := by
  obtain ⟨u, hfill, -, -, hmb, -⟩ := MinibatchIter.fill_clear ht
  have hmb' : u.mb = { ofRows (t.pending.take t.mbSize) with weight := [] } := hmb
  have hblock : (MinibatchIter.dropBinary { ofRows (t.pending.take t.mbSize) with
      weight := [] }).getBlock = _ :=
    getBlock_plain (fun r hr => hplain r (List.mem_of_mem_take hr)) []
  refine ⟨{ u with mb := MinibatchIter.dropBinary u.mb }, ?_⟩
  simp only [MinibatchIter.next, hfill, Option.bind_eq_bind, Option.bind_some, hmb', hblock]
  rw [← List.length_take]
  rfl

namespace ShuffleIter

variable [Zero F] [Sub F] [LinearOrder F] {rnd : Randomness F} {s s' : ShuffleIter I F} {k : ℕ}

/-- The rows of the block have no values, there are not too many of them, and the minibatch holds
the rows that were kept after the first `k`. -/
structure Plain (rows : List (InputRow I F)) (k : ℕ) (s : ShuffleIter I F) : Prop where
  row : ∀ j < s.inBlk.size, s.inBlk.row j = rowAt rows (s.base + j)
  weight : s.inBlk.weight = none
  size : s.inBlk.size ≤ 2 ^ 31
  le : k ≤ s.kept.length
  mb : s.mb = weighted ((s.kept.drop k).map (rowAt rows))
  room : s.kept.length ≤ k + s.mbSize

omit [Zero F] [Sub F] [LinearOrder F] in
/-- One more row in the minibatch. -/
theorem Plain.push_eq (hp : s.Plain rows k) {j : ℕ} (hj : j < s.inBlk.size) :
    s.mb.pushRow (s.inBlk.row j) (s.inBlk.rowWeight j) =
      weighted (((s.kept ++ [s.base + j]).drop k).map (rowAt rows)) := by
  rw [InputBlock.rowWeight, hp.weight, hp.row j hj, hp.mb]
  rw [List.drop_append_of_le_length hp.le, List.map_append]
  exact pushRow_weighted _ _

/-- What a visit does to the minibatch and the rows that were kept. -/
theorem Plain.visitRow (rnd : Randomness F) (hp : s.Plain rows k) {j : ℕ} (hj : j < s.inBlk.size) :
    k ≤ (s.visitRow rnd j).kept.length ∧
    (s.visitRow rnd j).mb = weighted (((s.visitRow rnd j).kept.drop k).map (rowAt rows)) ∧
    (s.visitRow rnd j).kept.length ≤ s.kept.length + 1 := by
  have hle := hp.le
  have hpush : k ≤ (s.kept ++ [s.base + j]).length := by
    rw [List.length_append]
    omega
  have hlen : (s.kept ++ [s.base + j]).length ≤ s.kept.length + 1 := by
    rw [List.length_append, List.length_singleton]
  rw [ShuffleIter.visitRow]
  split
  · split
    · exact ⟨hp.le, hp.mb, Nat.le_succ _⟩
    · exact ⟨hpush, hp.push_eq hj, hlen⟩
  · exact ⟨hpush, hp.push_eq hj, hlen⟩

theorem Plain.visitRows (rnd : Randomness F) {js : List ℕ} (hp : s.Plain rows k)
    (hjs : ∀ j ∈ js, j < s.inBlk.size)
    (hroom : s.kept.length + js.length ≤ k + s.mbSize) : (s.visitRows rnd js).Plain rows k := by
  induction js generalizing s with
  | nil => exact hp
  | cons j js ih =>
      obtain ⟨mb, kept, draws, hrow⟩ := visitRow_frame rnd s j
      obtain ⟨hle, hmb, hlen⟩ := hp.visitRow rnd (hjs j List.mem_cons_self)
      rw [List.length_cons] at hroom
      rw [ShuffleIter.visitRows, List.foldl_cons, ← ShuffleIter.visitRows]
      rw [hrow] at hle hmb hlen ⊢
      refine ih ⟨hp.row, hp.weight, hp.size, hle, hmb, ?_⟩
        (fun j' hj' => hjs j' (List.mem_cons_of_mem j hj')) ?_
      · show kept.length ≤ k + s.mbSize
        have hlen' : kept.length ≤ s.kept.length + 1 := hlen
        omega
      · show kept.length + js.length ≤ k + s.mbSize
        have hlen' : kept.length ≤ s.kept.length + 1 := hlen
        omega

omit [Zero F] [Sub F] [LinearOrder F] in
/-- The minibatch has room for the rows of a turn. -/
theorem Plain.len_le (hs : s.Inv rows) (hp : s.Plain rows k) :
    s.kept.length + s.len ≤ k + s.mbSize := by
  have hle := hp.le
  have hroom := hp.room
  have hmb : s.mb.offset.length = s.kept.length - k + 1 := by
    rw [hp.mb, length_offset_weighted, List.length_map, List.length_drop]
  rw [len, hs.limit, hmb]
  omega

/-- **A turn goes through.** -/
theorem Plain.turn (rnd : Randomness F) (hs : s.Inv rows) (hp : s.Plain rows k) :
    ∃ s', s.turn rnd = some s' ∧ s'.Plain rows k := by
  have hmem : ∀ j ∈ (s.rdp.drop s.start).take s.len, j < s.inBlk.size := fun j hj =>
    List.mem_range.mp (hs.rdp.mem_iff.mp (List.mem_of_mem_drop (List.mem_of_mem_take hj)))
  have hlen : ((s.rdp.drop s.start).take s.len).length ≤ s.len := by
    rw [List.length_take]
    exact min_le_left _ _
  have hroom := hp.len_le hs
  have hvisited := hp.visitRows rnd hmem (by omega)
  refine ⟨{ s.visitRows rnd ((s.rdp.drop s.start).take s.len) with start := s.start + s.len },
    ?_, ?_⟩
  · rw [turn_eq hs, if_pos fun j hj => (hmem j hj).trans_le hp.size]
  · exact ⟨hvisited.row, hvisited.weight, hvisited.size, hvisited.le, hvisited.mb, hvisited.room⟩

omit [Zero F] [Sub F] [LinearOrder F] in
/-- The next call begins with an empty minibatch. -/
theorem Plain.clear (hp : s.Plain rows k) : Plain rows s.kept.length { s with mb := .clear } := by
  refine ⟨hp.row, hp.weight, hp.size, le_rfl, ?_, Nat.le_add_right _ _⟩
  show RowBlockContainer.clear = weighted ((s.kept.drop s.kept.length).map (rowAt rows))
  rw [List.drop_length]
  rfl

section Source

variable (hplain : ∀ r ∈ rows, r.value = none)
include hplain

omit [Zero F] [Sub F] [LinearOrder F] in
theorem plain_pending (hs : s.Inv rows) : ∀ r ∈ s.bufReader.pending, r.value = none := by
  intro r hr
  rw [hs.pending] at hr
  exact hplain r (List.mem_of_mem_drop hr)

omit [Zero F] [Sub F] in
/-- The inner iterator never aborts. -/
theorem exists_next (hs : s.Inv rows) : ∃ reader, s.bufReader.next =
    some (decide (0 < min s.shufBuf s.bufReader.pending.length),
      blockOf (s.bufReader.pending.take s.shufBuf) none, reader) := by
  rw [← hs.readerSize]
  exact next_plain hs.reader (plain_pending hplain hs)

omit [Zero F] [Sub F] in
/-- **A new block** has the rows of the source. -/
theorem Plain.take (hcond : min s.shufBuf rows.length ≤ 2 ^ 31) (hs : s.Inv rows)
    (hp : s.Plain rows k) {blk : InputBlock I F} {reader : MinibatchIter I F} {more : Bool}
    (hnext : s.bufReader.next = some (more, blk, reader)) :
    (s.take rnd blk reader).Plain rows k := by
  obtain ⟨reader', hnext'⟩ := exists_next hplain hs
  rw [hnext, Option.some.injEq, Prod.mk.injEq, Prod.mk.injEq] at hnext'
  obtain ⟨-, hblk, -⟩ := hnext'
  have hsize : blk.size = min s.shufBuf s.bufReader.pending.length := by
    rw [hblk, ← List.length_take]
    rfl
  have hrows : blk.rows = s.bufReader.pending.take s.shufBuf := by
    rw [hblk]
    exact rows_blockOf (fun r hr => plain_pending hplain hs r (List.mem_of_mem_take hr)) none
  refine ⟨fun j hj => ?_, ?_, ?_, hp.le, hp.mb, hp.room⟩
  · have hj' : j < blk.size := hj
    have hget := getElem?_rows blk hj'
    rw [hrows, List.getElem?_take_of_lt (by omega), hs.pending, List.getElem?_drop] at hget
    show blk.row j = rowAt rows (s.base + s.inBlk.size + j)
    rw [rowAt, List.getD_eq_getElem?_getD, hget]
    rfl
  · show blk.weight = none
    rw [hblk]
    rfl
  · show blk.size ≤ 2 ^ 31
    rw [hs.pending, List.length_drop] at hsize
    omega

/-- **The loop of `Next` ends**: every turn visits a row. -/
theorem Plain.fill (hcond : min s.shufBuf rows.length ≤ 2 ^ 31) (hs : s.Inv rows)
    (hp : s.Plain rows k) {fuel : ℕ} (hfuel : (s.rest rnd).length < fuel) :
    ∃ s', fill rnd fuel s = some s' ∧ s'.Plain rows k := by
  induction fuel generalizing s with
  | zero => exact absurd hfuel (Nat.not_lt_zero _)
  | succ fuel ih =>
      rw [ShuffleIter.fill]
      split
      · rename_i hroom
        -- the turn after a block was taken, or with the old block
        have hgo : ∀ t : ShuffleIter I F, t.Inv rows → t.Plain rows k → t.shufBuf = s.shufBuf →
            (t.rest rnd).length ≤ fuel → t.start < t.end_ → t.mb.offset.length < t.limit →
            ∃ s', (t.turn rnd).bind (ShuffleIter.fill rnd fuel) = some s' ∧ s'.Plain rows k := by
          intro t ht htp hbuf hrest hlt hless
          obtain ⟨t', hturn, htp'⟩ := htp.turn rnd ht
          obtain ⟨ht', -, hlen⟩ := ht.turn hturn
          have hpos : 1 ≤ t.len := by
            rw [len]
            omega
          have hbuf' : t'.shufBuf = s.shufBuf := (ht.turn_sizes hturn).2.trans hbuf
          rw [hturn, Option.bind_some]
          exact ih (hbuf'.symm ▸ hcond) ht' htp' (by omega)
        split
        · rename_i hend
          obtain ⟨reader, hnext⟩ := exists_next hplain hs
          rw [hnext]
          by_cases hmore : 0 < min s.shufBuf s.bufReader.pending.length
          · rw [decide_eq_true hmore] at hnext ⊢
            obtain ⟨ht, -, hrest, hblk⟩ := hs.take rnd hend hnext
            exact hgo _ ht (hp.take hplain hcond hs hnext) rfl (by rw [hrest]; omega) hblk hroom
          · rw [decide_eq_false hmore]
            exact ⟨_, rfl, hp.row, hp.weight, hp.size, hp.le, hp.mb, hp.room⟩
        · rename_i hend
          exact hgo s hs hp rfl (by omega) (lt_of_le_of_ne hs.le hend) hroom
      · exact ⟨s, rfl, hp⟩

omit [Zero F] [Sub F] in
/-- The block that is delivered. -/
theorem getBlock_kept (ps : List ℕ) (hps : ∀ p ∈ ps, p < rows.length) : ∃ blk,
    (MinibatchIter.dropBinary (weighted (ps.map (rowAt rows)))).getBlock = some blk ∧
      blk.size = ps.length ∧ blk.rows = ps.map (rowAt rows) := by
  have hvalue : ∀ r ∈ ps.map (rowAt rows), r.value = none := by
    intro r hr
    obtain ⟨p, hp, rfl⟩ := List.mem_map.mp hr
    rw [rowAt, List.getD_eq_getElem?_getD, List.getElem?_eq_getElem (hps p hp)]
    exact hplain _ (List.getElem_mem (hps p hp))
  exact ⟨_, getBlock_plain hvalue _, List.length_map _, rows_blockOf hvalue _⟩

omit hplain [Zero F] [Sub F] [LinearOrder F] in
theorem Inv.length_rest (rnd : Randomness F) (hs : s.Inv rows) :
    (s.rest rnd).length = s.remaining := by
  have hvisits : (visits rnd s.shufBuf s.shuffles s.rdp (s.base + s.inBlk.size)
      s.bufReader.pending.length).length = _ :=
    (visits_perm (Nat.zero_lt_of_lt hs.lt) (perm_range_length hs.rdp)).length_eq
  have hsource : (InputBlock.sourceRows s.bufReader.source).length =
      (s.bufReader.source.map InputBlock.size).sum := by
    simp [InputBlock.sourceRows, InputBlock.rows, List.length_flatMap]
  rw [rest, List.length_append, List.length_map, List.length_drop, hs.length_rdp, hvisits,
    List.length_range', MinibatchIter.pending, List.length_append, List.length_map,
    List.length_range', hsource, remaining, Nat.add_assoc]

/-- **One call of `Next`** does not abort, and delivers the rows that it keeps. -/
theorem Plain.next (hcond : min s.shufBuf rows.length ≤ 2 ^ 31) (hs : s.Inv rows)
    (hp : Plain rows s.kept.length { s with mb := .clear })
    (hbound : ∀ p ∈ s.outcome rnd rows, p < rows.length) :
    ∃ blk s' new, s.next rnd = some (decide (0 < blk.size), blk, s') ∧ s'.kept = s.kept ++ new ∧
      blk.size = new.length ∧ blk.rows = new.map (rowAt rows) ∧ new.length ≤ s.mbSize ∧
      Plain rows s'.kept.length { s' with mb := .clear } := by
  have hfuel : (rest rnd { s with mb := .clear }).length < s.remaining + 1 :=
    Nat.lt_succ_of_le (hs.length_rest rnd).le
  have hcond' : min ({ s with mb := .clear } : ShuffleIter I F).shufBuf rows.length ≤ 2 ^ 31 :=
    hcond
  obtain ⟨t, hfill, htp⟩ := Plain.fill hplain hcond' (hs.setMb .clear) hp hfuel
  obtain ⟨ht, hsame, hsizes, -⟩ := (hs.setMb .clear).fill hfill
  -- what was kept before stays at the beginning
  have hbegins : s.kept <+: t.kept := by
    have hs₁ : s.kept <+: s.outcome rnd rows := List.prefix_append _ _
    have ht₁ : t.kept <+: s.outcome rnd rows := by
      rw [show s.outcome rnd rows = t.outcome rnd rows from hsame.symm]
      exact List.prefix_append _ _
    exact List.prefix_of_prefix_length_le hs₁ ht₁ htp.le
  obtain ⟨new, hnew⟩ := hbegins
  have hdrop : t.kept.drop s.kept.length = new := by
    rw [← hnew, List.drop_left]
  have hin : ∀ p ∈ new, p < rows.length := by
    intro p hp
    refine hbound p ?_
    rw [show s.outcome rnd rows = t.outcome rnd rows from hsame.symm, outcome, ← hnew]
    exact List.mem_append_left _ (List.mem_append_right _ hp)
  obtain ⟨blk, hblk, hsize, hrows⟩ := getBlock_kept hplain new hin
  have hmb := htp.mb
  rw [hdrop] at hmb
  have hroom : t.kept.length ≤ s.kept.length + s.mbSize := by
    have hlen := htp.room
    rw [show t.mbSize = s.mbSize from hsizes.1] at hlen
    exact hlen
  rw [← hnew, List.length_append] at hroom
  refine ⟨blk, { t with mb := MinibatchIter.dropBinary t.mb }, new, ?_, hnew.symm, hsize, hrows,
    by omega, htp.clear⟩
  simp only [ShuffleIter.next, hfill, Option.bind_eq_bind, Option.bind_some, hmb, hblk,
    Option.pure_def]

/-- **Every run ends**, and the minibatches are the rows that are kept. -/
theorem exists_delivers (hcond : min s.shufBuf rows.length ≤ 2 ^ 31) (hs : s.Inv rows)
    (hp : Plain rows s.kept.length { s with mb := .clear })
    (hbound : ∀ p ∈ s.outcome rnd rows, p < rows.length) :
    ∃ blks t, Delivers rnd s blks t ∧ (∀ b ∈ blks.dropLast, b.size = s.mbSize) ∧
      (blks ≠ [] → s.rest rnd ≠ []) ∧
      s.kept.map (rowAt rows) ++ InputBlock.sourceRows blks =
        (s.outcome rnd rows).map (rowAt rows) := by
  induction hn : (s.outcome rnd rows).length - s.kept.length using Nat.strong_induction_on
    generalizing s with
  | _ n ih =>
      obtain ⟨blk, s', new, hnext, hkept, hsize, hrows, hroom, hp'⟩ :=
        Plain.next hplain hcond hs hp hbound
      obtain ⟨hs', hout, hsizes, hdone, -⟩ := hs.next hnext
      by_cases hzero : new = []
      · -- nothing is left
        have hblk : blk.size = 0 := by rw [hsize, hzero, List.length_nil]
        have hpos := hs.pos
        rw [decide_eq_false (by omega)] at hnext
        refine ⟨[], s', .done hnext, by simp, fun h => absurd rfl h, ?_⟩
        rw [← hout, outcome, hdone (by omega), hkept, hzero, sampled, List.append_nil,
          List.append_nil]
        exact List.append_nil _
      · have hpos : 0 < new.length := List.length_pos_iff.mpr hzero
        rw [decide_eq_true (by omega)] at hnext
        have hlen : (s'.outcome rnd rows).length - s'.kept.length < n := by
          have hle : s'.kept.length ≤ (s'.outcome rnd rows).length := by
            rw [outcome, List.length_append]
            omega
          have hlonger : s'.kept.length = s.kept.length + new.length := by
            rw [hkept, List.length_append]
          rw [hout] at hle ⊢
          omega
        obtain ⟨blks, t, hrun, hfull, hmore, hall⟩ := ih _ hlen (hsizes.2.symm ▸ hcond) hs' hp'
          (by rw [hout]; exact hbound) rfl
        refine ⟨blk :: blks, t, .step hnext hrun, ?_, fun _ hrest => ?_, ?_⟩
        · cases blks with
          | nil => simp
          | cons b bs =>
              have hnot : ¬ blk.size < s.mbSize :=
                fun hless => hmore (List.cons_ne_nil b bs) (hdone hless)
              rw [List.dropLast_cons_cons, List.forall_mem_cons, ← hsizes.1]
              exact ⟨by omega, hfull⟩
        · -- a row was kept, so that one was left
          have hlonger := congrArg List.length hout
          rw [outcome, outcome, hrest, sampled, hkept] at hlonger
          simp only [List.length_append, List.length_nil] at hlonger
          omega
        · rw [InputBlock.sourceRows_cons, hrows, ← hout, ← hall, hkept, List.map_append,
            List.append_assoc]

end Source

/-! ## All calls -/

section Run

variable {mbSize shufBuf : ℕ} {rate : F} {source : List (InputBlock I F)}

theorem fill_done (rnd : Randomness F) (fuel : ℕ) {blk : InputBlock I F}
    {reader : MinibatchIter I F} (hroom : s.mb.offset.length < s.limit) (hend : s.start = s.end_)
    (hnext : s.bufReader.next = some (false, blk, reader)) :
    fill rnd (fuel + 1) s = some { s with bufReader := reader } := by
  rw [fill, if_pos hroom, if_pos hend, hnext]

/-- When `shuf_buf + 1` wraps around, the inner iterator takes nothing. -/
theorem delivers_of_wrap (rnd : Randomness F) (rate : F) (source : List (InputBlock I F))
    (hm : 1 ≤ mbSize) (hlt : mbSize < shufBuf) (hmax : shufBuf + 1 = 2 ^ 32) :
    ∃ t : ShuffleIter I F, t.kept = [] ∧
      ∀ blks t', Delivers rnd (init mbSize shufBuf rate source) blks t' ↔ blks = [] ∧ t' = t := by
  obtain ⟨blk, reader, hreader⟩ := MinibatchIter.next_of_wrap source hmax
  have hless : (RowBlockContainer.clear : RowBlockContainer I F).offset.length <
      (mbSize + 1) % 2 ^ 32 := by
    rw [Nat.mod_eq_of_lt (by omega)]
    show 1 < mbSize + 1
    omega
  have hfill := fill_done rnd (s := init mbSize shufBuf rate source)
    (init mbSize shufBuf rate source).remaining hless rfl hreader
  have hnone : ∀ r ∈ ([] : List (InputRow I F)), r.value = none := by simp
  have hblock :
      (MinibatchIter.dropBinary (RowBlockContainer.clear : RowBlockContainer I F)).getBlock =
      some { blockOf [] none with weight := beginPtr [] } := getBlock_plain hnone []
  have hnext : (init mbSize shufBuf rate source).next rnd =
      some (false, { blockOf [] none with weight := beginPtr [] },
        { init mbSize shufBuf rate source with
          mb := MinibatchIter.dropBinary .clear, bufReader := reader }) := by
    refine Option.bind_eq_some_iff.mpr ⟨_, hfill, ?_⟩
    exact Option.bind_eq_some_iff.mpr ⟨_, hblock, rfl⟩
  refine ⟨{ init mbSize shufBuf rate source with
    mb := MinibatchIter.dropBinary .clear, bufReader := reader }, rfl,
    fun blks t' => ⟨fun hrun => ?_, fun heq => ?_⟩⟩
  · cases hrun with
    | done hnext' =>
        rw [hnext, Option.some.injEq, Prod.mk.injEq, Prod.mk.injEq] at hnext'
        exact ⟨rfl, hnext'.2.2.symm⟩
    | step hnext' _ =>
        rw [hnext, Option.some.injEq, Prod.mk.injEq] at hnext'
        cases hnext'.1
  · rw [heq.1, heq.2]
    exact .done hnext

omit [Zero F] [Sub F] [LinearOrder F] in
theorem plain_source (hplain : ∀ b ∈ source, b.value = none) :
    ∀ r ∈ InputBlock.sourceRows source, r.value = none := by
  intro r hr
  obtain ⟨b, hb, hrow⟩ := List.mem_flatMap.mp hr
  obtain ⟨i, -, rfl⟩ := List.mem_map.mp hrow
  rw [InputBlock.row, hplain b hb]
  rfl

omit [Zero F] [Sub F] [LinearOrder F] in
/-- A permutation of the positions permutes the rows. -/
theorem map_rowAt_perm {ps : List ℕ} (hps : ps.Perm (List.range rows.length)) :
    (ps.map (rowAt rows)).Perm rows := by
  have hall : (List.range rows.length).map (rowAt rows) = rows := by
    apply List.ext_getElem
    · simp
    · intro i h₁ h₂
      simp [rowAt, List.getD_eq_getElem?_getD, List.getElem?_eq_getElem h₂]
  have hmap := hps.map (rowAt rows)
  rwa [hall] at hmap

/-- Sampling keeps rows of the source. -/
theorem lt_of_mem_outcome (hbuf : 0 < shufBuf) {p : ℕ} (hp : p ∈ (init mbSize shufBuf rate
    source).outcome rnd (InputBlock.sourceRows source)) :
    p < (InputBlock.sourceRows source).length := by
  rw [outcome_init] at hp
  have hmem := (visits_source_perm rnd hbuf _).mem_iff.mp ((sampled_sublist _ _).subset hp)
  exact List.mem_range.mp hmem

/-- A run over a source without values, at any rate. -/
theorem exists_run (rnd : Randomness F) (rate : F) (hm : 1 ≤ mbSize) (hlt : mbSize < shufBuf)
    (hbuf : shufBuf + 1 < 2 ^ 32) (hsource : ∀ b ∈ source, b.Valid)
    (hplain : ∀ b ∈ source, b.value = none)
    (hcond : min shufBuf (InputBlock.sourceRows source).length ≤ 2 ^ 31) :
    ∃ blks t, Delivers rnd (init mbSize shufBuf rate source) blks t ∧
      (∀ b ∈ blks.dropLast, b.size = mbSize) ∧
      InputBlock.sourceRows blks = t.kept.map (rowAt (InputBlock.sourceRows source)) := by
  have hinv : Inv (InputBlock.sourceRows source) (init mbSize shufBuf rate source) :=
    inv_init hm hlt hbuf hsource
  have hp : Plain (InputBlock.sourceRows source) 0
      { init mbSize shufBuf rate source with mb := .clear } :=
    ⟨fun j hj => absurd hj (Nat.not_lt_zero j), rfl, Nat.zero_le _, le_rfl, rfl, Nat.zero_le _⟩
  have hbound : ∀ p ∈ (init mbSize shufBuf rate source).outcome rnd (InputBlock.sourceRows source),
      p < (InputBlock.sourceRows source).length :=
    fun p hp => lt_of_mem_outcome (Nat.zero_lt_of_lt hlt) hp
  obtain ⟨blks, t, hrun, hsizes, -, hrows⟩ := exists_delivers (plain_source hplain) hcond hinv hp
    hbound
  refine ⟨blks, t, hrun, hsizes, ?_⟩
  rw [(hrun.kept_eq hinv).2, ← hrows]
  rfl

/-- **Shuffling neither loses nor duplicates rows** if and only if there is no row, or
`shuf_buf + 1` does not wrap around and no buffer has more than `2 ^ 31` rows. For every outcome of
the shuffles: the minibatches have `mb_size` rows but for the last, they hold every row of the
source once, and those of a buffer before those of the next. -/
theorem shuffled_iff (rnd : Randomness F) (hm : 1 ≤ mbSize) (hlt : mbSize < shufBuf)
    (hbuf : shufBuf < 2 ^ 32) (hsource : ∀ b ∈ source, b.Valid)
    (hplain : ∀ b ∈ source, b.value = none) :
    (∃ blks t, Delivers rnd (init mbSize shufBuf 1 source) blks t ∧
      (∀ b ∈ blks.dropLast, b.size = mbSize) ∧
      InputBlock.sourceRows blks = t.kept.map (rowAt (InputBlock.sourceRows source)) ∧
      t.kept.Perm (List.range (InputBlock.sourceRows source).length) ∧
      (InputBlock.sourceRows blks).Perm (InputBlock.sourceRows source) ∧
      t.kept.Pairwise fun p q => p / shufBuf ≤ q / shufBuf) ↔
    InputBlock.sourceRows source = [] ∨
      shufBuf + 1 < 2 ^ 32 ∧ min shufBuf (InputBlock.sourceRows source).length ≤ 2 ^ 31 := by
  have hpos : 0 < shufBuf := Nat.zero_lt_of_lt hlt
  by_cases hwrap : shufBuf + 1 < 2 ^ 32
  · have hinv : Inv (InputBlock.sourceRows source) (init mbSize shufBuf 1 source) :=
      inv_init hm hlt hwrap hsource
    have hkept : ∀ blks t, Delivers rnd (init mbSize shufBuf 1 source) blks t →
        t.Inv (InputBlock.sourceRows source) ∧
          t.kept = visits rnd shufBuf 0 [] 0 (InputBlock.sourceRows source).length := by
      intro blks t hrun
      obtain ⟨ht, hall⟩ := hrun.kept_eq hinv
      rw [outcome_init, sampled_of_not_lt (lt_irrefl 1)] at hall
      exact ⟨ht, hall⟩
    constructor
    · rintro ⟨blks, t, hrun, -, -, hperm, -, -⟩
      refine .inr ⟨hwrap, ?_⟩
      by_contra hlarge
      -- the row at position 2 ^ 31 of the first buffer was not kept
      have hmem : 2 ^ 31 ∈ t.kept := hperm.mem_iff.mpr (List.mem_range.mpr (by omega))
      obtain ⟨ht, -⟩ := hkept blks t hrun
      have hsmall := ht.small _ hmem
      have hsize : t.shufBuf = shufBuf := (hrun.sizes hinv).2
      rw [hsize, Nat.mod_eq_of_lt (by omega)] at hsmall
      exact absurd hsmall (Nat.lt_irrefl _)
    · intro hor
      have hcond : min shufBuf (InputBlock.sourceRows source).length ≤ 2 ^ 31 := by
        rcases hor with hnil | ⟨-, hcond⟩
        · rw [hnil]
          exact (min_le_right _ _).trans (Nat.zero_le _)
        · exact hcond
      obtain ⟨blks, t, hrun, hsizes, hrows⟩ := exists_run rnd 1 hm hlt hwrap hsource hplain hcond
      obtain ⟨-, hall⟩ := hkept blks t hrun
      have hperm : t.kept.Perm (List.range (InputBlock.sourceRows source).length) := by
        rw [hall]
        exact visits_source_perm rnd hpos _
      refine ⟨blks, t, hrun, hsizes, hrows, hperm, ?_, ?_⟩
      · rw [hrows]
        exact map_rowAt_perm hperm
      · have hpairs : (visits rnd shufBuf 0 [] (0 * shufBuf)
            (InputBlock.sourceRows source).length).Pairwise fun p q => p / shufBuf ≤ q / shufBuf :=
          visits_pairwise hpos (List.Perm.refl []) 0
        rw [Nat.zero_mul] at hpairs
        rw [hall]
        exact hpairs
  · obtain ⟨t, hnil, hruns⟩ := delivers_of_wrap rnd (1 : F) source hm hlt
      (show shufBuf + 1 = 2 ^ 32 by omega)
    constructor
    · rintro ⟨blks, t', hrun, -, -, -, hperm, -⟩
      rw [((hruns blks t').mp hrun).1] at hperm
      exact .inl hperm.symm.eq_nil
    · intro hor
      have hempty := hor.resolve_right fun h => hwrap h.1
      refine ⟨[], t, (hruns [] t).mpr ⟨rfl, rfl⟩, by simp, ?_, ?_, ?_, ?_⟩
      · rw [hnil]
        rfl
      · rw [hnil, hempty]
        exact List.Perm.refl _
      · rw [hempty]
        exact List.Perm.refl _
      · rw [hnil]
        exact List.Pairwise.nil

end Run

/-- Every shuffle reverses the order, every draw is the same. -/
def reversing {F : Type} (u : F) : Randomness F where
  shuffle _ rdp := rdp.reverse
  shuffle_perm _ rdp := List.reverse_perm rdp
  draw _ := u

open MinibatchIter in
theorem shuffled_threeRows : ∃ blks t,
    Delivers (reversing 0) (init 1 2 1 [plainBlock, plainBlock, plainBlock]) blks t ∧
    (∀ b ∈ blks.dropLast, b.size = 1) ∧ t.kept.Perm [0, 1, 2] ∧
    t.kept.Pairwise (fun p q => p / 2 ≤ q / 2) := by
  have hvalid : ∀ b ∈ [plainBlock, plainBlock, plainBlock], b.Valid := by
    simp [valid_plainBlock]
  have hplain : ∀ b ∈ [plainBlock, plainBlock, plainBlock], b.value = none := by
    simp [plainBlock]
  have hiff := shuffled_iff (reversing (0 : ℤ)) (show 1 ≤ 1 by decide) (show 1 < 2 by decide)
    (by decide) hvalid hplain
  obtain ⟨blks, t, hrun, hsizes, -, hperm, -, hpairs⟩ := hiff.mpr (.inr ⟨by decide, by decide⟩)
  exact ⟨blks, t, hrun, hsizes, hperm, hpairs⟩

open MinibatchIter in
/-- With the largest buffer size the one row of the source is not delivered. -/
theorem largest_buffer_empty : plainBlock.Valid ∧ plainBlock.value = none ∧
    (∃ blks t, Delivers (reversing 0) (init 1 4294967295 1 [plainBlock]) blks t) ∧
    ∀ blks t, Delivers (reversing 0) (init 1 4294967295 1 [plainBlock]) blks t →
      ¬ (InputBlock.sourceRows blks).Perm (InputBlock.sourceRows [plainBlock]) := by
  obtain ⟨t, -, hruns⟩ := delivers_of_wrap (reversing (0 : ℤ)) 1 [plainBlock] le_rfl
    (show 1 < 4294967295 by decide) (by decide)
  refine ⟨valid_plainBlock, rfl, ⟨[], t, (hruns [] t).mpr ⟨rfl, rfl⟩⟩, ?_⟩
  intro blks t' hrun hperm
  rw [((hruns blks t').mp hrun).1] at hperm
  exact absurd hperm.length_eq (by decide)

end ShuffleIter

end Difacto.Base
