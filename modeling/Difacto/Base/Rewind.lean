import Difacto.Base.MinibatchIter
import Mathlib.Data.List.GetD

/-!
# Rewinding the minibatch iterator

`BeforeFirst` of `base/minibatch_iter.h` and `ThreadedParser` of `dmlc-core/src/data/parser.h`.
`BeforeFirst` rewinds the threads behind the parser and nothing else: the rest of the block that
the iterator reads and of the chunk that the parser reads is delivered before the first row.

The chunks behind the parser are a list, whose lists of containers are the work of the threads of
the base parser.

## Main definitions

* `ThreadedParser.next`, `MinibatchReader.next` — the iterator with its parser.
* `MinibatchReader.beforeFirst`, `MinibatchReader.leftover`.

## Main results

* `MinibatchReader.next_iter` — the parser delivers the blocks of `MinibatchIter.source`.
* `MinibatchReader.beforeFirst_rewinds_iff` — when a rewound iterator starts anew.
-/

namespace Difacto.Base

variable {I F : Type} [One F]

/-- `Size` -/
def RowBlockContainer.size (c : RowBlockContainer I F) : ℕ := c.offset.length - 1

/-! ## The parser -/

/-- `ThreadedParser` -/
structure ThreadedParser (I F : Type) where
  /-- what the base parser reads from the beginning on -/
  base : List (List (RowBlockContainer I F))
  /-- what `iter_` delivers next -/
  iter : List (List (RowBlockContainer I F))
  /-- current chunk of data; empty while there is none -/
  tmp : List (RowBlockContainer I F)
  dataPtr : ℕ
  dataEnd : ℕ

namespace ThreadedParser

/-- `ThreadedParser::ThreadedParser` -/
def init (chunks : List (List (RowBlockContainer I F))) : ThreadedParser I F :=
  { base := chunks, iter := chunks, tmp := [], dataPtr := 0, dataEnd := 0 }

/-- `while (data_ptr_ < data_end_)`, with `n` containers left: the next one that has rows. -/
def scan (tmp : List (RowBlockContainer I F)) :
    ℕ → ℕ → Option (RowBlockContainer I F × ℕ)
  | _, 0 => none
  | dataPtr, n + 1 =>
    if (tmp.getD dataPtr .clear).size ≠ 0 then some (tmp.getD dataPtr .clear, dataPtr + 1)
    else scan tmp (dataPtr + 1) n

/-- `Next` from `iter_.Next(&tmp_)` on. -/
def takeChunk (base : List (List (RowBlockContainer I F))) (dataEnd : ℕ) :
    List (List (RowBlockContainer I F)) → Option (RowBlockContainer I F) × ThreadedParser I F
  | [] => (none, { base, iter := [], tmp := [], dataPtr := dataEnd, dataEnd })
  | tmp :: iter =>
    match scan tmp 0 tmp.length with
    | some (c, dataPtr) => (some c, { base, iter, tmp, dataPtr, dataEnd := tmp.length })
    | none => takeChunk base tmp.length iter

/-- The container whose block `Next` delivers, if there is one. -/
def take (p : ThreadedParser I F) : Option (RowBlockContainer I F) × ThreadedParser I F :=
  match scan p.tmp p.dataPtr (p.dataEnd - p.dataPtr) with
  | some (c, dataPtr) => (some c, { p with dataPtr })
  | none => takeChunk p.base p.dataEnd p.iter

/-- `Next` and `Value`; a failed `CHECK` of `GetBlock` is `none`. -/
def next (p : ThreadedParser I F) : Option (Option (InputBlock I F) × ThreadedParser I F) :=
  match p.take with
  | (some c, p') => c.getBlock.map fun blk => (some blk, p')
  | (none, p') => some (none, p')

/-- `BeforeFirst`: `iter_` begins again, and the chunk stays. -/
def beforeFirst (p : ThreadedParser I F) : ThreadedParser I F := { p with iter := p.base }

/-- A container that `Next` does not pass over. -/
def hasRows (c : RowBlockContainer I F) : Bool := decide (c.size ≠ 0)

/-- The rest of the current chunk. -/
def current (p : ThreadedParser I F) : List (RowBlockContainer I F) :=
  ((p.tmp.drop p.dataPtr).take (p.dataEnd - p.dataPtr)).filter hasRows

/-- The containers that are still to come. -/
def containers (p : ThreadedParser I F) : List (RowBlockContainer I F) :=
  p.current ++ p.iter.flatten.filter hasRows

/-- The blocks that are still to come. -/
def blocks (p : ThreadedParser I F) : List (InputBlock I F) :=
  p.containers.filterMap RowBlockContainer.getBlock

omit [One F] in
theorem scan_eq (tmp : List (RowBlockContainer I F)) (dataPtr n : ℕ) :
    ((tmp.drop dataPtr).take n).filter hasRows =
      match scan tmp dataPtr n with
      | some (c, j) => c :: ((tmp.drop j).take (dataPtr + n - j)).filter hasRows
      | none => [] := by
  induction n generalizing dataPtr with
  | zero => simp [scan]
  | succ n ih =>
    have hnext := ih (dataPtr + 1)
    rw [Nat.add_right_comm, Nat.add_assoc] at hnext
    rw [scan]
    by_cases hlen : dataPtr < tmp.length
    · have hget : tmp.getD dataPtr .clear = tmp[dataPtr] := List.getD_eq_getElem _ _ hlen
      rw [List.drop_eq_getElem_cons hlen, List.take_succ_cons, List.filter_cons, hget]
      by_cases hrows : tmp[dataPtr].size ≠ 0
      · have hn : dataPtr + (n + 1) - (dataPtr + 1) = n := by omega
        rw [if_pos hrows, if_pos (by simpa [hasRows] using hrows)]
        simp only [hn]
      · rw [if_neg hrows, if_neg (by simpa [hasRows] using hrows)]
        exact hnext
    · have hget : tmp.getD dataPtr .clear = .clear := List.getD_eq_default _ _ (not_lt.mp hlen)
      have hnil : tmp.drop dataPtr = [] := List.drop_of_length_le (not_lt.mp hlen)
      have hnil' : tmp.drop (dataPtr + 1) = [] := List.drop_of_length_le (by omega)
      have hempty : ¬ (RowBlockContainer.clear : RowBlockContainer I F).size ≠ 0 := by
        simp [RowBlockContainer.size, RowBlockContainer.clear]
      rw [hget, if_neg hempty, ← hnext, hnil, hnil', List.take_nil, List.take_nil]

omit [One F] in
theorem lt_of_scan {tmp : List (RowBlockContainer I F)} {dataPtr n : ℕ}
    {found : RowBlockContainer I F × ℕ} (h : scan tmp dataPtr n = some found) :
    dataPtr < found.2 := by
  induction n generalizing dataPtr with
  | zero => cases h
  | succ n ih =>
    rw [scan] at h
    split at h
    · rw [← Option.some.inj h]
      exact Nat.lt_succ_self _
    · exact (Nat.lt_succ_self _).trans (ih h)

omit [One F] in
theorem takeChunk_eq (base : List (List (RowBlockContainer I F))) (dataEnd : ℕ)
    (iter : List (List (RowBlockContainer I F))) :
    (takeChunk base dataEnd iter).1 = (iter.flatten.filter hasRows).head? ∧
      (takeChunk base dataEnd iter).2.containers = (iter.flatten.filter hasRows).tail ∧
      (takeChunk base dataEnd iter).2.base = base := by
  induction iter generalizing dataEnd with
  | nil => simp [takeChunk, containers, current]
  | cons tmp iter ih =>
    have hscan := scan_eq tmp 0 tmp.length
    rw [List.drop_zero, List.take_length, Nat.zero_add] at hscan
    rw [takeChunk, List.flatten_cons, List.filter_append, hscan]
    cases scan tmp 0 tmp.length with
    | none => exact ih tmp.length
    | some found => exact ⟨rfl, rfl, rfl⟩

omit [One F] in
/-- **`Next` takes the next container** that has rows. -/
theorem take_eq (p : ThreadedParser I F) :
    p.take.1 = p.containers.head? ∧ p.take.2.containers = p.containers.tail ∧
      p.take.2.base = p.base := by
  have hscan := scan_eq p.tmp p.dataPtr (p.dataEnd - p.dataPtr)
  have hend : ∀ j, p.dataPtr < j → p.dataPtr + (p.dataEnd - p.dataPtr) - j = p.dataEnd - j := by
    omega
  rw [take, containers, current, hscan]
  cases hfound : scan p.tmp p.dataPtr (p.dataEnd - p.dataPtr) with
  | none => exact takeChunk_eq p.base p.dataEnd p.iter
  | some found =>
    have hlt := lt_of_scan hfound
    refine ⟨rfl, ?_, rfl⟩
    simp only [List.cons_append, List.tail_cons, containers, current, hend _ hlt]

/-- What the base parser leaves in its containers are blocks. -/
structure Inv (p : ThreadedParser I F) : Prop where
  base : ∀ c ∈ p.base.flatten, ∃ blk, c.getBlock = some blk ∧ blk.Valid
  containers : ∀ c ∈ p.containers, ∃ blk, c.getBlock = some blk ∧ blk.Valid

omit [One F] in
theorem init_inv {chunks : List (List (RowBlockContainer I F))}
    (hchunks : ∀ c ∈ chunks.flatten, ∃ blk, c.getBlock = some blk ∧ blk.Valid) :
    (init chunks).Inv where
  base := hchunks
  containers := by
    intro c hc
    exact hchunks c (List.mem_of_mem_filter (by simpa [containers, current, init] using hc))

omit [One F] in
theorem Inv.valid {p : ThreadedParser I F} (hp : p.Inv) : ∀ blk ∈ p.blocks, blk.Valid := by
  intro blk hblk
  obtain ⟨c, hc, hget⟩ := List.mem_filterMap.mp hblk
  obtain ⟨blk', hget', hvalid⟩ := hp.containers c hc
  obtain rfl := Option.some.inj (hget.symm.trans hget')
  exact hvalid

omit [One F] in
/-- **`Next` delivers the blocks in order.** -/
theorem next_eq {p : ThreadedParser I F} (hp : p.Inv) : ∃ p', p'.Inv ∧ p'.base = p.base ∧
    p.next = some (p.blocks.head?, p') ∧ p'.blocks = p.blocks.tail := by
  obtain ⟨hhead, htail, hbase⟩ := p.take_eq
  have hinv : p.take.2.Inv := by
    refine ⟨hbase ▸ hp.base, fun c hc => hp.containers c ?_⟩
    rw [htail] at hc
    exact List.mem_of_mem_tail hc
  refine ⟨p.take.2, hinv, hbase, ?_⟩
  rw [next, blocks, blocks, htail]
  cases hcs : p.containers with
  | nil =>
    rw [hcs] at hhead
    rcases htake : p.take with ⟨_ | c, p'⟩
    · exact ⟨rfl, rfl⟩
    · rw [htake] at hhead
      cases hhead
  | cons c cs =>
    rw [hcs] at hhead
    obtain ⟨blk, hblk, -⟩ := hp.containers c (by rw [hcs]; exact List.mem_cons_self)
    rcases htake : p.take with ⟨_ | c', p'⟩
    · rw [htake] at hhead
      cases hhead
    · rw [htake] at hhead
      obtain rfl := Option.some.inj hhead
      simp [hblk]

omit [One F] in
theorem Inv.beforeFirst {p : ThreadedParser I F} (hp : p.Inv) : p.beforeFirst.Inv := by
  refine ⟨hp.base, fun c hc => ?_⟩
  rcases List.mem_append.mp hc with hmem | hmem
  · exact hp.containers c (List.mem_append_left _ hmem)
  · exact hp.base c (List.mem_of_mem_filter hmem)

end ThreadedParser

/-! ## The iterator with its parser -/

/-- `MinibatchIter` with `parser_`, without shuffling; `MinibatchIter.source` is not used. -/
structure MinibatchReader (I F : Type) where
  iter : MinibatchIter I F
  parser : ThreadedParser I F

namespace MinibatchReader

/-- `MinibatchIter::MinibatchIter` -/
def init (mbSize : ℕ) (chunks : List (List (RowBlockContainer I F))) : MinibatchReader I F :=
  { iter := .init mbSize [], parser := .init chunks }

/-- The loop of `Next`. -/
def fill : ℕ → MinibatchReader I F → Option (MinibatchReader I F)
  | 0, _ => none
  | fuel + 1, s =>
    if s.iter.mb.offset.length < s.iter.limit then
      if s.iter.start = s.iter.end_ then
        s.parser.next.bind fun
          | (none, parser) => some { s with parser }
          | (some blk, parser) =>
            (s.iter.take blk []).pushRows.bind fun iter => fill fuel { iter, parser }
      else s.iter.pushRows.bind fun iter => fill fuel { s with iter }
    else some s

/-- `Next`: its result and `out_blk_` -/
def next [DecidableEq F] (s : MinibatchReader I F) :
    Option (Bool × InputBlock I F × MinibatchReader I F) := do
  let s ← fill (s.parser.blocks.length + 2) { s with iter := { s.iter with mb := .clear } }
  let s := { s with iter := { s.iter with mb := MinibatchIter.dropBinary s.iter.mb } }
  let outBlk ← s.iter.mb.getBlock
  return (decide (0 < outBlk.size), outBlk, s)

/-- `BeforeFirst` -/
def beforeFirst (s : MinibatchReader I F) : MinibatchReader I F :=
  { s with parser := s.parser.beforeFirst }

/-- The state after `k` calls of `Next`. -/
def nexts [DecidableEq F] : ℕ → MinibatchReader I F → Option (MinibatchReader I F)
  | 0, s => some s
  | k + 1, s => s.next.bind fun r => nexts k r.2.2

/-- The minibatches that `Next` delivers until it returns false. -/
inductive Delivers [DecidableEq F] : MinibatchReader I F → List (InputBlock I F) → Prop
  | done {s s' : MinibatchReader I F} {blk : InputBlock I F} :
      s.next = some (false, blk, s') → Delivers s []
  | step {s s' : MinibatchReader I F} {blk : InputBlock I F} {blks : List (InputBlock I F)} :
      s.next = some (true, blk, s') → Delivers s' blks → Delivers s (blk :: blks)

/-- The rows that were read from the parser or stand in its current chunk, and were not delivered:
those of `in_blk_` from `start_` on and the rest of the chunk. -/
def leftover (s : MinibatchReader I F) : List (InputRow I F) :=
  (List.range' s.iter.start (s.iter.end_ - s.iter.start)).map s.iter.inBlk.row ++
    InputBlock.sourceRows (s.parser.current.filterMap RowBlockContainer.getBlock)

/-- All rows of the source. -/
def sourceRows (chunks : List (List (RowBlockContainer I F))) : List (InputRow I F) :=
  InputBlock.sourceRows
    ((chunks.flatten.filter ThreadedParser.hasRows).filterMap RowBlockContainer.getBlock)

/-- The iterator over the list of the blocks that are still to come. -/
def abs (s : MinibatchReader I F) : MinibatchIter I F := { s.iter with source := s.parser.blocks }

/-! ## The blocks of the parser as a list -/

omit [One F] in
/-- `Push` does not look at the parser. -/
theorem pushRows_source (it : MinibatchIter I F) (source : List (InputBlock I F)) :
    ({ it with source } : MinibatchIter I F).pushRows =
      it.pushRows.map fun it => { it with source } := by
  simp only [MinibatchIter.pushRows, apply_ite (Option.map _)]
  rfl

/-- The runs of `s` are those of the iterator over the list, and keep the parser sound. -/
def Runs {α β : Type} (get : α → MinibatchReader I F) (f : α → β)
    (base : List (List (RowBlockContainer I F))) (r : Option β) (r' : Option α) : Prop :=
  r = r'.map f ∧ ∀ a ∈ r', (get a).parser.Inv ∧ (get a).parser.base = base

omit [One F] in
/-- **The loop** over the parser is the loop over the list. -/
theorem fill_iter (fuel : ℕ) {s : MinibatchReader I F} (hs : s.parser.Inv) :
    Runs id abs s.parser.base (MinibatchIter.fill fuel s.abs) (fill fuel s) := by
  induction fuel generalizing s with
  | zero => exact ⟨rfl, fun a ha => by cases ha⟩
  | succ fuel ih =>
    -- the turn that pushes rows of a block, from any state of the parser
    have hpush : ∀ (it : MinibatchIter I F) {p : ThreadedParser I F}, p.Inv →
        Runs id abs p.base
          (({ it with source := p.blocks } : MinibatchIter I F).pushRows.bind
            (MinibatchIter.fill fuel))
          (it.pushRows.bind fun iter => fill fuel { iter, parser := p }) := by
      intro it p hp
      rw [pushRows_source]
      cases it.pushRows with
      | none => exact ⟨rfl, fun a ha => by cases ha⟩
      | some it' => exact ih (s := { iter := it', parser := p }) hp
    rw [fill, MinibatchIter.fill]
    by_cases hroom : s.iter.mb.offset.length < s.iter.limit
    · rw [if_pos hroom, if_pos (show s.abs.mb.offset.length < s.abs.limit from hroom)]
      by_cases hempty : s.iter.start = s.iter.end_
      · rw [if_pos hempty, if_pos (show s.abs.start = s.abs.end_ from hempty)]
        obtain ⟨p', hp', hbase, hnext, hblocks⟩ := ThreadedParser.next_eq hs
        rw [hnext, Option.bind_some, ← hbase]
        cases hsource : s.parser.blocks with
        | nil =>
          have habs : s.abs = abs { s with parser := p' } := by
            rw [abs, abs, hblocks]
            simp only [hsource, List.tail_nil]
          simp only [show s.abs.source = [] from hsource, List.head?_nil]
          refine ⟨congrArg some habs, ?_⟩
          rintro _ ⟨rfl⟩
          exact ⟨hp', rfl⟩
        | cons blk blks =>
          rw [hsource, List.tail_cons] at hblocks
          simp only [show s.abs.source = blk :: blks from hsource, List.head?_cons]
          rw [← hblocks]
          exact hpush (s.iter.take blk []) hp'
      · rw [if_neg hempty, if_neg (show ¬ s.abs.start = s.abs.end_ from hempty)]
        exact hpush s.iter hs
    · rw [if_neg hroom, if_neg (show ¬ s.abs.mb.offset.length < s.abs.limit from hroom)]
      refine ⟨rfl, ?_⟩
      rintro _ ⟨rfl⟩
      exact ⟨hs, rfl⟩

variable [DecidableEq F]

/-- **One call of `Next`** does what it does over the list of blocks. -/
theorem next_iter {s : MinibatchReader I F} (hs : s.parser.Inv) :
    Runs (fun r => r.2.2) (fun r => (r.1, r.2.1, r.2.2.abs)) s.parser.base s.abs.next s.next := by
  obtain ⟨hfill, hkeep⟩ := fill_iter (s.parser.blocks.length + 2)
    (s := { s with iter := { s.iter with mb := .clear } }) hs
  have hfill' : MinibatchIter.fill (s.abs.source.length + 2) { s.abs with mb := .clear } =
      (fill (s.parser.blocks.length + 2) { s with iter := { s.iter with mb := .clear } }).map
        abs := hfill
  rw [MinibatchIter.next, next, hfill']
  cases hrun : fill (s.parser.blocks.length + 2)
      { s with iter := { s.iter with mb := .clear } } with
  | none => exact ⟨rfl, fun a ha => by cases ha⟩
  | some s' =>
    have hs' := hkeep s' hrun
    simp only [Option.map_some, Option.bind_eq_bind, Option.bind_some, abs]
    cases (MinibatchIter.dropBinary s'.iter.mb).getBlock with
    | none => exact ⟨rfl, fun a ha => by cases ha⟩
    | some blk =>
      refine ⟨rfl, ?_⟩
      rintro _ ⟨rfl⟩
      exact hs'

/-- The minibatches are those of the iterator over the list. -/
theorem delivers_iter {s : MinibatchReader I F} (hs : s.parser.Inv)
    {blks : List (InputBlock I F)} : s.Delivers blks ↔ s.abs.Delivers blks := by
  constructor
  · intro h
    induction h with
    | done hnext =>
      have hrun := (next_iter hs).1
      rw [hnext] at hrun
      exact .done hrun
    | step hnext _ ih =>
      obtain ⟨hrun, hkeep⟩ := next_iter hs
      rw [hnext] at hrun
      exact .step hrun (ih (hkeep _ hnext).1)
  · intro h
    generalize habs : s.abs = t at h
    induction h generalizing s with
    | done hnext =>
      obtain ⟨hrun, -⟩ := next_iter hs
      rw [habs, hnext] at hrun
      obtain ⟨⟨more, blk', s'⟩, hnext', heq⟩ := Option.map_eq_some_iff.mp hrun.symm
      obtain ⟨rfl, -⟩ := Prod.mk.inj heq
      exact .done hnext'
    | step hnext _ ih =>
      obtain ⟨hrun, hkeep⟩ := next_iter hs
      rw [habs, hnext] at hrun
      obtain ⟨⟨more, blk', s'⟩, hnext', heq⟩ := Option.map_eq_some_iff.mp hrun.symm
      obtain ⟨rfl, heq⟩ := Prod.mk.inj heq
      obtain ⟨rfl, habs'⟩ := Prod.mk.inj heq
      exact .step hnext' (ih (hkeep _ hnext').1 habs')

end MinibatchReader

/-! ## What the rows that are left decide -/

namespace MinibatchIter

open RowBlockContainer

variable [DecidableEq F] {s t : MinibatchIter I F}

/-- One call of `Next` depends on the rows that are left only. -/
theorem next_block (hs : s.Inv) : ∃ s', s'.Inv ∧ s'.mbSize = s.mbSize ∧
    s'.pending = s.pending.drop s.mbSize ∧
    s.next = (dropBinary (ofRows (s.pending.take s.mbSize))).getBlock.map
      fun blk => (decide (0 < blk.size), blk, s') := by
  obtain ⟨s', hfill, hs', hsize, hmb, hpend⟩ := fill_clear hs
  refine ⟨{ s' with mb := dropBinary s'.mb },
    ⟨hs'.limit, hs'.le, hs'.end_eq, hs'.inBlk, hs'.source⟩, hsize, hpend, ?_⟩
  simp only [next, hfill, Option.bind_eq_bind, Option.bind_some, hmb]
  cases (dropBinary (ofRows (s.pending.take s.mbSize))).getBlock with
  | none => rfl
  | some blk => rfl

theorem Inv.next (hs : s.Inv) {r : Bool × InputBlock I F × MinibatchIter I F}
    (hr : s.next = some r) : r.2.2.Inv ∧ r.2.2.mbSize = s.mbSize := by
  obtain ⟨s', hs', hsize, -, hnext⟩ := next_block hs
  rw [hr] at hnext
  obtain ⟨blk, -, rfl⟩ := Option.map_eq_some_iff.mp hnext.symm
  exact ⟨hs', hsize⟩

/-- Iterators with the same rows left deliver the same minibatches. -/
theorem Delivers.congr {blks : List (InputBlock I F)} (h : Delivers s blks) (hs : s.Inv)
    (ht : t.Inv) (hsize : t.mbSize = s.mbSize) (hpend : t.pending = s.pending) :
    Delivers t blks := by
  induction h generalizing t with
  | done hnext =>
    obtain ⟨s', -, -, -, hs'⟩ := next_block hs
    obtain ⟨t', -, -, -, ht'⟩ := next_block ht
    rw [hnext] at hs'
    rw [hpend, hsize] at ht'
    obtain ⟨blk, hblk, heq⟩ := Option.map_eq_some_iff.mp hs'.symm
    rw [hblk, Option.map_some, (Prod.mk.inj heq).1] at ht'
    exact .done ht'
  | step hnext _ ih =>
    obtain ⟨s', hinv, hsz, hps, hs'⟩ := next_block hs
    obtain ⟨t', hinv', hsz', hpt, ht'⟩ := next_block ht
    rw [hnext] at hs'
    rw [hpend, hsize] at ht'
    obtain ⟨blk, hblk, heq⟩ := Option.map_eq_some_iff.mp hs'.symm
    rw [hblk, Option.map_some, (Prod.mk.inj heq).1] at ht'
    obtain ⟨rfl, rfl⟩ := Prod.mk.inj (Prod.mk.inj heq).2
    exact .step ht' (ih hinv hinv' (by rw [hsz', hsz, hsize]) (by rw [hpt, hps, hpend, hsize]))

/-- The minibatches hold as many rows as are left. -/
theorem Delivers.length_rows {blks : List (InputBlock I F)} (h : Delivers s blks) (hs : s.Inv)
    (hm : 1 ≤ s.mbSize) : (InputBlock.sourceRows blks).length = s.pending.length := by
  obtain ⟨blks', hblks', -, -, hrows⟩ := exists_delivers hs hm (h.uniform hs hm)
  rw [h.unique hblks']
  simpa using congrArg List.length hrows

end MinibatchIter

/-! ## Rewinding -/

namespace MinibatchReader

variable [DecidableEq F] {s : MinibatchReader I F} {m : ℕ}
  {chunks : List (List (RowBlockContainer I F))}

/-- What every call of `Next` keeps holds after any number of calls. -/
theorem nexts_induction {P : MinibatchReader I F → Prop}
    (hstep : ∀ s r, P s → s.next = some r → P r.2.2) {k : ℕ} {s s' : MinibatchReader I F}
    (h : P s) (hs : nexts k s = some s') : P s' := by
  induction k generalizing s with
  | zero => exact Option.some.inj hs ▸ h
  | succ k ih =>
    obtain ⟨r, hr, hk⟩ := Option.bind_eq_some_iff.mp hs
    exact ih (hstep s r h hr) hk

/-- The iterator reads sound chunks, and its sizes are those of an iterator over the blocks. -/
structure Reads (m : ℕ) (chunks : List (List (RowBlockContainer I F)))
    (s : MinibatchReader I F) : Prop where
  parser : s.parser.Inv
  base : s.parser.base = chunks
  mbSize : s.iter.mbSize = m
  iter : s.abs.Inv

theorem Reads.next (h : Reads m chunks s) {r : Bool × InputBlock I F × MinibatchReader I F}
    (hr : s.next = some r) : Reads m chunks r.2.2 := by
  obtain ⟨hrun, hkeep⟩ := next_iter h.parser
  obtain ⟨hinv, hbase⟩ := hkeep r hr
  rw [hr] at hrun
  obtain ⟨hiter, hsize⟩ := h.iter.next hrun
  exact ⟨hinv, hbase.trans h.base, hsize.trans h.mbSize, hiter⟩

omit [One F] [DecidableEq F] in
theorem reads_init (hm : m + 1 < 2 ^ 32)
    (hchunks : ∀ c ∈ chunks.flatten, ∃ blk, c.getBlock = some blk ∧ blk.Valid) :
    Reads m chunks (init m chunks) where
  parser := ThreadedParser.init_inv hchunks
  base := rfl
  mbSize := rfl
  iter :=
    { limit := Nat.mod_eq_of_lt hm
      le := le_rfl
      end_eq := rfl
      inBlk := fun h => absurd h (lt_irrefl _)
      source := (ThreadedParser.init_inv hchunks).valid }

omit [One F] [DecidableEq F] in
theorem Reads.beforeFirst (h : Reads m chunks s) : Reads m chunks s.beforeFirst where
  parser := h.parser.beforeFirst
  base := h.base
  mbSize := h.mbSize
  iter :=
    { limit := h.iter.limit
      le := h.iter.le
      end_eq := h.iter.end_eq
      inBlk := h.iter.inBlk
      source := h.parser.beforeFirst.valid }

omit [DecidableEq F] in
theorem pending_init : (init m chunks).abs.pending = sourceRows chunks := by
  simp [MinibatchIter.pending, abs, init, MinibatchIter.init, sourceRows, ThreadedParser.blocks,
    ThreadedParser.containers, ThreadedParser.current, ThreadedParser.init]

omit [DecidableEq F] in
/-- **What is left after `BeforeFirst`**: the rest of the block and of the chunk, and the source. -/
theorem pending_beforeFirst (h : Reads m chunks s) :
    s.beforeFirst.abs.pending = s.leftover ++ sourceRows chunks := by
  rw [← h.base, MinibatchIter.pending, leftover, sourceRows, List.append_assoc]
  congr 1
  simp only [abs, beforeFirst, ThreadedParser.blocks, ThreadedParser.containers,
    ThreadedParser.beforeFirst, InputBlock.sourceRows, List.filterMap_append, List.flatMap_append]
  rfl

/-- With `mb_size_ + 1` at most 1 the loop is not entered. -/
theorem next_idle (h : s.iter.limit ≤ 1) : ∃ blk,
    s.next = some (false, blk, { s with iter := { s.iter with mb := .clear } }) := by
  have hfill : fill (s.parser.blocks.length + 2) { s with iter := { s.iter with mb := .clear } } =
      some { s with iter := { s.iter with mb := .clear } } := by
    rw [fill, if_neg]
    exact not_lt.mpr h
  refine ⟨RowBlockContainer.blockOf [] none, ?_⟩
  rw [next, hfill]
  simp [MinibatchIter.dropBinary, RowBlockContainer.clear, RowBlockContainer.getBlock,
    RowBlockContainer.blockOf, RowBlockContainer.ends, RowBlockContainer.beginPtr]

theorem delivers_idle (h : s.iter.limit ≤ 1) {blks : List (InputBlock I F)} :
    s.Delivers blks ↔ blks = [] := by
  obtain ⟨blk, hnext⟩ := next_idle h
  constructor
  · intro hd
    cases hd with
    | done _ => rfl
    | step hnext' _ => cases hnext.symm.trans hnext'
  · rintro rfl
    exact .done hnext

/-- Then nothing is read. -/
theorem nexts_idle (h : (init m chunks).iter.limit ≤ 1) {k : ℕ}
    (hs : nexts k (init m chunks) = some s) : s.iter.limit ≤ 1 ∧ s.leftover = [] := by
  refine nexts_induction (P := fun s => s.iter.limit ≤ 1 ∧ s.leftover = []) ?_ ⟨h, ?_⟩ hs
  · rintro s r ⟨hlimit, hleft⟩ hr
    obtain ⟨blk, hnext⟩ := next_idle hlimit
    obtain rfl := Option.some.inj (hnext.symm.trans hr)
    exact ⟨hlimit, hleft⟩
  · simp [leftover, init, MinibatchIter.init, ThreadedParser.init, ThreadedParser.current,
      InputBlock.sourceRows]

/-- **A rewound iterator delivers what a new one does** if and only if nothing of the current chunk
was left, or the calls abort for both because the rows of some minibatch do not fit together. -/
theorem beforeFirst_rewinds_iff (m : ℕ) (hm : m < 2 ^ 32)
    (chunks : List (List (RowBlockContainer I F)))
    (hchunks : ∀ c ∈ chunks.flatten, ∃ blk, c.getBlock = some blk ∧ blk.Valid) (k : ℕ)
    (s : MinibatchReader I F) (hs : nexts k (init m chunks) = some s) :
    (∀ blks, s.beforeFirst.Delivers blks ↔ (init m chunks).Delivers blks) ↔
      s.leftover = [] ∨
        ((∃ j, ¬ Uniform (MinibatchIter.window m (s.leftover ++ sourceRows chunks) j)) ∧
          ∃ j, ¬ Uniform (MinibatchIter.window m (sourceRows chunks) j)) := by
  by_cases hlimit : (m + 1) % 2 ^ 32 ≤ 1
  · have hidle : (init m chunks).iter.limit ≤ 1 := hlimit
    obtain ⟨hidle', hleft⟩ := nexts_idle hidle hs
    have hback : s.beforeFirst.iter.limit ≤ 1 := hidle'
    refine iff_of_true (fun blks => ?_) (.inl hleft)
    rw [delivers_idle hback, delivers_idle hidle]
  · have hsmall : m + 1 < 2 ^ 32 := by
      refine lt_of_le_of_ne hm fun heq => hlimit ?_
      rw [heq, Nat.mod_self]
      exact Nat.zero_le 1
    rw [Nat.mod_eq_of_lt hsmall] at hlimit
    have hreads : Reads m chunks s :=
      nexts_induction (P := Reads m chunks) (fun _ _ h hr => h.next hr)
        (reads_init hsmall hchunks) hs
    have hinit := reads_init hsmall hchunks
    have hback := hreads.beforeFirst
    have hone : 1 ≤ (init m chunks).abs.mbSize := show 1 ≤ m by omega
    have hone' : 1 ≤ s.beforeFirst.abs.mbSize := (show 1 ≤ m by omega).trans hback.mbSize.ge
    have hpend := pending_beforeFirst hreads
    have huni : ∀ {t : MinibatchReader I F} {blks}, Reads m chunks t → t.Delivers blks → ∀ j,
        Uniform (MinibatchIter.window m t.abs.pending j) := by
      intro t blks ht hdel j
      have hwindow := ((delivers_iter ht.parser).mp hdel).uniform ht.iter
        ((show 1 ≤ m by omega).trans ht.mbSize.ge) j
      rwa [show t.abs.mbSize = m from ht.mbSize] at hwindow
    have hdel : ∀ {t : MinibatchReader I F}, Reads m chunks t →
        (∀ j, Uniform (MinibatchIter.window m t.abs.pending j)) → ∃ blks, t.Delivers blks := by
      intro t ht hall
      have hsize : t.abs.mbSize = m := ht.mbSize
      obtain ⟨blks, hblks, -⟩ := MinibatchIter.exists_delivers ht.iter
        (by rw [hsize]; omega) (by rwa [hsize])
      exact ⟨blks, (delivers_iter ht.parser).mpr hblks⟩
    have hpend' : (init m chunks).abs.pending = sourceRows chunks := pending_init
    rw [← hpend, ← hpend']
    constructor
    · intro hsame
      by_contra hnot
      obtain ⟨hleft, hruns⟩ := not_or.mp hnot
      -- both sequences hold all rows, so there are none that were left
      have hnone : ∀ blks, ¬ (init m chunks).Delivers blks := by
        intro blks hblks
        have hlen := ((delivers_iter hinit.parser).mp hblks).length_rows hinit.iter hone
        have hlen' := ((delivers_iter hback.parser).mp ((hsame blks).mpr hblks)).length_rows
          hback.iter hone'
        rw [hlen, hpend, hpend', List.length_append] at hlen'
        exact hleft (List.length_eq_zero_iff.mp (by omega))
      rcases not_and_or.mp hruns with hruns | hruns
      · obtain ⟨blks, hblks⟩ := hdel hback (not_exists_not.mp hruns)
        exact hnone blks ((hsame blks).mp hblks)
      · obtain ⟨blks, hblks⟩ := hdel hinit (not_exists_not.mp hruns)
        exact hnone blks hblks
    · rintro (hleft | ⟨⟨j, hj⟩, j', hj'⟩) blks
      · have hsize : s.beforeFirst.abs.mbSize = (init m chunks).abs.mbSize := hback.mbSize
        have hrows : s.beforeFirst.abs.pending = (init m chunks).abs.pending := by
          rw [hpend, hleft, List.nil_append, hpend']
        rw [delivers_iter hback.parser, delivers_iter hinit.parser]
        exact ⟨fun h => h.congr hback.iter hinit.iter hsize.symm hrows.symm,
          fun h => h.congr hinit.iter hback.iter hsize hrows⟩
      · exact iff_of_false (fun h => hj (huni hback h j)) fun h => hj' (huni hinit h j')

/-- A container of two rows with one feature each. -/
def twoRows : RowBlockContainer ℕ ℤ :=
  { offset := [0, 1, 2], label := [1, -1], weight := [], index := [5, 7], value := [] }

theorem twoRows_sound : ∀ c ∈ [[twoRows]].flatten, ∃ blk, c.getBlock = some blk ∧ blk.Valid := by
  intro c hc
  obtain rfl : c = twoRows := by simpa using hc
  refine ⟨_, rfl, rfl, ?_, rfl, ?_, ?_⟩
  · decide
  · decide
  · rintro v ⟨⟩

theorem beforeFirst_rewinds_drained : ∃ s, nexts 2 (init 1 [[twoRows]]) = some s ∧
    ∀ blks, s.beforeFirst.Delivers blks ↔ (init 1 [[twoRows]]).Delivers blks :=
  ⟨_, rfl, (beforeFirst_rewinds_iff 1 (by decide) [[twoRows]] twoRows_sound 2 _ rfl).mpr (.inl rfl)⟩

/-- **The second row comes first** when `BeforeFirst` follows the first of two minibatches. -/
theorem beforeFirst_keeps_rest : ∃ s, nexts 1 (init 1 [[twoRows]]) = some s ∧
    ¬ ∀ blks, s.beforeFirst.Delivers blks ↔ (init 1 [[twoRows]]).Delivers blks := by
  refine ⟨_, rfl, fun hsame => ?_⟩
  have hnew : (init 1 [[twoRows]]).Delivers [_, _] := .step rfl (.step rfl (.done rfl))
  have hback : (init 1 [[twoRows]]).Delivers [_, _, _] :=
    (hsame _).mp (.step rfl (.step rfl (.step rfl (.done rfl))))
  have hsound := ThreadedParser.init_inv twoRows_sound
  have heq := ((delivers_iter (s := init 1 [[twoRows]]) hsound).mp hback).unique
    ((delivers_iter (s := init 1 [[twoRows]]) hsound).mp hnew)
  cases congrArg List.length heq

end MinibatchReader

end Difacto.Base
