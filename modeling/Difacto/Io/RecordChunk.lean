import Difacto.Io.RecordIOSplit

/-!
# The records of a chunk

`RecordIOSplitter::ExtractNextRecord` of `dmlc-core/src/io/recordio_split.cc` puts the pieces of a
record together in the buffer from which it reads them: the pieces are moved down over their
headers. `RecordIOChunkReader` of `dmlc-core/src/recordio.cc` reads one of several parts of a chunk
and puts the pieces together in a string.

A word that is read is inside the chunk, since it was compared with the end before. A piece that
goes beyond the memory of the chunk is `none`, like a failed `CHECK`, and so is a loop that is not
over after `fuel` turns, which never happens.

## Main definitions

* `ChunkMemory`, `RecordIOSplitter.extractNextRecord` — `ExtractNextRecord`.
* `RecordIOChunkReader` — with `init` and `nextRecord`.

## Main results

* `RecordIOSplitter.extractNextRecords_encodeRecords` — the records of a chunk, all of which stay
  where they are while the next ones are put together.
* `RecordIOChunkReader.chunk_parts` — the parts of a chunk are its records.
* `RecordIOSplitter.file_parts` — every record of the files is delivered once, in its place.
-/

namespace Difacto.Io

open Lib (ofLeBytes leBytes length_leBytes ofLeBytes_leBytes Reach anyStep)
open RecordIOWriter

/-- The word at `p`. -/
def wordAt (bs : List UInt8) (p : ℕ) : ℕ := ofLeBytes ((bs.drop p).take 4)

/-! ## A record at its place -/

/-- `InputSplitBase::Chunk`: the bytes of `data`, and how far `begin` and `end` are from them. -/
structure ChunkMemory where
  data : List UInt8
  beginPos : ℕ
  endPos : ℕ

/-- `InputSplit::Blob` of a record, which points to the memory of a chunk. -/
structure RecordBlob where
  dptr : ℕ
  size : ℕ

/-- The bytes of a blob. -/
def RecordBlob.bytes (b : RecordBlob) (data : List UInt8) : List UInt8 :=
  (data.drop b.dptr).take b.size

/-- `memcpy` and `memmove` to `p`. -/
def overwrite (data : List UInt8) (p : ℕ) (bs : List UInt8) : List UInt8 :=
  data.take p ++ bs ++ data.drop (p + bs.length)

namespace RecordIOSplitter

/-- The loop of `ExtractNextRecord`. Moving no bytes changes nothing. -/
def extractLoop : ℕ → RecordBlob → ChunkMemory → Option (RecordBlob × ChunkMemory)
  | 0, _, _ => none
  | fuel + 1, outRec, chunk =>
    if chunk.endPos < chunk.beginPos + 8 then none
    else if wordAt chunk.data chunk.beginPos ≠ kMagic then none
    else
      let cflag := decodeFlag (wordAt chunk.data (chunk.beginPos + 4))
      let clen := decodeLength (wordAt chunk.data (chunk.beginPos + 4))
      let data := overwrite chunk.data (outRec.dptr + outRec.size) magic
      if data.length < chunk.beginPos + 8 + clen then none
      else
        let data := overwrite data (outRec.dptr + (outRec.size + 4))
          ((data.drop (chunk.beginPos + 8)).take clen)
        let outRec := { outRec with size := outRec.size + 4 + clen }
        let chunk := { chunk with data, beginPos := chunk.beginPos + 8 + upperAlign clen }
        if cflag = 3 then some (outRec, chunk) else extractLoop fuel outRec chunk

/-- `ExtractNextRecord`: nothing when it returns false, else `*out_rec`. Every turn of the loop goes
on by a header. -/
def extractNextRecord (chunk : ChunkMemory) : Option (Option RecordBlob × ChunkMemory) :=
  if chunk.beginPos = chunk.endPos then some (none, chunk)
  else if chunk.endPos < chunk.beginPos + 8 then none
  else if chunk.beginPos % 4 ≠ 0 ∨ chunk.endPos % 4 ≠ 0 then none
  else
    let cflag := decodeFlag (wordAt chunk.data (chunk.beginPos + 4))
    let clen := decodeLength (wordAt chunk.data (chunk.beginPos + 4))
    let outRec : RecordBlob := { dptr := chunk.beginPos + 8, size := clen }
    let chunk := { chunk with beginPos := chunk.beginPos + 8 + upperAlign clen }
    if chunk.endPos < chunk.beginPos then none
    else if cflag = 0 then some (some outRec, chunk)
    else if cflag ≠ 1 then none
    else (extractLoop (chunk.endPos + 1) outRec chunk).map fun r => (some r.1, r.2)

/-- `n` calls of `ExtractNextRecord`: what they return, and the chunk after them. -/
def extractNextRecords : ℕ → ChunkMemory → Option (List (Option RecordBlob) × ChunkMemory)
  | 0, chunk => some ([], chunk)
  | n + 1, chunk => (extractNextRecord chunk).bind fun (rec, chunk) =>
    (extractNextRecords n chunk).map fun (recs, chunk) => (rec :: recs, chunk)

/-- `ThreadedInputSplit` where records are asked for: `tmp_chunk_`, and what `iter_.Next` still
delivers. -/
structure Consumer where
  tmpChunk : Option ChunkMemory := none
  later : List Chunk

/-- A chunk that was delivered. What stands behind its end is never looked at. -/
def ofChunk (chunk : Chunk) : ChunkMemory :=
  { data := chunk.bytes, beginPos := 0, endPos := chunk.bytes.length }

/-- The loop of `ThreadedInputSplit::NextRecord`. -/
def recordLoop : List Chunk → ChunkMemory → Option (Option (List UInt8) × Consumer)
  | [], chunk => (extractNextRecord chunk).map fun r =>
    match r.1 with
    | some outRec => (some (outRec.bytes r.2.data), { tmpChunk := some r.2, later := [] })
    | none => (none, { later := [] })
  | next :: later, chunk => (extractNextRecord chunk).bind fun r =>
    match r.1 with
    | some outRec =>
      some (some (outRec.bytes r.2.data), { tmpChunk := some r.2, later := next :: later })
    | none => recordLoop later (ofChunk next)

/-- `ThreadedInputSplit::NextRecord`: nothing when it returns false, else the bytes of `*out_rec`.
-/
def Consumer.nextRecord (c : Consumer) : Option (Option (List UInt8) × Consumer) :=
  match c.tmpChunk, c.later with
  | some chunk, later => recordLoop later chunk
  | none, [] => some (none, c)
  | none, next :: later => recordLoop later (ofChunk next)

/-- What `n` calls of `NextRecord` return. -/
def Consumer.nextRecords : ℕ → Consumer → Option (List (Option (List UInt8)))
  | 0, _ => some []
  | n + 1, c => c.nextRecord.bind fun r => (nextRecords n r.2).map fun recs => r.1 :: recs

end RecordIOSplitter

/-! ## A part of a chunk -/

/-- `RecordIOChunkReader`: the chunk, and how far `pbegin_` and `pend_` are from its beginning. -/
structure RecordIOChunkReader where
  chunk : List UInt8
  pbegin : ℕ
  pend : ℕ

namespace RecordIOChunkReader

/-- `RecordIOChunkReader` -/
def init (chunk : List UInt8) (partIndex numParts : ℕ) : Option RecordIOChunkReader :=
  if chunk.length % 4 ≠ 0 then none
  else
    let nstep := upperAlign ((chunk.length + numParts - 1) / numParts)
    let first := min chunk.length (nstep * partIndex)
    let last := min chunk.length (nstep * (partIndex + 1))
    some { chunk,
           pbegin := first + 4 * findNextHead (words (chunk.drop first)),
           pend := last + 4 * findNextHead (words (chunk.drop last)) }

/-- The loop of `NextRecord`, with `temp_`. -/
def joinLoop : ℕ → RecordIOChunkReader → List UInt8 → Option (List UInt8 × RecordIOChunkReader)
  | 0, _, _ => none
  | fuel + 1, r, temp =>
    if r.pend < r.pbegin + 8 then none
    else if wordAt r.chunk r.pbegin ≠ kMagic then none
    else
      let cflag := decodeFlag (wordAt r.chunk (r.pbegin + 4))
      let clen := decodeLength (wordAt r.chunk (r.pbegin + 4))
      if r.chunk.length < r.pbegin + 8 + clen then none
      else
        let temp := temp ++ (r.chunk.drop (r.pbegin + 8)).take clen
        let r := { r with pbegin := r.pbegin + 8 + upperAlign clen }
        if cflag = 3 then some (temp, r) else joinLoop fuel r (temp ++ magic)

/-- `NextRecord`: nothing when it returns false, else the bytes of `*out_rec`. Every turn of the
loop goes on by a header. -/
def nextRecord (r : RecordIOChunkReader) :
    Option (Option (List UInt8) × RecordIOChunkReader) :=
  if r.pend ≤ r.pbegin then some (none, r)
  else if wordAt r.chunk r.pbegin ≠ kMagic then none
  else
    let cflag := decodeFlag (wordAt r.chunk (r.pbegin + 4))
    let clen := decodeLength (wordAt r.chunk (r.pbegin + 4))
    if cflag = 0 then
      let outRec := (r.chunk.drop (r.pbegin + 8)).take clen
      let r := { r with pbegin := r.pbegin + 8 + upperAlign clen }
      if r.pend < r.pbegin then none else some (some outRec, r)
    else if cflag ≠ 1 then none
    else (joinLoop (r.pend + 1) r []).map fun t => (some t.1, t.2)

/-- What `n` calls of `NextRecord` return. -/
def nextRecords : ℕ → RecordIOChunkReader → Option (List (Option (List UInt8)))
  | 0, _ => some []
  | n + 1, r => r.nextRecord.bind fun (rec, r) => (nextRecords n r).map fun recs => rec :: recs

end RecordIOChunkReader

/-! ## Pieces in memory -/

section Pieces

variable {cflag : ℕ} {p : List UInt8}

/-- A piece with its header and what is behind it. -/
theorem encodePiece_split (cflag : ℕ) (p : List UInt8) :
    ∃ head pad : List UInt8, head = magic ++ leBytes 4 (encodeLRec cflag p.length) ∧
      head.length = 8 ∧ p.length + pad.length = upperAlign p.length ∧
      encodePiece cflag p = head ++ p ++ pad := by
  have hle : p.length ≤ upperAlign p.length := by
    rw [upperAlign_eq]
    omega
  refine ⟨_, List.replicate (upperAlign p.length - p.length) 0, rfl, ?_, ?_, rfl⟩
  · rw [List.length_append, length_magic, length_leBytes]
  · rw [List.length_replicate]
    omega

/-- What is read of a piece that stands behind `front`. -/
theorem piece_at (hflag : cflag ≤ 3) (hlen : p.length < 2 ^ 29) (front rest : List UInt8) :
    wordAt (front ++ (encodePiece cflag p ++ rest)) front.length = kMagic ∧
      wordAt (front ++ (encodePiece cflag p ++ rest)) (front.length + 4) =
        encodeLRec cflag p.length ∧
      ((front ++ (encodePiece cflag p ++ rest)).drop (front.length + 8)).take p.length = p := by
  obtain ⟨head, pad, hhead, hheadlen, -, hpiece⟩ := encodePiece_split cflag p
  have hword := ofLeBytes_leBytes (n := 4)
    ((encodeLRec_lt hflag hlen).trans (by decide : kMagic < 256 ^ 4))
  have hdrop : ∀ i, (front ++ (encodePiece cflag p ++ rest)).drop (front.length + i) =
      (head ++ (p ++ (pad ++ rest))).drop i := by
    intro i
    rw [← List.drop_drop, List.drop_left, hpiece]
    simp only [List.append_assoc]
  refine ⟨?_, ?_, ?_⟩
  · have hzero := hdrop 0
    rw [Nat.add_zero, List.drop_zero] at hzero
    rw [wordAt, hzero, hhead, List.append_assoc, List.take_left' length_magic, ofLeBytes_magic]
  · rw [wordAt, hdrop, hhead, List.append_assoc, List.drop_left' length_magic,
      List.take_left' (length_leBytes 4 _), hword]
  · rw [hdrop, List.drop_left' hheadlen, List.take_left]

/-- Overwriting what is behind `front`. -/
theorem overwrite_append (front bs rest : List UInt8) :
    overwrite (front ++ rest) front.length bs = front ++ bs ++ rest.drop bs.length := by
  rw [overwrite, List.take_left, ← List.drop_drop, List.drop_left]

end Pieces

namespace RecordIOSplitter

variable {cflag : ℕ} {p : List UInt8}

/-- **One turn of the loop** moves a piece down to the ones before it. What is between them is lost,
and the rest of the chunk is not touched. -/
theorem extractLoop_piece (fuel : ℕ) (hflag : cflag ≤ 3) (hlen : p.length < 2 ^ 29)
    (front gap rest : List UInt8) (outRec : RecordBlob) (endPos : ℕ)
    (hout : outRec.dptr + outRec.size = front.length)
    (hend : (front ++ gap ++ encodePiece cflag p).length ≤ endPos) :
    ∃ gap' : List UInt8, (magic ++ p ++ gap').length = (gap ++ encodePiece cflag p).length ∧
      extractLoop (fuel + 1) outRec
        { data := front ++ gap ++ (encodePiece cflag p ++ rest),
          beginPos := (front ++ gap).length, endPos := endPos } =
        if cflag = 3 then
          some ({ outRec with size := outRec.size + 4 + p.length },
            { data := front ++ magic ++ p ++ gap' ++ rest,
              beginPos := (front ++ magic ++ p ++ gap').length, endPos := endPos })
        else extractLoop fuel { outRec with size := outRec.size + 4 + p.length }
          { data := front ++ magic ++ p ++ gap' ++ rest,
            beginPos := (front ++ magic ++ p ++ gap').length, endPos := endPos } := by
  obtain ⟨hmagic, hlrec, -⟩ := piece_at hflag hlen (front ++ gap) rest
  obtain ⟨head, pad, -, hheadlen, hpad, hpiece⟩ := encodePiece_split cflag p
  -- `kMagic` is written over the first bytes of `gap ++ head`
  obtain ⟨between, hbetween, hbetweenlen⟩ : ∃ between : List UInt8,
      between = (gap ++ head).drop 4 ∧ between.length = gap.length + 4 :=
    ⟨_, rfl, by rw [List.length_drop, List.length_append, hheadlen]; omega⟩
  have hdata : front ++ gap ++ (encodePiece cflag p ++ rest) =
      front ++ (gap ++ head ++ (p ++ (pad ++ rest))) := by
    rw [hpiece]
    simp only [List.append_assoc]
  have hfirst : overwrite (front ++ gap ++ (encodePiece cflag p ++ rest)) front.length magic =
      front ++ magic ++ (between ++ (p ++ (pad ++ rest))) := by
    rw [hdata, overwrite_append, length_magic, hbetween,
      List.drop_append_of_le_length (by rw [List.length_append]; omega)]
  have hplace : (front ++ gap).length + 8 = (front ++ magic ++ between).length := by
    simp only [List.length_append, length_magic, hbetweenlen]
    omega
  have hmoved : ((front ++ magic ++ (between ++ (p ++ (pad ++ rest)))).drop
      ((front ++ gap).length + 8)).take p.length = p := by
    rw [hplace, ← List.append_assoc, List.drop_left, List.take_left]
  have hsecond : overwrite (front ++ magic ++ (between ++ (p ++ (pad ++ rest))))
      (front ++ magic).length p =
      front ++ magic ++ p ++ ((between ++ p).drop p.length ++ pad) ++ rest := by
    rw [overwrite_append, ← List.append_assoc between,
      List.drop_append_of_le_length (by rw [List.length_append]; omega)]
    simp only [List.append_assoc]
  have hroom : ¬ endPos < (front ++ gap).length + 8 := by
    rw [hpiece] at hend
    simp only [List.length_append] at hend ⊢
    omega
  have hbytes : ¬ (front ++ magic ++ (between ++ (p ++ (pad ++ rest)))).length <
      (front ++ gap).length + 8 + p.length := by
    simp only [List.length_append, length_magic, hbetweenlen]
    omega
  have hnext : (front ++ gap).length + 8 + upperAlign p.length =
      (front ++ magic ++ p ++ ((between ++ p).drop p.length ++ pad)).length := by
    simp only [List.length_append, List.length_drop, length_magic, hbetweenlen]
    omega
  have hdptr : outRec.dptr + (outRec.size + 4) = (front ++ magic).length := by
    rw [List.length_append, length_magic]
    omega
  refine ⟨(between ++ p).drop p.length ++ pad, ?_, ?_⟩
  · rw [hpiece]
    simp only [List.length_append, List.length_drop, length_magic, hbetweenlen, hheadlen]
    omega
  · rw [extractLoop]
    simp only [if_neg hroom, hmagic, ne_eq, not_true_eq_false, if_false, hlrec,
      decodeFlag_encodeLRec hflag hlen, decodeLength_encodeLRec hflag hlen, hout, hfirst,
      if_neg hbytes, hdptr, hmoved, hsecond, hnext]

/-- The pieces after the first one. -/
theorem extractLoop_tail (fuel : ℕ) {ps : List (List UInt8)} {last : List UInt8}
    (hps : ∀ p ∈ ps, p.length < 2 ^ 29) (hlast : last.length < 2 ^ 29) (hfuel : ps.length < fuel)
    (front gap rest : List UInt8) (outRec : RecordBlob) (endPos : ℕ)
    (hout : outRec.dptr + outRec.size = front.length)
    (hend : (front ++ gap ++ (ps.flatMap (encodePiece 2) ++ encodePiece 3 last)).length ≤ endPos) :
    ∃ gap' : List UInt8,
      (magic ++ (ps.flatMap fun p => p ++ magic) ++ last ++ gap').length =
        (gap ++ (ps.flatMap (encodePiece 2) ++ encodePiece 3 last)).length ∧
      extractLoop fuel outRec
        { data := front ++ gap ++ (ps.flatMap (encodePiece 2) ++ encodePiece 3 last ++ rest),
          beginPos := (front ++ gap).length, endPos := endPos } =
        some ({ outRec with size := outRec.size +
                  (magic ++ (ps.flatMap fun p => p ++ magic) ++ last).length },
          { data := front ++ (magic ++ (ps.flatMap fun p => p ++ magic) ++ last) ++ gap' ++ rest,
            beginPos := (front ++ gap ++ (ps.flatMap (encodePiece 2) ++ encodePiece 3 last)).length,
            endPos := endPos }) := by
  induction ps generalizing fuel front gap outRec with
  | nil =>
    obtain ⟨fuel, rfl⟩ : ∃ m, fuel = m + 1 := ⟨fuel - 1, by simp at hfuel; omega⟩
    rw [List.flatMap_nil, List.nil_append] at hend
    obtain ⟨gap', hlen, hrun⟩ :=
      extractLoop_piece fuel (show 3 ≤ 3 from le_rfl) hlast front gap rest outRec endPos hout hend
    refine ⟨gap', by simpa using hlen, ?_⟩
    simp only [List.flatMap_nil, List.nil_append]
    rw [hrun, if_pos rfl]
    simp only [List.append_nil, List.append_assoc, List.length_append, length_magic] at hlen ⊢
    simp only [Option.some.injEq, Prod.mk.injEq, ChunkMemory.mk.injEq, RecordBlob.mk.injEq,
      true_and, and_true]
    omega
  | cons p ps ih =>
    obtain ⟨fuel, rfl⟩ : ∃ m, fuel = m + 1 := ⟨fuel - 1, by simp at hfuel; omega⟩
    have hp := hps p List.mem_cons_self
    rw [List.flatMap_cons, List.append_assoc] at hend
    obtain ⟨gap₁, hlen₁, hrun₁⟩ := extractLoop_piece fuel (show 2 ≤ 3 by omega) hp front gap
      (ps.flatMap (encodePiece 2) ++ encodePiece 3 last ++ rest) outRec endPos hout (by
        simp only [List.length_append] at hend ⊢
        omega)
    obtain ⟨gap', hlen, hrun⟩ := ih fuel (fun q hq => hps q (List.mem_cons_of_mem _ hq))
      (by simpa using hfuel) (front ++ magic ++ p) gap₁
      { outRec with size := outRec.size + 4 + p.length }
      (by
        simp only [List.length_append, length_magic]
        omega)
      (by
        simp only [List.length_append] at hend hlen₁ ⊢
        omega)
    refine ⟨gap', ?_, ?_⟩
    · simp only [List.flatMap_cons, List.length_append, length_magic] at hlen hlen₁ ⊢
      omega
    · have hstart : front ++ gap ++
          ((p :: ps).flatMap (encodePiece 2) ++ encodePiece 3 last ++ rest) = front ++ gap ++
            (encodePiece 2 p ++ (ps.flatMap (encodePiece 2) ++ encodePiece 3 last ++ rest)) := by
        rw [List.flatMap_cons]
        simp only [List.append_assoc]
      rw [hstart, hrun₁, if_neg (by omega), hrun]
      simp only [List.flatMap_cons, List.append_assoc, List.length_append, length_magic] at hlen₁ ⊢
      simp only [Option.some.injEq, Prod.mk.injEq, ChunkMemory.mk.injEq, RecordBlob.mk.injEq,
        true_and, and_true]
      omega

/-- `ExtractNextRecord` before its loop. -/
theorem extractNextRecord_head (hflag : cflag ≤ 3) (hlen : p.length < 2 ^ 29)
    {front : List UInt8} (rest : List UInt8) {endPos : ℕ} (hfront : front.length % 4 = 0)
    (hmod : endPos % 4 = 0) (hend : (front ++ encodePiece cflag p).length ≤ endPos) :
    extractNextRecord { data := front ++ (encodePiece cflag p ++ rest), beginPos := front.length,
                        endPos := endPos } =
      if cflag = 0 then
        some (some { dptr := front.length + 8, size := p.length },
          { data := front ++ (encodePiece cflag p ++ rest),
            beginPos := (front ++ encodePiece cflag p).length, endPos := endPos })
      else if cflag ≠ 1 then none
      else (extractLoop (endPos + 1) { dptr := front.length + 8, size := p.length }
        { data := front ++ (encodePiece cflag p ++ rest),
          beginPos := (front ++ encodePiece cflag p).length, endPos := endPos }).map
            fun r => (some r.1, r.2) := by
  have hpiece := RecordIOReader.length_encodePiece cflag p
  obtain ⟨-, hlrec, -⟩ := piece_at hflag hlen front rest
  have hbegin : front.length + 8 + upperAlign p.length = (front ++ encodePiece cflag p).length := by
    rw [List.length_append]
    omega
  rw [List.length_append] at hend
  have hinside : ¬ endPos < (front ++ encodePiece cflag p).length := by
    rw [List.length_append]
    omega
  rw [extractNextRecord]
  simp only [hlrec, decodeFlag_encodeLRec hflag hlen, decodeLength_encodeLRec hflag hlen, hbegin,
    if_neg hinside]
  rw [if_neg (by omega), if_neg (by omega), if_neg (by omega)]

/-- **`ExtractNextRecord`** puts a record together at its own place; neither the records before it
nor the ones behind it are touched. -/
theorem extractNextRecord_record {buf : List UInt8} (hlen : buf.length < 2 ^ 29)
    (front rest : List UInt8) (endPos : ℕ) (hfront : front.length % 4 = 0)
    (hmod : endPos % 4 = 0) (hend : (front ++ encodeRecord buf).length ≤ endPos) :
    ∃ (outRec : RecordBlob) (used : List UInt8), used.length = (encodeRecord buf).length ∧
      (∀ rest', outRec.bytes (front ++ used ++ rest') = buf) ∧
      extractNextRecord { data := front ++ (encodeRecord buf ++ rest), beginPos := front.length,
                          endPos := endPos } =
        some (some outRec, { data := front ++ used ++ rest,
                             beginPos := (front ++ used).length, endPos := endPos }) := by
  obtain ⟨ps, last, hpieces, hencode⟩ := encodeRecord_eq hlen
  have hjoin := hpieces.join
  obtain ⟨hps, hlast⟩ := hpieces.length_lt hlen
  rw [hencode] at hend ⊢
  cases ps with
  | nil =>
    obtain rfl : last = buf := by simpa using hjoin
    obtain ⟨head, pad, -, hheadlen, -, hpiece⟩ := encodePiece_split 0 last
    have hone : encodePieces [] last = encodePiece 0 last := by simp [encodePieces, encodeHead]
    refine ⟨{ dptr := front.length + 8, size := last.length }, encodePiece 0 last, by rw [hone],
      fun rest' => ?_, ?_⟩
    · rw [RecordBlob.bytes, List.append_assoc, ← List.drop_drop, List.drop_left, hpiece,
        List.append_assoc, List.append_assoc, List.drop_left' hheadlen, List.take_left]
    · rw [hone] at hend ⊢
      rw [extractNextRecord_head (Nat.zero_le 3) hlast rest hfront hmod hend, if_pos rfl,
        List.append_assoc]
  | cons p ps =>
    have hp := hps p List.mem_cons_self
    obtain ⟨head, pad, -, hheadlen, hpad, hpiece⟩ := encodePiece_split 1 p
    obtain rfl : pad = [] := by
      rw [upperAlign_of_aligned (hpieces.aligned p List.mem_cons_self)] at hpad
      exact List.length_eq_zero_iff.mp (by omega)
    rw [List.append_nil] at hpiece
    have hall : encodePieces (p :: ps) last =
        encodePiece 1 p ++ (ps.flatMap (encodePiece 2) ++ encodePiece 3 last) := by
      rw [encodePieces, encodeHead, if_neg (List.cons_ne_nil p ps), List.append_assoc]
    have hroom := RecordIOReader.length_le_flatMap_encodePiece 2 ps
    rw [hall] at hend ⊢
    obtain ⟨gap, hgap, hrun⟩ := extractLoop_tail (endPos + 1)
      (fun q hq => hps q (List.mem_cons_of_mem _ hq)) hlast (by
        simp only [List.length_append] at hend
        omega)
      (front ++ head ++ p) [] rest { dptr := front.length + 8, size := p.length } endPos (by
        simp only [List.length_append, hheadlen])
      (by
        rw [hpiece] at hend
        simpa [Nat.add_assoc] using hend)
    obtain ⟨joined, hjoined⟩ :
      ∃ joined, joined = magic ++ (ps.flatMap fun p => p ++ magic) ++ last := ⟨_, rfl⟩
    rw [← hjoined] at hgap hrun
    have hbuf : p ++ joined = buf := by
      rw [← hjoin, hjoined, List.flatMap_cons]
      simp only [List.append_assoc]
    have hlength : (head ++ p ++ joined ++ gap).length = (encodePiece 1 p ++
        (ps.flatMap (encodePiece 2) ++ encodePiece 3 last)).length := by
      rw [hpiece]
      simp only [List.length_append, List.nil_append] at hgap ⊢
      omega
    refine ⟨{ dptr := front.length + 8, size := p.length + joined.length },
      head ++ p ++ joined ++ gap, hlength, fun rest' => ?_, ?_⟩
    · have hdrop : (front ++ (head ++ p ++ joined ++ gap) ++ rest').drop (front.length + 8) =
          p ++ joined ++ (gap ++ rest') := by
        rw [← List.drop_drop]
        simp only [List.append_assoc]
        rw [List.drop_left, List.drop_left' hheadlen]
      rw [RecordBlob.bytes, hdrop, ← List.length_append, List.take_left, hbuf]
    · have hdata : front ++ (encodePiece 1 p ++
          (ps.flatMap (encodePiece 2) ++ encodePiece 3 last ++ rest)) =
          front ++ head ++ p ++ [] ++
            (ps.flatMap (encodePiece 2) ++ encodePiece 3 last ++ rest) := by
        rw [hpiece]
        simp only [List.append_assoc, List.nil_append]
      have hbegin : (front ++ encodePiece 1 p).length = (front ++ head ++ p ++ []).length := by
        rw [hpiece]
        simp only [List.append_assoc, List.append_nil]
      rw [List.append_assoc (encodePiece 1 p), extractNextRecord_head (show 1 ≤ 3 by omega) hp _
        hfront hmod (by
          simp only [List.length_append] at hend ⊢
          omega), if_neg (by omega), if_neg (by omega), hdata, hbegin, hrun]
      simp only [Option.map_some, Option.some.injEq, Prod.mk.injEq, ChunkMemory.mk.injEq, true_and,
        and_true]
      refine ⟨by simp only [List.append_assoc], ?_⟩
      simp only [List.length_append, List.nil_append, List.length_nil] at hgap ⊢
      omega

theorem extractNextRecords_end (k pos : ℕ) (data : List UInt8) :
    extractNextRecords k { data := data, beginPos := pos, endPos := pos } =
      some (List.replicate k none, { data := data, beginPos := pos, endPos := pos }) := by
  induction k with
  | zero => rfl
  | succ k ih => simp [extractNextRecords, extractNextRecord, ih, List.replicate_succ]

/-- **The records of a chunk.** All blobs are still good after the last one was put together. -/
theorem extractNextRecords_encodeRecords {recs : List (List UInt8)} (h : Short recs)
    (front rest : List UInt8) (hfront : front.length % 4 = 0) (k : ℕ) :
    ∃ (outRecs : List RecordBlob) (used : List UInt8), used.length = (encodeRecords recs).length ∧
      (∀ rest', outRecs.map (fun outRec => outRec.bytes (front ++ used ++ rest')) = recs) ∧
      extractNextRecords (recs.length + k)
        { data := front ++ (encodeRecords recs ++ rest), beginPos := front.length,
          endPos := (front ++ encodeRecords recs).length } =
        some (outRecs.map some ++ List.replicate k none,
          { data := front ++ used ++ rest, beginPos := (front ++ used).length,
            endPos := (front ++ used).length }) := by
  induction recs generalizing front with
  | nil =>
    refine ⟨[], [], rfl, fun _ => rfl, ?_⟩
    simp only [encodeRecords, List.flatMap_nil, List.append_nil, List.nil_append, List.map_nil,
      List.length_nil, Nat.zero_add]
    exact extractNextRecords_end k _ _
  | cons rec recs ih =>
    have hrecs : Short recs := fun r hr => h r (List.mem_cons_of_mem _ hr)
    have hrec := h rec List.mem_cons_self
    have hall : encodeRecords (rec :: recs) = encodeRecord rec ++ encodeRecords recs := by
      rw [encodeRecords, List.flatMap_cons]
      rfl
    have hmod := length_encodeRecord_mod hrec
    have hmods := length_encodeRecords_mod hrecs
    obtain ⟨outRec, used, hused, hbytes, hrun⟩ := extractNextRecord_record hrec front
      (encodeRecords recs ++ rest) (front ++ encodeRecords (rec :: recs)).length hfront
      (by
        rw [hall, List.length_append, List.length_append]
        omega)
      (by
        rw [hall, List.length_append, List.length_append, List.length_append]
        omega)
    have hend : (front ++ encodeRecords (rec :: recs)).length =
        (front ++ used ++ encodeRecords recs).length := by
      rw [hall]
      simp only [List.length_append]
      omega
    obtain ⟨outRecs, later, hlater, hrest, hruns⟩ := ih hrecs (front ++ used) (by
      rw [List.length_append]
      omega)
    refine ⟨outRec :: outRecs, used ++ later, ?_, fun rest' => ?_, ?_⟩
    · rw [hall, List.length_append, List.length_append, hused, hlater]
    · have hhead := hbytes (later ++ rest')
      have htail := hrest rest'
      simp only [List.append_assoc] at hhead htail ⊢
      rw [List.map_cons, hhead, htail]
    · rw [hend] at hrun
      rw [hall, List.append_assoc, List.length_cons, Nat.succ_add, extractNextRecords, ← hall, hend,
        hrun, Option.bind_some]
      simp only
      rw [← List.append_assoc] at hruns
      rw [← List.append_assoc, hruns]
      simp only [List.append_assoc, Option.map_some, List.map_cons, List.cons_append]

/-! ### Records of several chunks -/

/-- These records are still in the chunk. -/
def HasRecords (chunk : ChunkMemory) (recs : List (List UInt8)) : Prop :=
  ∃ front rest : List UInt8, front.length % 4 = 0 ∧
    chunk = { data := front ++ (encodeRecords recs ++ rest), beginPos := front.length,
              endPos := (front ++ encodeRecords recs).length }

theorem hasRecords_ofChunk {chunk : Chunk} {recs : List (List UInt8)}
    (h : chunk.bytes = encodeRecords recs) : HasRecords (ofChunk chunk) recs :=
  ⟨[], [], rfl, by simp [ofChunk, h]⟩

/-- These records are still to be read. -/
structure Consumer.Holds (c : Consumer) (recs : List (List UInt8)) : Prop where
  exists_eq : ∃ (cur : List (List UInt8)) (css : List (List (List UInt8))),
    recs = cur ++ css.flatten ∧ c.later.map Chunk.bytes = css.map encodeRecords ∧
    (c.tmpChunk = none ∧ cur = [] ∨ ∃ chunk, c.tmpChunk = some chunk ∧ HasRecords chunk cur)

theorem extractNextRecord_nil {chunk : ChunkMemory} (h : HasRecords chunk []) :
    extractNextRecord chunk = some (none, chunk) := by
  obtain ⟨front, rest, -, rfl⟩ := h
  rw [extractNextRecord]
  simp [encodeRecords]

theorem extractNextRecord_cons {chunk : ChunkMemory} {rec : List UInt8} {recs : List (List UInt8)}
    (hshort : Short (rec :: recs)) (h : HasRecords chunk (rec :: recs)) :
    ∃ outRec chunk', extractNextRecord chunk = some (some outRec, chunk') ∧
      outRec.bytes chunk'.data = rec ∧ HasRecords chunk' recs := by
  obtain ⟨front, rest, hfront, rfl⟩ := h
  have hrec := hshort rec List.mem_cons_self
  have hmod := length_encodeRecord_mod hrec
  have hmods := length_encodeRecords_mod fun r hr => hshort r (List.mem_cons_of_mem _ hr)
  have hall : encodeRecords (rec :: recs) = encodeRecord rec ++ encodeRecords recs := by
    rw [encodeRecords, List.flatMap_cons]
    rfl
  obtain ⟨outRec, used, hused, hbytes, hrun⟩ := extractNextRecord_record hrec front
    (encodeRecords recs ++ rest) (front ++ encodeRecords (rec :: recs)).length hfront
    (by
      rw [hall, List.length_append, List.length_append]
      omega)
    (by
      rw [hall, List.length_append, List.length_append, List.length_append]
      omega)
  rw [hall, List.append_assoc, ← hall, hrun]
  refine ⟨outRec, _, rfl, hbytes (encodeRecords recs ++ rest), front ++ used, rest, ?_, ?_⟩
  · rw [List.length_append]
    omega
  · rw [hall]
    simp only [List.length_append, ChunkMemory.mk.injEq, true_and]
    omega

theorem recordLoop_spec {css : List (List (List UInt8))} {cur : List (List UInt8)}
    {later : List Chunk} {chunk : ChunkMemory} (hshort : Short (cur ++ css.flatten))
    (hchunk : HasRecords chunk cur) (hlater : later.map Chunk.bytes = css.map encodeRecords) :
    ∃ c, recordLoop later chunk = some ((cur ++ css.flatten).head?, c) ∧
      c.Holds (cur ++ css.flatten).tail := by
  induction css generalizing cur later chunk with
  | nil =>
    obtain rfl : later = [] := by simpa using hlater
    cases cur with
    | nil =>
      rw [recordLoop, extractNextRecord_nil hchunk]
      exact ⟨_, rfl, ⟨[], [], rfl, rfl, Or.inl ⟨rfl, rfl⟩⟩⟩
    | cons rec cur =>
      rw [List.flatten_nil, List.append_nil] at hshort ⊢
      obtain ⟨outRec, chunk', hrun, hbytes, hrest⟩ := extractNextRecord_cons hshort hchunk
      rw [recordLoop, hrun, ← hbytes]
      exact ⟨_, rfl, ⟨cur, [], by simp, rfl, Or.inr ⟨chunk', rfl, hrest⟩⟩⟩
  | cons cs css ih =>
    obtain ⟨next, later, rfl⟩ : ∃ next more, later = next :: more :=
      List.exists_cons_of_length_eq_add_one (by simpa using congrArg List.length hlater)
    rw [List.map_cons, List.map_cons, List.cons.injEq] at hlater
    cases cur with
    | nil =>
      rw [List.nil_append, List.flatten_cons] at hshort ⊢
      rw [recordLoop, extractNextRecord_nil hchunk, Option.bind_some]
      exact ih hshort (hasRecords_ofChunk hlater.1) hlater.2
    | cons rec cur =>
      obtain ⟨outRec, chunk', hrun, hbytes, hrest⟩ := extractNextRecord_cons
        (fun r hr => hshort r (List.mem_append_left _ hr)) hchunk
      rw [recordLoop, hrun, Option.bind_some]
      refine ⟨_, by rw [← hbytes]; rfl, ⟨cur, cs :: css, rfl, ?_, Or.inr ⟨chunk', rfl, hrest⟩⟩⟩
      rw [List.map_cons, List.map_cons, hlater.1, hlater.2]

theorem Consumer.nextRecord_spec {c : Consumer} {recs : List (List UInt8)} (hshort : Short recs)
    (h : c.Holds recs) : ∃ c', c.nextRecord = some (recs.head?, c') ∧ c'.Holds recs.tail := by
  obtain ⟨cur, css, rfl, hlater, ⟨htmp, rfl⟩ | ⟨chunk, htmp, hchunk⟩⟩ := h
  · cases css with
    | nil =>
      have hnone : c.later = [] := by simpa using hlater
      refine ⟨c, ?_, ⟨[], [], rfl, hlater, Or.inl ⟨htmp, rfl⟩⟩⟩
      rw [Consumer.nextRecord, htmp, hnone]
      rfl
    | cons cs css =>
      obtain ⟨next, later, hcons⟩ : ∃ next more, c.later = next :: more :=
        List.exists_cons_of_length_eq_add_one (by simpa using congrArg List.length hlater)
      rw [hcons, List.map_cons, List.map_cons, List.cons.injEq] at hlater
      rw [Consumer.nextRecord, htmp, hcons, List.nil_append, List.flatten_cons]
      rw [List.nil_append, List.flatten_cons] at hshort
      exact recordLoop_spec hshort (hasRecords_ofChunk hlater.1) hlater.2
  · rw [Consumer.nextRecord, htmp]
    exact recordLoop_spec hshort hchunk hlater

/-- **`ThreadedInputSplit::NextRecord`** returns the records of the chunks, and then false. -/
theorem Consumer.nextRecords_eq {c : Consumer} {recs : List (List UInt8)} (hshort : Short recs)
    (h : c.Holds recs) (k : ℕ) :
    c.nextRecords (recs.length + k) = some (recs.map some ++ List.replicate k none) := by
  induction recs generalizing c with
  | nil =>
    rw [List.length_nil, Nat.zero_add, List.map_nil, List.nil_append]
    induction k generalizing c with
    | zero => rfl
    | succ k ih =>
      obtain ⟨c', hrun, hrest⟩ := Consumer.nextRecord_spec hshort h
      rw [nextRecords, hrun, Option.bind_some, ih hrest]
      rfl
  | cons rec recs ih =>
    obtain ⟨c', hrun, hrest⟩ := Consumer.nextRecord_spec hshort h
    rw [List.length_cons, Nat.succ_add, nextRecords, hrun, Option.bind_some,
      ih (fun r hr => hshort r (List.mem_cons_of_mem _ hr)) hrest]
    rfl

end RecordIOSplitter

/-! ## The parts of a chunk -/

namespace RecordIOChunkReader

variable {cflag : ℕ} {p : List UInt8}

/-- One turn of the loop reads one piece. -/
theorem joinLoop_piece (fuel : ℕ) (hflag : cflag ≤ 3) (hlen : p.length < 2 ^ 29)
    (front rest temp : List UInt8) (pend : ℕ)
    (hend : (front ++ encodePiece cflag p).length ≤ pend) :
    joinLoop (fuel + 1) { chunk := front ++ (encodePiece cflag p ++ rest), pbegin := front.length,
                          pend := pend } temp =
      if cflag = 3 then
        some (temp ++ p, { chunk := front ++ (encodePiece cflag p ++ rest),
                           pbegin := (front ++ encodePiece cflag p).length, pend := pend })
      else joinLoop fuel { chunk := front ++ (encodePiece cflag p ++ rest),
                           pbegin := (front ++ encodePiece cflag p).length, pend := pend }
        (temp ++ p ++ magic) := by
  obtain ⟨hmagic, hlrec, hbytes⟩ := piece_at hflag hlen front rest
  have hpiece := RecordIOReader.length_encodePiece cflag p
  have hle : p.length ≤ upperAlign p.length := by
    rw [upperAlign_eq]
    omega
  have hbegin : front.length + 8 + upperAlign p.length = (front ++ encodePiece cflag p).length := by
    rw [List.length_append]
    omega
  rw [List.length_append] at hend
  rw [joinLoop]
  simp only [hmagic, hlrec, hbytes, decodeFlag_encodeLRec hflag hlen,
    decodeLength_encodeLRec hflag hlen, hbegin]
  rw [if_neg (by omega), if_neg (by simp), if_neg (by simp only [List.length_append]; omega)]

/-- The pieces after the first one. -/
theorem joinLoop_tail (fuel : ℕ) {ps : List (List UInt8)} {last : List UInt8}
    (hps : ∀ p ∈ ps, p.length < 2 ^ 29) (hlast : last.length < 2 ^ 29) (hfuel : ps.length < fuel)
    (front rest temp : List UInt8) (pend : ℕ)
    (hend : (front ++ (ps.flatMap (encodePiece 2) ++ encodePiece 3 last)).length ≤ pend) :
    joinLoop fuel
      { chunk := front ++ (ps.flatMap (encodePiece 2) ++ encodePiece 3 last ++ rest),
        pbegin := front.length, pend := pend } temp =
      some (temp ++ (ps.flatMap fun p => p ++ magic) ++ last,
        { chunk := front ++ (ps.flatMap (encodePiece 2) ++ encodePiece 3 last ++ rest),
          pbegin := (front ++ (ps.flatMap (encodePiece 2) ++ encodePiece 3 last)).length,
          pend := pend }) := by
  induction ps generalizing fuel front temp with
  | nil =>
    obtain ⟨fuel, rfl⟩ : ∃ m, fuel = m + 1 := ⟨fuel - 1, by simp at hfuel; omega⟩
    rw [List.flatMap_nil, List.nil_append] at hend ⊢
    rw [joinLoop_piece fuel (show 3 ≤ 3 from le_rfl) hlast front rest temp pend hend, if_pos rfl]
    simp only [List.flatMap_nil, List.append_nil]
  | cons p ps ih =>
    obtain ⟨fuel, rfl⟩ : ∃ m, fuel = m + 1 := ⟨fuel - 1, by simp at hfuel; omega⟩
    have hrun := ih fuel (fun q hq => hps q (List.mem_cons_of_mem _ hq))
      (by simpa using hfuel) (front ++ encodePiece 2 p) (temp ++ p ++ magic)
      (by simpa [List.append_assoc] using hend)
    rw [List.flatMap_cons, List.append_assoc] at hend ⊢
    rw [List.append_assoc (encodePiece 2 p), joinLoop_piece fuel (show 2 ≤ 3 by omega)
      (hps p List.mem_cons_self) front _ temp pend (by
        simp only [List.length_append] at hend ⊢
        omega), if_neg (by omega)]
    simp only [List.append_assoc, List.flatMap_cons] at hrun ⊢
    exact hrun

/-- **`NextRecord`** puts the pieces of a record together. -/
theorem nextRecord_record {buf : List UInt8} (hlen : buf.length < 2 ^ 29)
    (front rest : List UInt8) (pend : ℕ) (hend : (front ++ encodeRecord buf).length ≤ pend) :
    nextRecord { chunk := front ++ (encodeRecord buf ++ rest), pbegin := front.length,
                 pend := pend } =
      some (some buf, { chunk := front ++ (encodeRecord buf ++ rest),
                        pbegin := (front ++ encodeRecord buf).length, pend := pend }) := by
  obtain ⟨ps, last, hpieces, hencode⟩ := encodeRecord_eq hlen
  have hjoin := hpieces.join
  obtain ⟨hps, hlast⟩ := hpieces.length_lt hlen
  rw [hencode] at hend ⊢
  cases ps with
  | nil =>
    obtain rfl : last = buf := by simpa using hjoin
    have hone : encodePieces [] last = encodePiece 0 last := by simp [encodePieces, encodeHead]
    rw [hone] at hend ⊢
    obtain ⟨hmagic, hlrec, hbytes⟩ := piece_at (Nat.zero_le 3) hlast front rest
    have hpiece := RecordIOReader.length_encodePiece 0 last
    have hbegin : front.length + 8 + upperAlign last.length =
        (front ++ encodePiece 0 last).length := by
      rw [List.length_append]
      omega
    rw [nextRecord]
    simp only [hmagic, hlrec, hbytes, decodeFlag_encodeLRec (Nat.zero_le 3) hlast,
      decodeLength_encodeLRec (Nat.zero_le 3) hlast, hbegin, if_neg (not_lt.mpr hend)]
    rw [List.length_append] at hend
    rw [if_neg (by omega), if_neg (by simp), if_pos trivial]
  | cons p ps =>
    have hp := hps p List.mem_cons_self
    have hall : encodePieces (p :: ps) last =
        encodePiece 1 p ++ (ps.flatMap (encodePiece 2) ++ encodePiece 3 last) := by
      rw [encodePieces, encodeHead, if_neg (List.cons_ne_nil p ps), List.append_assoc]
    have hroom := RecordIOReader.length_le_flatMap_encodePiece 2 ps
    have hpiece := RecordIOReader.length_encodePiece 1 p
    rw [hall] at hend ⊢
    rw [List.append_assoc (encodePiece 1 p)]
    obtain ⟨hmagic, hlrec, -⟩ := piece_at (show 1 ≤ 3 by omega) hp front
      (ps.flatMap (encodePiece 2) ++ encodePiece 3 last ++ rest)
    have htail := joinLoop_tail pend (fun q hq => hps q (List.mem_cons_of_mem _ hq)) hlast (by
        simp only [List.length_append] at hend
        omega)
      (front ++ encodePiece 1 p) rest ([] ++ p ++ magic) pend
      (by simpa [List.append_assoc] using hend)
    have hloop := joinLoop_piece pend (show 1 ≤ 3 by omega) hp front
      (ps.flatMap (encodePiece 2) ++ encodePiece 3 last ++ rest) [] pend (by
        simp only [List.length_append] at hend ⊢
        omega)
    have hinside : ¬ pend ≤ front.length := by
      simp only [List.length_append] at hend
      omega
    rw [nextRecord]
    simp only [if_neg hinside, hmagic, hlrec, decodeFlag_encodeLRec (show 1 ≤ 3 by omega) hp, hloop]
    rw [List.append_assoc front] at htail
    rw [if_neg (by simp), if_neg (by omega), if_neg (by omega), if_neg (by omega), htail, ← hjoin,
      List.flatMap_cons]
    simp only [Option.map_some, List.append_assoc, List.nil_append]

theorem nextRecords_end (k : ℕ) {r : RecordIOChunkReader} (h : r.pend ≤ r.pbegin) :
    nextRecords k r = some (List.replicate k none) := by
  induction k with
  | zero => rfl
  | succ k ih =>
    rw [nextRecords, nextRecord, if_pos h, Option.bind_some]
    simp only [ih, Option.map_some, List.replicate_succ]

/-- **The records between two heads**, and then false for ever. -/
theorem nextRecords_encodeRecords {recs : List (List UInt8)} (h : Short recs)
    (front rest : List UInt8) (k : ℕ) :
    nextRecords (recs.length + k)
      { chunk := front ++ (encodeRecords recs ++ rest), pbegin := front.length,
        pend := (front ++ encodeRecords recs).length } =
      some (recs.map some ++ List.replicate k none) := by
  induction recs generalizing front with
  | nil =>
    rw [List.length_nil, Nat.zero_add, List.map_nil, List.nil_append]
    exact nextRecords_end k (by simp [encodeRecords])
  | cons rec recs ih =>
    have hall : encodeRecords (rec :: recs) = encodeRecord rec ++ encodeRecords recs := by
      rw [encodeRecords, List.flatMap_cons]
      rfl
    have hrun := nextRecord_record (h rec List.mem_cons_self) front (encodeRecords recs ++ rest)
      (front ++ encodeRecords (rec :: recs)).length (by
        rw [hall]
        simp only [List.length_append]
        omega)
    have hruns := ih (fun r hr => h r (List.mem_cons_of_mem _ hr)) (front ++ encodeRecord rec)
    rw [List.length_cons, Nat.succ_add, nextRecords, hall, List.append_assoc, ← hall, hrun,
      Option.bind_some]
    rw [List.append_assoc, List.append_assoc, ← hall] at hruns
    simp only [hruns, Option.map_some, List.map_cons, List.cons_append]

end RecordIOChunkReader

/-! ## Every record once -/

/-- Consecutive slices of a list. -/
theorem flatMap_slices {α : Type*} (l : List α) {c : ℕ → ℕ} (hc : Monotone c) (hzero : c 0 = 0)
    (n : ℕ) : ((List.range n).flatMap fun k => (l.take (c (k + 1))).drop (c k)) = l.take (c n) := by
  induction n with
  | zero => simp [hzero]
  | succ n ih =>
    have hcut : l.take (c n) = (l.take (c (n + 1))).take (c n) := by
      rw [List.take_take, min_eq_left (hc (Nat.le_succ n))]
    rw [List.range_succ, List.flatMap_append, ih, List.flatMap_singleton, hcut,
      List.take_append_drop]

section Parts

variable {files : List (List UInt8)} {recs : List (List UInt8)} {n k : ℕ}

/-- The records of part `k` of `n`: those that begin between its ends. -/
def partRecords (files : List (List UInt8)) (recs : List (List UInt8)) (n k : ℕ) :
    List (List UInt8) :=
  (recs.take (begun recs (recordIOSplitter.bound files n (k + 1) / 4))).drop
    (begun recs (recordIOSplitter.bound files n k / 4))

/-- The parts are the records, one after the other. -/
theorem flatMap_partRecords (h : Short recs) (hfiles : files.flatten = encodeRecords recs)
    (hn : 1 ≤ n) : (List.range n).flatMap (partRecords files recs n) = recs := by
  have hmono : Monotone fun k => begun recs (recordIOSplitter.bound files n k / 4) :=
    monotone_nat_of_le_succ fun k =>
      begun_mono recs (Nat.div_le_div_right (RecordSplit.bound_mono (f := recordIOSplitter)))
  have hzero : begun recs (recordIOSplitter.bound files n 0 / 4) = 0 := by
    rw [RecordSplit.bound_zero, Nat.zero_div, begun_zero]
  have hlast : begun recs (recordIOSplitter.bound files n n / 4) = recs.length := by
    have hall := begun_append recs [] (j := (words (encodeRecords recs)).length) h le_rfl
    rw [RecordSplit.bound_self (f := recordIOSplitter) (show 0 < 4 by omega) hn, hfiles,
      length_encodeRecords h, Nat.mul_div_cancel_left _ (by omega)]
    simpa [begun] using hall
  have hslices := flatMap_slices recs hmono hzero n
  rwa [hlast, List.take_length] at hslices

/-- The ends of the parts are at whole words. -/
theorem bound_mod (hmod : files.flatten.length % 4 = 0) :
    recordIOSplitter.bound files n k % 4 = 0 := by
  have hlast : fileOffset files files.length % 4 = 0 := by
    rwa [InputSplitBase.fileOffset_length]
  have hmin : ∀ a, min (a * 4 * k) (fileOffset files files.length) % 4 = 0 := by
    intro a
    rcases min_choice (a * 4 * k) (fileOffset files files.length) with h | h
    · rw [h, Nat.mul_right_comm, Nat.mul_mod_left]
    · rw [h, hlast]
  exact hmin _

theorem encodeRecords_take (recs : List (List UInt8)) {i j : ℕ} (hij : i ≤ j) :
    encodeRecords (recs.take j) =
      encodeRecords (recs.take i) ++ encodeRecords ((recs.take j).drop i) := by
  have hcut : recs.take i = (recs.take j).take i := by
    rw [List.take_take, min_eq_left hij]
  rw [← encodeRecords_append, hcut, List.take_append_drop]

/-- Some records, between those before them and those behind them. -/
theorem encodeRecords_slice (recs : List (List UInt8)) {i j : ℕ} (hij : i ≤ j) :
    encodeRecords recs = encodeRecords (recs.take i) ++
      (encodeRecords ((recs.take j).drop i) ++ encodeRecords (recs.drop j)) := by
  rw [← List.append_assoc, ← encodeRecords_take recs hij, ← encodeRecords_append,
    List.take_append_drop]

end Parts

namespace RecordIOChunkReader

/-- `FindNextRecordIOHead` goes to the next record. -/
theorem head_eq {recs : List (List UInt8)} (h : Short recs) {x : ℕ}
    (hx : x ≤ (encodeRecords recs).length) (hmod : x % 4 = 0) :
    x + 4 * findNextHead (words ((encodeRecords recs).drop x)) =
      (encodeRecords (recs.take (begun recs (x / 4)))).length := by
  obtain ⟨j, rfl⟩ : ∃ j, x = 4 * j := ⟨x / 4, by omega⟩
  rw [length_encodeRecords h] at hx
  obtain ⟨tail, htail, hwords, hlength⟩ := split_spec h (show j ≤ _ by omega)
  rw [words_drop, hwords, findNextHead_later htail (h.drop _), length_encodeRecords (h.take _),
    Nat.mul_div_cancel_left _ (by omega)]
  omega

/-- **The parts of a chunk**: the readers of its `n` parts return its records, each of them once and
in their order, and then false for ever. -/
theorem chunk_parts {recs : List (List UInt8)} (h : Short recs) {n : ℕ} (hn : 1 ≤ n) :
    ∃ parts : ℕ → List (List UInt8), (List.range n).flatMap parts = recs ∧
      ∀ k < n, ∃ r, init (encodeRecords recs) k n = some r ∧
        ∀ m, nextRecords ((parts k).length + m) r =
          some ((parts k).map some ++ List.replicate m none) := by
  have hfiles : [encodeRecords recs].flatten = encodeRecords recs := by simp
  have hmod : [encodeRecords recs].flatten.length % 4 = 0 := by
    rw [hfiles, length_encodeRecords_mod h]
  have hbound : ∀ k, min (encodeRecords recs).length
      (upperAlign (((encodeRecords recs).length + n - 1) / n) * k) =
        recordIOSplitter.bound [encodeRecords recs] n k := by
    intro k
    rw [RecordSplit.bound, InputSplitBase.fileOffset_length, hfiles, min_comm, upperAlign_eq]
    rfl
  refine ⟨partRecords [encodeRecords recs] recs n, flatMap_partRecords h hfiles hn, fun k _ => ?_⟩
  have hinside : ∀ k, recordIOSplitter.bound [encodeRecords recs] n k ≤
      (encodeRecords recs).length := by
    intro k
    have hle := RecordSplit.bound_le recordIOSplitter [encodeRecords recs] n k
    rwa [hfiles] at hle
  have hle : begun recs (recordIOSplitter.bound [encodeRecords recs] n k / 4) ≤
      begun recs (recordIOSplitter.bound [encodeRecords recs] n (k + 1) / 4) :=
    begun_mono recs (Nat.div_le_div_right (RecordSplit.bound_mono (f := recordIOSplitter)))
  obtain ⟨i, hi⟩ : ∃ i, i = begun recs (recordIOSplitter.bound [encodeRecords recs] n k / 4) :=
    ⟨_, rfl⟩
  obtain ⟨j, hj⟩ : ∃ j,
      j = begun recs (recordIOSplitter.bound [encodeRecords recs] n (k + 1) / 4) := ⟨_, rfl⟩
  rw [← hi, ← hj] at hle
  refine ⟨{ chunk := encodeRecords recs, pbegin := (encodeRecords (recs.take i)).length,
            pend := (encodeRecords (recs.take j)).length }, ?_, fun m => ?_⟩
  · rw [init, if_neg (by rw [length_encodeRecords_mod h]; simp)]
    simp only [hbound, head_eq h (hinside _) (bound_mod hmod), hi, hj]
  · rw [partRecords, ← hi, ← hj, encodeRecords_take recs hle]
    have hrun := nextRecords_encodeRecords
      (show Short ((recs.take j).drop i) from (h.take j).drop i)
      (encodeRecords (recs.take i)) (encodeRecords (recs.drop j)) m
    rwa [← encodeRecords_slice recs hle] at hrun

/-- Two readers of one chunk. -/
theorem chunk_parts_two :
    ∃ parts : ℕ → List (List UInt8),
      (List.range 2).flatMap parts = [[1, 2, 3, 4, 0x0a, 0x23, 0xd7, 0xce, 5], [], [6]] ∧
      ∀ k < 2, ∃ r,
        init (encodeRecords [[1, 2, 3, 4, 0x0a, 0x23, 0xd7, 0xce, 5], [], [6]]) k 2 = some r ∧
        ∀ m, nextRecords ((parts k).length + m) r =
          some ((parts k).map some ++ List.replicate m none) := by
  refine chunk_parts ?_ (by decide)
  intro rec hrec
  simp only [List.mem_cons, List.not_mem_nil, or_false] at hrec
  rcases hrec with rfl | rfl | rfl <;> decide

end RecordIOChunkReader

namespace RecordIOSplitter

/-- **Every record of the files is delivered once**, in its place: `n` splitters divide the files
into parts of whole records, and in every order of the steps of its two threads `ThreadedInputSplit`
has delivered chunks since the last rewind whose records are those of the part, from its beginning;
`Next` returns false only when they are all of it. -/
theorem file_parts {fs : List (List (List UInt8))} (h : Short fs.flatten) {n : ℕ} (hn : 1 ≤ n)
    (grant : ℕ → ℕ) {bufferSize : ℕ} (cap : ℕ) (hbuffer : 1 ≤ bufferSize) :
    ∃ parts : ℕ → List (List UInt8), (List.range n).flatMap parts = fs.flatten ∧
      ∀ k < n, ∃ s₀, recordIOSplitter.init (fs.map encodeRecords) k n = some s₀ ∧
        ∀ s, Reach (ThreadedIter.step (recordIOSplitter.threaded grant bufferSize)) anyStep
          (ThreadedIter.init cap s₀) s → s.producerSig ≠ .destroy →
        ∃ (chunks : List Chunk) (ends : ℕ) (recs rest : List (List UInt8)),
          s.results = chunks.map some ++ List.replicate ends none ∧ recs ++ rest = parts k ∧
          (0 < ends → rest = []) ∧
          ∀ m, Consumer.nextRecords (recs.length + m) { later := chunks } =
            some (recs.map some ++ List.replicate m none) := by
  have hfiles := flatten_map_encodeRecords fs
  have hmod : (fs.map encodeRecords).flatten.length % 4 = 0 := by
    rw [hfiles, length_encodeRecords_mod h]
  have hcut : ∀ k, recordIOSplitter.cut (fs.map encodeRecords)
      (recordIOSplitter.bound (fs.map encodeRecords) n k) = some (encodeRecords (fs.flatten.take
        (begun fs.flatten (recordIOSplitter.bound (fs.map encodeRecords) n k / 4)))).length :=
    fun k => cut_eq h (RecordSplit.bound_le _ _ n k) (bound_mod hmod)
  have halign : ∀ file ∈ fs.map encodeRecords, file.length % recordIOSplitter.alignBytes = 0 := by
    intro file hfile
    obtain ⟨recs, hrecs, rfl⟩ := List.mem_map.mp hfile
    exact length_encodeRecords_mod fun rec hrec => h rec (List.mem_flatten.mpr ⟨recs, hrecs, hrec⟩)
  refine ⟨partRecords (fs.map encodeRecords) fs.flatten n, flatMap_partRecords h hfiles hn,
    fun k _ => ?_⟩
  have hbounds : recordIOSplitter.bound (fs.map encodeRecords) n k ≤
      recordIOSplitter.bound (fs.map encodeRecords) n (k + 1) := RecordSplit.bound_mono
  have hle := begun_mono fs.flatten (Nat.div_le_div_right (c := 4) hbounds)
  have hb := hcut k
  have he := hcut (k + 1)
  obtain ⟨i, hi⟩ : ∃ i, i =
    begun fs.flatten (recordIOSplitter.bound (fs.map encodeRecords) n k / 4) := ⟨_, rfl⟩
  obtain ⟨j, hj⟩ : ∃ j, j =
    begun fs.flatten (recordIOSplitter.bound (fs.map encodeRecords) n (k + 1) / 4) := ⟨_, rfl⟩
  rw [← hi] at hb hle
  rw [← hj] at he hle
  have hall := encodeRecords_slice fs.flatten hle
  have hend : (encodeRecords (fs.flatten.take j)).length ≤
      (fs.map encodeRecords).flatten.length := by
    rw [hfiles, hall, encodeRecords_take _ hle]
    simp only [List.length_append]
    omega
  obtain ⟨s₀, b', e', hinit, hpart, hle', hrest, hsame⟩ :=
    RecordSplit.init_eq (f := recordIOSplitter) halign hb he hend
  -- the bytes of the part
  have hbytes : ((fs.map encodeRecords).flatten.drop
      (encodeRecords (fs.flatten.take i)).length).take ((encodeRecords (fs.flatten.take j)).length -
        (encodeRecords (fs.flatten.take i)).length) =
          encodeRecords ((fs.flatten.take j).drop i) := by
    rw [hfiles, hall, List.drop_left, encodeRecords_take _ hle, List.length_append,
      Nat.add_sub_cancel_left, List.take_left]
  refine ⟨s₀, hinit, fun s hr hsig => ?_⟩
  obtain ⟨chunks, ends, rest, hresults, hchunked, hends⟩ :=
    RecordSplit.threaded_delivered finds hbuffer hpart hle' (hrest.trans hsame.symm) hr hsig
  have hshort : Short ((fs.flatten.take j).drop i) := (h.take j).drop i
  obtain ⟨css, rs, hcss, hrs, hrecs⟩ := chunks_eq hshort (hsame.trans hbytes) hchunked
  have hdelivered : Short css.flatten := fun rec hrec => hshort rec (by
    rw [← hrecs]
    exact List.mem_append_left _ hrec)
  refine ⟨chunks, ends, css.flatten, rs, hresults, ?_, fun hpos => ?_, fun m => ?_⟩
  · rw [hrecs, partRecords, ← hi, ← hj]
  · have hnil := hends hpos
    rw [hrs] at hnil
    cases rs with
    | nil => rfl
    | cons rec rs =>
      have hshorts : Short (rec :: rs) := fun r hr => hshort r (by
        rw [← hrecs]
        exact List.mem_append_right _ hr)
      obtain ⟨lrec, words', hwords, -⟩ :=
        (isRecord_encodeRecord (hshorts rec List.mem_cons_self)).exists_eq
      have hcons := words_encodeRecords_cons hshorts
      rw [hnil, hwords] at hcons
      cases hcons
  · exact Consumer.nextRecords_eq hdelivered
      ⟨[], css, rfl, hcss, Or.inl ⟨rfl, rfl⟩⟩ m

/-- Two files, and three records with `kMagic` in the middle of one. -/
theorem file_parts_two :
    ∃ parts : ℕ → List (List UInt8),
      (List.range 2).flatMap parts = [[1, 2, 3, 4, 0x0a, 0x23, 0xd7, 0xce, 5], [], [6]] ∧
      ∀ k < 2, (recordIOSplitter.init
        [encodeRecords [[1, 2, 3, 4, 0x0a, 0x23, 0xd7, 0xce, 5], []], encodeRecords [[6]]]
          k 2).isSome := by
  have hshort : Short [[[1, 2, 3, 4, 0x0a, 0x23, 0xd7, 0xce, 5], []], [[6]]].flatten := by
    intro rec hrec
    simp only [List.flatten_cons, List.flatten_nil, List.append_nil, List.cons_append,
      List.nil_append, List.mem_cons, List.not_mem_nil, or_false] at hrec
    rcases hrec with rfl | rfl | rfl <;> decide
  obtain ⟨parts, hall, hparts⟩ :=
    file_parts hshort (show 1 ≤ 2 by decide) id 8 (show 1 ≤ 1 by decide)
  refine ⟨parts, hall, fun k hk => ?_⟩
  obtain ⟨s₀, hinit, -⟩ := hparts k hk
  rw [List.map_cons, List.map_singleton] at hinit
  rw [hinit]
  rfl

end RecordIOSplitter

end Difacto.Io
