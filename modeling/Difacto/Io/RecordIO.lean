import Difacto.Lib.Bytes
import Mathlib.Algebra.Order.BigOperators.Group.List
import Mathlib.Data.Nat.Bitwise

/-!
# Records in a splittable format

`RecordIOWriter` and `RecordIOReader` of `dmlc-core/include/dmlc/recordio.h` and
`dmlc-core/src/recordio.cc`. A record is written in pieces: every aligned word of it that is
`kMagic` is left out and ends a piece, so that `kMagic` stands at an aligned place only where a
piece begins.

A stream is the list of its bytes. A failed `CHECK` is `none`; so is a loop that is not over after
`fuel` turns, which never happens.

## Main definitions

* `RecordIOWriter.writeRecord` — `WriteRecord`.
* `RecordIOReader.nextRecord` — `NextRecord`.
* `Pieces` — a record and the pieces it is cut into.

## Main results

* `RecordIOWriter.writeRecord_eq` — what is written.
* `RecordIOReader.read_back` — the reader returns the records that were written.
-/

namespace Difacto.Io

open Lib (leBytes ofLeBytes length_leBytes ofLeBytes_leBytes)

/-! ## The writer -/

/-- `RecordIOWriter`: what was written to `stream_`, and `except_counter_`. -/
structure RecordIOWriter where
  stream : List UInt8 := []
  exceptCounter : ℕ := 0

namespace RecordIOWriter

/-- `kMagic` -/
def kMagic : ℕ := 0xced7230a

/-- The bytes of `kMagic`. -/
def magic : List UInt8 := [0x0a, 0x23, 0xd7, 0xce]

/-- `EncodeLRec` -/
def encodeLRec (cflag length : ℕ) : ℕ := (cflag <<< 29 ||| length) % 2 ^ 32

/-- `DecodeFlag` -/
def decodeFlag (lrec : ℕ) : ℕ := (lrec >>> 29) &&& 7

/-- `DecodeLength` -/
def decodeLength (lrec : ℕ) : ℕ := lrec &&& ((1 <<< 29) - 1)

/-- `((len + 3U) >> 2U) << 2U` -/
def upperAlign (len : ℕ) : ℕ := (len + 3) >>> 2 <<< 2

/-- The body of the loop of `WriteRecord` at `i = 4 * j`, with `dptr`. -/
def scan (buf : List UInt8) (s : RecordIOWriter × ℕ) (j : ℕ) : RecordIOWriter × ℕ :=
  let (w, dptr) := s
  let i := 4 * j
  if (buf.drop i).take 4 = magic then
    let lrec := encodeLRec (if dptr = 0 then 1 else 2) (i - dptr)
    let bytes := if i ≠ dptr then (buf.drop dptr).take (i - dptr) else []
    ({ stream := w.stream ++ magic ++ leBytes 4 lrec ++ bytes,
       exceptCounter := w.exceptCounter + 1 }, i + 4)
  else (w, dptr)

/-- `WriteRecord` -/
def writeRecord (w : RecordIOWriter) (buf : List UInt8) : Option RecordIOWriter :=
  if buf.length < 1 <<< 29 then
    let lowerAlign := buf.length >>> 2 <<< 2
    let (w, dptr) := (List.range (lowerAlign / 4)).foldl (scan buf) (w, 0)
    let lrec := encodeLRec (if dptr ≠ 0 then 3 else 0) (buf.length - dptr)
    let bytes := if buf.length ≠ dptr then (buf.drop dptr).take (buf.length - dptr) else []
    some { w with
      stream := w.stream ++ magic ++ leBytes 4 lrec ++ bytes ++
        List.replicate (upperAlign buf.length - buf.length) 0 }
  else none

end RecordIOWriter

/-! ## The reader -/

/-- `RecordIOReader` -/
structure RecordIOReader where
  /-- the rest of `stream_` -/
  stream : List UInt8
  endOfStream : Bool := false

namespace RecordIOReader

open RecordIOWriter

/-- The loop of `NextRecord`: nothing when it returns false, else `*out_rec`; and the rest of the
stream. -/
def readLoop : ℕ → List UInt8 → List UInt8 → Option (Option (List UInt8) × List UInt8)
  | 0, _, _ => none
  | fuel + 1, stream, outRec =>
    let header := stream.take 8
    if header.length = 0 then some (none, stream)
    else if header.length ≠ 8 then none
    else if ofLeBytes (header.take 4) ≠ kMagic then none
    else
      let cflag := decodeFlag (ofLeBytes (header.drop 4))
      let len := decodeLength (ofLeBytes (header.drop 4))
      let data := (stream.drop 8).take (upperAlign len)
      if data.length ≠ upperAlign len then none
      else
        let outRec := outRec ++ data.take len
        let stream := stream.drop (8 + upperAlign len)
        if cflag = 0 ∨ cflag = 3 then some (some outRec, stream)
        else readLoop fuel stream (outRec ++ magic)

/-- `NextRecord`: nothing when it returns false. Every turn of the loop reads a header. -/
def nextRecord (r : RecordIOReader) : Option (Option (List UInt8) × RecordIOReader) :=
  if r.endOfStream then some (none, r)
  else (readLoop (r.stream.length + 1) r.stream []).map fun
    | (none, stream) => (none, { stream, endOfStream := true })
    | (some outRec, stream) => (some outRec, { r with stream })

/-- What `n` calls of `NextRecord` return. -/
def nextRecords : ℕ → RecordIOReader → Option (List (Option (List UInt8)))
  | 0, _ => some []
  | n + 1, r => r.nextRecord.bind fun (rec, r) => (nextRecords n r).map fun recs => rec :: recs

end RecordIOReader

/-! ## The words of the format -/

namespace RecordIOWriter

theorem ofLeBytes_magic : ofLeBytes magic = kMagic := by decide

variable {cflag len : ℕ}

theorem encodeLRec_eq (hflag : cflag ≤ 3) (hlen : len < 2 ^ 29) :
    encodeLRec cflag len = cflag * 2 ^ 29 + len := by
  rw [encodeLRec, Nat.shiftLeft_eq, ← Nat.shiftLeft_eq, ← Nat.shiftLeft_add_eq_or_of_lt hlen,
    Nat.shiftLeft_eq, Nat.mod_eq_of_lt (by omega)]

theorem encodeLRec_lt (hflag : cflag ≤ 3) (hlen : len < 2 ^ 29) :
    encodeLRec cflag len < kMagic := by
  rw [encodeLRec_eq hflag hlen, kMagic]
  omega

theorem decodeFlag_encodeLRec (hflag : cflag ≤ 3) (hlen : len < 2 ^ 29) :
    decodeFlag (encodeLRec cflag len) = cflag := by
  rw [encodeLRec_eq hflag hlen, decodeFlag, Nat.shiftRight_eq_div_pow,
    show (7 : ℕ) = 2 ^ 3 - 1 from rfl, Nat.and_two_pow_sub_one_eq_mod]
  omega

theorem decodeLength_encodeLRec (hflag : cflag ≤ 3) (hlen : len < 2 ^ 29) :
    decodeLength (encodeLRec cflag len) = len := by
  rw [encodeLRec_eq hflag hlen, decodeLength, show 1 <<< 29 - 1 = 2 ^ 29 - 1 from rfl,
    Nat.and_two_pow_sub_one_eq_mod]
  omega

theorem upperAlign_eq (len : ℕ) : upperAlign len = (len + 3) / 4 * 4 := by
  rw [upperAlign, Nat.shiftRight_eq_div_pow, Nat.shiftLeft_eq]

theorem upperAlign_of_aligned (h : len % 4 = 0) : upperAlign len = len := by
  rw [upperAlign_eq]
  omega

/-! ## Pieces -/

/-- The words of these bytes at aligned places are not `kMagic`. -/
def NoMagic (bs : List UInt8) : Prop := ∀ j, (bs.drop (4 * j)).take 4 ≠ magic

/-- The pieces `ps` and `last` of a record, between which the words are left out that are `kMagic`.
-/
structure Pieces (buf : List UInt8) (ps : List (List UInt8)) (last : List UInt8) : Prop where
  join : (ps.flatMap fun p => p ++ magic) ++ last = buf
  aligned : ∀ p ∈ ps, p.length % 4 = 0
  noMagic : ∀ p ∈ ps, NoMagic p
  last : NoMagic last

/-- The pieces are shorter than the record. -/
theorem Pieces.length_lt {buf last : List UInt8} {ps : List (List UInt8)} {n : ℕ}
    (h : Pieces buf ps last) (hlen : buf.length < n) :
    (∀ p ∈ ps, p.length < n) ∧ last.length < n := by
  have hjoin := h.join
  rw [← hjoin, List.length_append] at hlen
  refine ⟨fun p hp => ?_, by omega⟩
  have hsub : (p ++ magic).Sublist (ps.flatMap fun p => p ++ magic) := by
    rw [List.flatMap_def]
    exact List.sublist_flatten_of_mem (List.mem_map_of_mem hp)
  have hle := hsub.length_le
  rw [List.length_append] at hle
  omega

/-- A piece with its header. -/
def encodePiece (cflag : ℕ) (p : List UInt8) : List UInt8 :=
  magic ++ leBytes 4 (encodeLRec cflag p.length) ++ p ++
    List.replicate (upperAlign p.length - p.length) 0

/-- The pieces before the last one. -/
def encodeHead : List (List UInt8) → List UInt8
  | [] => []
  | p :: ps => encodePiece 1 p ++ ps.flatMap (encodePiece 2)

/-- A record in pieces. -/
def encodePieces (ps : List (List UInt8)) (last : List UInt8) : List UInt8 :=
  encodeHead ps ++ encodePiece (if ps = [] then 0 else 3) last

/-- How many words of a record are left out. -/
def magics (buf : List UInt8) : ℕ :=
  (List.range (buf.length / 4)).countP fun j => decide ((buf.drop (4 * j)).take 4 = magic)

theorem encodePiece_of_aligned {cflag : ℕ} {p : List UInt8} (h : p.length % 4 = 0) :
    encodePiece cflag p = magic ++ leBytes 4 (encodeLRec cflag p.length) ++ p := by
  rw [encodePiece, upperAlign_of_aligned h, Nat.sub_self, List.replicate_zero, List.append_nil]

theorem encodeHead_concat (ps : List (List UInt8)) (p : List UInt8) :
    encodeHead (ps ++ [p]) = encodeHead ps ++ encodePiece (if ps = [] then 1 else 2) p := by
  cases ps with
  | nil => simp [encodeHead]
  | cons q qs => simp [encodeHead]

theorem length_magic : magic.length = 4 := rfl

/-- What the loop of `WriteRecord` has done with the first `n` words. -/
structure Scanned (buf : List UInt8) (n : ℕ) (w : RecordIOWriter) (ps : List (List UInt8))
    (s : RecordIOWriter × ℕ) : Prop where
  le : s.2 ≤ 4 * n
  aligned : s.2 % 4 = 0
  stream : s.1.stream = w.stream ++ encodeHead ps
  count : s.1.exceptCounter = w.exceptCounter + ps.length
  taken : (ps.flatMap fun p => p ++ magic) = buf.take s.2
  pieces : ∀ p ∈ ps, p.length % 4 = 0 ∧ NoMagic p
  none_iff : s.2 = 0 ↔ ps = []
  free : ∀ j < n, s.2 ≤ 4 * j → (buf.drop (4 * j)).take 4 ≠ magic
  magics : ps.length =
    (List.range n).countP fun j => decide ((buf.drop (4 * j)).take 4 = magic)

/-- A piece that was looked through word by word. -/
theorem noMagic_of_free {buf : List UInt8} {dptr i : ℕ} (hdptr : dptr % 4 = 0) (hi : i % 4 = 0)
    (hfree : ∀ j, 4 * j < i → dptr ≤ 4 * j → (buf.drop (4 * j)).take 4 ≠ magic) :
    NoMagic ((buf.drop dptr).take (i - dptr)) := by
  intro j hmagic
  have hlen := congrArg List.length hmagic
  rw [List.drop_take, List.drop_drop, List.take_take] at hmagic
  rw [length_magic, List.length_take, List.length_drop, List.length_take] at hlen
  have hinside : dptr + 4 * j < i := by omega
  refine hfree (dptr / 4 + j) (by omega) (by omega) ?_
  rw [min_eq_left (by omega)] at hmagic
  rw [show 4 * (dptr / 4 + j) = dptr + 4 * j by omega]
  exact hmagic

/-- The pieces do not depend on the writer. -/
theorem exists_scanned (buf : List UInt8) {n : ℕ} (hn : 4 * n ≤ buf.length) :
    ∃ ps, ∀ w, Scanned buf n w ps ((List.range n).foldl (scan buf) (w, 0)) := by
  induction n with
  | zero =>
    exact ⟨[], fun w =>
      ⟨le_rfl, rfl, (List.append_nil _).symm, rfl, rfl, by simp, by simp, by simp, rfl⟩⟩
  | succ n ih =>
    obtain ⟨ps, hall⟩ := ih (by omega)
    by_cases hword : (buf.drop (4 * n)).take 4 = magic
    · -- `dptr` is the length of what the pieces hold
      refine ⟨ps ++ [(buf.drop (ps.flatMap fun p => p ++ magic).length).take
        (4 * n - (ps.flatMap fun p => p ++ magic).length)], fun w => ?_⟩
      have hs := hall w
      rw [List.range_succ, List.foldl_concat]
      generalize (List.range n).foldl (scan buf) (w, 0) = s at hs
      obtain ⟨w', dptr⟩ := s
      obtain ⟨hle, haligned, hstream, hcount, htaken, hpieces, hnone, hfree, hmagics⟩ := hs
      simp only at hle haligned hstream hcount htaken hnone hfree
      have hdptr : (ps.flatMap fun p => p ++ magic).length = dptr := by
        rw [htaken, List.length_take]
        omega
      rw [hdptr, scan]
      obtain ⟨p, hp⟩ : ∃ p, p = (buf.drop dptr).take (4 * n - dptr) := ⟨_, rfl⟩
      have hplen : p.length = 4 * n - dptr := by
        rw [hp, List.length_take, List.length_drop]
        omega
      have hbytes : (if 4 * n ≠ dptr then p else []) = p := by
        split
        · rfl
        · next h => exact (List.length_eq_zero_iff.mp (by omega)).symm
      have hcons : (buf.drop dptr).take (4 * n - dptr) ++ magic =
          (buf.drop dptr).take (4 * n + 4 - dptr) := by
        rw [show 4 * n + 4 - dptr = 4 * n - dptr + 4 by omega, List.take_add, List.drop_drop,
          Nat.add_sub_cancel' hle, hword]
      simp only [if_pos hword, ← hp, hbytes]
      refine ⟨?_, ?_, ?_, ?_, ?_, ?_, ?_, ?_, ?_⟩
      · exact le_of_eq (by ring)
      · show (4 * n + 4) % 4 = 0
        omega
      · rw [encodeHead_concat, encodePiece_of_aligned (by omega), hstream, hplen]
        by_cases hps : ps = []
        · simp [hnone.mpr hps, hps]
        · simp [mt hnone.mp hps, hps]
      · simp only [hcount, List.length_append, List.length_singleton]
        omega
      · simp only [List.flatMap_append, htaken, List.flatMap_singleton]
        rw [hp, hcons, show 4 * n + 4 = dptr + (4 * n + 4 - dptr) by omega, List.take_add,
          Nat.add_sub_cancel_left]
      · intro q hq
        rcases List.mem_append.mp hq with hq | hq
        · exact hpieces q hq
        · rw [List.mem_singleton.mp hq]
          refine ⟨by omega, ?_⟩
          rw [hp]
          exact noMagic_of_free haligned (by omega) fun j hj hd => hfree j (by omega) hd
      · simp
      · intro j hj hd
        simp only at hd
        omega
      · rw [List.range_succ, List.countP_append, List.length_append, hmagics]
        simp [hword]
    · refine ⟨ps, fun w => ?_⟩
      have hs := hall w
      rw [List.range_succ, List.foldl_concat]
      generalize (List.range n).foldl (scan buf) (w, 0) = s at hs
      obtain ⟨w', dptr⟩ := s
      obtain ⟨hle, haligned, hstream, hcount, htaken, hpieces, hnone, hfree, hmagics⟩ := hs
      simp only at hle haligned hstream hcount htaken hnone hfree
      rw [scan]
      simp only [if_neg hword]
      refine ⟨?_, haligned, hstream, hcount, htaken, hpieces, hnone, ?_, ?_⟩
      · show dptr ≤ 4 * (n + 1)
        omega
      · intro j hj hd
        rcases Nat.lt_succ_iff_lt_or_eq.mp hj with hj | rfl
        · exact hfree j hj hd
        · exact hword
      · rw [List.range_succ, List.countP_append, hmagics]
        simp [hword]

/-- **`WriteRecord`** cuts a record into pieces and counts the words that it leaves out. -/
theorem exists_pieces {buf : List UInt8} (hlen : buf.length < 2 ^ 29) :
    ∃ ps last, Pieces buf ps last ∧ ∀ w, writeRecord w buf =
      some { stream := w.stream ++ encodePieces ps last,
             exceptCounter := w.exceptCounter + magics buf } := by
  have hlower : buf.length >>> 2 <<< 2 / 4 = buf.length / 4 := by
    rw [Nat.shiftRight_eq_div_pow, Nat.shiftLeft_eq]
    omega
  obtain ⟨ps, hall⟩ := exists_scanned buf (n := buf.length / 4) (by omega)
  have hs := hall {}
  refine ⟨ps, buf.drop (ps.flatMap fun p => p ++ magic).length, ?_, fun w => ?_⟩
  · generalize (List.range (buf.length / 4)).foldl (scan buf) ({}, 0) = s at hs
    have hle := hs.le
    have haligned := hs.aligned
    have hdptr : (ps.flatMap fun p => p ++ magic).length = s.2 := by
      rw [hs.taken, List.length_take]
      omega
    refine ⟨?_, fun p hp => (hs.pieces p hp).1, fun p hp => (hs.pieces p hp).2, ?_⟩
    · rw [hdptr, hs.taken, List.take_append_drop]
    · intro j hmagic
      have hwhole := congrArg List.length hmagic
      rw [length_magic, List.length_take, List.length_drop, List.length_drop, hdptr] at hwhole
      rw [hdptr, List.drop_drop] at hmagic
      refine hs.free (s.2 / 4 + j) (by omega) (by omega) ?_
      rw [show 4 * (s.2 / 4 + j) = s.2 + 4 * j by omega]
      exact hmagic
  · have hs := hall w
    rw [writeRecord, if_pos (by simpa using hlen)]
    simp only [hlower]
    generalize (List.range (buf.length / 4)).foldl (scan buf) (w, 0) = s at hs
    obtain ⟨w', dptr⟩ := s
    obtain ⟨hle, haligned, hstream, hcount, htaken, hpieces, hnone, hfree, hmagics⟩ := hs
    simp only at hle haligned hstream hcount htaken hnone hfree
    have hdptr : (ps.flatMap fun p => p ++ magic).length = dptr := by
      rw [htaken, List.length_take]
      omega
    rw [hdptr]
    obtain ⟨last, hlast⟩ : ∃ last, last = buf.drop dptr := ⟨_, rfl⟩
    have hlastlen : last.length = buf.length - dptr := by rw [hlast, List.length_drop]
    have hbytes : (if buf.length ≠ dptr then last.take (buf.length - dptr) else []) = last := by
      split
      · exact List.take_of_length_le hlastlen.le
      · next h => exact (List.length_eq_zero_iff.mp (by omega)).symm
    have hpad : upperAlign buf.length - buf.length = upperAlign last.length - last.length := by
      rw [upperAlign_eq, upperAlign_eq]
      omega
    have hflag : (if dptr ≠ 0 then 3 else 0) = if ps = [] then 0 else 3 := by
      by_cases hps : ps = []
      · simp [hnone.mpr hps, hps]
      · simp [mt hnone.mp hps, hps]
    simp only [← hlast, hbytes, hpad, hflag, hstream, hcount, hmagics, encodePieces, encodePiece,
      hlastlen, magics, List.append_assoc]

/-- A record as it is written. -/
def encodeRecord (buf : List UInt8) : List UInt8 :=
  ((writeRecord {} buf).map RecordIOWriter.stream).getD []

theorem encodeRecord_eq {buf : List UInt8} (hlen : buf.length < 2 ^ 29) :
    ∃ ps last, Pieces buf ps last ∧ encodeRecord buf = encodePieces ps last := by
  obtain ⟨ps, last, hpieces, hwrite⟩ := exists_pieces hlen
  exact ⟨ps, last, hpieces, by simp [encodeRecord, hwrite]⟩

theorem writeRecord_eq (w : RecordIOWriter) {buf : List UInt8} (hlen : buf.length < 2 ^ 29) :
    writeRecord w buf = some { stream := w.stream ++ encodeRecord buf,
                               exceptCounter := w.exceptCounter + magics buf } := by
  obtain ⟨ps, last, -, hwrite⟩ := exists_pieces hlen
  have hencode : encodeRecord buf = encodePieces ps last := by simp [encodeRecord, hwrite]
  rw [hwrite, hencode]

/-- The records of a file as they are written. -/
def encodeRecords (recs : List (List UInt8)) : List UInt8 := recs.flatMap encodeRecord

/-- A writer that writes some records. -/
theorem foldlM_writeRecord (w : RecordIOWriter) {recs : List (List UInt8)}
    (hlen : ∀ rec ∈ recs, rec.length < 2 ^ 29) :
    recs.foldlM writeRecord w = some
      { stream := w.stream ++ encodeRecords recs,
        exceptCounter := w.exceptCounter + (recs.map magics).sum } := by
  induction recs generalizing w with
  | nil => simp [encodeRecords]
  | cons rec recs ih =>
    rw [List.foldlM_cons, writeRecord_eq w (hlen rec List.mem_cons_self), Option.bind_eq_bind,
      Option.bind_some, ih _ fun r hr => hlen r (List.mem_cons_of_mem _ hr)]
    simp [encodeRecords, Nat.add_assoc]

end RecordIOWriter

/-! ## The round trip -/

namespace RecordIOReader

open RecordIOWriter

theorem length_encodePiece (cflag : ℕ) (p : List UInt8) :
    (encodePiece cflag p).length = 8 + upperAlign p.length := by
  have hle : p.length ≤ upperAlign p.length := by
    rw [upperAlign_eq]
    omega
  rw [encodePiece, List.length_append, List.length_append, List.length_append, length_magic,
    length_leBytes, List.length_replicate]
  omega

/-- There are no more pieces than bytes. -/
theorem length_le_flatMap_encodePiece (cflag : ℕ) (ps : List (List UInt8)) :
    ps.length ≤ (ps.flatMap (encodePiece cflag)).length := by
  induction ps with
  | nil => simp
  | cons p ps ih =>
    rw [List.flatMap_cons, List.length_append, length_encodePiece, List.length_cons]
    omega

/-- One turn of the loop reads one piece. -/
theorem readLoop_piece (fuel : ℕ) {cflag : ℕ} (hflag : cflag ≤ 3) {p : List UInt8}
    (hlen : p.length < 2 ^ 29) (rest outRec : List UInt8) :
    readLoop (fuel + 1) (encodePiece cflag p ++ rest) outRec =
      if cflag = 0 ∨ cflag = 3 then some (some (outRec ++ p), rest)
      else readLoop fuel rest (outRec ++ p ++ magic) := by
  have hle : p.length ≤ upperAlign p.length := by
    rw [upperAlign_eq]
    omega
  have hrec := encodeLRec_lt hflag hlen
  obtain ⟨head, hhead⟩ : ∃ head, head = magic ++ leBytes 4 (encodeLRec cflag p.length) := ⟨_, rfl⟩
  obtain ⟨body, hbody⟩ :
    ∃ body, body = p ++ List.replicate (upperAlign p.length - p.length) (0 : UInt8) := ⟨_, rfl⟩
  have hheadlen : head.length = 8 := by
    rw [hhead, List.length_append, length_magic, length_leBytes]
  have hbodylen : body.length = upperAlign p.length := by
    rw [hbody, List.length_append, List.length_replicate]
    omega
  have hpiece : encodePiece cflag p ++ rest = head ++ (body ++ rest) := by
    rw [hhead, hbody, encodePiece]
    simp only [List.append_assoc]
  have hword : ofLeBytes (leBytes 4 (encodeLRec cflag p.length)) = encodeLRec cflag p.length :=
    ofLeBytes_leBytes (hrec.trans (by decide))
  have hdrop : head.drop 4 = leBytes 4 (encodeLRec cflag p.length) := by
    rw [hhead, List.drop_left' length_magic]
  have htake : head.take 4 = magic := by rw [hhead, List.take_left' length_magic]
  rw [hpiece, readLoop]
  simp only [List.take_left' hheadlen, List.drop_left' hheadlen, hheadlen, htake, hdrop, hword,
    ofLeBytes_magic, decodeFlag_encodeLRec hflag hlen, decodeLength_encodeLRec hflag hlen,
    List.take_left' hbodylen, hbodylen]
  have hrest : (head ++ (body ++ rest)).drop (8 + upperAlign p.length) = rest := by
    rw [← List.drop_drop, List.drop_left' hheadlen, List.drop_left' hbodylen]
  have hp : body.take p.length = p := by rw [hbody, List.take_left]
  rw [hrest, hp]
  simp

/-- The pieces after the first one. -/
theorem readLoop_tail {fuel : ℕ} {ps : List (List UInt8)} {last : List UInt8}
    (hps : ∀ p ∈ ps, p.length < 2 ^ 29) (hlast : last.length < 2 ^ 29) (hfuel : ps.length < fuel)
    (rest outRec : List UInt8) :
    readLoop fuel (ps.flatMap (encodePiece 2) ++ encodePiece 3 last ++ rest) outRec =
      some (some (outRec ++ (ps.flatMap fun p => p ++ magic) ++ last), rest) := by
  induction ps generalizing fuel outRec with
  | nil =>
    obtain ⟨fuel, rfl⟩ : ∃ m, fuel = m + 1 := ⟨fuel - 1, by simp at hfuel; omega⟩
    simp [readLoop_piece fuel (show 3 ≤ 3 from le_rfl) hlast]
  | cons p ps ih =>
    obtain ⟨fuel, rfl⟩ : ∃ m, fuel = m + 1 := ⟨fuel - 1, by simp at hfuel; omega⟩
    have hrun := ih (fun q hq => hps q (List.mem_cons_of_mem _ hq))
      (by simpa using hfuel) (outRec ++ p ++ magic)
    rw [List.flatMap_cons, List.append_assoc, List.append_assoc,
      readLoop_piece fuel (show 2 ≤ 3 by omega) (hps p List.mem_cons_self), if_neg (by omega),
      ← List.append_assoc, hrun, List.flatMap_cons]
    simp only [List.append_assoc]

/-- **`NextRecord`** puts the pieces of a record together again. -/
theorem readLoop_record {buf : List UInt8} (hlen : buf.length < 2 ^ 29) {fuel : ℕ}
    (rest : List UInt8) (hfuel : (encodeRecord buf ++ rest).length < fuel) :
    readLoop fuel (encodeRecord buf ++ rest) [] = some (some buf, rest) := by
  obtain ⟨ps, last, hpieces, hencode⟩ := encodeRecord_eq hlen
  have hjoin := hpieces.join
  obtain ⟨hps, hlast⟩ := hpieces.length_lt hlen
  rw [hencode] at hfuel ⊢
  obtain ⟨fuel, rfl⟩ : ∃ m, fuel = m + 1 := ⟨fuel - 1, by omega⟩
  cases ps with
  | nil =>
    obtain rfl : last = buf := by simpa using hjoin
    simp [encodePieces, encodeHead, readLoop_piece fuel (Nat.zero_le 3) hlast]
  | cons p ps =>
    have hroom : ps.length < fuel := by
      have hle := length_le_flatMap_encodePiece 2 ps
      simp only [encodePieces, encodeHead, List.length_append, length_encodePiece] at hfuel
      omega
    rw [encodePieces, if_neg (List.cons_ne_nil p ps), encodeHead, List.append_assoc,
      List.append_assoc, readLoop_piece fuel (show 1 ≤ 3 by omega) (hps p List.mem_cons_self),
      if_neg (by omega), ← List.append_assoc,
      readLoop_tail (fun q hq => hps q (List.mem_cons_of_mem _ hq)) hlast hroom]
    rw [List.flatMap_cons] at hjoin
    rw [← hjoin]
    simp

theorem nextRecords_end (k : ℕ) (stream : List UInt8) :
    nextRecords k { stream, endOfStream := true } = some (List.replicate k none) := by
  induction k with
  | zero => rfl
  | succ k ih => simp [nextRecords, nextRecord, ih, List.replicate_succ]

/-- What is read of a stream of records. -/
theorem nextRecords_encodeRecords {recs : List (List UInt8)}
    (hlen : ∀ rec ∈ recs, rec.length < 2 ^ 29) (k : ℕ) :
    nextRecords (recs.length + k) { stream := encodeRecords recs } =
      some (recs.map some ++ List.replicate k none) := by
  induction recs with
  | nil =>
    cases k with
    | zero => rfl
    | succ k =>
      simp [encodeRecords, nextRecords, nextRecord, readLoop, nextRecords_end,
        List.replicate_succ]
  | cons rec recs ih =>
    have hread := readLoop_record (hlen rec List.mem_cons_self) (encodeRecords recs)
      (Nat.lt_succ_self _)
    rw [List.length_cons, Nat.succ_add, nextRecords, nextRecord]
    simp only [encodeRecords, List.flatMap_cons] at hread ⊢
    rw [if_neg (by simp), hread]
    have hrest := ih fun r hr => hlen r (List.mem_cons_of_mem _ hr)
    simp only [encodeRecords] at hrest
    simp [hrest]

/-- **The round trip**: `NextRecord` returns the records that were written, whatever words they
contain, and then false for ever; `except_counter` says how many aligned words of the records are
`kMagic`. -/
theorem read_back {recs : List (List UInt8)} (hlen : ∀ rec ∈ recs, rec.length < 2 ^ 29) :
    ∃ w : RecordIOWriter, recs.foldlM writeRecord {} = some w ∧
      w.exceptCounter = (recs.map magics).sum ∧
      ∀ k, nextRecords (recs.length + k) { stream := w.stream } =
        some (recs.map some ++ List.replicate k none) := by
  refine ⟨_, foldlM_writeRecord {} hlen, Nat.zero_add _, fun k => ?_⟩
  rw [List.nil_append]
  exact nextRecords_encodeRecords hlen k

/-- A record that begins with `kMagic`, and an empty one. -/
theorem read_back_magic :
    (∀ rec ∈ [[0x0a, 0x23, 0xd7, 0xce, 7], []], rec.length < 2 ^ 29) ∧
      ∃ w : RecordIOWriter, [[0x0a, 0x23, 0xd7, 0xce, 7], []].foldlM writeRecord {} = some w ∧
        w.exceptCounter = 1 ∧
        ∀ k, nextRecords (2 + k) { stream := w.stream } =
          some ([some [0x0a, 0x23, 0xd7, 0xce, 7], some []] ++ List.replicate k none) :=
  ⟨by decide, read_back (by decide)⟩

end RecordIOReader

end Difacto.Io
