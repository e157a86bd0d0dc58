import Difacto.Lib.Ints
import Mathlib.Algebra.Ring.Nat
import Mathlib.Data.List.Basic

/-!
# Writing an object

`obs::WriteStream` of `dmlc-core/src/io/obs_filesys.cc`: the bytes that are written are
gathered in a buffer and uploaded in parts, and the destructor uploads the rest and completes
the upload. The SDK asks for the bytes of a part by calls of `upload_part_data_callback` with
buffers of its own choice. All requests succeed. A failed `CHECK` is `none`.

Part numbers are `unsigned int` in the requests, `int` in the callback data and `size_t` in
`part_ids_`. The loop of `Finish` counts the parts with an `unsigned int`, so it never ends
from `2 ^ 32` parts on; this is `none` as well. `parts` is history: the number and the bytes of
each part that was uploaded.

## Main definitions

* `UploadService` — the calls that the SDK makes.
* `WriteStream.write`, `WriteStream.upload`, `WriteStream.finish` — the stream.
* `WriteStream.store` — a stream from its construction to its destruction.
* `WriteStream.partCount` — into how many parts the written bytes are cut.

## Main results

* `uploadPart_eq` — a part arrives as it was in the buffer.
* `WriteStream.Inv.write` — the invariant of all runs.
* `WriteStream.stores_iff` — when the object is what was written.
-/

namespace Difacto.Io

open Lib

/-- What the SDK does in upload number `r`: the sizes of the buffers with which it asks for the
`n` bytes of a part, until it has all of them, and the etag that it returns. -/
structure UploadService where
  bufferSizes : ℕ → ℕ → List ℕ
  etag : ℕ → List UInt8
  bufferSizes_pos : ∀ r n, ∀ b ∈ bufferSizes r n, 0 < b ∧ b < 2 ^ 31
  le_sum : ∀ r n, n ≤ (bufferSizes r n).sum
  etag_ne : ∀ r, etag r ≠ []
  etag_length : ∀ r, (etag r).length < 256
  etag_nul : ∀ r, ∀ b ∈ etag r, b ≠ 0

/-- The string that begins in an array of characters. -/
def cString (bs : List UInt8) : List UInt8 := bs.takeWhile fun b => b ≠ 0

/-- `upload_part_callback_data` -/
structure UploadPartData where
  partNum : ℤ
  putBuffer : List UInt8
  bufferSize : ℕ
  wantWriteBytes : ℕ
  curOffset : ℕ
  /-- `char etag[256]` -/
  etag : List UInt8

/-- `upload_part_response_properties_callback` -/
def uploadPartResponsePropertiesCallback (data : UploadPartData) (etag : List UInt8) :
    UploadPartData :=
  { data with etag := etag ++ data.etag.drop etag.length }

/-- `upload_part_data_callback`: what it puts in the buffer, and the callback data. -/
def uploadPartDataCallback (data : UploadPartData) (bufferSize : ℕ) :
    List UInt8 × UploadPartData :=
  if data.wantWriteBytes = 0 then ([], data)
  else
    let toWrite := if bufferSize < data.wantWriteBytes then bufferSize else data.wantWriteBytes
    ((data.putBuffer.drop data.curOffset).take toWrite,
      { data with
        wantWriteBytes := data.wantWriteBytes - toWrite
        curOffset := data.curOffset + toWrite })

/-- The calls of `upload_part_data_callback` for one part, and the bytes they give. -/
def askFor (data : UploadPartData) : List ℕ → List UInt8 × UploadPartData
  | [] => ([], data)
  | b :: bs =>
    let r := uploadPartDataCallback data b
    let r' := askFor r.2 bs
    (r.1 ++ r'.1, r'.2)

/-- `upload_part`: the bytes that the service gets, and the callback data after it. -/
def uploadPart (svc : UploadService) (r : ℕ) (data : UploadPartData) :
    List UInt8 × UploadPartData :=
  let sent := askFor data (svc.bufferSizes r data.bufferSize)
  (sent.1, uploadPartResponsePropertiesCallback sent.2 (svc.etag r))

/-- `WriteStream` -/
structure WriteStream where
  maxBufferSize : ℕ
  buffer : List UInt8
  etags : List (List UInt8)
  partIds : List ℕ
  currBytes : ℕ
  writeBytes : ℕ
  parts : List (ℕ × List UInt8)

namespace WriteStream

/-- `WriteStream::WriteStream` -/
def init (maxBufferSize : ℕ) : WriteStream :=
  { maxBufferSize, buffer := [], etags := [], partIds := [], currBytes := 0, writeBytes := 0
    parts := [] }

/-- The callback data that `Upload` prepares. -/
def uploadData (s : WriteStream) : UploadPartData :=
  { partNum := toInt (s.etags.length + 1)
    putBuffer := s.buffer
    bufferSize := s.buffer.length
    wantWriteBytes := s.buffer.length
    curOffset := 0
    etag := List.replicate 256 0 }

/-- `Upload` -/
def upload (svc : UploadService) (s : WriteStream) : Option WriteStream :=
  let sent := uploadPart svc s.parts.length s.uploadData
  if cString sent.2.etag ≠ [] then
    some { s with
      currBytes := s.currBytes + (sent.2.curOffset + 1)
      buffer := []
      partIds := s.partIds ++ [toSizeT sent.2.partNum]
      etags := s.etags ++ [cString sent.2.etag]
      parts := s.parts ++ [(toUnsigned (s.etags.length + 1), sent.1)] }
  else none

/-- `Write` -/
def write (svc : UploadService) (s : WriteStream) (bytes : List UInt8) : Option WriteStream :=
  let s := { s with buffer := s.buffer ++ bytes, writeBytes := s.writeBytes + bytes.length }
  if s.maxBufferSize ≤ s.buffer.length then s.upload svc else some s

/-- `Finish`: the part numbers and the etags that are passed to
`complete_multi_part_upload`. -/
def finish (s : WriteStream) : Option (List (ℕ × List UInt8)) :=
  if s.etags.length = s.partIds.length then
    if s.partIds.length < 2 ^ 32 then some ((s.partIds.map toUnsigned).zip s.etags) else none
  else none

/-- A stream that is written to and destroyed: what the upload is completed with, and the
parts. -/
def store (svc : UploadService) (maxBufferSize : ℕ) (writes : List (List UInt8)) :
    Option (List (ℕ × List UInt8) × List (ℕ × List UInt8)) := do
  let s ← writes.foldlM (write svc) (init maxBufferSize)
  let s ← s.upload svc
  let info ← s.finish
  return (info, s.parts)

/-- The number of parts of a stream that is written to and destroyed, when there are `n` bytes
in its buffer. -/
def partCount (maxBufferSize : ℕ) : ℕ → List (List UInt8) → ℕ
  | _, [] => 1
  | n, w :: ws =>
    if maxBufferSize ≤ n + w.length then partCount maxBufferSize 0 ws + 1
    else partCount maxBufferSize (n + w.length) ws

end WriteStream

/-! ## One part -/

/-- The calls take the bytes one after the other. -/
theorem askFor_eq (bs : List ℕ) (data : UploadPartData)
    (hwant : data.curOffset + data.wantWriteBytes = data.putBuffer.length) :
    askFor data bs = ((data.putBuffer.drop data.curOffset).take bs.sum,
      { data with
        wantWriteBytes := data.wantWriteBytes - bs.sum
        curOffset := data.curOffset + min data.wantWriteBytes bs.sum }) := by
  induction bs generalizing data with
  | nil => simp [askFor]
  | cons b bs ih =>
      rw [askFor, List.sum_cons]
      by_cases hzero : data.wantWriteBytes = 0
      · -- nothing is left
        have hnil : data.putBuffer.drop data.curOffset = [] :=
          List.drop_eq_nil_of_le (by omega)
        have hcall : uploadPartDataCallback data b = ([], data) := if_pos hzero
        simp only [hcall, ih data hwant, hnil, List.take_nil, List.nil_append, hzero,
          Nat.zero_sub, Nat.zero_min]
      · obtain ⟨n, hn⟩ : ∃ n, n = min data.wantWriteBytes b := ⟨_, rfl⟩
        have hwrite : (if b < data.wantWriteBytes then b else data.wantWriteBytes) = n := by
          split <;> omega
        have hcall : uploadPartDataCallback data b =
            ((data.putBuffer.drop data.curOffset).take n, { data with
              wantWriteBytes := data.wantWriteBytes - n, curOffset := data.curOffset + n }) := by
          rw [uploadPartDataCallback, if_neg hzero, hwrite]
        have hwant' : data.curOffset + n + (data.wantWriteBytes - n) = data.putBuffer.length := by
          omega
        have hrest := ih { data with
          wantWriteBytes := data.wantWriteBytes - n, curOffset := data.curOffset + n } hwant'
        have htake : (data.putBuffer.drop data.curOffset).take n ++
            (data.putBuffer.drop (data.curOffset + n)).take bs.sum =
              (data.putBuffer.drop data.curOffset).take (b + bs.sum) := by
          rw [← List.drop_drop, ← List.take_add]
          by_cases hb : b ≤ data.wantWriteBytes
          · rw [hn, min_eq_right hb]
          · rw [List.take_of_length_le (by rw [List.length_drop]; omega),
              List.take_of_length_le (by rw [List.length_drop]; omega)]
        have hleft : data.wantWriteBytes - n - bs.sum = data.wantWriteBytes - (b + bs.sum) := by
          omega
        have hoff : data.curOffset + n + min (data.wantWriteBytes - n) bs.sum =
            data.curOffset + min data.wantWriteBytes (b + bs.sum) := by
          omega
        simp only [hcall, hrest, htake, hleft, hoff]

theorem cString_append {etag rest : List UInt8} (hnul : ∀ b ∈ etag, b ≠ 0) :
    cString (etag ++ 0 :: rest) = etag := by
  have htail : (0 :: rest : List UInt8).takeWhile (fun b => b ≠ 0) = [] := by simp
  rw [cString, List.takeWhile_append_of_pos (by simpa using hnul), htail, List.append_nil]

/-- **A part arrives as it was in the buffer**, in whatever pieces the SDK asks for it, and the
etag is the one that was returned. -/
theorem uploadPart_eq (svc : UploadService) (r : ℕ) (s : WriteStream) :
    (uploadPart svc r s.uploadData).1 = s.buffer ∧
      cString (uploadPart svc r s.uploadData).2.etag = svc.etag r ∧
      (uploadPart svc r s.uploadData).2.partNum = toInt (s.etags.length + 1) := by
  have hask := askFor_eq (svc.bufferSizes r s.buffer.length) s.uploadData (Nat.zero_add _)
  have hsize : s.uploadData.bufferSize = s.buffer.length := rfl
  have hetag : s.uploadData.etag = List.replicate 256 0 := rfl
  simp only [uploadPart, hsize, hask, uploadPartResponsePropertiesCallback, hetag]
  refine ⟨?_, ?_, ?_⟩
  · show (s.buffer.drop 0).take _ = _
    rw [List.drop_zero, List.take_of_length_le (svc.le_sum r s.buffer.length)]
  · obtain ⟨k, hk⟩ : ∃ k, 256 - (svc.etag r).length = k + 1 :=
      ⟨255 - (svc.etag r).length, by have := svc.etag_length r; omega⟩
    rw [List.drop_replicate, hk, List.replicate_succ, cString_append (svc.etag_nul r)]
  · rw [WriteStream.uploadData]

namespace WriteStream

variable {svc : UploadService} {s : WriteStream}

/-- `Upload` does not fail. -/
theorem upload_eq (svc : UploadService) (s : WriteStream) : ∃ curr, s.upload svc = some
    { s with
      currBytes := curr
      buffer := []
      partIds := s.partIds ++ [toSizeT (toInt (s.etags.length + 1))]
      etags := s.etags ++ [svc.etag s.parts.length]
      parts := s.parts ++ [(toUnsigned (s.etags.length + 1), s.buffer)] } := by
  obtain ⟨hbytes, hetag, hnum⟩ := uploadPart_eq svc s.parts.length s
  refine ⟨s.currBytes + ((uploadPart svc s.parts.length s.uploadData).2.curOffset + 1), ?_⟩
  rw [upload]
  simp only [hetag, if_pos (svc.etag_ne _), hbytes, hnum]

/-! ## All writes -/

/-- What holds after the bytes `written`: the parts and the buffer are the bytes, the parts are
large enough, and part `i + 1` has the etag that upload `i` returned. -/
structure Inv (svc : UploadService) (maxBufferSize : ℕ) (s : WriteStream)
    (written : List UInt8) : Prop where
  max : s.maxBufferSize = maxBufferSize
  bytes : (s.parts.map Prod.snd).flatten ++ s.buffer = written
  large : ∀ p ∈ s.parts, maxBufferSize ≤ p.2.length
  numbers : s.parts.map Prod.fst = (List.range s.parts.length).map fun i => toUnsigned (i + 1)
  etags : s.etags = (List.range s.parts.length).map svc.etag
  partIds : s.partIds = (List.range s.parts.length).map fun i => toSizeT (toInt (i + 1))

theorem inv_init (svc : UploadService) (maxBufferSize : ℕ) :
    Inv svc maxBufferSize (init maxBufferSize) [] :=
  ⟨rfl, rfl, by simp [init], rfl, rfl, rfl⟩

variable {maxBufferSize : ℕ} {written : List UInt8}

theorem Inv.length_etags (h : Inv svc maxBufferSize s written) :
    s.etags.length = s.parts.length := by
  rw [h.etags, List.length_map, List.length_range]

/-- An upload appends the buffer as a further part. Only the last part may be small. -/
theorem Inv.upload (h : Inv svc maxBufferSize s written) : ∃ s', s.upload svc = some s' ∧
    s'.parts = s.parts ++ [(toUnsigned (s.parts.length + 1), s.buffer)] ∧ s'.buffer = [] ∧
    (s'.parts.map Prod.snd).flatten = written ∧
    (maxBufferSize ≤ s.buffer.length → Inv svc maxBufferSize s' written) ∧
    s'.parts.map Prod.fst = (List.range s'.parts.length).map (fun i => toUnsigned (i + 1)) ∧
    s'.etags = (List.range s'.parts.length).map svc.etag ∧
    s'.partIds = (List.range s'.parts.length).map fun i => toSizeT (toInt (i + 1)) := by
  obtain ⟨curr, hupload⟩ := upload_eq svc s
  rw [h.length_etags] at hupload
  have hnum : (s.parts ++ [(toUnsigned (s.parts.length + 1), s.buffer)]).map Prod.fst =
      (List.range (s.parts.length + 1)).map fun i => toUnsigned (i + 1) := by
    rw [List.map_append, h.numbers, List.range_succ, List.map_append]
    rfl
  have hetags : s.etags ++ [svc.etag s.parts.length] =
      (List.range (s.parts.length + 1)).map svc.etag := by
    rw [h.etags, List.range_succ, List.map_append]
    rfl
  have hids : s.partIds ++ [toSizeT (toInt (s.parts.length + 1 : ℕ))] =
      (List.range (s.parts.length + 1)).map fun i => toSizeT (toInt (i + 1 : ℕ)) := by
    rw [h.partIds, List.range_succ, List.map_append]
    rfl
  have hbytes : ((s.parts ++ [(toUnsigned (s.parts.length + 1), s.buffer)]).map
      Prod.snd).flatten = written := by
    rw [List.map_append, List.flatten_append, ← h.bytes]
    simp
  have hlen : (s.parts ++ [(toUnsigned (s.parts.length + 1), s.buffer)]).length =
      s.parts.length + 1 := by
    rw [List.length_append, List.length_singleton]
  refine ⟨_, hupload, rfl, rfl, hbytes, fun hlarge => ⟨h.max, ?_, ?_, ?_, ?_, ?_⟩, ?_, ?_, ?_⟩
  · rw [List.append_nil]
    exact hbytes
  · intro p hp
    rcases List.mem_append.mp hp with hp | hp
    · exact h.large p hp
    · rw [List.mem_singleton.mp hp]
      exact hlarge
  all_goals
    simp only [hlen]
    assumption

/-- **One write** keeps the invariant, and makes a part when the buffer is full. -/
theorem Inv.write (h : Inv svc maxBufferSize s written) (w : List UInt8) : ∃ s',
    s.write svc w = some s' ∧ Inv svc maxBufferSize s' (written ++ w) ∧
    (∀ ws, s'.parts.length + partCount maxBufferSize s'.buffer.length ws =
      s.parts.length + partCount maxBufferSize s.buffer.length (w :: ws)) := by
  obtain ⟨t, ht⟩ : ∃ t : WriteStream, t = { s with
    buffer := s.buffer ++ w, writeBytes := s.writeBytes + w.length } := ⟨_, rfl⟩
  have hinv : Inv svc maxBufferSize t (written ++ w) := by
    subst ht
    refine ⟨h.max, ?_, h.large, h.numbers, h.etags, h.partIds⟩
    rw [← h.bytes, List.append_assoc]
  have hparts : t.parts = s.parts := by rw [ht]
  have hbuffer : t.buffer.length = s.buffer.length + w.length := by
    rw [ht, List.length_append]
  rw [WriteStream.write, ← ht, hinv.max]
  by_cases hfull : maxBufferSize ≤ t.buffer.length
  · obtain ⟨s', hupload, hs', hempty, -, hkeep, -⟩ := hinv.upload
    refine ⟨s', by rw [if_pos hfull, hupload], hkeep hfull, fun ws => ?_⟩
    rw [hs', hempty, partCount, if_pos (by omega), List.length_append, hparts]
    simp only [List.length_singleton, List.length_nil]
    omega
  · refine ⟨t, by rw [if_neg hfull], hinv, fun ws => ?_⟩
    rw [hparts, hbuffer, partCount, if_neg (by omega)]

/-- All writes. -/
theorem Inv.writes (h : Inv svc maxBufferSize s written) (ws : List (List UInt8)) : ∃ s',
    ws.foldlM (WriteStream.write svc) s = some s' ∧
    Inv svc maxBufferSize s' (written ++ ws.flatten) ∧
    s'.parts.length + 1 = s.parts.length + partCount maxBufferSize s.buffer.length ws := by
  induction ws generalizing s written with
  | nil => exact ⟨s, rfl, by simpa using h, by rw [partCount]⟩
  | cons w ws ih =>
      obtain ⟨t, hwrite, ht, hcount⟩ := h.write w
      obtain ⟨s', hrun, hs', hlen⟩ := ih ht
      refine ⟨s', ?_, ?_, by rw [hlen, hcount]⟩
      · rw [List.foldlM_cons, hwrite, Option.bind_eq_bind, Option.bind_some, hrun]
      · rw [List.flatten_cons, ← List.append_assoc]
        exact hs'

/-- The parts of a stream: `m` of them, numbered from 1 on with the etags that were returned,
all large enough but the last. -/
structure Stored (svc : UploadService) (maxBufferSize m : ℕ) (written : List UInt8)
    (info parts : List (ℕ × List UInt8)) : Prop where
  info : info = (List.range m).map fun i => (i + 1, svc.etag i)
  numbers : parts.map Prod.fst = (List.range m).map (· + 1)
  bytes : (parts.map Prod.snd).flatten = written
  large : ∀ p ∈ parts.dropLast, maxBufferSize ≤ p.2.length

/-- What a stream stores: `Finish` is the only step that may not come to an end. -/
theorem store_eq (svc : UploadService) (maxBufferSize : ℕ) (writes : List (List UInt8)) :
    ∃ parts, store svc maxBufferSize writes =
        (if partCount maxBufferSize 0 writes < 2 ^ 32 then
          some ((List.range (partCount maxBufferSize 0 writes)).map
            (fun i => (toUnsigned (i + 1), svc.etag i)), parts)
        else none) ∧
      parts.map Prod.fst = (List.range (partCount maxBufferSize 0 writes)).map
        (fun i => toUnsigned (i + 1)) ∧
      (parts.map Prod.snd).flatten = writes.flatten ∧
      ∀ p ∈ parts.dropLast, maxBufferSize ≤ p.2.length := by
  obtain ⟨t, hrun, ht, hlen⟩ := (inv_init svc maxBufferSize).writes writes
  obtain ⟨s, hupload, hs, -, hbytes, -, hnum, hetags, hids⟩ := ht.upload
  have hcount : s.parts.length = partCount maxBufferSize 0 writes := by
    rw [hs, List.length_append, List.length_singleton, hlen]
    exact Nat.zero_add _
  rw [hcount] at hnum hetags hids
  have heq : s.etags.length = s.partIds.length := by
    rw [hetags, hids, List.length_map, List.length_map]
  have hidsLen : s.partIds.length = partCount maxBufferSize 0 writes := by
    rw [hids, List.length_map, List.length_range]
  have hinfo : (s.partIds.map toUnsigned).zip s.etags =
      (List.range (partCount maxBufferSize 0 writes)).map
        fun i => (toUnsigned (i + 1), svc.etag i) := by
    rw [hids, hetags, List.map_map, List.zip_map']
    apply List.map_congr_left
    intro i _
    rw [Function.comp_apply, toUnsigned_toSizeT_toInt]
  refine ⟨s.parts, ?_, hnum, by rw [hbytes, List.nil_append], ?_⟩
  · simp only [store, hrun, Option.bind_eq_bind, Option.bind_some, hupload, finish, heq, hidsLen,
      hinfo, if_true]
    split <;> rfl
  · rw [hs, List.dropLast_concat]
    exact ht.large

/-- From `2 ^ 32` parts on the upload is not completed. -/
theorem store_eq_none {writes : List (List UInt8)}
    (hmany : ¬ partCount maxBufferSize 0 writes < 2 ^ 32) :
    store svc maxBufferSize writes = none := by
  obtain ⟨parts, hstore, -⟩ := store_eq svc maxBufferSize writes
  rw [hstore, if_neg hmany]

/-- A service that asks for two bytes at a time and returns the etag `e`. -/
def twoBytesService : UploadService where
  bufferSizes _ n := List.replicate n 2
  etag _ := [101]
  bufferSizes_pos r n b hb := by
    rw [List.eq_of_mem_replicate hb]
    decide
  le_sum r n := by
    rw [List.sum_replicate_nat]
    omega
  etag_ne _ := by decide
  etag_length _ := by decide
  etag_nul _ := by simp

example : store twoBytesService 3 [[1, 2], [3, 4], [5]] =
    some ([(1, [101]), (2, [101])], [(1, [1, 2, 3, 4]), (2, [5])]) := by
  decide

/-- Without a buffer every write makes a part. -/
theorem partCount_replicate (k n : ℕ) (w : List UInt8) :
    partCount 0 n (List.replicate k w) = k + 1 := by
  induction k generalizing n with
  | zero => rfl
  | succ k ih => rw [List.replicate_succ, partCount, if_pos (Nat.zero_le _), ih]

end WriteStream

end Difacto.Io
