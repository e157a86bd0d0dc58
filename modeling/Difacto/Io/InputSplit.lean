import Mathlib.Algebra.Ring.Nat
import Mathlib.Data.List.Basic
import Mathlib.Data.List.Range
import Mathlib.Order.Lattice

/-!
# Reading a part of the input

`InputSplitBase` of `dmlc-core/src/io/input_split_base.cc` with the records of `LineSplitter` of
`dmlc-core/src/io/line_split.cc`: one part of a list of files is read in chunks that end where a
line ends. A line that is not complete at the end of a chunk is carried over in `overflow_`, and
the buffer is doubled when it holds no end of a line.

The files are their bytes; empty files are left out, as `InitInputFileInfo` does. A read of the
underlying stream may return fewer bytes than it was asked for, but at least one before the end of
its file. A failed `CHECK` or `LOG(FATAL)` is `none`; so is a loop that is not over after `fuel`
turns, which never happens. Sizes of files and buffers are far below the range of `size_t`.

## Main definitions

* `LineSplitter.seekRecordBegin`, `LineSplitter.findLastRecordBegin` — the records.
* `InputSplitBase.read`, `readChunk`, `load`, `nextChunk` — the reading of a part.
* `InputSplitBase.Delivers` — the chunks of repeated calls.
* `InputSplitBase.rest` — what is left of the part.

## Main results

* `InputSplitBase.readLoop_eq` — short reads and the ends of files do not show.
* `InputSplitBase.readChunk_eq`, `InputSplitBase.load_eq` — one chunk.
* `InputSplitBase.exists_delivers` — the chunks are the part, cut after ends of lines.
-/

namespace Difacto.Io

/-! ## Lines -/

/-- `c == '\n' || c == '\r'` -/
def isEol (c : UInt8) : Bool := c == 10 || c == 13

namespace LineSplitter

/-- The second loop of `SeekRecordBegin`, over the bytes that the stream still has. -/
def skipEols : List UInt8 → ℕ
  | [] => 0
  | c :: cs => if isEol c then skipEols cs + 1 else 0

/-- `SeekRecordBegin`, over the bytes that the stream still has. -/
def seekRecordBegin : List UInt8 → ℕ
  | [] => 0
  | c :: cs => if isEol c then skipEols cs + 1 else seekRecordBegin cs + 1

/-- The loop of `FindLastRecordBegin`, from `p` down to the second byte. -/
def scanBack (buf : List UInt8) : ℕ → ℕ
  | 0 => 0
  | p + 1 => if isEol (buf.getD (p + 1) 0) then p + 2 else scanBack buf p

/-- `FindLastRecordBegin`: how far the result is from `begin`. -/
def findLastRecordBegin (buf : List UInt8) : Option ℕ :=
  if buf.length = 0 then none else some (scanBack buf (buf.length - 1))

end LineSplitter

/-- These bytes end directly after an end-of-line character. -/
def EndsLine (bs : List UInt8) : Prop := ∃ c ∈ bs.getLast?, isEol c = true

/-- What `FindLastRecordBegin` returns is the beginning of the buffer, or directly after an
end-of-line character. -/
theorem LineSplitter.scanBack_spec {buf : List UInt8} {p : ℕ} (hp : p < buf.length) :
    scanBack buf p ≤ buf.length ∧
      (scanBack buf p ≠ 0 → EndsLine (buf.take (scanBack buf p))) := by
  induction p with
  | zero => exact ⟨Nat.zero_le _, fun h => absurd rfl h⟩
  | succ p ih =>
      rw [scanBack]
      by_cases heol : isEol (buf.getD (p + 1) 0) = true
      · rw [if_pos heol]
        refine ⟨hp, fun _ => ⟨buf.getD (p + 1) 0, ?_, heol⟩⟩
        rw [List.getLast?_take, if_neg (by omega), List.getD_eq_getElem?_getD,
          show p + 2 - 1 = p + 1 by omega, List.getElem?_eq_getElem hp]
        rfl
      · rw [if_neg heol]
        exact ih (by omega)

/-! ## Parts -/

/-- `file_offset_[i]` -/
def fileOffset (files : List (List UInt8)) (i : ℕ) : ℕ := ((files.take i).map List.length).sum

/-- `InputSplitBase`. `reads` is the number of calls of `fs_->Read`. -/
structure InputSplitBase where
  files : List (List UInt8)
  filePtr : ℕ
  /-- the position of `fs_` in its file -/
  pos : ℕ
  offsetCurr : ℕ
  offsetBegin : ℕ
  offsetEnd : ℕ
  overflow : List UInt8
  reads : ℕ

namespace InputSplitBase

/-- What `fs_` has left. -/
def stream (s : InputSplitBase) : List UInt8 := (s.files.getD s.filePtr []).drop s.pos

variable (grant : ℕ → ℕ)

/-- `fs_->Read(buf, n)`, when the stream returns at most `grant r` bytes, or one byte, in its call
number `r`. -/
def streamRead (s : InputSplitBase) (n : ℕ) : List UInt8 :=
  s.stream.take (min n (max 1 (grant s.reads)))

/-- `nleft -= n; buf += n; offset_curr_ += n` -/
def advance (s : InputSplitBase) (n : ℕ) : InputSplitBase :=
  { s with pos := s.pos + n, offsetCurr := s.offsetCurr + n, reads := s.reads + 1 }

/-- The loop of `Read`. -/
def readLoop : ℕ → InputSplitBase → ℕ → List UInt8 → Option (List UInt8 × InputSplitBase)
  | 0, _, _, _ => none
  | fuel + 1, s, nleft, buf =>
    let bytes := s.streamRead grant nleft
    let t := s.advance bytes.length
    if nleft - bytes.length = 0 then some (buf ++ bytes, t)
    else if bytes.length = 0 then
      if t.offsetCurr ≠ fileOffset t.files (t.filePtr + 1) then none
      else if t.files.length ≤ t.filePtr + 1 then some (buf ++ bytes, t)
      else readLoop fuel { t with filePtr := t.filePtr + 1, pos := 0 } nleft (buf ++ bytes)
    else readLoop fuel t (nleft - bytes.length) (buf ++ bytes)

/-- `Read`. Every turn of the loop reads a byte or goes to the next file. -/
def read (s : InputSplitBase) (size : ℕ) : Option (List UInt8 × InputSplitBase) :=
  if s.offsetEnd ≤ s.offsetBegin then some ([], s)
  else
    let size := if s.offsetEnd < s.offsetCurr + size then s.offsetEnd - s.offsetCurr else size
    if size = 0 then some ([], s) else readLoop grant (size + s.files.length + 1) s size []

/-- `ReadChunk`: nothing when it returns false, else the first `*size` bytes of the buffer. -/
def readChunk (s : InputSplitBase) (maxSize : ℕ) :
    Option (Option (List UInt8) × InputSplitBase) :=
  if maxSize ≤ s.overflow.length then some (some [], s)
  else do
    let (bytes, t) ← read grant { s with overflow := [] } (maxSize - s.overflow.length)
    let buf := s.overflow ++ bytes
    if buf.length = 0 then return (none, t)
    else if buf.length ≠ maxSize then return (some buf, t)
    else
      let bend ← LineSplitter.findLastRecordBegin buf
      return (some (buf.take bend), { t with overflow := buf.drop bend })

/-- The loop of `Chunk::Load`, when `data` has this size. A word has eight bytes. -/
def load : ℕ → ℕ → InputSplitBase → Option (Option (List UInt8) × InputSplitBase)
  | 0, _, _ => none
  | fuel + 1, dataSize, s => do
    let (chunk, t) ← readChunk grant s ((dataSize - 1) * 8)
    match chunk with
    | none => return (none, t)
    | some chunk => if chunk.length = 0 then load fuel (dataSize * 2) t else return (some chunk, t)

/-- `NextChunk` with a chunk whose `data` has this size: one `Chunk::Load`, since a chunk that was
delivered is used up and one that was loaded is not empty. -/
def nextChunk (bufferSize dataSize : ℕ) (s : InputSplitBase) :
    Option (Option (List UInt8) × InputSplitBase) :=
  load grant (s.overflow.length + (s.offsetEnd - s.offsetCurr) + 1)
    (if dataSize < bufferSize + 1 then bufferSize + 1 else dataSize) s

/-- The chunks that `NextChunk` delivers until it returns false. `ThreadedInputSplit` recycles its
chunks: the one in call number `r` has some size `sizes r`. -/
inductive Delivers (bufferSize : ℕ) (sizes : ℕ → ℕ) : ℕ → InputSplitBase → List (List UInt8) → Prop
  | done {r : ℕ} {s t : InputSplitBase} :
      s.nextChunk grant bufferSize (sizes r) = some (none, t) → Delivers bufferSize sizes r s []
  | step {r : ℕ} {s t : InputSplitBase} {chunk : List UInt8} {chunks : List (List UInt8)} :
      s.nextChunk grant bufferSize (sizes r) = some (some chunk, t) →
      Delivers bufferSize sizes (r + 1) t chunks → Delivers bufferSize sizes r s (chunk :: chunks)

/-- The calls have one outcome. -/
theorem Delivers.unique {grant : ℕ → ℕ} {bufferSize : ℕ} {sizes : ℕ → ℕ} {r : ℕ}
    {s : InputSplitBase} {chunks chunks' : List (List UInt8)}
    (h : Delivers grant bufferSize sizes r s chunks)
    (h' : Delivers grant bufferSize sizes r s chunks') : chunks' = chunks := by
  induction h generalizing chunks' with
  | done hnext =>
      cases h' with
      | done => rfl
      | step hnext' => simp [hnext] at hnext'
  | step hnext _ ih =>
      cases h' with
      | done hnext' => simp [hnext] at hnext'
      | step hnext' htail =>
          obtain ⟨rfl, rfl⟩ : _ = _ ∧ _ = _ := by simpa [hnext] using hnext'
          rw [ih htail]

/-! ## Reads -/

/-- `fs_` stands at `offset_curr_`. -/
structure Located (s : InputSplitBase) : Prop where
  filePtr_lt : s.filePtr < s.files.length
  pos_le : s.pos ≤ (s.files.getD s.filePtr []).length
  curr_eq : s.offsetCurr = fileOffset s.files s.filePtr + s.pos

variable {s t : InputSplitBase}

theorem length_flatten_take (files : List (List UInt8)) (i : ℕ) :
    (files.take i).flatten.length = fileOffset files i := by
  rw [fileOffset, List.length_flatten]

theorem fileOffset_succ {files : List (List UInt8)} {i : ℕ} (hi : i < files.length) :
    fileOffset files (i + 1) = fileOffset files i + (files.getD i []).length := by
  rw [fileOffset, fileOffset, List.take_succ_eq_append_getElem hi, List.map_append, List.sum_append,
    List.getD_eq_getElem?_getD, List.getElem?_eq_getElem hi]
  simp

theorem fileOffset_length (files : List (List UInt8)) :
    fileOffset files files.length = files.flatten.length := by
  rw [fileOffset, List.take_length, List.length_flatten]

/-- The bytes from a file on. -/
theorem drop_fileOffset {files : List (List UInt8)} {i : ℕ} (hi : i < files.length) :
    files.flatten.drop (fileOffset files i) =
      files.getD i [] ++ (files.drop (i + 1)).flatten := by
  have hsplit : files.flatten = (files.take i).flatten ++ (files.drop i).flatten := by
    rw [← List.flatten_append, List.take_append_drop]
  have hget : files.getD i [] = files[i] := by
    rw [List.getD_eq_getElem?_getD, List.getElem?_eq_getElem hi]
    rfl
  rw [hsplit, List.drop_left' (length_flatten_take files i), List.drop_eq_getElem_cons hi,
    List.flatten_cons, hget]

/-- The bytes from `offset_curr_` on. -/
theorem Located.drop_eq (hs : s.Located) :
    s.files.flatten.drop s.offsetCurr = s.stream ++ (s.files.drop (s.filePtr + 1)).flatten := by
  rw [hs.curr_eq, ← List.drop_drop, drop_fileOffset hs.filePtr_lt,
    List.drop_append_of_le_length hs.pos_le]
  rfl

theorem Located.advance (hs : s.Located) {n : ℕ} (hn : n ≤ s.stream.length) :
    (s.advance n).Located := by
  have hpos := hs.pos_le
  rw [stream, List.length_drop] at hn
  refine ⟨hs.filePtr_lt, ?_, ?_⟩
  · show s.pos + n ≤ (s.files.getD s.filePtr []).length
    omega
  · show s.offsetCurr + n = fileOffset s.files s.filePtr + (s.pos + n)
    rw [hs.curr_eq, Nat.add_assoc]

/-- The bytes from `offset_curr_` on, when the stream still has `n` of them. -/
theorem Located.take_add (hs : s.Located) {n : ℕ} (hn : n ≤ s.stream.length) (k : ℕ) :
    (s.files.flatten.drop s.offsetCurr).take (n + k) =
      s.stream.take n ++ (s.files.flatten.drop (s.offsetCurr + n)).take k := by
  have hfirst : (s.files.flatten.drop s.offsetCurr).take n = s.stream.take n := by
    rw [hs.drop_eq, List.take_append_of_le_length hn]
  rw [List.take_add, hfirst, List.drop_drop]

/-- At the end of a file that is not the last one. -/
theorem Located.nextFile (hs : s.Located) (hnil : s.stream.length = 0)
    (hmore : s.offsetCurr < s.files.flatten.length) :
    s.offsetCurr = fileOffset s.files (s.filePtr + 1) ∧ s.filePtr + 1 < s.files.length := by
  have hlen := hs.pos_le
  rw [stream, List.length_drop] at hnil
  have hcurr : s.offsetCurr = fileOffset s.files (s.filePtr + 1) := by
    rw [fileOffset_succ hs.filePtr_lt, hs.curr_eq]
    omega
  refine ⟨hcurr, ?_⟩
  by_contra hlast
  have hfp := hs.filePtr_lt
  rw [show s.filePtr + 1 = s.files.length by omega, fileOffset_length] at hcurr
  omega

/-- A read returns a part of what was asked for, and nothing only at the end of the file. -/
theorem streamRead_eq (s : InputSplitBase) {nleft : ℕ} (hpos : 0 < nleft) :
    ∃ n ≤ nleft, n ≤ s.stream.length ∧ (n = 0 → s.stream.length = 0) ∧
      s.streamRead grant nleft = s.stream.take n := by
  refine ⟨min (min nleft (max 1 (grant s.reads))) s.stream.length, by omega, by omega,
    fun h => by omega, ?_⟩
  exact List.take_eq_take_min

/-- **The loop of `Read`** returns as many bytes as it was asked for, whatever the streams return
in each call. -/
theorem readLoop_eq {fuel : ℕ} (hs : s.Located) {nleft : ℕ} (hpos : 0 < nleft)
    (htotal : s.offsetCurr + nleft ≤ s.files.flatten.length)
    (hfuel : nleft + (s.files.length - s.filePtr) < fuel) (buf : List UInt8) :
    ∃ fp pos reads, Located { s with filePtr := fp, pos := pos, offsetCurr := s.offsetCurr + nleft,
                                     reads := reads } ∧
      readLoop grant fuel s nleft buf =
        some (buf ++ (s.files.flatten.drop s.offsetCurr).take nleft,
          { s with filePtr := fp, pos := pos, offsetCurr := s.offsetCurr + nleft,
                   reads := reads }) := by
  induction fuel generalizing s nleft buf with
  | zero => exact absurd hfuel (Nat.not_lt_zero _)
  | succ fuel ih =>
      obtain ⟨n, hle, hn, hend, hbytes⟩ := streamRead_eq grant s hpos
      have hlen : (s.stream.take n).length = n := by rw [List.length_take, min_eq_left hn]
      have hadv : (s.advance n).Located := hs.advance hn
      have hfp := hs.filePtr_lt
      -- the bytes that are read are the next ones
      have hsplit := hs.take_add hn (nleft - n)
      rw [Nat.add_sub_cancel' hle] at hsplit
      have hsum : s.offsetCurr + n + (nleft - n) = s.offsetCurr + nleft := by omega
      rw [readLoop, hbytes, hlen, hsplit]
      by_cases hdone : nleft - n = 0
      · have hall : nleft = n := by omega
        refine ⟨s.filePtr, s.pos + n, s.reads + 1, ?_, ?_⟩
        · rw [hall]
          exact hadv
        · simp only [if_pos hdone]
          rw [hdone, List.take_zero, List.append_nil, hall]
          rfl
      · simp only [if_neg hdone]
        by_cases hzero : n = 0
        · -- the file is at its end, and there is a next one
          obtain ⟨hcurr, hmore⟩ := hs.nextFile (hend hzero) (by omega)
          have hcheck : ¬ (s.advance 0).offsetCurr ≠
              fileOffset (s.advance 0).files ((s.advance 0).filePtr + 1) := not_not.mpr hcurr
          have hopen : ¬ (s.advance 0).files.length ≤ (s.advance 0).filePtr + 1 := not_le.mpr hmore
          have hnext : Located { s.advance 0 with filePtr := s.filePtr + 1, pos := 0 } :=
            ⟨hmore, Nat.zero_le _, hcurr⟩
          have hgo := ih hnext hpos htotal
            (by show nleft + (s.files.length - (s.filePtr + 1)) < fuel; omega) buf
          obtain ⟨fp, pos, reads, hloc, hrun⟩ := hgo
          refine ⟨fp, pos, reads, hloc, ?_⟩
          subst hzero
          rw [if_pos rfl, if_neg hcheck, if_neg hopen, List.take_zero, List.append_nil]
          exact hrun
        · rw [if_neg hzero]
          have hgo := ih hadv (show 0 < nleft - n by omega) (hsum.trans_le htotal)
            (by show nleft - n + (s.files.length - s.filePtr) < fuel; omega)
            (buf ++ s.stream.take n)
          obtain ⟨fp, pos, reads, hloc, hrun⟩ := hgo
          refine ⟨fp, pos, reads, ?_, ?_⟩
          · rw [← hsum]
            exact hloc
          · rw [← hsum, ← List.append_assoc]
            exact hrun

/-! ## Chunks -/

/-- What is left of the part. -/
def rest (s : InputSplitBase) : List UInt8 :=
  s.overflow ++
    if s.offsetEnd ≤ s.offsetBegin then []
    else (s.files.flatten.drop s.offsetCurr).take (s.offsetEnd - s.offsetCurr)

/-- A part that is not empty is read from where `fs_` stands, and ends inside the files. -/
structure Reading (s : InputSplitBase) : Prop where
  located : s.offsetBegin < s.offsetEnd → s.Located
  curr_le : s.offsetBegin < s.offsetEnd → s.offsetCurr ≤ s.offsetEnd
  end_le : s.offsetBegin < s.offsetEnd → s.offsetEnd ≤ s.files.flatten.length

theorem length_rest_le (s : InputSplitBase) :
    s.rest.length ≤ s.overflow.length + (s.offsetEnd - s.offsetCurr) := by
  rw [rest, List.length_append]
  split
  · simp
  · rw [List.length_take]
    omega

theorem rest_overflow (s : InputSplitBase) (o : List UInt8) :
    rest { s with overflow := o } = o ++ rest { s with overflow := [] } := rfl

theorem Reading.overflow (hs : s.Reading) (o : List UInt8) :
    Reading { s with overflow := o } :=
  ⟨fun h => ⟨(hs.located h).filePtr_lt, (hs.located h).pos_le, (hs.located h).curr_eq⟩,
    hs.curr_le, hs.end_le⟩

theorem reading_of_le (h : s.offsetEnd ≤ s.offsetBegin) : s.Reading :=
  ⟨fun hlt => absurd hlt (not_lt.mpr h), fun hlt => absurd hlt (not_lt.mpr h),
    fun hlt => absurd hlt (not_lt.mpr h)⟩

/-- **`Read`** returns the next bytes of the part, all that were asked for or all that are left. -/
theorem read_eq (hs : s.Reading) (hover : s.overflow = []) (size : ℕ) :
    ∃ t, t.Reading ∧ t.overflow = [] ∧ s.rest = s.rest.take size ++ t.rest ∧
      read grant s size = some (s.rest.take size, t) := by
  by_cases hempty : s.offsetEnd ≤ s.offsetBegin
  · have hrest : s.rest = [] := by rw [rest, hover, if_pos hempty, List.append_nil]
    refine ⟨s, hs, hover, ?_, ?_⟩
    · rw [hrest, List.take_nil, List.append_nil]
    · rw [read, if_pos hempty, hrest, List.take_nil]
  · have hlt : s.offsetBegin < s.offsetEnd := not_le.mp hempty
    have hcurr := hs.curr_le hlt
    have hend := hs.end_le hlt
    have hrest : s.rest =
        (s.files.flatten.drop s.offsetCurr).take (s.offsetEnd - s.offsetCurr) := by
      rw [rest, hover, if_neg hempty, List.nil_append]
    -- the size after it was cut at the end of the part
    obtain ⟨n, hn⟩ : ∃ n, n = if s.offsetEnd < s.offsetCurr + size then s.offsetEnd - s.offsetCurr
      else size := ⟨_, rfl⟩
    have hmin : n = min size (s.offsetEnd - s.offsetCurr) := by
      rw [hn]
      split <;> omega
    have htake : s.rest.take size = (s.files.flatten.drop s.offsetCurr).take n := by
      rw [hrest, List.take_take, hmin]
    rw [read, if_neg hempty]
    simp only [← hn]
    by_cases hzero : n = 0
    · refine ⟨s, hs, hover, ?_, ?_⟩
      · rw [htake, hzero, List.take_zero, List.nil_append]
      · rw [if_pos hzero, htake, hzero, List.take_zero]
    · rw [if_neg hzero]
      have hloop := readLoop_eq grant (hs.located hlt) (Nat.pos_of_ne_zero hzero) (by omega)
        (show n + (s.files.length - s.filePtr) < n + s.files.length + 1 by omega) ([] : List UInt8)
      obtain ⟨fp, pos, reads, hloc, hrun⟩ := hloop
      refine ⟨_, ⟨fun _ => hloc, fun _ => ?_, fun _ => hend⟩, hover, ?_, ?_⟩
      · show s.offsetCurr + n ≤ s.offsetEnd
        omega
      · rw [htake, rest, rest, if_neg hempty]
        simp only [hover, if_neg hempty, List.nil_append]
        rw [show s.offsetEnd - s.offsetCurr = n + (s.offsetEnd - (s.offsetCurr + n)) by omega,
          List.take_add, List.drop_drop]
      · rw [hrun, htake, List.nil_append]

/-- **`ReadChunk`** cuts a chunk off the part. It is empty only when the part is larger than the
buffer, and it ends a line unless it is all that is left. -/
theorem readChunk_eq (hs : s.Reading) {maxSize : ℕ} (hmax : 0 < maxSize) :
    ∃ t, t.Reading ∧
      ((s.rest = [] ∧ readChunk grant s maxSize = some (none, t)) ∨
        ∃ chunk, readChunk grant s maxSize = some (some chunk, t) ∧ s.rest = chunk ++ t.rest ∧
          (chunk = [] → maxSize ≤ s.rest.length) ∧
          (chunk ≠ [] → t.rest ≠ [] → EndsLine chunk)) := by
  by_cases hfull : maxSize ≤ s.overflow.length
  · refine ⟨s, hs, Or.inr ⟨[], ?_, rfl, fun _ => ?_, fun h => absurd rfl h⟩⟩
    · rw [readChunk, if_pos hfull]
    · rw [rest, List.length_append]
      omega
  · have hread := read_eq grant (hs.overflow []) rfl (maxSize - s.overflow.length)
    obtain ⟨t, ht, hover, hsplit, hrun⟩ := hread
    obtain ⟨buf, hbuf⟩ : ∃ buf, buf =
      s.overflow ++ (rest { s with overflow := [] }).take (maxSize - s.overflow.length) := ⟨_, rfl⟩
    have hbuftake : buf = s.rest.take maxSize := by
      rw [hbuf, rest_overflow s s.overflow, List.take_append,
        List.take_of_length_le (by omega : s.overflow.length ≤ maxSize)]
    have hrest : s.rest = buf ++ t.rest := by
      rw [rest_overflow s s.overflow, hbuf, List.append_assoc, ← hsplit]
    have hchunk : readChunk grant s maxSize =
        if buf.length = 0 then some (none, t)
        else if buf.length ≠ maxSize then some (some buf, t)
        else (LineSplitter.findLastRecordBegin buf).bind fun bend =>
          some (some (buf.take bend), { t with overflow := buf.drop bend }) := by
      rw [readChunk, if_neg hfull, hrun]
      simp only [Option.bind_eq_bind, Option.bind_some, ← hbuf]
      rfl
    have hlen : buf.length = min maxSize s.rest.length := by rw [hbuftake, List.length_take]
    rw [hchunk]
    by_cases hzero : buf.length = 0
    · rw [if_pos hzero]
      exact ⟨t, ht, Or.inl ⟨List.length_eq_zero_iff.mp (by omega), rfl⟩⟩
    · rw [if_neg hzero]
      by_cases hshort : buf.length ≠ maxSize
      · -- the part is over
        have hall : t.rest = [] := by
          have hsum := congrArg List.length hrest
          rw [List.length_append] at hsum
          exact List.length_eq_zero_iff.mp (by omega)
        rw [if_pos hshort]
        exact ⟨t, ht, Or.inr ⟨buf, rfl, hrest, fun h => absurd (congrArg List.length h) hzero,
          fun _ h => absurd hall h⟩⟩
      · rw [if_neg hshort, LineSplitter.findLastRecordBegin, if_neg hzero, Option.bind_some]
        have hscan := LineSplitter.scanBack_spec
          (show buf.length - 1 < buf.length by omega)
        generalize LineSplitter.scanBack buf (buf.length - 1) = bend at hscan ⊢
        refine ⟨{ t with overflow := buf.drop bend }, ht.overflow _,
          Or.inr ⟨buf.take bend, rfl, ?_, fun _ => by omega, fun h _ => hscan.2 ?_⟩⟩
        · have hover' : t = { t with overflow := [] } := by rw [← hover]
          rw [rest_overflow t (buf.drop bend), ← hover', ← List.append_assoc,
            List.take_append_drop, hrest]
        · rintro rfl
          exact h List.take_zero

/-- One turn of the loop of `Chunk::Load`. -/
theorem load_step (fuel : ℕ) (hs : s.Reading) {dataSize : ℕ} (hdata : 2 ≤ dataSize) :
    ∃ t, t.Reading ∧
      ((s.rest = [] ∧ load grant (fuel + 1) dataSize s = some (none, t)) ∨
        (∃ chunk, load grant (fuel + 1) dataSize s = some (some chunk, t) ∧ chunk ≠ [] ∧
          s.rest = chunk ++ t.rest ∧ (t.rest ≠ [] → EndsLine chunk)) ∨
        ((dataSize - 1) * 8 ≤ s.rest.length ∧ s.rest = t.rest ∧
          load grant (fuel + 1) dataSize s = load grant fuel (dataSize * 2) t)) := by
  obtain ⟨t, ht, ⟨hnil, hrun⟩ | ⟨chunk, hrun, hrest, hbig, hends⟩⟩ :=
    readChunk_eq grant hs (show 0 < (dataSize - 1) * 8 by omega)
  · refine ⟨t, ht, Or.inl ⟨hnil, ?_⟩⟩
    rw [load, hrun]
    rfl
  · by_cases hchunk : chunk = []
    · subst hchunk
      refine ⟨t, ht, Or.inr (Or.inr ⟨hbig rfl, hrest, ?_⟩)⟩
      rw [load, hrun]
      rfl
    · refine ⟨t, ht, Or.inr (Or.inl ⟨chunk, ?_, hchunk, hrest, hends hchunk⟩)⟩
      rw [load, hrun]
      exact if_neg (mt List.length_eq_zero_iff.mp hchunk)

/-- **`Chunk::Load`** doubles the buffer until a line ends in it or the part does. -/
theorem load_eq {fuel : ℕ} (hs : s.Reading) {dataSize : ℕ} (hdata : 2 ≤ dataSize)
    (hfuel : s.rest.length < fuel + (dataSize - 1) * 8) :
    ∃ t, t.Reading ∧
      ((s.rest = [] ∧ load grant (fuel + 1) dataSize s = some (none, t)) ∨
        ∃ chunk, load grant (fuel + 1) dataSize s = some (some chunk, t) ∧ chunk ≠ [] ∧
          s.rest = chunk ++ t.rest ∧ (t.rest ≠ [] → EndsLine chunk)) := by
  induction fuel generalizing s dataSize with
  | zero =>
      obtain ⟨t, ht, hnone | hchunk | ⟨hbig, -⟩⟩ := load_step grant 0 hs hdata
      · exact ⟨t, ht, Or.inl hnone⟩
      · exact ⟨t, ht, Or.inr hchunk⟩
      · omega
  | succ fuel ih =>
      obtain ⟨t, ht, hnone | hchunk | ⟨hbig, hrest, hload⟩⟩ := load_step grant (fuel + 1) hs hdata
      · exact ⟨t, ht, Or.inl hnone⟩
      · exact ⟨t, ht, Or.inr hchunk⟩
      · rw [hload, hrest]
        rw [hrest] at hfuel
        exact ih ht (show 2 ≤ dataSize * 2 by omega) (by omega)

theorem nextChunk_eq {bufferSize : ℕ} (hbuffer : 1 ≤ bufferSize) (dataSize : ℕ) (hs : s.Reading) :
    ∃ t, t.Reading ∧
      ((s.rest = [] ∧ nextChunk grant bufferSize dataSize s = some (none, t)) ∨
        ∃ chunk, nextChunk grant bufferSize dataSize s = some (some chunk, t) ∧ chunk ≠ [] ∧
          s.rest = chunk ++ t.rest ∧ (t.rest ≠ [] → EndsLine chunk)) := by
  have hsize : 2 ≤ (if dataSize < bufferSize + 1 then bufferSize + 1 else dataSize) := by
    split <;> omega
  have hle := length_rest_le s
  exact load_eq grant hs hsize (by omega)

/-- **The chunks of a part** are its bytes, and all but the last one end a line. -/
theorem exists_delivers {bufferSize : ℕ} (hbuffer : 1 ≤ bufferSize) (sizes : ℕ → ℕ)
    (hs : s.Reading) (r : ℕ) :
    ∃ chunks, Delivers grant bufferSize sizes r s chunks ∧ chunks.flatten = s.rest ∧
      (∀ c ∈ chunks, c ≠ []) ∧ ∀ c ∈ chunks.dropLast, EndsLine c := by
  -- every chunk takes something off the rest
  induction hn : s.rest.length using Nat.strong_induction_on generalizing s r with
  | _ n ih =>
      obtain ⟨t, ht, ⟨hnil, hrun⟩ | ⟨chunk, hrun, hne, hrest, hends⟩⟩ :=
        nextChunk_eq grant hbuffer (sizes r) hs
      · exact ⟨[], Delivers.done hrun, hnil.symm, by simp, by simp⟩
      · have hpos := List.length_pos_iff.mpr hne
        rw [hrest, List.length_append] at hn
        obtain ⟨chunks, hdel, hflat, hnonempty, hlines⟩ :=
          ih t.rest.length (by omega) ht (r + 1) rfl
        refine ⟨chunk :: chunks, Delivers.step hrun hdel, ?_, ?_, ?_⟩
        · rw [List.flatten_cons, hflat, hrest]
        · intro c hc
          rcases List.mem_cons.mp hc with rfl | hc
          · exact hne
          · exact hnonempty c hc
        · intro c hc
          cases chunks with
          | nil => simp at hc
          | cons d chunks =>
              rw [List.dropLast_cons_of_ne_nil (List.cons_ne_nil d chunks)] at hc
              rcases List.mem_cons.mp hc with rfl | hc
              · refine hends ?_
                rw [← hflat, List.flatten_cons]
                simp [hnonempty d (by simp)]
              · exact hlines c hc

end InputSplitBase

end Difacto.Io
