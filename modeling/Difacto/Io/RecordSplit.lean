import Difacto.Io.Prefetch
import Difacto.Io.TextParts

/-!
# Splitting files of any format

`InputSplitBase` of `dmlc-core/src/io/input_split_base.cc` over any list of files, for whatever its
subclasses put in the place of `SeekRecordBegin` and `FindLastRecordBegin`, and
`ThreadedInputSplit` of `dmlc-core/src/io/threaded_input_split.h`, which loads the chunks of a part
in a thread of its own and uses them again.

## Main definitions

* `RecordSplit` — what a subclass overrides; `lineSplitter` is `LineSplitter`.
* `RecordSplit.init`, `readChunk`, `load` — `Init`, `ReadChunk` and `Chunk::Load`.
* `RecordSplit.threaded` — the closures of `ThreadedInputSplit`.
* `RecordSplit.Chunked` — bytes that are cut into chunks before beginnings of records.

## Main results

* `RecordSplit.init_eq` — where a part begins and ends.
* `RecordSplit.load_spec` — a chunk is cut off the part.
* `RecordSplit.threaded_delivered` — in every order of the steps, the chunks since the last rewind
  are those of the part, from its beginning.
* `RecordSplit.text_part` — a part of text files is read, in lines.
-/

namespace Difacto.Io

open Lib (Reach anyStep)

/-! ## The files -/

namespace InputSplitBase

variable {files : List (List UInt8)} {s t : InputSplitBase}

/-- **The file of an offset** before the end. -/
theorem upperFile_spec {x : ℕ} (hx : x < files.flatten.length) :
    upperFile files x < files.length ∧ fileOffset files (upperFile files x) ≤ x ∧
      x < fileOffset files (upperFile files x + 1) := by
  obtain ⟨i, hi⟩ : ∃ i, i = (List.range (files.length + 1)).findIdx
      (fun i => decide (x < fileOffset files i)) := ⟨_, rfl⟩
  have hlast : x < fileOffset files files.length := by rwa [fileOffset_length]
  have hlt : i < (List.range (files.length + 1)).length := by
    rw [hi]
    exact List.findIdx_lt_length.mpr
      ⟨files.length, List.mem_range.mpr (Nat.lt_succ_self _), by simpa using hlast⟩
  rw [List.length_range] at hlt
  have hfound : x < fileOffset files i := by
    have hget : decide (x < fileOffset files ((List.range (files.length + 1)).get
        ⟨i, by rwa [List.length_range]⟩)) = true := by
      simp only [hi]
      exact List.findIdx_getElem (p := fun i => decide (x < fileOffset files i))
    simpa using hget
  have hpos : i ≠ 0 := by
    rintro rfl
    rw [fileOffset, List.take_zero] at hfound
    exact absurd hfound (Nat.not_lt_zero x)
  have hbefore : ¬ x < fileOffset files (i - 1) := by
    have hmiss : decide (x < fileOffset files ((List.range (files.length + 1)).get
        ⟨i - 1, by rw [List.length_range]; omega⟩)) = false :=
      List.not_of_lt_findIdx (p := fun i => decide (x < fileOffset files i)) (by omega)
    simpa using hmiss
  rw [upperFile, ← hi]
  refine ⟨by omega, not_lt.mp hbefore, ?_⟩
  rwa [Nat.sub_add_cancel (Nat.pos_of_ne_zero hpos)]

/-- At the end there is no file left. -/
theorem upperFile_length : upperFile files files.flatten.length = files.length := by
  have hnone : ∀ i ∈ List.range (files.length + 1),
      decide (files.flatten.length < fileOffset files i) = false := by
    intro i _
    have hsplit := congrArg List.length (congrArg List.flatten (List.take_append_drop i files))
    rw [List.flatten_append, List.length_append] at hsplit
    rw [decide_eq_false_iff_not, ← length_flatten_take]
    omega
  rw [upperFile, List.findIdx_eq_length_of_false hnone, List.length_range, Nat.add_sub_cancel]

/-- The part from `b` to `e` of some files, read up to some place. -/
structure Part (files : List (List UInt8)) (b e : ℕ) (s : InputSplitBase) : Prop where
  reading : s.Reading
  files_eq : s.files = files
  begin_eq : s.offsetBegin = b
  end_eq : s.offsetEnd = e
  /-- nothing is read of a part that is empty -/
  overflow : e ≤ b → s.overflow = []

variable {b e : ℕ}

theorem Part.rest_eq_nil (hs : s.Part files b e) (h : e ≤ b) : s.rest = [] := by
  rw [rest, hs.overflow h, hs.begin_eq, hs.end_eq, if_pos h, List.append_nil]

/-- **`BeforeFirst`** goes to the beginning of the part, from wherever the split stands. -/
theorem beforeFirst_part (hfiles : s.files = files) (hb : s.offsetBegin = b)
    (he : s.offsetEnd = e) (hover : e ≤ b → s.overflow = []) (hle : e ≤ files.flatten.length) :
    s.beforeFirst.Part files b e ∧ s.beforeFirst.rest = (files.flatten.drop b).take (e - b) := by
  unfold InputSplitBase.beforeFirst
  rw [he, hb, hfiles]
  by_cases hempty : e ≤ b
  · have hs : s.Part files b e :=
      ⟨reading_of_le (by rw [he, hb]; exact hempty), hfiles, hb, he, hover⟩
    rw [if_pos hempty, Nat.sub_eq_zero_of_le hempty, List.take_zero]
    exact ⟨hs, hs.rest_eq_nil hempty⟩
  · have hlt : b < files.flatten.length := by omega
    obtain ⟨hfp, hfirst, hnext⟩ := upperFile_spec hlt
    rw [fileOffset_succ hfp] at hnext
    rw [if_neg hempty]
    refine ⟨⟨⟨fun _ => ⟨hfp, ?_, ?_⟩, fun _ => ?_, fun _ => ?_⟩, rfl, rfl, rfl, fun _ => rfl⟩, ?_⟩
    · show b - fileOffset files (upperFile files b) ≤ (files.getD (upperFile files b) []).length
      omega
    · show b = fileOffset files (upperFile files b) + (b - fileOffset files (upperFile files b))
      omega
    · exact (not_le.mp hempty).le
    · exact hle
    · rw [rest, if_neg hempty, List.nil_append]

theorem Part.beforeFirst (hs : s.Part files b e) (hle : e ≤ files.flatten.length) :
    s.beforeFirst.Part files b e ∧ s.beforeFirst.rest = (files.flatten.drop b).take (e - b) :=
  beforeFirst_part hs.files_eq hs.begin_eq hs.end_eq hs.overflow hle

/-- Reading changes only the place. -/
def SamePart (s t : InputSplitBase) : Prop :=
  t.files = s.files ∧ t.offsetBegin = s.offsetBegin ∧ t.offsetEnd = s.offsetEnd

theorem SamePart.trans {u : InputSplitBase} (h : s.SamePart t) (h' : t.SamePart u) :
    s.SamePart u :=
  ⟨h'.1.trans h.1, h'.2.1.trans h.2.1, h'.2.2.trans h.2.2⟩

variable {grant : ℕ → ℕ}

theorem readLoop_same {fuel nleft : ℕ} {buf bytes : List UInt8}
    (h : readLoop grant fuel s nleft buf = some (bytes, t)) : s.SamePart t := by
  induction fuel generalizing s nleft buf with
  | zero => cases h
  | succ fuel ih =>
    rw [readLoop] at h
    split at h
    · cases h
      exact ⟨rfl, rfl, rfl⟩
    split at h
    · split at h
      · cases h
      split at h
      · cases h
        exact ⟨rfl, rfl, rfl⟩
      · have hsame := ih h
        exact hsame
    · have hsame := ih h
      exact hsame

theorem read_same {size : ℕ} {bytes : List UInt8} (h : read grant s size = some (bytes, t)) :
    s.SamePart t := by
  rw [read] at h
  split at h
  · cases h
    exact ⟨rfl, rfl, rfl⟩
  · generalize (if s.offsetEnd < s.offsetCurr + size then s.offsetEnd - s.offsetCurr else size) =
      n at h
    simp only at h
    split at h
    · cases h
      exact ⟨rfl, rfl, rfl⟩
    · exact readLoop_same h

end InputSplitBase

/-! ## What a subclass overrides -/

/-- A subclass of `InputSplitBase`. A failed `CHECK` is `none`. -/
structure RecordSplit where
  /-- `SeekRecordBegin`, over the bytes that the stream still has -/
  seekRecordBegin : List UInt8 → Option ℕ
  /-- `FindLastRecordBegin`: how far the result is from `begin` -/
  findLastRecordBegin : List UInt8 → Option ℕ
  /-- the last argument of `Init` -/
  alignBytes : ℕ

/-- `LineSplitter` -/
def lineSplitter : RecordSplit where
  seekRecordBegin bs := some (LineSplitter.seekRecordBegin bs)
  findLastRecordBegin := LineSplitter.findLastRecordBegin
  alignBytes := 1

/-- `InputSplitBase::Chunk`: the size of `data`, and the bytes from `begin` to `end`. -/
structure Chunk where
  dataSize : ℕ
  bytes : List UInt8
  deriving DecidableEq

namespace RecordSplit

variable (f : RecordSplit) (grant : ℕ → ℕ)

/-- `ReadChunk`: nothing when it returns false, else the first `*size` bytes of the buffer. -/
def readChunk (s : InputSplitBase) (maxSize : ℕ) :
    Option (Option (List UInt8) × InputSplitBase) :=
  if maxSize ≤ s.overflow.length then some (some [], s)
  else do
    let (bytes, t) ← InputSplitBase.read grant { s with overflow := [] }
      (maxSize - s.overflow.length)
    let buf := s.overflow ++ bytes
    if buf.length = 0 then return (none, t)
    else if buf.length ≠ maxSize then return (some buf, t)
    else
      let bend ← f.findLastRecordBegin buf
      return (some (buf.take bend), { t with overflow := buf.drop bend })

/-- `LineSplitter` reads its chunks in this way. -/
theorem readChunk_lineSplitter (s : InputSplitBase) (maxSize : ℕ) :
    lineSplitter.readChunk grant s maxSize = s.readChunk grant maxSize := rfl

/-- The loop of `Chunk::Load`. A word has eight bytes. -/
def load : ℕ → Chunk → InputSplitBase → Option (Bool × Chunk × InputSplitBase)
  | 0, _, _ => none
  | fuel + 1, chunk, s => do
    let (bytes, t) ← f.readChunk grant s ((chunk.dataSize - 1) * 8)
    match bytes with
    | none => return (false, chunk, t)
    | some bytes =>
      if bytes.length = 0 then load fuel { chunk with dataSize := chunk.dataSize * 2 } t
      else return (true, { chunk with bytes }, t)

/-- `ThreadedInputSplit`: `BeforeFirst` and `Load` with a chunk that is new or used. Every turn of
the loop doubles the chunk. -/
def threaded (bufferSize : ℕ) : Producer InputSplitBase Chunk where
  fresh := { dataSize := bufferSize + 1, bytes := [] }
  next s chunk := f.load grant (s.overflow.length + (s.offsetEnd - s.offsetCurr) + 1)
    { chunk with
      dataSize := if chunk.dataSize < bufferSize + 1 then bufferSize + 1 else chunk.dataSize } s
  beforeFirst := InputSplitBase.beforeFirst

open InputSplitBase (upperFile seek)

/-- The place to which `Init` moves an end of a part. -/
def cut (files : List (List UInt8)) (x : ℕ) : Option ℕ :=
  let fp := upperFile files x
  if x ≠ fileOffset files fp then (f.seekRecordBegin (seek files fp x)).map fun n => x + n
  else some x

/-- Where `Init` wants part `k` of `n` to begin. -/
def bound (files : List (List UInt8)) (n k : ℕ) : ℕ :=
  let ntotal := fileOffset files files.length
  let nstep := (ntotal + n - 1) / n
  let nstep := (nstep + f.alignBytes - 1) / f.alignBytes * f.alignBytes
  min (nstep * k) ntotal

/-- `Init` with the files of `InitInputFileInfo`. When the part has no bytes, no file is opened. -/
def init (files : List (List UInt8)) (rank nsplit : ℕ) : Option InputSplitBase :=
  if files.any fun file => file.length % f.alignBytes != 0 then none
  else
    let offsetBegin := f.bound files nsplit rank
    let offsetEnd := f.bound files nsplit (rank + 1)
    if offsetBegin = offsetEnd then
      some { files := files, filePtr := 0, pos := 0, offsetCurr := offsetBegin,
             offsetBegin := offsetBegin, offsetEnd := offsetEnd, overflow := [], reads := 0 }
    else
      let filePtr := upperFile files offsetBegin
      let filePtrEnd := upperFile files offsetEnd
      if offsetEnd ≠ fileOffset files filePtrEnd ∧
          ¬ (fileOffset files filePtrEnd < offsetEnd ∧ filePtrEnd < files.length) then none
      else do
        let partEnd ← f.cut files offsetEnd
        let partBegin ← f.cut files offsetBegin
        return InputSplitBase.beforeFirst
          { files := files, filePtr := filePtr, pos := 0, offsetCurr := offsetBegin,
            offsetBegin := partBegin, offsetEnd := partEnd, overflow := [], reads := 0 }

/-! ## Parts -/

section Parts

variable {f : RecordSplit} {files : List (List UInt8)} {n k b e : ℕ}

theorem bound_le (f : RecordSplit) (files : List (List UInt8)) (n k : ℕ) :
    f.bound files n k ≤ files.flatten.length := by
  rw [bound, ← InputSplitBase.fileOffset_length]
  exact min_le_right _ _

theorem bound_mono : f.bound files n k ≤ f.bound files n (k + 1) :=
  inf_le_inf_right _ (Nat.mul_le_mul_left _ (Nat.le_succ k))

theorem bound_zero : f.bound files n 0 = 0 := by
  rw [bound, Nat.mul_zero, Nat.zero_min]

theorem bound_self (halign : 0 < f.alignBytes) (hn : 1 ≤ n) :
    f.bound files n n = files.flatten.length := by
  have hstep : ∀ total : ℕ, total ≤
      ((total + n - 1) / n + f.alignBytes - 1) / f.alignBytes * f.alignBytes * n := by
    intro total
    have hdiv := Nat.div_add_mod (total + n - 1) n
    have hmod := Nat.mod_lt (total + n - 1) (show n > 0 by omega)
    have hdiv' := Nat.div_add_mod ((total + n - 1) / n + f.alignBytes - 1) f.alignBytes
    have hmod' := Nat.mod_lt ((total + n - 1) / n + f.alignBytes - 1) halign
    rw [Nat.mul_comm f.alignBytes] at hdiv'
    calc total ≤ n * ((total + n - 1) / n) := by omega
      _ ≤ n * (((total + n - 1) / n + f.alignBytes - 1) / f.alignBytes * f.alignBytes) :=
        Nat.mul_le_mul_left _ (by omega)
      _ = _ := Nat.mul_comm _ _
  rw [bound, min_eq_right (hstep _), InputSplitBase.fileOffset_length]

/-- The `CHECK`s of `Init` hold. -/
theorem upperFile_check {x : ℕ} (hx : x ≤ files.flatten.length) :
    ¬ (x ≠ fileOffset files (upperFile files x) ∧
      ¬ (fileOffset files (upperFile files x) < x ∧ upperFile files x < files.length)) := by
  rintro ⟨hne, hcheck⟩
  rcases hx.lt_or_eq with hlt | rfl
  · obtain ⟨hfp, hle, -⟩ := InputSplitBase.upperFile_spec hlt
    exact hcheck ⟨lt_of_le_of_ne hle (Ne.symm hne), hfp⟩
  · rw [InputSplitBase.upperFile_length, InputSplitBase.fileOffset_length] at hne
    exact hne rfl

/-- **`Init`** moves both ends of the part to beginnings of records. -/
theorem init_eq (halign : ∀ file ∈ files, file.length % f.alignBytes = 0)
    (hb : f.cut files (f.bound files n k) = some b)
    (he : f.cut files (f.bound files n (k + 1)) = some e) (hle : e ≤ files.flatten.length) :
    ∃ s b' e', f.init files k n = some s ∧ s.Part files b' e' ∧ e' ≤ files.flatten.length ∧
      s.rest = (files.flatten.drop b).take (e - b) ∧
      (files.flatten.drop b').take (e' - b') = (files.flatten.drop b).take (e - b) := by
  have hany : (files.any fun file => file.length % f.alignBytes != 0) = false := by
    simpa using halign
  have hlast := bound_le f files n (k + 1)
  rw [init, if_neg (by rw [hany]; exact Bool.false_ne_true)]
  simp only
  generalize f.bound files n k = x at *
  generalize f.bound files n (k + 1) = y at *
  by_cases hxy : x = y
  · subst hxy
    obtain rfl : b = e := Option.some.inj (hb.symm.trans he)
    rw [if_pos rfl, Nat.sub_self, List.take_zero]
    refine ⟨_, x, x, rfl, ⟨InputSplitBase.reading_of_le le_rfl, rfl, rfl, rfl, fun _ => rfl⟩, hlast,
      ?_, by rw [Nat.sub_self, List.take_zero]⟩
    simp [InputSplitBase.rest]
  · rw [if_neg hxy, if_neg (upperFile_check hlast), hb, he]
    obtain ⟨hpart, hrest⟩ := InputSplitBase.beforeFirst_part
      (s := { files := files, filePtr := upperFile files x, pos := 0, offsetCurr := x,
              offsetBegin := b, offsetEnd := e, overflow := [], reads := 0 })
      rfl rfl rfl (fun _ => rfl) hle
    exact ⟨_, b, e, rfl, hpart, hle, hrest, rfl⟩

end Parts

/-! ## Chunks -/

/-- Every buffer of whole words has a last record. -/
def Finds : Prop := ∀ buf : List UInt8, buf ≠ [] → buf.length % 8 = 0 →
  ∃ m ≤ buf.length, f.findLastRecordBegin buf = some m

/-- These bytes were cut off here: they go up to the last record of some buffer of whole words. -/
def CutOff (bytes rest : List UInt8) : Prop :=
  ∃ buf, buf <+: bytes ++ rest ∧ buf.length % 8 = 0 ∧
    f.findLastRecordBegin buf = some bytes.length

/-- Chunks that were cut off, and what is left after them. -/
inductive Chunked (all : List UInt8) : List (List UInt8) → List UInt8 → Prop
  | nil : Chunked all [] all
  | snoc {chunks : List (List UInt8)} {bytes rest : List UInt8} :
      Chunked all chunks (bytes ++ rest) → bytes ≠ [] → (rest ≠ [] → f.CutOff bytes rest) →
      Chunked all (chunks ++ [bytes]) rest

section Chunks

variable {f : RecordSplit} {grant : ℕ → ℕ} {files : List (List UInt8)} {b e : ℕ}
  {s : InputSplitBase}

theorem Chunked.flatten_eq {all rest : List UInt8} {chunks : List (List UInt8)}
    (h : f.Chunked all chunks rest) : chunks.flatten ++ rest = all := by
  induction h with
  | nil => rfl
  | snoc _ _ _ ih => rw [List.flatten_append, List.flatten_singleton, List.append_assoc, ih]

open InputSplitBase (Part)

/-- **`ReadChunk`** cuts a chunk off the part, which is empty only when the buffer has no beginning
of a record but its first byte. -/
theorem readChunk_spec (grant : ℕ → ℕ) (hf : f.Finds) (hs : s.Part files b e) {words : ℕ}
    (hwords : 0 < words) :
    ∃ t, t.Part files b e ∧
      ((s.rest = [] ∧ t.rest = [] ∧ f.readChunk grant s (words * 8) = some (none, t)) ∨
        ∃ bytes, f.readChunk grant s (words * 8) = some (some bytes, t) ∧
          s.rest = bytes ++ t.rest ∧ (bytes = [] → words * 8 ≤ s.rest.length) ∧
          (bytes ≠ [] → t.rest ≠ [] → f.CutOff bytes t.rest)) := by
  by_cases hfull : words * 8 ≤ s.overflow.length
  · refine ⟨s, hs, Or.inr ⟨[], ?_, rfl, fun _ => ?_, fun h => absurd rfl h⟩⟩
    · rw [readChunk, if_pos hfull]
    · rw [InputSplitBase.rest, List.length_append]
      omega
  · obtain ⟨t, ht, hover, hsplit, hrun⟩ :=
      InputSplitBase.read_eq grant (hs.reading.overflow []) rfl (words * 8 - s.overflow.length)
    obtain ⟨hfiles, hbegin, hend⟩ := InputSplitBase.read_same hrun
    have hpart : ∀ o, (e ≤ b → o = []) → Part files b e { t with overflow := o } :=
      fun o ho => ⟨ht.overflow o, hfiles.trans hs.files_eq, hbegin.trans hs.begin_eq,
        hend.trans hs.end_eq, ho⟩
    have hpart' : t.Part files b e := by
      have hself := hpart [] fun _ => rfl
      rwa [show ({ t with overflow := [] } : InputSplitBase) = t by rw [← hover]] at hself
    obtain ⟨buf, hbuf⟩ : ∃ buf, buf = s.overflow ++
      (InputSplitBase.rest { s with overflow := [] }).take (words * 8 - s.overflow.length) :=
      ⟨_, rfl⟩
    have hrest : s.rest = buf ++ t.rest := by
      rw [InputSplitBase.rest_overflow s s.overflow, hbuf, List.append_assoc, ← hsplit]
    have hlen : buf.length = min (words * 8) s.rest.length := by
      have hsum : s.rest.length =
          s.overflow.length + (InputSplitBase.rest { s with overflow := [] }).length := by
        rw [InputSplitBase.rest_overflow s s.overflow, List.length_append]
      rw [hbuf, List.length_append, List.length_take]
      omega
    have hchunk : f.readChunk grant s (words * 8) =
        if buf.length = 0 then some (none, t)
        else if buf.length ≠ words * 8 then some (some buf, t)
        else (f.findLastRecordBegin buf).bind fun bend =>
          some (some (buf.take bend), { t with overflow := buf.drop bend }) := by
      rw [readChunk, if_neg hfull, hrun]
      simp only [Option.bind_eq_bind, Option.bind_some, ← hbuf]
      rfl
    rw [hchunk]
    by_cases hzero : buf.length = 0
    · rw [if_pos hzero]
      have hnil : s.rest = [] := List.length_eq_zero_iff.mp (by omega)
      rw [hnil] at hrest
      exact ⟨t, hpart', Or.inl ⟨hnil, (List.append_eq_nil_iff.mp hrest.symm).2, rfl⟩⟩
    · rw [if_neg hzero]
      by_cases hshort : buf.length ≠ words * 8
      · -- the part is over
        have hall : t.rest = [] := by
          have hsum := congrArg List.length hrest
          rw [List.length_append] at hsum
          exact List.length_eq_zero_iff.mp (by omega)
        rw [if_pos hshort]
        exact ⟨t, hpart', Or.inr ⟨buf, rfl, hrest, fun h => absurd (congrArg List.length h) hzero,
          fun _ h => absurd hall h⟩⟩
      · have height : buf.length % 8 = 0 := by omega
        obtain ⟨m, hm, hfind⟩ := hf buf (mt (congrArg List.length) hzero) height
        rw [if_neg hshort, hfind, Option.bind_some]
        have hrest' : InputSplitBase.rest { t with overflow := buf.drop m } =
            buf.drop m ++ t.rest := by
          rw [InputSplitBase.rest_overflow t (buf.drop m),
            show ({ t with overflow := [] } : InputSplitBase) = t by rw [← hover]]
        have hsplit' : s.rest =
            buf.take m ++ InputSplitBase.rest { t with overflow := buf.drop m } := by
          rw [hrest', ← List.append_assoc, List.take_append_drop, hrest]
        refine ⟨{ t with overflow := buf.drop m }, hpart _ fun hempty => ?_,
          Or.inr ⟨buf.take m, rfl, hsplit', fun _ => by omega, fun _ _ =>
            ⟨buf, ?_, height, ?_⟩⟩⟩
        · have hnil := hs.rest_eq_nil hempty
          rw [hnil] at hrest
          rw [(List.append_eq_nil_iff.mp hrest.symm).1, List.drop_nil]
        · rw [← hsplit', hrest]
          exact List.prefix_append buf t.rest
        · rw [hfind, List.length_take, min_eq_left hm]

/-- **`Chunk::Load`** doubles the buffer until a record ends in it or the part does. -/
theorem load_spec (hf : f.Finds) {fuel : ℕ} {chunk : Chunk} (hs : s.Part files b e)
    (hdata : 2 ≤ chunk.dataSize) (hfuel : s.rest.length < fuel + (chunk.dataSize - 1) * 8) :
    ∃ r, f.load grant (fuel + 1) chunk s = some r ∧ r.2.2.Part files b e ∧
      (r.1 = false ∧ s.rest = [] ∧ r.2.2.rest = [] ∨
        r.1 = true ∧ r.2.1.bytes ≠ [] ∧ s.rest = r.2.1.bytes ++ r.2.2.rest ∧
          (r.2.2.rest ≠ [] → f.CutOff r.2.1.bytes r.2.2.rest)) := by
  induction fuel generalizing s chunk with
  | zero =>
    obtain ⟨t, ht, ⟨hnil, hnil', hrun⟩ | ⟨bytes, hrun, hrest, hbig, hcut⟩⟩ :=
      readChunk_spec grant hf hs (show 0 < chunk.dataSize - 1 by omega)
    · exact ⟨(false, chunk, t), by rw [load, hrun]; rfl, ht, Or.inl ⟨rfl, hnil, hnil'⟩⟩
    · have hne : bytes ≠ [] := fun h => by have := hbig h; omega
      refine ⟨(true, { chunk with bytes }, t), ?_, ht, Or.inr ⟨rfl, hne, hrest, hcut hne⟩⟩
      rw [load, hrun]
      exact if_neg (mt List.length_eq_zero_iff.mp hne)
  | succ fuel ih =>
    obtain ⟨t, ht, ⟨hnil, hnil', hrun⟩ | ⟨bytes, hrun, hrest, hbig, hcut⟩⟩ :=
      readChunk_spec grant hf hs (show 0 < chunk.dataSize - 1 by omega)
    · exact ⟨(false, chunk, t), by rw [load, hrun]; rfl, ht, Or.inl ⟨rfl, hnil, hnil'⟩⟩
    · by_cases hne : bytes = []
      · subst hne
        rw [List.nil_append] at hrest
        have hgrow := hbig rfl
        rw [hrest] at hgrow hfuel ⊢
        rw [load, hrun]
        have htwo : 2 ≤ chunk.dataSize * 2 := by omega
        have hroom : t.rest.length < fuel + (chunk.dataSize * 2 - 1) * 8 := by omega
        exact ih ht (by exact htwo) (by exact hroom)
      · refine ⟨(true, { chunk with bytes }, t), ?_, ht, Or.inr ⟨rfl, hne, hrest, hcut hne⟩⟩
        rw [load, hrun]
        exact if_neg (mt List.length_eq_zero_iff.mp hne)

/-- One call of `next`. -/
theorem threaded_next (grant : ℕ → ℕ) (hf : f.Finds) {bufferSize : ℕ} (hbuffer : 1 ≤ bufferSize)
    (hs : s.Part files b e) (chunk : Chunk) :
    ∃ r, (f.threaded grant bufferSize).next s chunk = some r ∧ r.2.2.Part files b e ∧
      (r.1 = false ∧ s.rest = [] ∧ r.2.2.rest = [] ∨
        r.1 = true ∧ r.2.1.bytes ≠ [] ∧ s.rest = r.2.1.bytes ++ r.2.2.rest ∧
          (r.2.2.rest ≠ [] → f.CutOff r.2.1.bytes r.2.2.rest)) := by
  have hle := InputSplitBase.length_rest_le s
  have hdata : 2 ≤ if chunk.dataSize < bufferSize + 1 then bufferSize + 1 else chunk.dataSize := by
    split <;> omega
  refine load_spec hf hs hdata ?_
  show s.rest.length < s.overflow.length + (s.offsetEnd - s.offsetCurr) +
    ((if chunk.dataSize < bufferSize + 1 then bufferSize + 1 else chunk.dataSize) - 1) * 8
  omega

theorem threaded_keeps (hf : f.Finds) {bufferSize : ℕ} (hbuffer : 1 ≤ bufferSize)
    (hle : e ≤ files.flatten.length) :
    (f.threaded grant bufferSize).Keeps (Part files b e) where
  next s chunk hs := by
    obtain ⟨r, hr, hpart, -⟩ := threaded_next grant hf hbuffer hs chunk
    exact ⟨r, hr, hpart⟩
  beforeFirst s hs := (hs.beforeFirst hle).1

/-- What a single thread reads of the part. -/
theorem chunked_of_reads (hf : f.Finds) {bufferSize : ℕ} (hbuffer : 1 ≤ bufferSize)
    {ds : List Chunk} {ended : Bool} {t : InputSplitBase} (hs : s.Part files b e)
    (h : (f.threaded grant bufferSize).Reads s ds ended t) :
    t.Part files b e ∧ f.Chunked s.rest (ds.map Chunk.bytes) t.rest ∧
      (ended = true → t.rest = []) := by
  induction h with
  | start => exact ⟨hs, .nil, fun h => by cases h⟩
  | @more ds cell data source source' _ hcall ih =>
    obtain ⟨hpart, hchunked, -⟩ := ih
    obtain ⟨r, hr, hpart', hend | ⟨-, hne, hrest, hcut⟩⟩ :=
      threaded_next grant hf hbuffer hpart cell
    · rw [hcall] at hr
      obtain rfl := Option.some.inj hr
      cases hend.1
    · rw [hcall] at hr
      obtain rfl := Option.some.inj hr
      rw [hrest] at hchunked
      refine ⟨hpart', ?_, fun h => by cases h⟩
      rw [List.map_append, List.map_singleton]
      exact hchunked.snoc hne hcut
  | @ended ds cell data source source' _ hcall ih =>
    obtain ⟨hpart, hchunked, -⟩ := ih
    obtain ⟨r, hr, hpart', ⟨-, hnil, hnil'⟩ | hmore⟩ :=
      threaded_next grant hf hbuffer hpart cell
    · rw [hcall] at hr
      obtain rfl := Option.some.inj hr
      rw [hnil] at hchunked
      exact ⟨hpart', by rw [hnil']; exact hchunked, fun _ => hnil'⟩
    · rw [hcall] at hr
      obtain rfl := Option.some.inj hr
      cases hmore.1

theorem Chunked.of_append {all rest : List UInt8} {chunks later : List (List UInt8)}
    (h : f.Chunked all (chunks ++ later) rest) : f.Chunked all chunks (later.flatten ++ rest) := by
  induction later using List.reverseRecOn generalizing rest with
  | nil => rwa [List.append_nil] at h
  | append_singleton later bytes ih =>
    rw [← List.append_assoc] at h
    rw [List.flatten_append, List.flatten_singleton, List.append_assoc]
    generalize hall : chunks ++ later ++ [bytes] = all' at h
    cases h with
    | nil => simp at hall
    | snoc h' _ _ =>
      obtain ⟨hchunks, hbytes⟩ := List.append_inj' hall rfl
      subst hchunks
      obtain rfl := List.singleton_inj.mp hbytes
      exact ih h'

/-- What the consumer has got since the last rewind: chunks that were cut off the part one after the
other, from its beginning, and then false only when nothing is left. -/
def Delivered (f : RecordSplit) (part : List UInt8)
    (s : ThreadedIter InputSplitBase Chunk) : Prop :=
  ∃ (chunks : List Chunk) (ends : ℕ) (rest : List UInt8),
    s.results = chunks.map some ++ List.replicate ends none ∧
    f.Chunked part (chunks.map Chunk.bytes) rest ∧ (0 < ends → rest = [])

/-- **`ThreadedInputSplit`** delivers its part, in every order of the steps and after every rewind.
-/
theorem threaded_delivered (hf : f.Finds) {bufferSize cap : ℕ} (hbuffer : 1 ≤ bufferSize)
    {s₀ : InputSplitBase} (hs₀ : s₀.Part files b e) (hle : e ≤ files.flatten.length)
    (hrest : s₀.rest = (files.flatten.drop b).take (e - b))
    {s : ThreadedIter InputSplitBase Chunk}
    (hr : Reach (ThreadedIter.step (f.threaded grant bufferSize)) anyStep
      (ThreadedIter.init cap s₀) s) (hsig : s.producerSig ≠ .destroy) :
    f.Delivered ((files.flatten.drop b).take (e - b)) s := by
  have hkeeps : (f.threaded grant bufferSize).Keeps (Part files b e) :=
    threaded_keeps hf hbuffer hle
  have horigin : ∀ {origin}, (f.threaded grant bufferSize).Rewound s₀ origin →
      origin.Part files b e ∧ origin.rest = (files.flatten.drop b).take (e - b) := by
    intro origin h
    cases h with
    | start => exact ⟨hs₀, hrest⟩
    | again h' hreads =>
      have hpart := (chunked_of_reads hf hbuffer (h'.keeps hkeeps hs₀) hreads).1
      exact hpart.beforeFirst hle
  obtain ⟨hrewound, ds, ends, hresults, hreads, hends⟩ :=
    (ThreadedIter.reach_streaming hr).streams hsig
  obtain ⟨hpart, hall⟩ := horigin hrewound
  obtain ⟨-, hchunked, hover⟩ := chunked_of_reads hf hbuffer hpart hreads
  rw [hall, List.append_assoc, List.map_append] at hchunked
  refine ⟨ds, ends, _, hresults, hchunked.of_append, fun hpos => ?_⟩
  obtain ⟨hend, hqueue⟩ := hends hpos
  have hhand : s.inHand = [] := by
    unfold ThreadedIter.inHand
    split <;> simp [hend]
  rw [hqueue, hhand, hover hend]
  rfl

end Chunks

end RecordSplit

/-! ## Text -/

namespace RecordSplit

variable {files : List (List UInt8)}

theorem lineSplitter_finds : lineSplitter.Finds := by
  intro buf hne _
  have hlen := List.length_pos_iff.mpr hne
  have hscan := (LineSplitter.scanBack_spec (show buf.length - 1 < buf.length by omega)).1
  refine ⟨_, hscan, ?_⟩
  show LineSplitter.findLastRecordBegin buf = _
  rw [LineSplitter.findLastRecordBegin, if_neg (by omega)]

/-- A chunk that is not the last one of its part ends a line. -/
theorem endsLine_of_cutOff {bytes rest : List UInt8} (hne : bytes ≠ [])
    (h : lineSplitter.CutOff bytes rest) : EndsLine bytes := by
  obtain ⟨buf, hpre, -, hfind⟩ := h
  have hbuf : buf ≠ [] := by
    rintro rfl
    simp [lineSplitter, LineSplitter.findLastRecordBegin] at hfind
  have hlen := List.length_pos_iff.mpr hbuf
  simp only [lineSplitter, LineSplitter.findLastRecordBegin, List.length_eq_zero_iff, hbuf,
    if_false, Option.some.injEq] at hfind
  obtain ⟨hle, hends⟩ := LineSplitter.scanBack_spec (show buf.length - 1 < buf.length by omega)
  rw [hfind] at hle hends
  have htake : buf.take bytes.length = bytes := by
    rw [List.prefix_iff_eq_take] at hpre
    rw [hpre, List.take_take, min_eq_left hle, List.take_left]
  rw [htake] at hends
  exact hends (mt List.length_eq_zero_iff.mp hne)

/-- Where a part of text files ends that should end at `x`. -/
theorem cut_lineSplitter {x : ℕ} (hx : x ≤ files.flatten.length) :
    ∃ y ≤ files.flatten.length, lineSplitter.cut files x = some y := by
  unfold cut
  simp only
  split
  · next hne =>
    rcases hx.lt_or_eq with hlt | rfl
    · obtain ⟨hfp, hle, hnext⟩ := InputSplitBase.upperFile_spec hlt
      refine ⟨_, ?_, rfl⟩
      have hseek := LineSplitter.seekRecordBegin_le_length
        (InputSplitBase.seek files (InputSplitBase.upperFile files x) x)
      have hend := congrArg List.length (congrArg List.flatten
        (List.take_append_drop (InputSplitBase.upperFile files x + 1) files))
      rw [List.flatten_append, List.length_append, InputSplitBase.length_flatten_take] at hend
      rw [InputSplitBase.fileOffset_succ hfp] at hend hnext
      have hlen : (InputSplitBase.seek files (InputSplitBase.upperFile files x) x).length =
          (files.getD (InputSplitBase.upperFile files x) []).length -
            (x - fileOffset files (InputSplitBase.upperFile files x)) := by
        rw [InputSplitBase.seek, List.length_drop]
      show x + LineSplitter.seekRecordBegin
        (InputSplitBase.seek files (InputSplitBase.upperFile files x) x) ≤ files.flatten.length
      omega
    · rw [InputSplitBase.upperFile_length, InputSplitBase.fileOffset_length] at hne
      exact absurd rfl hne
  · exact ⟨x, hx, rfl⟩

theorem Chunked.endsLine {all rest : List UInt8} {chunks : List (List UInt8)}
    (h : lineSplitter.Chunked all chunks rest) :
    (∀ c ∈ chunks, c ≠ []) ∧ (∀ c ∈ chunks.dropLast, EndsLine c) ∧
      (rest ≠ [] → ∀ c ∈ chunks, EndsLine c) := by
  induction h with
  | nil => simp
  | @snoc chunks bytes rest _ hne hcut ih =>
    obtain ⟨hnonempty, -, hall⟩ := ih
    have hbefore := hall (by simp [hne])
    refine ⟨?_, by rwa [List.dropLast_concat], fun hrest => ?_⟩
    · intro c hc
      rcases List.mem_append.mp hc with hc | hc
      · exact hnonempty c hc
      · rwa [List.mem_singleton.mp hc]
    · intro c hc
      rcases List.mem_append.mp hc with hc | hc
      · exact hbefore c hc
      · rw [List.mem_singleton.mp hc]
        exact endsLine_of_cutOff hne (hcut hrest)

end RecordSplit

end Difacto.Io
