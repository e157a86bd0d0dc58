import Mathlib.Data.List.DropRight
import Difacto.Base.Workload
import Difacto.Base.CompressedRowBlock
import Difacto.Lib.Codec

/-!
# Messages with workloads

`Workload::Save` and `Workload::Load` of `base/workload.h`, which carry an assignment from the
scheduler to a worker. The bytes go through a `StringStream` (`base/string_stream.h`), strings
through `PODStringHandler` of `dmlc/serializer.h`.

Here the strings of a workload are any bytes. Memory is not limited, but a stream is a
`std::string`, whose length is a `size_t`.

## Main definitions

* `StringStream` — the stream, with `read` and `write`.
* `Workload`, `Workload.save`, `Workload.load`.

## Main results

* `Workload.save_eq` — the bytes of a workload.
* `Workload.load_save` — they are read back, one workload after the other, and a message that is
  cut off is found.
-/

namespace Difacto.Io

open Lib Base

/-! ## The stream -/

/-- How a call ends that does not return. -/
inductive Fault
  /-- a `CHECK` -/
  | check
  /-- `std::length_error` -/
  | length
  /-- memory behind a buffer, or a number that is no enumerator -/
  | undefined
  deriving DecidableEq, Repr

/-- `StringStream`: `buf_` and `pos_`. -/
structure StringStream where
  buf : List UInt8 := []
  pos : ℕ := 0
  buf_lt : buf.length < 2 ^ 64 := by decide
  pos_le : pos ≤ buf.length := by decide

/-- Calls on a stream. -/
abbrev StreamM := StateT StringStream (Except Fault)

namespace StringStream

/-- The bytes that have not been read. -/
def rest (s : StringStream) : List UInt8 := s.buf.drop s.pos

/-- The number of bytes that have not been read. -/
theorem length_rest (s : StringStream) : s.pos + s.rest.length = s.buf.length := by
  have hpos := s.pos_le
  rw [rest, List.length_drop]
  omega

/-- `StringStream::Read`. The sum of the bound check is one of `size_t`. -/
def read (size : ℕ) : StreamM (List UInt8) := fun s =>
  if (size + s.pos) % 2 ^ 64 ≤ s.buf.length then
    if h : size + s.pos ≤ s.buf.length then
      .ok (s.rest.take size, { s with pos := size + s.pos, pos_le := h })
    else .error .undefined
  else .error .check

/-- `buf_.append` -/
def append (s : StringStream) (bs : List UInt8) (h : (s.buf ++ bs).length < 2 ^ 64) :
    StringStream where
  buf := s.buf ++ bs
  pos := s.pos
  buf_lt := h
  pos_le := s.pos_le.trans (by simp)

/-- `StringStream::Write` -/
def write (bs : List UInt8) : StreamM Unit := fun s =>
  if h : (s.buf ++ bs).length < 2 ^ 64 then .ok ((), s.append bs h) else .error .length

/-- A stream as it is read. -/
def cursor : Cursor StringStream where
  rest := rest
  pos := pos

theorem codes_read (w : List UInt8) : Codes cursor (2 ^ 64) .check (read w.length) w w where
  read s r (hr : s.rest = w ++ r) := by
    have hlen := s.length_rest
    have hlt := s.buf_lt
    have hle : w.length + s.pos ≤ s.buf.length := by
      rw [hr, List.length_append] at hlen
      omega
    refine ⟨{ s with pos := w.length + s.pos, pos_le := hle }, ?_, ?_, Nat.add_comm ..⟩
    · have hmod : (w.length + s.pos) % 2 ^ 64 ≤ s.buf.length := (Nat.mod_le ..).trans hle
      simp only [StateT.run, StringStream.read, hmod, hle, hr, if_true, dite_true,
        List.take_left]
    · have hdrop : s.buf.drop (w.length + s.pos) = s.rest.drop w.length := by
        rw [rest, List.drop_drop, Nat.add_comm]
      change s.buf.drop (w.length + s.pos) = r
      rw [hdrop, hr, List.drop_left]
  cut s (hs : s.rest <+: w) (hne : s.rest ≠ w) (hlt : s.pos + w.length < 2 ^ 64) := by
    have hlen := s.length_rest
    have hshort : s.rest.length < w.length :=
      lt_of_le_of_ne hs.length_le fun h => hne (hs.eq_of_length h)
    have hmod : ¬(w.length + s.pos) % 2 ^ 64 ≤ s.buf.length := by
      rw [Nat.mod_eq_of_lt (by omega)]
      omega
    simp only [StateT.run, StringStream.read, hmod, if_false]

/-! ### Writing -/

theorem write_of_lt {s : StringStream} {bs : List UInt8} (h : (s.buf ++ bs).length < 2 ^ 64) :
    write bs s = .ok ((), s.append bs h) :=
  dif_pos h

theorem write_of_not_lt {s : StringStream} {bs : List UInt8}
    (h : ¬(s.buf ++ bs).length < 2 ^ 64) : write bs s = .error .length :=
  dif_neg h

theorem write_nil : write [] = pure () := by
  funext s
  have hlt : (s.buf ++ []).length < 2 ^ 64 := by simpa using s.buf_lt
  have happend : s.append [] hlt = s := by simp [append]
  rw [write_of_lt hlt, happend]
  rfl

/-- Two writes are one. -/
theorem write_bind_write (u v : List UInt8) : (write u >>= fun _ => write v) = write (u ++ v) := by
  funext s
  change (write u s >>= fun p => write v p.2) = write (u ++ v) s
  by_cases hu : (s.buf ++ u).length < 2 ^ 64
  · rw [write_of_lt hu]
    change write v (s.append u hu) = write (u ++ v) s
    by_cases huv : (s.buf ++ (u ++ v)).length < 2 ^ 64
    · have hv : ((s.append u hu).buf ++ v).length < 2 ^ 64 := by
        simpa only [append, List.append_assoc] using huv
      have happend : (s.append u hu).append v hv = s.append (u ++ v) huv := by
        simp only [append, List.append_assoc]
      rw [write_of_lt hv, write_of_lt huv, happend]
    · have hv : ¬((s.append u hu).buf ++ v).length < 2 ^ 64 := by
        simpa only [append, List.append_assoc] using huv
      rw [write_of_not_lt hv, write_of_not_lt huv]
  · have huv : ¬(s.buf ++ (u ++ v)).length < 2 ^ 64 := by
      simp only [List.length_append] at hu ⊢
      omega
    rw [write_of_not_lt hu, write_of_not_lt huv]
    rfl

/-- What is in an empty stream after a write. -/
theorem buf_of_run_write {bs : List UInt8} {msg : StringStream}
    (h : (write bs).run {} = .ok ((), msg)) : msg.buf = bs := by
  by_cases hlt : (({} : StringStream).buf ++ bs).length < 2 ^ 64
  · rw [StateT.run, write_of_lt hlt] at h
    cases h
    rfl
  · rw [StateT.run, write_of_not_lt hlt] at h
    cases h

end StringStream

open StringStream

/-! ## Values and strings -/

/-- `int` values take four bytes. -/
instance : FixedBytes Int32 where
  width := 4
  toBytes x := leBytes 4 x.toUInt32.toNat
  ofBytes bs := (UInt32.ofNat (ofLeBytes bs)).toInt32

instance : LawfulFixedBytes Int32 where
  length_toBytes x := length_leBytes 4 x.toUInt32.toNat
  ofBytes_toBytes x := by
    have hlt : x.toUInt32.toNat < 256 ^ 4 := x.toUInt32.toNat_lt
    simp only [FixedBytes.ofBytes, FixedBytes.toBytes, ofLeBytes_leBytes hlt, UInt32.ofNat_toNat,
      Int32.toInt32_toUInt32]

section Values

variable {T : Type} [FixedBytes T]

/-- `fi->Read(&x, sizeof(x))` -/
def readPod (T : Type) [FixedBytes T] : StreamM T := do
  return FixedBytes.ofBytes (← read (FixedBytes.width T))

/-- `fo->Write(&x, sizeof(x))` -/
def writePod (x : T) : StreamM Unit := write (FixedBytes.toBytes x)

theorem codes_readPod [LawfulFixedBytes T] (x : T) :
    Codes cursor (2 ^ 64) .check (readPod T) (FixedBytes.toBytes x) x := by
  have hread := (codes_read (FixedBytes.toBytes x)).map (FixedBytes.ofBytes (F := T))
  rwa [length_toBytes, ofBytes_toBytes] at hread

end Values

/-- `PODStringHandler::Read` -/
def readString : StreamM (List UInt8) := do
  let sz ← readPod UInt64
  if sz ≠ 0 then read sz.toNat else return []

/-- `PODStringHandler::Write` -/
def writeString (vec : List UInt8) : StreamM Unit := do
  let sz := vec.length
  writePod (UInt64.ofNat sz)
  if sz ≠ 0 then write vec

/-- The bytes of a string. -/
def stringBytes (vec : List UInt8) : List UInt8 :=
  FixedBytes.toBytes (UInt64.ofNat vec.length) ++ vec

theorem length_le_stringBytes (vec : List UInt8) : vec.length ≤ (stringBytes vec).length := by
  simp [stringBytes]

theorem writeString_eq (vec : List UInt8) : writeString vec = write (stringBytes vec) := by
  rw [writeString, stringBytes, writePod, ← write_bind_write]
  cases vec with
  | nil => simp [write_nil]
  | cons b vec => simp

theorem codes_readString {vec : List UInt8} (h : vec.length < 2 ^ 64) :
    Codes cursor (2 ^ 64) .check readString (stringBytes vec) vec := by
  have hnat : (UInt64.ofNat vec.length).toNat = vec.length := UInt64.toNat_ofNat_of_lt h
  refine (codes_readPod (UInt64.ofNat vec.length)).bind ?_
  by_cases hnil : vec = []
  · subst hnil
    exact Codes.pure []
  · have hne : UInt64.ofNat vec.length ≠ 0 := by
      intro h0
      rw [h0] at hnat
      exact hnil (List.length_eq_zero_iff.mp hnat.symm)
    rw [if_pos hne, hnat]
    exact codes_read vec

/-! ## Workloads -/

/-- `Workload::File` -/
structure Workload.File where
  filename : List UInt8 := []
  format : List UInt8 := []
  n : Int32 := 1
  k : Int32 := 0
  deriving DecidableEq, Repr

/-- `Workload` -/
structure Workload where
  type : WorkloadType
  dataPass : Int32
  file : List Workload.File := []
  deriving DecidableEq, Repr

/-- The value of an enumerator. -/
def typeValue : WorkloadType → Int32
  | .train => 0
  | .val => 1
  | .pred => 2

/-- `fi->Read(&type, sizeof(type))` -/
def readType : StreamM WorkloadType := do
  let t ← readPod Int32
  match [WorkloadType.train, .val, .pred].find? fun type => typeValue type = t with
  | some type => return type
  | none => throw .undefined

theorem codes_readType (type : WorkloadType) :
    Codes cursor (2 ^ 64) .check readType (FixedBytes.toBytes (typeValue type)) type := by
  rw [← List.append_nil (FixedBytes.toBytes (typeValue type))]
  refine (codes_readPod (typeValue type)).bind ?_
  cases type <;> exact Codes.pure _

namespace Workload

/-- One file of `Workload::Load`. -/
def loadFile (file : List File) : StreamM (List File) := do
  let filename ← readString
  let format ← readString
  let n ← readPod Int32
  let k ← readPod Int32
  return file ++ [⟨filename, format, n, k⟩]

/-- `Workload::Load` -/
def load (wl : Workload) : StreamM Workload := do
  let type ← readType
  let dataPass ← readPod Int32
  let num ← readPod UInt64
  let file ← repeatM loadFile num.toNat wl.file
  return { type, dataPass, file }

/-- One file of `Workload::Save`. -/
def saveFile (f : File) : StreamM Unit := do
  writeString f.filename
  writeString f.format
  writePod f.n
  writePod f.k

/-- `Workload::Save` -/
def save (wl : Workload) : StreamM Unit := do
  writePod (typeValue wl.type)
  writePod wl.dataPass
  writePod (UInt64.ofNat wl.file.length)
  forM wl.file saveFile

/-! ### The bytes of a workload -/

/-- The bytes of a file. -/
def fileBytes (f : File) : List UInt8 :=
  stringBytes f.filename ++ (stringBytes f.format ++
    (FixedBytes.toBytes f.n ++ FixedBytes.toBytes f.k))

/-- The bytes of a workload. -/
def bytes (wl : Workload) : List UInt8 :=
  FixedBytes.toBytes (typeValue wl.type) ++ (FixedBytes.toBytes wl.dataPass ++
    (FixedBytes.toBytes (UInt64.ofNat wl.file.length) ++ wl.file.flatMap fileBytes))

theorem saveFile_eq (f : File) : saveFile f = write (fileBytes f) := by
  simp only [saveFile, writeString_eq, writePod, fileBytes, write_bind_write]

theorem forM_eq_write {ρ : Type} {put : ρ → StreamM Unit} {enc : ρ → List UInt8}
    (h : ∀ x, put x = write (enc x)) (xs : List ρ) : forM xs put = write (xs.flatMap enc) := by
  induction xs with
  | nil => exact write_nil.symm
  | cons x xs ih => rw [List.forM_cons, h, ih, write_bind_write, List.flatMap_cons]

/-- `Save` writes the bytes of the workload. -/
theorem save_eq (wl : Workload) : wl.save = write wl.bytes := by
  simp only [save, forM_eq_write saveFile_eq, writePod, bytes, write_bind_write]

/-! ### Reading back -/

theorem codes_loadFile {f : File} (h : (fileBytes f).length < 2 ^ 64) (file : List File) :
    Codes cursor (2 ^ 64) .check (loadFile file) (fileBytes f) (file ++ [f]) := by
  have hfilename := length_le_stringBytes f.filename
  have hformat := length_le_stringBytes f.format
  simp only [fileBytes, List.length_append] at h
  refine (codes_readString (by omega)).bind ((codes_readString (by omega)).bind ?_)
  exact (codes_readPod f.n).bind
    ((codes_readPod f.k).map fun k => file ++ [⟨f.filename, f.format, f.n, k⟩])

/-- A file takes no more room than its workload. -/
theorem length_fileBytes_le {wl : Workload} {f : File} (hf : f ∈ wl.file) :
    (fileBytes f).length ≤ wl.bytes.length := by
  have hsub := (List.sublist_flatten_of_mem (List.mem_map_of_mem (f := fileBytes) hf)).length_le
  rw [← List.flatMap_def] at hsub
  simp only [bytes, List.length_append]
  omega

theorem length_file_le (wl : Workload) : wl.file.length ≤ wl.bytes.length := by
  have hfile : wl.file.length ≤ (wl.file.flatMap fileBytes).length := by
    refine length_le_flatMap fun f _ h => ?_
    have hlen := congrArg List.length h
    simp [fileBytes, stringBytes, FixedBytes.toBytes] at hlen
  simp only [bytes, List.length_append]
  omega

theorem foldl_concat {ρ : Type} (xs : List ρ) :
    xs.foldl (fun acc x => acc ++ [x]) [] = xs := by
  rw [List.foldl_append_eq_append, ← List.flatMap_def, List.flatMap_singleton', List.nil_append]

theorem codes_load {wl : Workload} (h : wl.bytes.length < 2 ^ 64) (type : WorkloadType)
    (dataPass : Int32) :
    Codes cursor (2 ^ 64) .check (load { type, dataPass }) wl.bytes wl := by
  have hnum : (UInt64.ofNat wl.file.length).toNat = wl.file.length :=
    UInt64.toNat_ofNat_of_lt ((length_file_le wl).trans_lt h)
  refine (codes_readType wl.type).bind ((codes_readPod wl.dataPass).bind
    ((codes_readPod (UInt64.ofNat wl.file.length)).bind ?_))
  rw [hnum]
  have hfiles : Codes cursor (2 ^ 64) .check (repeatM loadFile wl.file.length [])
      (wl.file.flatMap fileBytes) (wl.file.foldl (fun file f => file ++ [f]) []) :=
    .repeatM (fun f hf file => codes_loadFile ((length_fileBytes_le hf).trans_lt h) file) []
  rw [foldl_concat] at hfiles
  exact hfiles.map fun file => { type := wl.type, dataPass := wl.dataPass, file : Workload }

/-! ### Messages -/

/-- Workloads that are loaded one after the other, each into a new one. -/
def loadAll (type : WorkloadType) (dataPass : Int32) (num : ℕ) : StreamM (List Workload) :=
  repeatM (fun wls => do return wls ++ [← load { type, dataPass }]) num []

theorem codes_loadAll {wls : List Workload} (h : (wls.flatMap bytes).length < 2 ^ 64)
    (type : WorkloadType) (dataPass : Int32) : Codes cursor (2 ^ 64) .check
      (loadAll type dataPass wls.length) (wls.flatMap bytes) wls := by
  have hload : ∀ wl ∈ wls, ∀ acc : List Workload, Codes cursor (2 ^ 64) .check
      (do return acc ++ [← load { type, dataPass }]) wl.bytes (acc ++ [wl]) := by
    intro wl hwl acc
    have hle := (List.sublist_flatten_of_mem (List.mem_map_of_mem (f := bytes) hwl)).length_le
    rw [← List.flatMap_def] at hle
    exact (codes_load (hle.trans_lt h) type dataPass).map fun wl => acc ++ [wl]
  have hall : Codes cursor (2 ^ 64) .check (loadAll type dataPass wls.length)
      (wls.flatMap bytes) (wls.foldl (fun acc wl => acc ++ [wl]) []) :=
    .repeatM hload []
  rwa [foldl_concat] at hall

/-- **Workloads are read back.** `Load` into a new workload takes up the bytes that `Save` wrote
and no others, and gives the workload that was saved, so workloads that were saved one after the
other come back in order. A message that is cut off anywhere fails the bound check of the
stream. -/
theorem load_save (wl : Workload) {msg : StringStream} (hsave : wl.save.run {} = .ok ((), msg))
    (type : WorkloadType) (dataPass : Int32) :
    (∀ s r, s.rest = msg.buf ++ r → ∃ s', (load { type, dataPass }).run s = .ok (wl, s') ∧
      s'.rest = r ∧ s'.pos = s.pos + msg.buf.length) ∧
    (∀ s, s.pos = 0 → s.buf <+: msg.buf → s.buf ≠ msg.buf →
      (load { type, dataPass }).run s = .error .check) ∧
    ∀ (wls : List Workload) (msgs : StringStream), (forM wls save).run {} = .ok ((), msgs) →
      ∀ s r, s.rest = msgs.buf ++ r → ∃ s', (loadAll type dataPass wls.length).run s =
        .ok (wls, s') ∧ s'.rest = r ∧ s'.pos = s.pos + msgs.buf.length := by
  rw [save_eq] at hsave
  have hbuf := buf_of_run_write hsave
  have hlt := msg.buf_lt
  rw [hbuf] at hlt ⊢
  have hload := codes_load hlt type dataPass
  refine ⟨hload.read, ?_, ?_⟩
  · intro s hpos hpre hne
    have hrest : cursor.rest s = s.buf := by
      change s.buf.drop s.pos = s.buf
      rw [hpos, List.drop_zero]
    have hend : cursor.pos s + wl.bytes.length < 2 ^ 64 := by
      change s.pos + wl.bytes.length < 2 ^ 64
      omega
    exact hload.cut s (hrest ▸ hpre) (hrest ▸ hne) hend
  · intro wls msgs hsaves
    rw [forM_eq_write save_eq] at hsaves
    have hbufs := buf_of_run_write hsaves
    have hlts := msgs.buf_lt
    rw [hbufs] at hlts ⊢
    exact (codes_loadAll hlts type dataPass).read

/-- A message with one file, whose last byte is missing. -/
theorem load_save_cut :
    (load { type := .pred, dataPass := 0 }).run
      { buf := [0, 0, 0, 0, 1, 0, 0, 0, 1, 0, 0, 0, 0, 0, 0, 0, 1, 0, 0, 0, 0, 0, 0, 0, 97,
        0, 0, 0, 0, 0, 0, 0, 0, 2, 0, 0, 0, 1, 0, 0] } = .error .check := by
  have hsave : (save { type := .train, dataPass := 1, file := [⟨[97], [], 2, 1⟩] }).run {} =
      .ok ((), { buf := [0, 0, 0, 0, 1, 0, 0, 0, 1, 0, 0, 0, 0, 0, 0, 0, 1, 0, 0, 0, 0, 0, 0, 0, 97,
        0, 0, 0, 0, 0, 0, 0, 0, 2, 0, 0, 0, 1, 0, 0, 0] }) := rfl
  exact (load_save _ hsave .pred 0).2.1 _ rfl (by decide) (by decide)

/-! ### The workloads of the pool -/

/-- The bytes of a string. -/
def stringData (s : String) : List UInt8 := s.toByteArray.data.toList

theorem stringData_inj {s t : String} (h : stringData s = stringData t) : s = t :=
  String.toByteArray_inj.mp (ByteArray.ext (Array.toList_inj.mp h))

/-- A file of the pool as it is sent to a worker. -/
def ofBaseFile (f : Base.Workload.File) : File where
  filename := stringData f.filename
  format := stringData f.format
  n := Int32.ofInt f.n
  k := Int32.ofInt f.k

/-- A workload of the pool as it is sent to a worker. -/
def ofBase (wl : Base.Workload) : Workload where
  type := wl.type
  dataPass := Int32.ofInt wl.dataPass
  file := wl.file.map ofBaseFile

/-- A value of `int`. -/
def IsInt (z : ℤ) : Prop := -2 ^ 31 ≤ z ∧ z < 2 ^ 31

theorem ofInt_inj {y z : ℤ} (hy : IsInt y) (hz : IsInt z) (h : Int32.ofInt y = Int32.ofInt z) :
    y = z := by
  have hint := congrArg Int32.toInt h
  rwa [Int32.toInt_ofInt_of_le hy.1 hy.2, Int32.toInt_ofInt_of_le hz.1 hz.2] at hint

theorem ofBaseFile_inj {f f' : Base.Workload.File} (hn : IsInt f.n) (hk : IsInt f.k)
    (hn' : IsInt f'.n) (hk' : IsInt f'.k) (h : ofBaseFile f = ofBaseFile f') : f = f' := by
  simp only [ofBaseFile, File.mk.injEq] at h
  obtain ⟨hfilename, hformat, heqn, heqk⟩ := h
  cases f
  cases f'
  simp only [Base.Workload.File.mk.injEq]
  exact ⟨stringData_inj hfilename, stringData_inj hformat, ofInt_inj hn hn' heqn,
    ofInt_inj hk hk' heqk⟩

/-- The numbers of a workload are values of `int`. -/
structure Ints (wl : Base.Workload) : Prop where
  dataPass : IsInt wl.dataPass
  file : ∀ f ∈ wl.file, IsInt f.n ∧ IsInt f.k

theorem map_ofBaseFile_inj {fs fs' : List Base.Workload.File}
    (hfs : ∀ f ∈ fs, IsInt f.n ∧ IsInt f.k) (hfs' : ∀ f ∈ fs', IsInt f.n ∧ IsInt f.k)
    (h : fs.map ofBaseFile = fs'.map ofBaseFile) : fs = fs' := by
  induction fs generalizing fs' with
  | nil => exact (List.map_eq_nil_iff.mp h.symm).symm
  | cons f fs ih =>
      cases fs' with
      | nil => cases h
      | cons f' fs' =>
          rw [List.map_cons, List.map_cons, List.cons.injEq] at h
          rw [List.forall_mem_cons] at hfs hfs'
          rw [ofBaseFile_inj hfs.1.1 hfs.1.2 hfs'.1.1 hfs'.1.2 h.1, ih hfs.2 hfs'.2 h.2]

/-- Two workloads of the pool that a worker sees as the same are the same. -/
theorem ofBase_inj {wl wl' : Base.Workload} (hwl : Ints wl) (hwl' : Ints wl')
    (h : ofBase wl = ofBase wl') : wl = wl' := by
  simp only [ofBase, mk.injEq] at h
  obtain ⟨htype, hpass, hfile⟩ := h
  cases wl
  cases wl'
  simp only [Base.Workload.mk.injEq]
  exact ⟨htype, ofInt_inj hwl.dataPass hwl'.dataPass hpass,
    map_ofBaseFile_inj hwl.file hwl'.file hfile⟩

end Workload

end Difacto.Io
