import Difacto.Base.MinibatchIter
import Difacto.Base.Binary32
import Difacto.Lib.Bytes
import Difacto.Lib.Ints
import Mathlib.Data.UInt

/-!
# Compressed row blocks

`CompressedRowBlock` of `base/compressed_row_block.h` and `CRBParser` of `base/crb_parser.h`.
The five arrays of a block are compressed one by one, each after its compressed size; the size 0
stands for an array that is not there. The library LZ4 is a parameter. A failed `CHECK` is
`none`, and so is an access outside of an array.

## Main definitions

* `Lz4`, `Lz4.Lawful` — the library and what `lz4.h` says of it.
* `RawBlock` — a block as it is given to `Compress`, by its pointers.
* `CompressedRowBlock.compress`, `CompressedRowBlock.decompress`.
* `CRBParser.parseNext`.

## Main results

* `CompressedRowBlock.decompressArray_compressArray` — one array.
* `CompressedRowBlock.round_trip` — a whole block.
-/

namespace Difacto.Base

open Lib

/-! ## LZ4 -/

/-- `LZ4_MAX_INPUT_SIZE` -/
def maxInputSize : ℕ := 0x7E000000

/-- `LZ4_compressBound`; it is 0 for a size that is too large. -/
def compressBound (inputSize : ℤ) : ℤ :=
  if maxInputSize < (inputSize % 2 ^ 32).toNat then 0 else inputSize + inputSize / 255 + 16

/-- The functions of LZ4. -/
structure Lz4 where
  /-- `LZ4_compress_default`, for a source and the size of the destination: what is written. When
  it returns 0 this is nothing. -/
  compressDefault : List UInt8 → ℤ → List UInt8
  /-- `LZ4_decompress_safe`, for a block and the size of the destination: what is written, if no
  error is returned. -/
  decompressSafe : List UInt8 → ℤ → Option (List UInt8)

/-- What `lz4.h` says. -/
structure Lz4.Lawful (lz : Lz4) : Prop where
  length_compress_le : ∀ (src : List UInt8) (n : ℤ), 0 ≤ n → (lz.compressDefault src n).length ≤ n
  compress_ne_nil : ∀ src : List UInt8, src.length ≤ maxInputSize →
    lz.compressDefault src (compressBound src.length) ≠ []
  decompress_compress : ∀ src : List UInt8, src.length ≤ maxInputSize →
    lz.decompressSafe (lz.compressDefault src (compressBound src.length)) src.length = some src

/-! ## Blocks and their bytes -/

/-- `size_t` values take eight bytes. -/
instance : FixedBytes UInt64 where
  width := 8
  toBytes x := leBytes 8 x.toNat
  ofBytes bs := UInt64.ofNat (ofLeBytes bs)

instance : LawfulFixedBytes UInt64 where
  length_toBytes x := length_leBytes 8 x.toNat
  ofBytes_toBytes x := by
    have hlt : x.toNat < 256 ^ 8 := x.toNat_lt
    simp only [FixedBytes.ofBytes, FixedBytes.toBytes, ofLeBytes_leBytes hlt, UInt64.ofNat_toNat]

/-- `RowBlock<IndexType>` by its pointers: the array that begins there, `none` for `NULL`. -/
structure RawBlock (I F : Type) where
  /-- batch size -/
  size : ℕ
  /-- array[size+1], row pointer to beginning of each rows -/
  offset : List UInt64
  /-- array[size] label of each instance -/
  label : Option (List F)
  /-- with weight: array[size] label of each instance, otherwise nullptr -/
  weight : Option (List F)
  /-- feature index -/
  index : Option (List I)
  /-- feature value, can be NULL, indicating all values are 1 -/
  value : Option (List F)

namespace RawBlock

variable {I F : Type} (b : RawBlock I F)

/-- The number of entries, if the first offset is 0. -/
def nnz : ℕ := (b.offset.getD b.size 0).toNat

/-- The arrays are as long as the offsets say, and only empty ones are `NULL`. -/
structure Valid : Prop where
  offset_zero : b.offset[0]? = some 0
  length_offset : b.size < b.offset.length
  length_label : ∀ a ∈ b.label, b.size ≤ a.length
  label_null : b.label = none → b.size = 0
  length_weight : ∀ a ∈ b.weight, b.size ≤ a.length
  length_index : ∀ a ∈ b.index, b.nnz ≤ a.length
  index_null : b.index = none → b.nnz = 0
  length_value : ∀ a ∈ b.value, b.nnz ≤ a.length

/-- The number of entries is in the range of `int`, and LZ4 takes every array. -/
structure Fits [FixedBytes I] [FixedBytes F] : Prop where
  nnz_lt : b.nnz < 2 ^ 31
  offset : (b.size + 1) * 8 ≤ maxInputSize
  label : ∀ a ∈ b.label, b.size * FixedBytes.width F ≤ maxInputSize
  weight : ∀ a ∈ b.weight, b.size * FixedBytes.width F ≤ maxInputSize
  index : ∀ a ∈ b.index, b.nnz * FixedBytes.width I ≤ maxInputSize
  value : ∀ a ∈ b.value, b.nnz * FixedBytes.width F ≤ maxInputSize

end RawBlock

/-- The value of entry `i`. -/
def valueAt {F : Type} [One F] (value : Option (List F)) (i : ℕ) : F :=
  (value.map fun v => v.getD i 1).getD 1

namespace CompressedRowBlock

/-- `CHECK` -/
def check (p : Prop) [Decidable p] : Option Unit := if p then some () else none

theorem check_eq {p : Prop} [Decidable p] (hp : p) : check p = some () := if_pos hp

/-- `kMagicNumber` -/
def kMagicNumber : ℤ := 1196140743

/-- `Write(int num)`: what is appended. -/
def write (num : ℤ) : List UInt8 := leBytes 4 (num % 2 ^ 32).toNat

/-- `Read()`, with the rest of the data. -/
def read (bs : List UInt8) : Option (ℤ × List UInt8) :=
  if 4 ≤ bs.length then some (toInt (ofLeBytes (bs.take 4)), bs.drop 4) else none

/-- `int nnz = offset[nrows] - offset[0]` -/
def nnz (offset : List UInt64) (nrows : ℤ) : Option ℤ := do
  check (0 ≤ nrows)
  let last ← offset[nrows.toNat]?
  let first ← offset[0]?
  return toInt (last - first).toNat

section Arrays

variable (lz : Lz4) {T : Type} [FixedBytes T]

/-- `Compress(const char* data, size_t size)`: what is appended. -/
def compressBytes (data : Option (List UInt8)) (size : ℕ) : Option (List UInt8) :=
  match data with
  | none => some (write 0)
  | some data =>
    if size ≤ data.length then
      let dst := lz.compressDefault (data.take (toSizeT (toInt size))) (compressBound (toInt size))
      if dst.length ≠ 0 then some (write (toInt dst.length) ++ dst) else none
    else none

/-- `Compress((const char*)xs, n * sizeof(T))` -/
def compressArray (xs : Option (List T)) (n : ℤ) : Option (List UInt8) :=
  compressBytes lz (xs.map toBytesArray) (toSizeT n * FixedBytes.width T % 2 ^ 64)

/-- `dst->resize(len)` -/
def resize [Zero T] (dst : List T) (len : ℕ) : List T :=
  dst.take len ++ List.replicate (len - dst.length) 0

/-- `Decompress(std::vector<T>* dst, int len)`, with the rest of the data. The first bytes of the
resized vector are written. -/
def decompressArray [Zero T] (dst : List T) (len : ℤ) (bs : List UInt8) :
    Option (List T × List UInt8) := do
  let (cpSize, bs) ← read bs
  if cpSize ≤ 0 then return (dst, bs) else
  check (cpSize.toNat ≤ bs.length ∧ 0 ≤ len)
  let dst := resize dst len.toNat
  let dstSize := toInt (toSizeT len * FixedBytes.width T % 2 ^ 64)
  let out ← lz.decompressSafe (bs.take cpSize.toNat) dstSize
  check (dstSize = out.length)
  return (ofBytesArray len.toNat (out ++ (toBytesArray dst).drop out.length), bs.drop cpSize.toNat)

end Arrays

variable (lz : Lz4) {I F : Type} [FixedBytes I] [FixedBytes F]

/-- The values that are written: none if the first `nnz` are 1. -/
def binary [One F] [DecidableEq F] (value : Option (List F)) (nnz : ℤ) : Option (List F) :=
  value.filter fun v => (v.take nnz.toNat).any fun x => x ≠ 1

/-- `Compress(RowBlock<IndexType> blk, std::string* str)` -/
def compress [One F] [DecidableEq F] (blk : RawBlock I F) : Option (List UInt8) := do
  let nrows := toInt blk.size
  let nnz ← nnz blk.offset nrows
  let label ← compressArray lz blk.label nrows
  let offset ← compressArray lz (some blk.offset) (nrows + 1)
  let index ← compressArray lz blk.index nnz
  let value ← compressArray lz (binary blk.value nnz) nnz
  let weight ← compressArray lz blk.weight nrows
  return write kMagicNumber ++ (write (toInt (FixedBytes.width I)) ++ (write nrows ++
    (label ++ (offset ++ (index ++ (value ++ weight))))))

/-- `Decompress(char const* data, size_t size, RowBlockContainer<IndexType>* blk)`, with the data
that is not read. -/
def decompress [Zero I] [Zero F] (bs : List UInt8) (blk : RowBlockContainer I F) :
    Option (RowBlockContainer I F × List UInt8) := do
  let (magic, bs) ← read bs
  check (magic = kMagicNumber)
  let (width, bs) ← read bs
  check (width = toInt (FixedBytes.width I))
  let (nrows, bs) ← read bs
  let (label, bs) ← decompressArray lz blk.label nrows bs
  let (offset, bs) ← decompressArray lz (blk.offset.map UInt64.ofNat) (nrows + 1) bs
  check ((offset.length : ℤ) = nrows + 1)
  let nnz ← nnz offset nrows
  let (index, bs) ← decompressArray lz blk.index nnz bs
  let (value, bs) ← decompressArray lz blk.value nnz bs
  let (weight, bs) ← decompressArray lz blk.weight nrows bs
  return ({ offset := offset.map UInt64.toNat, label, weight, index, value }, bs)

end CompressedRowBlock

/-- `CRBParser` with the records that `source_` has left. -/
structure CRBParser where
  bytesRead : ℕ
  source : List (List UInt8)

/-- `CRBParser::ParseNext`, with the data of the record that `Decompress` does not read. -/
def CRBParser.parseNext (lz : Lz4) {I F : Type} [FixedBytes I] [FixedBytes F] [Zero I] [Zero F]
    (s : CRBParser) : Option (Option (RowBlockContainer I F × List UInt8) × CRBParser) :=
  match s.source with
  | [] => some (none, s)
  | record :: source => do
    CompressedRowBlock.check (record.length ≠ 0)
    let r ← CompressedRowBlock.decompress lz record .clear
    return (some r, { bytesRead := s.bytesRead + record.length, source })

/-! ## One array -/

theorem compressBound_nonneg {n : ℕ} (hn : n ≤ maxInputSize) :
    0 ≤ compressBound n ∧ compressBound n < 2 ^ 31 := by
  rw [maxInputSize] at hn
  have hsmall : ¬ maxInputSize < ((n : ℤ) % 2 ^ 32).toNat := by
    rw [maxInputSize]
    omega
  rw [compressBound, if_neg hsmall]
  omega

section Bytes

variable {T : Type} [FixedBytes T] [LawfulFixedBytes T]

/-- The bytes of the first elements of an array. -/
theorem take_toBytesArray (xs : List T) {n : ℕ} (hn : n ≤ xs.length) :
    (toBytesArray xs).take (n * FixedBytes.width T) = toBytesArray (xs.take n) := by
  have hsplit : toBytesArray xs = toBytesArray (xs.take n) ++ toBytesArray (xs.drop n) := by
    rw [toBytesArray, toBytesArray, toBytesArray, ← List.flatMap_append, List.take_append_drop]
  rw [hsplit, List.take_left']
  rw [length_toBytesArray, List.length_take, min_eq_left hn, Nat.mul_comm]

end Bytes

namespace CompressedRowBlock

/-- What is written is read. -/
theorem read_write {num : ℤ} (hlo : -(2 ^ 31) ≤ num) (hhi : num < 2 ^ 31) (rest : List UInt8) :
    read (write num ++ rest) = some (num, rest) := by
  have hlt : (num % 2 ^ 32).toNat < 256 ^ 4 := by omega
  have hlen : 4 ≤ (write num ++ rest).length := by
    rw [List.length_append, write, length_leBytes]
    omega
  have hnum : toInt (num % 2 ^ 32).toNat = num := by
    have hmod : toInt (num % 2 ^ 32).toNat % 2 ^ 32 = ((num % 2 ^ 32).toNat : ℤ) % 2 ^ 32 :=
      Int.bmod_emod ..
    have hlo' := toInt_lower (num % 2 ^ 32).toNat
    have hhi' := toInt_upper (num % 2 ^ 32).toNat
    omega
  rw [read, if_pos hlen, write, List.take_left' (length_leBytes 4 _),
    List.drop_left' (length_leBytes 4 _), ofLeBytes_leBytes hlt, hnum]

variable {lz : Lz4} {T : Type} [FixedBytes T] [LawfulFixedBytes T] [Zero T]

omit [LawfulFixedBytes T] in
/-- An array that is not there leaves the vector as it is. -/
theorem decompressArray_null (dst : List T) (len : ℤ) (rest : List UInt8) :
    decompressArray lz dst len (write 0 ++ rest) = some (dst, rest) := by
  rw [decompressArray, read_write (by decide) (by decide)]
  rfl

/-- **One array** comes back, whatever the vector held before. -/
theorem decompressArray_some (hlz : lz.Lawful) (xs : List T) {n : ℕ} (hn : n < 2 ^ 31)
    (hlen : n ≤ xs.length) (hfit : n * FixedBytes.width T ≤ maxInputSize) (dst : List T) :
    ∃ bs, compressArray lz (some xs) n = some bs ∧
      ∀ rest, decompressArray lz dst n (bs ++ rest) = some (xs.take n, rest) := by
  have hmax : n * FixedBytes.width T < 2 ^ 31 := by
    rw [maxInputSize] at hfit
    omega
  have hsize : toSizeT n * FixedBytes.width T % 2 ^ 64 = n * FixedBytes.width T := by
    rw [toSizeT_natCast (by omega), Nat.mod_eq_of_lt (by omega)]
  have hlenb : (toBytesArray (xs.take n)).length = n * FixedBytes.width T := by
    rw [length_toBytesArray, List.length_take, min_eq_left hlen, Nat.mul_comm]
  obtain ⟨block, hblock⟩ : ∃ block, block = lz.compressDefault (toBytesArray (xs.take n))
      (compressBound (n * FixedBytes.width T : ℕ)) := ⟨_, rfl⟩
  obtain ⟨hnonneg, hbound⟩ := compressBound_nonneg hfit
  have hle : (block.length : ℤ) ≤ compressBound (n * FixedBytes.width T : ℕ) := by
    rw [hblock]
    exact hlz.length_compress_le _ _ hnonneg
  have hne : block.length ≠ 0 := by
    intro hzero
    refine hlz.compress_ne_nil (toBytesArray (xs.take n)) (by rw [hlenb]; exact hfit) ?_
    rw [hlenb, ← hblock, List.length_eq_zero_iff.mp hzero]
  have hdec : lz.decompressSafe block (n * FixedBytes.width T : ℕ) =
      some (toBytesArray (xs.take n)) := by
    have hinv := hlz.decompress_compress (toBytesArray (xs.take n)) (by rw [hlenb]; exact hfit)
    rwa [hlenb, ← hblock] at hinv
  refine ⟨write (toInt block.length) ++ block, ?_, fun rest => ?_⟩
  · have hdata : n * FixedBytes.width T ≤ (toBytesArray xs).length := by
      rw [length_toBytesArray, Nat.mul_comm]
      exact Nat.mul_le_mul_left _ hlen
    rw [compressArray, Option.map_some, compressBytes, hsize, if_pos hdata, toInt_of_lt hmax,
      toSizeT_natCast (by omega), take_toBytesArray xs hlen, ← hblock]
    exact if_pos hne
  · have hint : toInt block.length = block.length := toInt_of_lt (by omega)
    have hout : ofBytesArray n (toBytesArray (xs.take n) ++
        (toBytesArray (resize dst n)).drop (toBytesArray (xs.take n)).length) = xs.take n := by
      have hres : (toBytesArray (resize dst n)).length ≤ (toBytesArray (xs.take n)).length := by
        rw [length_toBytesArray, hlenb, Nat.mul_comm]
        refine Nat.mul_le_mul_right _ ?_
        rw [resize, List.length_append, List.length_take, List.length_replicate]
        omega
      have harray := ofBytesArray_toBytesArray (xs.take n)
      rw [List.length_take, min_eq_left hlen] at harray
      rw [List.drop_eq_nil_of_le hres, List.append_nil, harray]
    have hroom : block.length ≤ (block ++ rest).length ∧ 0 ≤ (n : ℤ) := by
      rw [List.length_append]
      omega
    have hpos : ¬ (block.length : ℤ) ≤ 0 := by omega
    have hread : read (write block.length ++ (block ++ rest)) =
        some (↑block.length, block ++ rest) :=
      read_write (by omega) (by omega) _
    rw [hlenb] at hout
    simp only [decompressArray, List.append_assoc, hint, hread, Option.bind_eq_bind,
      Option.bind_some, hsize, toInt_of_lt hmax, Int.toNat_natCast, if_neg hpos, check_eq hroom,
      List.take_left, List.drop_left, hdec, hlenb, check_eq trivial, hout, Option.pure_def]

/-- An array that may be absent. -/
theorem decompressArray_compressArray (hlz : lz.Lawful) (xs : Option (List T)) {n : ℕ}
    (hn : n < 2 ^ 31) (hxs : ∀ a ∈ xs, n ≤ a.length ∧ n * FixedBytes.width T ≤ maxInputSize)
    (dst : List T) : ∃ bs, compressArray lz xs n = some bs ∧
      ∀ rest, decompressArray lz dst n (bs ++ rest) =
        some ((xs.map (List.take n)).getD dst, rest) := by
  cases xs with
  | none => exact ⟨write 0, rfl, fun rest => decompressArray_null dst n rest⟩
  | some a =>
      obtain ⟨hlen, hfit⟩ := hxs a rfl
      exact decompressArray_some hlz a hn hlen hfit dst

/-! ## A whole block -/

section Block

variable {I F : Type} [One F] [DecidableEq F] {b : RawBlock I F}

/-- Dropping the values when all of them are 1 does not change a value. -/
theorem valueAt_binary {value : Option (List F)} {n i : ℕ} (hi : i < n)
    (hlen : ∀ v ∈ value, n ≤ v.length) :
    valueAt (RowBlockContainer.beginPtr (((binary value n).getD []).take n)) i =
      valueAt value i := by
  cases value with
  | none =>
      rw [show ((binary none n).getD ([] : List F)).take n = [] from List.take_nil]
      rfl
  | some v =>
      have hn := hlen v rfl
      have hget : (v.take n).getD i 1 = v.getD i 1 := by
        rw [List.getD_eq_getElem?_getD, List.getElem?_take_of_lt hi, ← List.getD_eq_getElem?_getD]
      by_cases hbin : (v.take n).any fun x => x ≠ 1
      · have hne : (v.take n).isEmpty = false := by
          rw [List.isEmpty_eq_false_iff]
          intro hnil
          rw [hnil] at hbin
          cases hbin
        have hkeep : binary (some v) n = some v := by
          rw [binary, Option.filter_some, Int.toNat_natCast, if_pos hbin]
        rw [hkeep, Option.getD_some, RowBlockContainer.beginPtr, hne]
        exact hget
      · have hdrop : binary (some v) n = none := by
          rw [binary, Option.filter_some, Int.toNat_natCast, if_neg hbin]
        have hone : v.getD i 1 = 1 := by
          rw [← hget]
          rw [List.any_eq_true, not_exists] at hbin
          have hlt : i < (v.take n).length := by
            rw [List.length_take]
            omega
          rw [List.getD_eq_getElem?_getD, List.getElem?_eq_getElem hlt, Option.getD_some]
          by_contra hv
          exact hbin _ ⟨List.getElem_mem hlt, decide_eq_true hv⟩
        rw [hdrop, Option.getD_none, List.take_nil]
        exact hone.symm

omit [One F] [DecidableEq F] in
/-- The number of entries that both sides compute. -/
theorem nnz_eq [FixedBytes I] [FixedBytes F] (hb : b.Valid) (hfit : b.Fits) {offset : List UInt64}
    (hoffset : offset = b.offset ∨ offset = b.offset.take (b.size + 1)) :
    nnz offset b.size = some b.nnz := by
  have hlast : offset[b.size]? = some (b.offset.getD b.size 0) := by
    have hget : b.offset[b.size]? = some (b.offset.getD b.size 0) := by
      rw [List.getD_eq_getElem?_getD, List.getElem?_eq_getElem hb.length_offset]
      rfl
    rcases hoffset with rfl | rfl
    · exact hget
    · rw [List.getElem?_take_of_lt (Nat.lt_succ_self _), hget]
  have hfirst : offset[0]? = some 0 := by
    rcases hoffset with rfl | rfl
    · exact hb.offset_zero
    · rw [List.getElem?_take_of_lt (Nat.succ_pos _), hb.offset_zero]
  have hint : toInt (b.offset.getD b.size 0 - 0).toNat = b.nnz := by
    rw [UInt64.sub_zero]
    exact toInt_of_lt hfit.nnz_lt
  have hnonneg : 0 ≤ (b.size : ℤ) := by omega
  simp only [nnz, check_eq hnonneg, Int.toNat_natCast, hlast, hfirst, Option.bind_eq_bind,
    Option.bind_some, Option.pure_def, hint]

theorem getD_map_take {α : Type} (xs : Option (List α)) (n : ℕ) :
    (xs.map (List.take n)).getD [] = (xs.getD []).take n := by
  cases xs with
  | none => exact List.take_nil.symm
  | some a => rfl

/-- The container that `Decompress` fills. -/
def restored (b : RawBlock I F) : RowBlockContainer I F :=
  { offset := (b.offset.take (b.size + 1)).map UInt64.toNat
    label := (b.label.getD []).take b.size
    weight := (b.weight.getD []).take b.size
    index := (b.index.getD []).take b.nnz
    value := ((binary b.value b.nnz).getD []).take b.nnz }

/-- The container is consistent, and has the values of the block. -/
theorem getBlock_restored (hb : b.Valid) : ∃ out, (restored b).getBlock = some out ∧
    ∀ i < b.nnz, valueAt out.value i = valueAt b.value i := by
  have hlabel : (restored b).label.length = b.size := by
    cases hnull : b.label with
    | none => simp [restored, hnull, hb.label_null hnull]
    | some a => simp [restored, hnull, hb.length_label a hnull]
  have hindex : (restored b).index.length = b.nnz := by
    cases hnull : b.index with
    | none => simp [restored, hnull, hb.index_null hnull]
    | some a => simp [restored, hnull, hb.length_index a hnull]
  have hvalue : (restored b).value.length = b.nnz ∨ (restored b).value.length = 0 := by
    cases hbin : binary b.value b.nnz with
    | none => exact .inr (by simp [restored, hbin])
    | some a =>
        have hmem : b.value = some a := (Option.filter_eq_some_iff.mp hbin).1
        exact .inl (by simp [restored, hbin, hb.length_value a hmem])
  have hoffset : (restored b).offset.length = b.size + 1 := by
    have hlen := hb.length_offset
    simp only [restored, List.length_map, List.length_take]
    omega
  have hlast : (restored b).offset.getLastD 0 = b.nnz := by
    have hlen := hb.length_offset
    rw [List.getLastD_eq_getLast?, List.getLast?_eq_getElem?, hoffset, Nat.add_sub_cancel]
    simp [restored, RawBlock.nnz, List.getElem?_take_of_lt, List.getElem?_eq_getElem hlen]
  have hcheck : (restored b).offset.getLastD 0 = (restored b).value.length ∨
      (restored b).value.length = 0 := by
    rw [hlast]
    exact hvalue.imp_left Eq.symm
  refine ⟨_, if_pos ⟨by rw [hlabel, hoffset], by rw [hlast, hindex], hcheck⟩, fun i hi => ?_⟩
  exact valueAt_binary hi hb.length_value

variable [FixedBytes I] [LawfulFixedBytes I] [Zero I] [FixedBytes F] [LawfulFixedBytes F] [Zero F]
  {lz : Lz4}

theorem decompress_compress (hlz : lz.Lawful) (hb : b.Valid) (hfit : b.Fits) :
    ∃ str, compress lz b = some str ∧ str ≠ [] ∧
      decompress lz str .clear = some (restored b, []) := by
  have hoff := hfit.offset
  have hnnz := hfit.nnz_lt
  rw [maxInputSize] at hoff
  have hsize : toInt b.size = b.size := toInt_of_lt (by omega)
  have hlt : b.size + 1 < 2 ^ 31 := by omega
  have hsucc : (b.size : ℤ) + 1 = (b.size + 1 : ℕ) := rfl
  obtain ⟨label, hlabel, hlabel'⟩ :=
    decompressArray_compressArray hlz b.label (Nat.lt_of_succ_lt hlt)
    (fun a ha => ⟨hb.length_label a ha, hfit.label a ha⟩) []
  obtain ⟨offset, hoffset, hoffset'⟩ := decompressArray_some hlz b.offset hlt hb.length_offset
    hfit.offset [UInt64.ofNat 0]
  obtain ⟨index, hindex, hindex'⟩ := decompressArray_compressArray hlz b.index hnnz
    (fun a ha => ⟨hb.length_index a ha, hfit.index a ha⟩) []
  have hkept : ∀ a ∈ binary b.value b.nnz, a ∈ b.value :=
    fun a ha => (Option.filter_eq_some_iff.mp ha).1
  obtain ⟨value, hvalue, hvalue'⟩ := decompressArray_compressArray hlz (binary b.value b.nnz) hnnz
    (fun a ha => ⟨hb.length_value a (hkept a ha), hfit.value a (hkept a ha)⟩) []
  obtain ⟨weight, hweight, hweight'⟩ := decompressArray_compressArray hlz b.weight
    (Nat.lt_of_succ_lt hlt) (fun a ha => ⟨hb.length_weight a ha, hfit.weight a ha⟩) []
  have hmagic := fun rest => read_write (show -(2 ^ 31) ≤ kMagicNumber by rw [kMagicNumber]; omega)
    (by rw [kMagicNumber]; omega) rest
  have hwidth := fun rest => read_write (toInt_lower (FixedBytes.width I)) (toInt_upper _) rest
  have hrows := fun rest => read_write (show -(2 ^ 31) ≤ (b.size : ℤ) by omega) (by omega) rest
  have hlast : decompressArray lz ([] : List F) b.size weight =
      some ((b.weight.map (List.take b.size)).getD [], []) := by
    have hrest := hweight' []
    rwa [List.append_nil] at hrest
  have hlen : ((b.offset.take (b.size + 1)).length : ℤ) = (b.size + 1 : ℕ) := by
    rw [List.length_take, min_eq_left hb.length_offset]
  refine ⟨write kMagicNumber ++ (write (toInt (FixedBytes.width I)) ++ (write b.size ++
    (label ++ (offset ++ (index ++ (value ++ weight)))))), ?_, ?_, ?_⟩
  · simp only [compress, hsize, nnz_eq hb hfit (.inl rfl), hlabel, hsucc, hoffset, hindex, hvalue,
      hweight, Option.bind_eq_bind, Option.bind_some, Option.pure_def]
  · refine List.append_ne_nil_of_left_ne_nil ?_ _
    rw [write, leBytes]
    exact List.cons_ne_nil _ _
  · rw [decompress, RowBlockContainer.clear]
    refine Option.bind_eq_some_iff.mpr ⟨_, hmagic _, ?_⟩
    refine Option.bind_eq_some_iff.mpr ⟨_, check_eq rfl, ?_⟩
    refine Option.bind_eq_some_iff.mpr ⟨_, hwidth _, ?_⟩
    refine Option.bind_eq_some_iff.mpr ⟨_, check_eq rfl, ?_⟩
    refine Option.bind_eq_some_iff.mpr ⟨_, hrows _, ?_⟩
    refine Option.bind_eq_some_iff.mpr ⟨_, hlabel' _, ?_⟩
    refine Option.bind_eq_some_iff.mpr ⟨_, hoffset' _, ?_⟩
    refine Option.bind_eq_some_iff.mpr ⟨_, check_eq hlen, ?_⟩
    refine Option.bind_eq_some_iff.mpr ⟨_, nnz_eq hb hfit (.inr rfl), ?_⟩
    refine Option.bind_eq_some_iff.mpr ⟨_, hindex' _, ?_⟩
    refine Option.bind_eq_some_iff.mpr ⟨_, hvalue' _, ?_⟩
    refine Option.bind_eq_some_iff.mpr ⟨_, hlast, ?_⟩
    rw [restored]
    simp only [Option.pure_def, getD_map_take]

/-- **Round trip.** For every block whose first offset is 0 and whose sizes LZ4 and `int` can
hold: what `Compress` makes of it is one record, from which `CRBParser` reads the block to the
last byte. The container passes the checks of `GetBlock` and has the offsets, labels, weights and
indices of the block, and the value of every entry. -/
theorem round_trip (hlz : lz.Lawful) (hb : b.Valid) (hfit : b.Fits) (n : ℕ)
    (records : List (List UInt8)) : ∃ (str : List UInt8) (c : RowBlockContainer I F) (out : _),
      compress lz b = some str ∧
      CRBParser.parseNext lz ⟨n, str :: records⟩ =
        some (some (c, []), ⟨n + str.length, records⟩) ∧
      c.getBlock = some out ∧
      c.offset = (b.offset.take (b.size + 1)).map UInt64.toNat ∧
      c.label = (b.label.getD []).take b.size ∧
      c.weight = (b.weight.getD []).take b.size ∧
      c.index = (b.index.getD []).take b.nnz ∧
      ∀ i < b.nnz, valueAt out.value i = valueAt b.value i := by
  obtain ⟨str, hstr, hne, hdec⟩ := decompress_compress hlz hb hfit
  obtain ⟨out, hout, hvalues⟩ := getBlock_restored hb
  have hlen : str.length ≠ 0 := fun hzero => hne (List.length_eq_zero_iff.mp hzero)
  have hparse : CRBParser.parseNext lz ⟨n, str :: records⟩ =
      some (some (restored b, []), ⟨n + str.length, records⟩) := by
    simp only [CRBParser.parseNext, check_eq hlen, hdec, Option.bind_eq_bind, Option.bind_some,
      Option.pure_def]
  exact ⟨str, restored b, out, hstr, hparse, hout, rfl, rfl, rfl, rfl, hvalues⟩

end Block

/-! ## A run -/

/-- A block of literals only, which is how LZ4 stores less than 13 bytes. -/
def literalBlock (src : List UInt8) : List UInt8 :=
  if src.length < 15 then UInt8.ofNat (src.length * 16) :: src
  else 0xF0 :: (List.replicate ((src.length - 15) / 255) 255 ++
    UInt8.ofNat ((src.length - 15) % 255) :: src)

/-- The bytes of the length of a run, from `n` on. -/
def runLength : ℕ → List UInt8 → Option (ℕ × List UInt8)
  | _, [] => none
  | n, b :: bs => if b = 255 then runLength (n + 255) bs else some (n + b.toNat, bs)

/-- The literals of a block without matches. -/
def literals : List UInt8 → Option (List UInt8)
  | [] => none
  | token :: bs => do
    let (n, bs) ← if token.toNat / 16 < 15 then some (token.toNat / 16, bs) else runLength 15 bs
    check (token.toNat % 16 = 0 ∧ bs.length = n)
    return bs

/-- The offsets of one row with one entry. -/
def oneRow : List UInt8 := leBytes 8 0 ++ leBytes 8 1

/-- How LZ4 compresses them: one zero, seven zeros that repeat it, and eight literals. -/
def oneRowBlock : List UInt8 := [0x13, 0, 1, 0, 0x80, 1, 0, 0, 0, 0, 0, 0, 0]

/-- LZ4 on short arrays and on the offsets of one row. -/
def sampleLz4 : Lz4 where
  compressDefault src n :=
    let block := if src = oneRow then oneRowBlock else literalBlock src
    if block.length ≤ n then block else []
  decompressSafe block n :=
    (if block = oneRowBlock then some oneRow else literals block).filter fun out => out.length ≤ n

theorem runLength_replicate (k r n : ℕ) (hr : r < 255) (bs : List UInt8) :
    runLength n (List.replicate k 255 ++ UInt8.ofNat r :: bs) = some (n + 255 * k + r, bs) := by
  induction k generalizing n with
  | zero =>
      have hbyte : (UInt8.ofNat r).toNat = r := by simp; omega
      have hne : UInt8.ofNat r ≠ 255 := by
        intro heq
        rw [heq] at hbyte
        exact absurd hbyte.symm (Nat.ne_of_lt hr)
      rw [List.replicate_zero, List.nil_append, runLength, if_neg hne, hbyte, Nat.mul_zero,
        Nat.add_zero]
  | succ k ih =>
      rw [List.replicate_succ, List.cons_append, runLength, if_pos rfl, ih]
      congr 2
      omega

theorem literals_literalBlock (src : List UInt8) : literals (literalBlock src) = some src := by
  rw [literalBlock]
  split
  · rename_i hshort
    have htoken : (UInt8.ofNat (src.length * 16)).toNat = src.length * 16 := by simp; omega
    have hdiv : src.length * 16 / 16 = src.length := by omega
    simp only [literals, htoken, hdiv, if_pos hshort, Option.bind_eq_bind, Option.bind_some]
    rw [check_eq ⟨by omega, trivial⟩]
    rfl
  · rename_i hlong
    have hrun := runLength_replicate ((src.length - 15) / 255) ((src.length - 15) % 255) 15
      (Nat.mod_lt _ (by decide)) src
    have hlen : 15 + 255 * ((src.length - 15) / 255) + (src.length - 15) % 255 = src.length := by
      omega
    have htoken : ¬ ((0xF0 : UInt8).toNat / 16 < 15) := by decide
    simp only [literals, if_neg htoken, hrun, hlen, Option.bind_eq_bind, Option.bind_some]
    rw [check_eq ⟨by decide, trivial⟩]
    rfl

theorem literalBlock_ne (src : List UInt8) : literalBlock src ≠ oneRowBlock := by
  intro heq
  have hnone : literals oneRowBlock = none := by decide
  rw [← heq, literals_literalBlock] at hnone
  cases hnone

theorem length_literalBlock (src : List UInt8) (hsrc : src.length ≤ maxInputSize) :
    ((literalBlock src).length : ℤ) ≤ compressBound src.length := by
  have hsmall : ¬ maxInputSize < ((src.length : ℤ) % 2 ^ 32).toNat := by
    rw [maxInputSize] at hsrc ⊢
    omega
  rw [compressBound, if_neg hsmall, literalBlock]
  split
  · rw [List.length_cons]
    omega
  · simp only [List.length_cons, List.length_append, List.length_replicate]
    omega

theorem lawful_sampleLz4 : sampleLz4.Lawful := by
  have hcompress : ∀ src : List UInt8, src.length ≤ maxInputSize →
      sampleLz4.compressDefault src (compressBound src.length) =
        if src = oneRow then oneRowBlock else literalBlock src := by
    intro src hsrc
    refine if_pos ?_
    split
    · rename_i hrow
      rw [hrow]
      decide
    · exact length_literalBlock src hsrc
  refine ⟨fun src n hn => ?_, fun src hsrc => ?_, fun src hsrc => ?_⟩
  · by_cases hle : ((if src = oneRow then oneRowBlock else literalBlock src).length : ℤ) ≤ n
    · rw [show sampleLz4.compressDefault src n = _ from if_pos hle]
      exact hle
    · rw [show sampleLz4.compressDefault src n = [] from if_neg hle]
      exact hn
  · rw [hcompress src hsrc]
    split
    · decide
    · rw [literalBlock]
      split <;> exact List.cons_ne_nil _ _
  · rw [hcompress src hsrc]
    have hout : (if (if src = oneRow then oneRowBlock else literalBlock src) = oneRowBlock
        then some oneRow else literals (if src = oneRow then oneRowBlock else literalBlock src)) =
        some src := by
      by_cases hrow : src = oneRow
      · rw [if_pos hrow, if_pos rfl, hrow]
      · rw [if_neg hrow, if_neg (literalBlock_ne src), literals_literalBlock]
    simp only [sampleLz4, hout]
    exact Option.filter_some_pos (decide_eq_true le_rfl)

/-- One row with a weight, whose entry has the value 2. -/
def sampleBlock : RawBlock UInt64 Binary32 :=
  { size := 1, offset := [0, 1], label := some [1], weight := some [1 + 1], index := some [3],
    value := some [1 + 1] }

theorem round_trip_sampleBlock : sampleLz4.Lawful ∧
    ∃ (str : List UInt8) (c : RowBlockContainer UInt64 Binary32) (out : _),
      compress sampleLz4 sampleBlock = some str ∧
      CRBParser.parseNext sampleLz4 ⟨0, [str]⟩ = some (some (c, []), ⟨0 + str.length, []⟩) ∧
      c.getBlock = some out ∧ c.offset = [0, 1] ∧ c.label = [1] ∧ c.weight = [1 + 1] ∧
      c.index = [3] ∧ valueAt out.value 0 = 1 + 1 := by
  have hb : sampleBlock.Valid :=
    ⟨rfl, by decide, by decide, by decide, by decide, by decide, by decide, by decide⟩
  have hfit : sampleBlock.Fits := ⟨by decide, by decide, by decide, by decide, by decide, by decide⟩
  obtain ⟨str, c, out, hstr, hparse, hout, hoffset, hlabel, hweight, hindex, hvalues⟩ :=
    round_trip lawful_sampleLz4 hb hfit 0 []
  exact ⟨lawful_sampleLz4, str, c, out, hstr, hparse, hout, hoffset, hlabel, hweight, hindex,
    hvalues 0 (by decide)⟩

end CompressedRowBlock

end Difacto.Base
