import Difacto.Base.Binary32
import Difacto.Base.MinibatchIter
import Difacto.Lib.Pointer

/-!
# Text parsers

What the parsers of text formats share: the chunks that they are given, and `strtof` and
`strtouint` of `dmlc-core/src/data/strtonum.h`. The latter are given a pointer without an end, and
read on until a byte does not fit. The memory is a list of bytes, behind which there are zeros.

## Main definitions

* `Blob`, `ParseFault` — what a parser is given, and how it fails.
* `Holds` — the rows that a parser has filled in.
* `isspace`, `isdigit`, `isdigitchars` — kinds of bytes.
* `strtof`, `atof`, `strtouint`, `strtoull`.

## Main results

* `atof_append` — a number ends at the first byte that does not belong to one.
* `atof_blank` — but the number of a blank text is the next one in the memory.
* `strtoull_append` — the same for natural numbers, which are read modulo `2 ^ 64`.
-/

namespace Difacto.Io

open Base Lib

/-- `InputSplit::Blob`: a chunk of a file, and the memory behind it. -/
structure Blob where
  bytes : List UInt8
  behind : List UInt8

/-- `chunk.dptr` -/
def Blob.dptr (chunk : Blob) : Ptr := .inside chunk.bytes chunk.behind

/-- How a parser ends that does not return. -/
inductive ParseFault
  /-- a `CHECK` with a message -/
  | check (message : String)
  /-- the parser runs through the memory for ever -/
  | runaway
  deriving DecidableEq, Repr

/-- What a parser fills. -/
abbrev Container := RowBlockContainer UInt64 Binary32

/-- A row of what a parser fills. -/
abbrev Row := InputRow UInt64 Binary32

/-- The arrays of a container fit together and hold some rows, one after the other. -/
structure Holds (blk : Container) (rows : List Row) : Prop where
  size : blk.label.length + 1 = blk.offset.length
  back : blk.offset.getLastD 0 = blk.index.length
  label : blk.label = rows.map InputRow.label
  index {i : ℕ} (hi : i < rows.length) :
    Base.cut (blk.offset.getD i 0) (blk.offset.getD (i + 1) 0) blk.index = rows[i].index

theorem holds_ofRows (rows : List Row) : Holds (.ofRows rows) rows where
  size := by simp [RowBlockContainer.ofRows]
  back := by
    rw [RowBlockContainer.ofRows, RowBlockContainer.getLastD_ends, Nat.zero_add]
  label := rfl
  index hi := RowBlockContainer.cut_ends hi (fun _ _ => rfl) 0 [] rfl

/-! ## Bytes -/

/-- `isspace`: a blank, or `\t`, `\r`, `\n`, `\f`. -/
def isspace (c : UInt8) : Bool := c == 32 || c == 9 || c == 13 || c == 10 || c == 12

/-- `isdigit` -/
def isdigit (c : UInt8) : Bool := 48 ≤ c && c ≤ 57

/-- `isdigitchars`: a digit, or `+`, `-`, `.`, `e`, `E`. -/
def isdigitchars (c : UInt8) : Bool :=
  isdigit c || c == 43 || c == 45 || c == 46 || c == 101 || c == 69

/-- `*p - '0'` -/
def digit (c : UInt8) : ℕ := (c - 48).toNat

theorem isdigitchars_of_isspace {c : UInt8} (h : isspace c = true) : isdigitchars c = false := by
  simp only [isspace, Bool.or_eq_true, beq_iff_eq] at h
  rcases h with (((rfl | rfl) | rfl) | rfl) | rfl <;> rfl

theorem isdigitchars_of_isdigit {c : UInt8} (h : isdigit c = true) : isdigitchars c = true := by
  simp [isdigitchars, h]

theorem isspace_of_isdigit {c : UInt8} (h : isdigit c = true) : isspace c = false := by
  cases hspace : isspace c with
  | false => rfl
  | true =>
      exact absurd ((isdigitchars_of_isspace hspace).symm.trans (isdigitchars_of_isdigit h))
        Bool.false_ne_true

/-! ## Reading a number -/

/-- Get sign, if any: false for a minus. -/
def getSign (s : List UInt8) : Bool × List UInt8 :=
  if s.headD 0 = 45 then (false, s.tail)
  else if s.headD 0 = 43 then (true, s.tail)
  else (true, s)

/-- A natural number as `float`. -/
def toFloat (n : ℕ) : Binary32 := .ofRat false n

/-- Digits before the decimal point. -/
def floatOf (ds : List UInt8) : Binary32 :=
  ds.foldl (fun value c => value * toFloat 10 + toFloat (digit c)) 0

/-- Digits as a machine integer. -/
def unsignedOf (ds : List UInt8) : UInt32 :=
  ds.foldl (fun value c => value * 10 + UInt32.ofNat (digit c)) 0

/-- Get digits after decimal point, if any. -/
def getFraction (value : Binary32) (s : List UInt8) : Binary32 × List UInt8 :=
  if s.headD 0 = 46 then
    let ds := s.tail.takeWhile isdigit
    let val2 := unsignedOf ds
    let pow10 := ds.foldl (fun pow10 _ => pow10 * 10) (1 : UInt32)
    (value + toFloat val2.toNat / toFloat pow10.toNat, s.tail.dropWhile isdigit)
  else (value, s)

/-- The scaling factor of an exponent. -/
def scale (expon : ℕ) : Binary32 :=
  (· * toFloat 10)^[expon % 8] ((· * toFloat (10 ^ 8))^[expon / 8] 1)

/-- Handle exponent, if any. -/
def getExponent (value : Binary32) (s : List UInt8) : Binary32 :=
  if s.headD 0 = 101 ∨ s.headD 0 = 69 then
    let signed := getSign s.tail
    let expon := min (unsignedOf (signed.2.takeWhile isdigit)).toNat 38
    if signed.1 then value * scale expon else value / scale expon
  else value

/-- `strtof` after the leading white space. -/
def strtofText (s : List UInt8) : Binary32 :=
  let signed := getSign s
  let value := floatOf (signed.2.takeWhile isdigit)
  let fraction := getFraction value (signed.2.dropWhile isdigit)
  let value := getExponent fraction.1 fraction.2
  if signed.1 then value else -value

/-- `strtof` -/
def strtof (s : List UInt8) : Binary32 := strtofText (s.dropWhile isspace)

/-- `atof` -/
def atof (s : List UInt8) : Binary32 := strtof s

/-- `strtouint<uint64_t>` -/
def strtouint (s : List UInt8) (base : UInt64) : Except ParseFault UInt64 :=
  let signed := getSign (s.dropWhile isspace)
  if signed.1 then
    .ok ((signed.2.takeWhile isdigit).foldl
      (fun value c => value * base + UInt64.ofNat (digit c)) 0)
  else .error (.check "")

/-- `strtoull` -/
def strtoull (s : List UInt8) (base : UInt64) : Except ParseFault UInt64 := strtouint s base

/-! ## Where a number ends -/

/-- Memories that agree up to a byte that does not belong to a number. -/
def Agree (s t : List UInt8) : Prop :=
  ∃ w x y, s = w ++ x ∧ t = w ++ y ∧ isdigitchars (x.headD 0) = false ∧
    isdigitchars (y.headD 0) = false

namespace Agree

variable {s t : List UInt8}

/-- The next byte is the same, or no number goes on with it. -/
theorem headD (h : Agree s t) {c : UInt8} (hc : isdigitchars c = true) :
    s.headD 0 = c ↔ t.headD 0 = c := by
  obtain ⟨w, x, y, rfl, rfl, hx, hy⟩ := h
  cases w with
  | nil =>
      have hx' : x.headD 0 ≠ c := by
        rintro rfl
        exact Bool.false_ne_true (hx.symm.trans hc)
      have hy' : y.headD 0 ≠ c := by
        rintro rfl
        exact Bool.false_ne_true (hy.symm.trans hc)
      exact iff_of_false hx' hy'
  | cons d w => exact Iff.rfl

theorem tail (h : Agree s t) (hc : isdigitchars (s.headD 0) = true) : Agree s.tail t.tail := by
  obtain ⟨w, x, y, rfl, rfl, hx, hy⟩ := h
  cases w with
  | nil => exact absurd (hx.symm.trans hc) Bool.false_ne_true
  | cons d w => exact ⟨w, x, y, rfl, rfl, hx, hy⟩

/-- Nothing is taken from a text that no number goes on with. -/
theorem takeWhile_eq_nil {x : List UInt8} (hx : isdigitchars (x.headD 0) = false) :
    x.takeWhile isdigit = [] ∧ x.dropWhile isdigit = x := by
  cases x with
  | nil => exact ⟨rfl, rfl⟩
  | cons c x =>
      have hdigit : ¬isdigit c = true := fun h =>
        Bool.false_ne_true (hx.symm.trans (isdigitchars_of_isdigit h))
      exact ⟨List.takeWhile_cons_of_neg hdigit, List.dropWhile_cons_of_neg hdigit⟩

theorem digits (h : Agree s t) :
    s.takeWhile isdigit = t.takeWhile isdigit ∧
      Agree (s.dropWhile isdigit) (t.dropWhile isdigit) := by
  obtain ⟨w, x, y, rfl, rfl, hx, hy⟩ := h
  induction w with
  | nil =>
      rw [List.nil_append, List.nil_append, (takeWhile_eq_nil hx).1, (takeWhile_eq_nil hy).1,
        (takeWhile_eq_nil hx).2, (takeWhile_eq_nil hy).2]
      exact ⟨rfl, [], x, y, rfl, rfl, hx, hy⟩
  | cons c w ih =>
      rw [List.cons_append, List.cons_append]
      by_cases hc : isdigit c = true
      · rw [List.takeWhile_cons_of_pos hc, List.takeWhile_cons_of_pos hc,
          List.dropWhile_cons_of_pos hc, List.dropWhile_cons_of_pos hc]
        exact ⟨congrArg (c :: ·) ih.1, ih.2⟩
      · rw [List.takeWhile_cons_of_neg hc, List.takeWhile_cons_of_neg hc,
          List.dropWhile_cons_of_neg hc, List.dropWhile_cons_of_neg hc]
        exact ⟨rfl, c :: w, x, y, rfl, rfl, hx, hy⟩

theorem getSign (h : Agree s t) :
    (Io.getSign s).1 = (Io.getSign t).1 ∧ Agree (Io.getSign s).2 (Io.getSign t).2 := by
  have hminus := h.headD (c := 45) (by decide)
  have hplus := h.headD (c := 43) (by decide)
  rw [Io.getSign, Io.getSign]
  by_cases hs : s.headD 0 = 45
  · rw [if_pos hs, if_pos (hminus.mp hs)]
    exact ⟨rfl, h.tail (by rw [hs]; decide)⟩
  · rw [if_neg hs, if_neg fun ht => hs (hminus.mpr ht)]
    by_cases hs' : s.headD 0 = 43
    · rw [if_pos hs', if_pos (hplus.mp hs')]
      exact ⟨rfl, h.tail (by rw [hs']; decide)⟩
    · rw [if_neg hs', if_neg fun ht => hs' (hplus.mpr ht)]
      exact ⟨rfl, h⟩

theorem getFraction (h : Agree s t) (value : Binary32) :
    (Io.getFraction value s).1 = (Io.getFraction value t).1 ∧
      Agree (Io.getFraction value s).2 (Io.getFraction value t).2 := by
  have hpoint := h.headD (c := 46) (by decide)
  rw [Io.getFraction, Io.getFraction]
  by_cases hs : s.headD 0 = 46
  · have htail := h.tail (by rw [hs]; decide)
    rw [if_pos hs, if_pos (hpoint.mp hs), htail.digits.1]
    exact ⟨rfl, htail.digits.2⟩
  · rw [if_neg hs, if_neg fun ht => hs (hpoint.mpr ht)]
    exact ⟨rfl, h⟩

theorem getExponent (h : Agree s t) (value : Binary32) :
    Io.getExponent value s = Io.getExponent value t := by
  have hlower := h.headD (c := 101) (by decide)
  have hupper := h.headD (c := 69) (by decide)
  simp only [Io.getExponent]
  by_cases hs : s.headD 0 = 101 ∨ s.headD 0 = 69
  · have htail := h.tail (by rcases hs with hs | hs <;> rw [hs] <;> decide)
    have hsign := htail.getSign
    rw [if_pos hs, if_pos (hs.imp hlower.mp hupper.mp), hsign.1, hsign.2.digits.1]
  · rw [if_neg hs, if_neg fun ht => hs (ht.imp hlower.mpr hupper.mpr)]

theorem strtofText (h : Agree s t) : Io.strtofText s = Io.strtofText t := by
  have hsign := h.getSign
  have hdigits := hsign.2.digits
  have hfraction := hdigits.2.getFraction (floatOf ((Io.getSign t).2.takeWhile isdigit))
  simp only [Io.strtofText]
  rw [hsign.1, hdigits.1, hfraction.1, hfraction.2.getExponent]

end Agree

/-- A text that is not blank keeps its beginning when it goes on. -/
theorem dropWhile_isspace_append {s : List UInt8} (h : ∃ c ∈ s, isspace c = false)
    (t : List UInt8) : (s ++ t).dropWhile isspace = s.dropWhile isspace ++ t := by
  have hne : s.dropWhile isspace ≠ [] := by
    rw [ne_eq, List.dropWhile_eq_nil_iff]
    intro hblank
    obtain ⟨c, hc, hspace⟩ := h
    exact Bool.false_ne_true (hspace.symm.trans (hblank c hc))
  rw [List.dropWhile_append, if_neg (by rwa [List.isEmpty_iff])]

/-- A number ends at white space. -/
theorem atof_append {s : List UInt8} {d : UInt8} (h : ∃ c ∈ s, isspace c = false)
    (hd : isspace d = true) (t : List UInt8) : atof (s ++ d :: t) = atof s := by
  have hagree : Agree (s.dropWhile isspace ++ d :: t) (s.dropWhile isspace) :=
    ⟨s.dropWhile isspace, d :: t, [], rfl, (List.append_nil _).symm,
      isdigitchars_of_isspace hd, rfl⟩
  rw [atof, strtof, dropWhile_isspace_append h, hagree.strtofText]
  rfl

/-- A blank text has no number of its own. -/
theorem atof_blank {s : List UInt8} (h : ∀ c ∈ s, isspace c = true) (t : List UInt8) :
    atof (s ++ t) = atof t := by
  rw [atof, strtof, List.dropWhile_append_of_pos h]
  rfl

/-! ## Natural numbers -/

/-- The number that decimal digits stand for. -/
def decimal (ds : List UInt8) : ℕ := ds.foldl (fun n c => n * 10 + digit c) 0

theorem foldl_digits (ds : List UInt8) (n : ℕ) :
    ds.foldl (fun value c => value * 10 + UInt64.ofNat (digit c)) (UInt64.ofNat n) =
      UInt64.ofNat (ds.foldl (fun n c => n * 10 + digit c) n) := by
  induction ds generalizing n with
  | nil => rfl
  | cons c ds ih =>
      have hstep : UInt64.ofNat n * 10 + UInt64.ofNat (digit c) =
          UInt64.ofNat (n * 10 + digit c) := by
        rw [UInt64.ofNat_add, UInt64.ofNat_mul]
        rfl
      rw [List.foldl_cons, List.foldl_cons, hstep, ih]

theorem getSign_of_isdigit {s : List UInt8} (h : isdigit (s.headD 0) = true) :
    getSign s = (true, s) := by
  have hminus : s.headD 0 ≠ 45 := fun heq => by
    rw [heq] at h
    exact absurd h (by decide)
  have hplus : s.headD 0 ≠ 43 := fun heq => by
    rw [heq] at h
    exact absurd h (by decide)
  rw [getSign, if_neg hminus, if_neg hplus]

/-- A natural number ends at the first byte that is not a digit. -/
theorem strtoull_append {ds t : List UInt8} (hne : ds ≠ [])
    (hds : ∀ c ∈ ds, isdigit c = true) (ht : isdigit (t.headD 0) = false) :
    strtoull (ds ++ t) 10 = .ok (UInt64.ofNat (decimal ds)) := by
  obtain ⟨c, cs, rfl⟩ := List.exists_cons_of_ne_nil hne
  have hc : isdigit c = true := hds c (by simp)
  have hspace : (c :: cs ++ t).dropWhile isspace = c :: cs ++ t :=
    List.dropWhile_cons_of_neg (by rw [isspace_of_isdigit hc]; exact Bool.false_ne_true)
  have hstop : t.takeWhile isdigit = [] := by
    cases t with
    | nil => rfl
    | cons d t => exact List.takeWhile_cons_of_neg (by simpa using ht)
  have hdigits : (c :: cs ++ t).takeWhile isdigit = c :: cs := by
    rw [List.takeWhile_append_of_pos hds, hstop, List.append_nil]
  simp only [strtoull, strtouint, hspace, getSign_of_isdigit (s := c :: cs ++ t) hc, if_true,
    hdigits]
  exact congrArg Except.ok (foldl_digits (c :: cs) 0)

end Difacto.Io
