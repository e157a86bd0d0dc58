import Difacto.Io.InputSplit

/-!
# The text parts of a file

`Init` and `BeforeFirst` of `dmlc-core/src/io/input_split_base.cc`, as `InputSplit::Create` of
`dmlc-core/src/io.cc` calls them for one part of a text file. Every part moves both of its ends
forward to the beginning of a line, on its own; the parts of a file still fit together.

## Main definitions

* `InputSplitBase.init`, `InputSplitBase.beforeFirst` — the opening of a part.
* `InputSplit.create` — part `part` of `nsplit` of a file.
* `cut` — where a part ends after it moved its end forward.
* `lines` — the lines of a file.

## Main results

* `cut_le_cut` — the ends keep their order.
* `InputSplit.create_eq` — a part has the bytes between its two cuts.
* `InputSplit.parts_cover` — the chunks of all parts are the file, and no line is split.
-/

namespace Difacto.Io

namespace InputSplitBase

/-- `InitInputFileInfo`: the files that are not empty. -/
def initInputFileInfo (contents : List (List UInt8)) : List (List UInt8) :=
  contents.filter fun content => content.length != 0

/-- `std::upper_bound(file_offset_.begin(), file_offset_.end(), x) - file_offset_.begin() - 1` -/
def upperFile (files : List (List UInt8)) (x : ℕ) : ℕ :=
  (List.range (files.length + 1)).findIdx (fun i => decide (x < fileOffset files i)) - 1

/-- `BeforeFirst` -/
def beforeFirst (s : InputSplitBase) : InputSplitBase :=
  if s.offsetEnd ≤ s.offsetBegin then s
  else
    let fp := upperFile s.files s.offsetBegin
    { s with filePtr := fp, pos := s.offsetBegin - fileOffset s.files fp,
             offsetCurr := s.offsetBegin, overflow := [] }

/-- The bytes that a file has from an offset on: `Seek(offset - file_offset_[fp])`. -/
def seek (files : List (List UInt8)) (fp offset : ℕ) : List UInt8 :=
  (files.getD fp []).drop (offset - fileOffset files fp)

/-- `Init` with the files of `InitInputFileInfo`. When the part has no bytes, no file is opened. -/
def init (files : List (List UInt8)) (rank nsplit alignBytes : ℕ) : Option InputSplitBase :=
  if files.any fun file => file.length % alignBytes != 0 then none
  else
    let ntotal := fileOffset files files.length
    let nstep := (ntotal + nsplit - 1) / nsplit
    let nstep := (nstep + alignBytes - 1) / alignBytes * alignBytes
    let offsetBegin := min (nstep * rank) ntotal
    let offsetEnd := min (nstep * (rank + 1)) ntotal
    if offsetBegin = offsetEnd then
      some { files := files, filePtr := 0, pos := 0, offsetCurr := offsetBegin,
             offsetBegin := offsetBegin, offsetEnd := offsetEnd, overflow := [], reads := 0 }
    else
      let filePtr := upperFile files offsetBegin
      let filePtrEnd := upperFile files offsetEnd
      if offsetEnd ≠ fileOffset files filePtrEnd ∧
          ¬ (fileOffset files filePtrEnd < offsetEnd ∧ filePtrEnd < files.length) then none
      else
        let partEnd :=
          if offsetEnd ≠ fileOffset files filePtrEnd then
            offsetEnd + LineSplitter.seekRecordBegin (seek files filePtrEnd offsetEnd)
          else offsetEnd
        let partBegin :=
          if offsetBegin ≠ fileOffset files filePtr then
            offsetBegin + LineSplitter.seekRecordBegin (seek files filePtr offsetBegin)
          else offsetBegin
        some (beforeFirst
          { files := files, filePtr := filePtr, pos := 0, offsetCurr := offsetBegin,
            offsetBegin := partBegin, offsetEnd := partEnd, overflow := [], reads := 0 })

end InputSplitBase

/-- `InputSplit::Create(uri, part, nsplit, "text")` for a file with this content. -/
def InputSplit.create (content : List UInt8) (part nsplit : ℕ) : Option InputSplitBase :=
  if part < nsplit then
    InputSplitBase.init (InputSplitBase.initInputFileInfo [content]) part nsplit 1
  else none

/-! ## Lines -/

/-- The lines of these bytes, each with the character that ends it. -/
def lines : List UInt8 → List (List UInt8)
  | [] => []
  | c :: cs =>
    if isEol c then [c] :: lines cs
    else
      match lines cs with
      | [] => [[c]]
      | line :: rest => (c :: line) :: rest

theorem lines_ne_nil {bs : List UInt8} (hbs : bs ≠ []) : lines bs ≠ [] := by
  cases bs with
  | nil => exact absurd rfl hbs
  | cons c cs =>
      rw [lines]
      split
      · exact List.cons_ne_nil _ _
      · split <;> exact List.cons_ne_nil _ _

theorem endsLine_cons {c : UInt8} {bs : List UInt8} (hbs : bs ≠ []) :
    EndsLine (c :: bs) ↔ EndsLine bs := by
  obtain ⟨d, ds, rfl⟩ := List.exists_cons_of_ne_nil hbs
  rw [EndsLine, EndsLine, List.getLast?_cons_cons]

theorem endsLine_append (bs : List UInt8) {cs : List UInt8} (hcs : cs ≠ []) :
    EndsLine (bs ++ cs) ↔ EndsLine cs := by
  rw [EndsLine, EndsLine, List.getLast?_append_of_ne_nil bs hcs]

theorem EndsLine.ne_nil {bs : List UInt8} (hbs : EndsLine bs) : bs ≠ [] := by
  rintro rfl
  obtain ⟨c, hc, -⟩ := hbs
  exact absurd hc (by simp)

/-- A cut after an end-of-line character splits no line. -/
theorem lines_append {as : List UInt8} (has : EndsLine as) (bs : List UInt8) :
    lines (as ++ bs) = lines as ++ lines bs := by
  induction as with
  | nil => exact absurd rfl has.ne_nil
  | cons c cs ih =>
      by_cases hcs : cs = []
      · subst hcs
        obtain ⟨d, hd, heol⟩ := has
        have hcd : c = d := by simpa using hd
        rw [← hcd] at heol
        simp [lines, heol]
      · have hind := ih ((endsLine_cons hcs).mp has)
        rw [List.cons_append, lines, lines, hind]
        split
        · rfl
        · obtain ⟨line, rest, hlines⟩ := List.exists_cons_of_ne_nil (lines_ne_nil hcs)
          rw [hlines]
          rfl

/-- Chunks that end lines, but for the last one, split no line. -/
theorem lines_flatten {chunks : List (List UInt8)}
    (hchunks : ∀ c ∈ chunks.dropLast, EndsLine c) :
    lines chunks.flatten = chunks.flatMap lines := by
  induction chunks with
  | nil => rfl
  | cons c chunks ih =>
      by_cases hlast : chunks = []
      · subst hlast
        simp
      · rw [List.dropLast_cons_of_ne_nil hlast] at hchunks
        rw [List.flatten_cons, List.flatMap_cons, lines_append (hchunks c (by simp)),
          ih fun d hd => hchunks d (List.mem_cons_of_mem c hd)]

/-! ## Cuts -/

namespace LineSplitter

theorem skipEols_le_seekRecordBegin (bs : List UInt8) : skipEols bs ≤ seekRecordBegin bs := by
  cases bs with
  | nil => exact le_rfl
  | cons c cs =>
      rw [skipEols, seekRecordBegin]
      split
      · exact le_rfl
      · exact Nat.zero_le _

theorem skipEols_le_length (bs : List UInt8) : skipEols bs ≤ bs.length := by
  induction bs with
  | nil => exact le_rfl
  | cons c cs ih =>
      rw [skipEols, List.length_cons]
      split <;> omega

theorem seekRecordBegin_le_length (bs : List UInt8) : seekRecordBegin bs ≤ bs.length := by
  induction bs with
  | nil => exact le_rfl
  | cons c cs ih =>
      have hskip := skipEols_le_length cs
      rw [seekRecordBegin, List.length_cons]
      split <;> omega

/-- A search that starts one byte later does not end earlier. -/
theorem seekRecordBegin_cons_le (c : UInt8) (cs : List UInt8) :
    seekRecordBegin (c :: cs) ≤ seekRecordBegin cs + 1 := by
  have hskip := skipEols_le_seekRecordBegin cs
  rw [seekRecordBegin]
  split <;> omega

theorem seekRecordBegin_le_drop (bs : List UInt8) (d : ℕ) :
    seekRecordBegin bs ≤ d + seekRecordBegin (bs.drop d) := by
  induction d generalizing bs with
  | zero => rw [List.drop_zero, Nat.zero_add]
  | succ d ih =>
      cases bs with
      | nil => exact Nat.zero_le _
      | cons c cs =>
          have hcons := seekRecordBegin_cons_le c cs
          have hrest := ih cs
          rw [List.drop_succ_cons]
          omega

theorem isEol_of_mem_skipEols {bs : List UInt8} {c : UInt8} (hc : c ∈ bs.take (skipEols bs)) :
    isEol c = true := by
  induction bs with
  | nil => exact absurd hc (by simp)
  | cons d ds ih =>
      rw [skipEols] at hc
      split at hc
      · rename_i heol
        rw [List.take_succ_cons] at hc
        rcases List.mem_cons.mp hc with rfl | hc
        · exact heol
        · exact ih hc
      · exact absurd hc (by simp)

/-- The search ends directly after an end-of-line character, or at the end of the file. -/
theorem endsLine_seekRecordBegin {bs : List UInt8} (hbs : seekRecordBegin bs < bs.length) :
    EndsLine (bs.take (seekRecordBegin bs)) := by
  induction bs with
  | nil => exact absurd hbs (Nat.not_lt_zero _)
  | cons c cs ih =>
      rw [seekRecordBegin] at hbs ⊢
      by_cases heol : isEol c = true
      · rw [if_pos heol, List.take_succ_cons]
        have hall : ∀ d ∈ c :: cs.take (skipEols cs), isEol d = true := by
          intro d hd
          rcases List.mem_cons.mp hd with rfl | hd
          · exact heol
          · exact isEol_of_mem_skipEols hd
        have hne := List.cons_ne_nil c (cs.take (skipEols cs))
        exact ⟨_, List.getLast?_eq_some_getLast hne, hall _ (List.getLast_mem hne)⟩
      · rw [if_neg heol, List.length_cons] at hbs
        rw [if_neg heol, List.take_succ_cons]
        have hind := ih (by omega)
        exact (endsLine_cons hind.ne_nil).mpr hind

end LineSplitter

/-- Where a part ends that should end at `x`: at the next beginning of a line. A part that should
end at the end of the file does. -/
def cut (content : List UInt8) (x : ℕ) : ℕ :=
  if x = 0 then 0 else x + LineSplitter.seekRecordBegin (content.drop x)

theorem cut_length (content : List UInt8) : cut content content.length = content.length := by
  rw [cut, List.drop_length]
  split
  · exact Eq.symm ‹_›
  · rfl

theorem cut_le_length {content : List UInt8} {x : ℕ} (hx : x ≤ content.length) :
    cut content x ≤ content.length := by
  have hle := LineSplitter.seekRecordBegin_le_length (content.drop x)
  rw [List.length_drop] at hle
  rw [cut]
  split <;> omega

/-- **The ends of the parts keep their order.** -/
theorem cut_le_cut (content : List UInt8) {x y : ℕ} (hxy : x ≤ y) :
    cut content x ≤ cut content y := by
  have hle := LineSplitter.seekRecordBegin_le_drop (content.drop x) (y - x)
  rw [List.drop_drop, show x + (y - x) = y by omega] at hle
  rw [cut, cut]
  split
  · exact Nat.zero_le _
  · rw [if_neg (by omega)]
    omega

/-- A part that does not end the file ends a line. -/
theorem endsLine_cut {content : List UInt8} {x : ℕ} (hpos : cut content x ≠ 0)
    (hlt : cut content x < content.length) : EndsLine (content.take (cut content x)) := by
  rw [cut] at hpos hlt ⊢
  split at hpos
  · exact absurd rfl hpos
  · rename_i hx
    rw [if_neg hx] at hlt ⊢
    have hends : EndsLine ((content.drop x).take (LineSplitter.seekRecordBegin (content.drop x))) :=
      LineSplitter.endsLine_seekRecordBegin (by rw [List.length_drop]; omega)
    rw [List.take_add]
    exact (endsLine_append _ hends.ne_nil).mpr hends

/-! ## Parts -/

/-- Where part `k` of `n` begins, and part `k - 1` ends. -/
def partCut (content : List UInt8) (n k : ℕ) : ℕ :=
  cut content (min ((content.length + n - 1) / n * k) content.length)

theorem partCut_zero (content : List UInt8) (n : ℕ) : partCut content n 0 = 0 := by
  rw [partCut, Nat.mul_zero, Nat.zero_min, cut, if_pos rfl]

theorem partCut_le_length (content : List UInt8) (n k : ℕ) :
    partCut content n k ≤ content.length := cut_le_length (min_le_right _ _)

theorem partCut_le_succ (content : List UInt8) (n k : ℕ) :
    partCut content n k ≤ partCut content n (k + 1) :=
  cut_le_cut content (inf_le_inf_right _ (Nat.mul_le_mul_left _ (Nat.le_succ k)))

theorem partCut_self (content : List UInt8) {n : ℕ} (hn : 1 ≤ n) :
    partCut content n n = content.length := by
  have hceil : content.length ≤ (content.length + n - 1) / n * n := by
    have hdiv := Nat.div_add_mod (content.length + n - 1) n
    have hmod := Nat.mod_lt (content.length + n - 1) (show n > 0 by omega)
    rw [Nat.mul_comm] at hdiv
    omega
  rw [partCut, min_eq_right hceil, cut_length]

namespace InputSplitBase

theorem flatten_initInputFileInfo (content : List UInt8) :
    (initInputFileInfo [content]).flatten = content := by
  cases content with
  | nil => rfl
  | cons c cs => exact List.append_nil (c :: cs)

/-- The one file holds every offset before its end; its end is the end of the list of files. -/
theorem upperFile_singleton (content : List UInt8) (x : ℕ) :
    upperFile [content] x = if x < content.length then 0 else 1 := by
  have hrange : List.range ([content].length + 1) = [0, 1] := rfl
  rw [upperFile, hrange]
  by_cases hx : x < content.length
  · simp [List.findIdx_cons, fileOffset, hx]
  · simp [List.findIdx_cons, fileOffset, hx]

/-- The `CHECK`s of `Init` hold. -/
theorem upperFile_singleton_check {content : List UInt8} {x : ℕ} (hx : x ≤ content.length) :
    ¬ (x ≠ fileOffset [content] (upperFile [content] x) ∧
      ¬ (fileOffset [content] (upperFile [content] x) < x ∧
        upperFile [content] x < [content].length)) := by
  rw [upperFile_singleton]
  rintro ⟨hne, hcheck⟩
  split at hne
  · rename_i hlt
    rw [if_pos hlt] at hcheck
    exact hcheck ⟨Nat.pos_of_ne_zero hne, Nat.zero_lt_one⟩
  · have hoffset : fileOffset [content] 1 = content.length := Nat.add_zero _
    omega

/-- Both ends of a part are moved forward in the same way. -/
theorem seek_singleton {content : List UInt8} {x : ℕ}
    (hx : x ≤ content.length) :
    (if x ≠ fileOffset [content] (upperFile [content] x) then
      x + LineSplitter.seekRecordBegin (seek [content] (upperFile [content] x) x) else x) =
      cut content x := by
  rw [upperFile_singleton]
  by_cases hlt : x < content.length
  · rw [if_pos hlt, show fileOffset [content] 0 = 0 from rfl, cut]
    by_cases hzero : x = 0
    · rw [if_neg (not_not.mpr hzero), if_pos hzero, hzero]
    · rw [if_pos hzero, if_neg hzero]
      rfl
  · have hall : x = content.length := by omega
    have hoffset : fileOffset [content] 1 = content.length := Nat.add_zero _
    rw [if_neg hlt, hoffset, if_neg (not_not.mpr hall), hall, cut_length]

/-- The part that is read after `BeforeFirst`. -/
theorem beforeFirst_singleton {content : List UInt8} {s : InputSplitBase}
    (hfiles : s.files = [content]) (hover : s.overflow = [])
    (hend : s.offsetEnd ≤ content.length) :
    s.beforeFirst.Reading ∧
      s.beforeFirst.rest = (content.drop s.offsetBegin).take (s.offsetEnd - s.offsetBegin) := by
  have hflat : s.files.flatten = content := by rw [hfiles, List.flatten_singleton]
  rw [beforeFirst]
  by_cases hempty : s.offsetEnd ≤ s.offsetBegin
  · rw [if_pos hempty]
    refine ⟨reading_of_le hempty, ?_⟩
    rw [rest, if_pos hempty, hover, Nat.sub_eq_zero_of_le hempty, List.take_zero, List.append_nil]
  · have hlt : s.offsetBegin < content.length := by omega
    have hptr : upperFile s.files s.offsetBegin = 0 := by
      rw [hfiles, upperFile_singleton, if_pos hlt]
    rw [if_neg hempty]
    refine ⟨⟨fun _ => ?_, fun _ => (not_le.mp hempty).le, fun _ => ?_⟩, ?_⟩
    · simp only [hptr]
      simp only [hfiles]
      exact ⟨Nat.zero_lt_one, hlt.le, (Nat.zero_add _).symm⟩
    · rw [hflat]
      exact hend
    · rw [rest, if_neg hempty, List.nil_append, hflat]

end InputSplitBase

open InputSplitBase

/-- **A part of a file** has the bytes between its two cuts. -/
theorem InputSplit.create_eq (content : List UInt8) {k n : ℕ} (hk : k < n) :
    ∃ s, InputSplit.create content k n = some s ∧ s.Reading ∧
      s.rest = (content.drop (partCut content n k)).take
        (partCut content n (k + 1) - partCut content n k) := by
  obtain ⟨files, hfiles⟩ : ∃ files, files = initInputFileInfo [content] := ⟨_, rfl⟩
  have hflat : files.flatten = content := by rw [hfiles, flatten_initInputFileInfo]
  have htotal : fileOffset files files.length = content.length := by
    rw [fileOffset_length, hflat]
  have halign : (files.any fun file => file.length % 1 != 0) = false := by simp [Nat.mod_one]
  have hend := partCut_le_length content n (k + 1)
  rw [partCut] at hend
  rw [partCut, partCut]
  have horder : min ((content.length + n - 1) / n * k) content.length ≤
      min ((content.length + n - 1) / n * (k + 1)) content.length :=
    inf_le_inf_right _ (Nat.mul_le_mul_left _ (Nat.le_succ k))
  have hlast : min ((content.length + n - 1) / n * (k + 1)) content.length ≤ content.length :=
    min_le_right _ _
  rw [InputSplit.create, if_pos hk, ← hfiles, init, halign]
  simp only [htotal, Nat.add_sub_cancel, Nat.div_one, Nat.mul_one, Bool.false_eq_true, if_false]
  generalize min ((content.length + n - 1) / n * k) content.length = x at *
  generalize min ((content.length + n - 1) / n * (k + 1)) content.length = y at *
  by_cases hxy : x = y
  · subst hxy
    rw [if_pos rfl]
    refine ⟨_, rfl, reading_of_le le_rfl, ?_⟩
    rw [Nat.sub_self, List.take_zero, rest]
    simp
  · have hcontent : content ≠ [] := by
      rintro rfl
      rw [List.length_nil] at hlast
      omega
    have hone : files = [content] := by
      rw [hfiles, initInputFileInfo]
      simp [hcontent]
    subst hone
    rw [if_neg hxy, if_neg (upperFile_singleton_check hlast), seek_singleton hlast,
      seek_singleton (horder.trans hlast)]
    exact ⟨_, rfl, beforeFirst_singleton rfl rfl hend⟩

/-! ## The chunks of all parts -/

theorem endsLine_of_flatten {chunks : List (List UInt8)} (hne : ∀ c ∈ chunks, c ≠ [])
    (hends : ∀ c ∈ chunks.dropLast, EndsLine c) (hflat : EndsLine chunks.flatten) :
    ∀ c ∈ chunks, EndsLine c := by
  intro c hc
  have hchunks : chunks ≠ [] := List.ne_nil_of_mem hc
  rw [← List.dropLast_append_getLast hchunks] at hc hflat
  have hlast := hne _ (List.getLast_mem hchunks)
  rcases List.mem_append.mp hc with hc | hc
  · exact hends c hc
  · rw [List.flatten_append, List.flatten_singleton, endsLine_append _ hlast] at hflat
    rw [List.mem_singleton.mp hc]
    exact hflat

/-- The first `m` parts are the file up to their last cut, and no chunk of theirs but the last one
ends inside a line. -/
theorem chunks_of_parts {content : List UInt8} {n : ℕ} {chunks : ℕ → List (List UInt8)} {m : ℕ}
    (hflat : ∀ k < m, (chunks k).flatten = (content.drop (partCut content n k)).take
      (partCut content n (k + 1) - partCut content n k))
    (hne : ∀ k < m, ∀ c ∈ chunks k, c ≠ [])
    (hends : ∀ k < m, ∀ c ∈ (chunks k).dropLast, EndsLine c) :
    ((List.range m).flatMap chunks).flatten = content.take (partCut content n m) ∧
      ∀ c ∈ ((List.range m).flatMap chunks).dropLast, EndsLine c := by
  induction m with
  | zero => simp [partCut_zero]
  | succ m ih =>
      obtain ⟨hbytes, hlines⟩ := ih (fun k hk => hflat k (by omega)) (fun k hk => hne k (by omega))
        fun k hk => hends k (by omega)
      have hle := partCut_le_succ content n m
      have hpart := hflat m (Nat.lt_succ_self m)
      rw [List.range_succ, List.flatMap_append, List.flatMap_singleton]
      constructor
      · rw [List.flatten_append, hbytes, hpart, ← List.take_add, Nat.add_sub_cancel' hle]
      · by_cases hnil : chunks m = []
        · rw [hnil, List.append_nil]
          exact hlines
        · rw [List.dropLast_append_of_ne_nil hnil]
          intro c hc
          rcases List.mem_append.mp hc with hc | hc
          · -- the chunks before end with the cut, which is not the end of the file
            have hmem : ∀ d ∈ (List.range m).flatMap chunks, d ≠ [] := by
              intro d hd
              obtain ⟨k, hk, hd⟩ := List.mem_flatMap.mp hd
              exact hne k (by have := List.mem_range.mp hk; omega) d hd
            have hinside : partCut content n m < content.length := by
              obtain ⟨d, hd⟩ := List.exists_mem_of_ne_nil _ hnil
              have hd' := List.length_pos_iff.mpr (hne m (Nat.lt_succ_self m) d hd)
              have hsum := (List.sublist_flatten_of_mem hd).length_le
              rw [hpart, List.length_take, List.length_drop] at hsum
              omega
            have hpos : partCut content n m ≠ 0 := by
              intro hzero
              have hd := (List.sublist_flatten_of_mem hc).length_le
              rw [hbytes, hzero, List.take_zero] at hd
              exact hmem c hc (List.length_eq_zero_iff.mp (Nat.le_zero.mp hd))
            refine endsLine_of_flatten hmem hlines ?_ c hc
            rw [hbytes]
            exact endsLine_cut hpos hinside
          · exact hends m (Nat.lt_succ_self m) c hc

/-- **The parts of a file cover it exactly once.** Whatever the streams return in each call, and
whatever sizes the recycled chunks have, every part delivers chunks until it is over. Together they
are the bytes of the file, a chunk ends directly after an end-of-line character or at the end of its
part, and no line is split: the lines of the chunks are those of the file. In a run of end-of-line
characters each one ends a line. -/
theorem InputSplit.parts_cover (content : List UInt8) (grant sizes : ℕ → ℕ → ℕ)
    {n bufferSize : ℕ} (hn : 1 ≤ n) (hbuffer : 1 ≤ bufferSize) :
    ∃ chunks : ℕ → List (List UInt8),
      (∀ k < n, ∃ s, InputSplit.create content k n = some s ∧
        ∀ cs, Delivers (grant k) bufferSize (sizes k) 0 s cs ↔ cs = chunks k) ∧
      ((List.range n).flatMap chunks).flatten = content ∧
      (∀ k < n, ∀ c ∈ (chunks k).dropLast, EndsLine c) ∧
      ((List.range n).flatMap chunks).flatMap lines = lines content := by
  have hpart : ∀ k, ∃ chunks : List (List UInt8), k < n →
      (∃ s, InputSplit.create content k n = some s ∧
        ∀ cs, Delivers (grant k) bufferSize (sizes k) 0 s cs ↔ cs = chunks) ∧
      chunks.flatten = (content.drop (partCut content n k)).take
        (partCut content n (k + 1) - partCut content n k) ∧
      (∀ c ∈ chunks, c ≠ []) ∧ ∀ c ∈ chunks.dropLast, EndsLine c := by
    intro k
    by_cases hk : k < n
    · obtain ⟨s, hcreate, hreading, hrest⟩ := InputSplit.create_eq content hk
      obtain ⟨chunks, hdelivers, hflat, hne, hends⟩ :=
        exists_delivers (grant k) hbuffer (sizes k) hreading 0
      have hiff : ∀ cs, Delivers (grant k) bufferSize (sizes k) 0 s cs ↔ cs = chunks := by
        intro cs
        constructor
        · intro hcs
          exact hdelivers.unique hcs
        · rintro rfl
          exact hdelivers
      exact ⟨chunks, fun _ => ⟨⟨s, hcreate, hiff⟩, hflat.trans hrest, hne, hends⟩⟩
    · exact ⟨[], fun h => absurd h hk⟩
  choose chunks hchunks using hpart
  obtain ⟨hflat, hlines⟩ := chunks_of_parts (fun k hk => (hchunks k hk).2.1)
    (fun k hk => (hchunks k hk).2.2.1) fun k hk => (hchunks k hk).2.2.2
  rw [partCut_self content hn, List.take_length] at hflat
  refine ⟨chunks, fun k hk => (hchunks k hk).1, hflat, fun k hk => (hchunks k hk).2.2.2, ?_⟩
  rw [← lines_flatten hlines, hflat]

/-- Two lines in two parts, read byte by byte. -/
theorem InputSplit.parts_cover_twoLines :
    1 ≤ 2 ∧ 1 ≤ 1 ∧
      ∃ chunks : ℕ → List (List UInt8),
        (∀ k < 2, ∃ s, InputSplit.create [97, 98, 10, 99, 100, 13, 10] k 2 = some s ∧
          ∀ cs, Delivers (fun _ => 1) 1 (fun _ => 0) 0 s cs ↔ cs = chunks k) ∧
        ((List.range 2).flatMap chunks).flatten = [97, 98, 10, 99, 100, 13, 10] ∧
        (∀ k < 2, ∀ c ∈ (chunks k).dropLast, EndsLine c) ∧
        ((List.range 2).flatMap chunks).flatMap lines = [[97, 98, 10], [99, 100, 13], [10]] :=
  ⟨by decide, by decide, InputSplit.parts_cover [97, 98, 10, 99, 100, 13, 10] (fun _ _ => 1)
    (fun _ _ => 0) (by decide) (by decide)⟩

end Difacto.Io
