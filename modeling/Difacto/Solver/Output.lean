import Difacto.Base.Workload
import Difacto.Lib.Decimal
import Mathlib.Data.List.Basic
import Mathlib.Logic.Function.Basic

/-!
# Prediction output

The stream of a worker that predicts: `IterWorker::PredictStream` of `solver/iter_solver.h`
and what `Loss::Predict` writes to it. A file is the list of its characters. A stream has a
position of its own, so two workers that open one file write over each other. Buffering is
left out: a file has what was written to it.

## Main definitions

* `baseName`, `predictName` — the name of the output of a part.
* `IterWorker.predictStream`, `IterWorker.print` — opening and writing.
* `IterWorker.Opened` — the stream is at the end of the file.

## Main results

* `predictName_inj` — the name has the file name without its directory, and the part.
* `IterWorker.print_eq` — the lines go to the end of the output.
-/

namespace Difacto.Solver

open Base Lib

/-! ## Names -/

/-- `in.find_last_of("/\\")` and `in.substr(pos+1)`. -/
def baseName (f : String) : String :=
  String.ofList (f.toList.reverse.takeWhile fun c => c ≠ '/' ∧ c ≠ '\\').reverse

/-- The name that `PredictStream` makes for a file of a workload. -/
def predictName (out : String) (file : Workload.File) : String :=
  out ++ baseName file.filename ++ "_part-" ++ toString file.k

theorem dash_notMem_toString (k : ℕ) : '-' ∉ (toString (k : ℤ)).toList := by
  intro hmem
  have hdigit := isDigit_of_mem_toString (n := k) hmem
  revert hdigit
  decide

theorem toString_natCast_inj {k j : ℕ} (h : (toString (k : ℤ)).toList = (toString (j : ℤ)).toList) :
    k = j :=
  toString_nat_inj (String.toList_inj.mp h)

/-- What stands behind the last occurrence of a separator, and what stands before it. -/
theorem append_cons_inj_of_notMem_right {α : Type} {x : α} {as bs as' bs' : List α}
    (hbs : x ∉ bs) (hbs' : x ∉ bs') (h : as ++ x :: bs = as' ++ x :: bs') :
    as = as' ∧ bs = bs' := by
  rcases List.append_eq_append_iff.mp h with ⟨cs, rfl, hcs⟩ | ⟨cs, rfl, hcs⟩
  · cases cs with
    | nil => simpa using hcs
    | cons c cs =>
        refine absurd ?_ hbs
        rw [(List.cons.inj hcs).2]
        simp
  · cases cs with
    | nil => simpa using hcs.symm
    | cons c cs =>
        refine absurd ?_ hbs'
        rw [(List.cons.inj hcs).2]
        simp

/-- **The name of an output** has the base name of the file and the part, and nothing
else. -/
theorem predictName_inj {out : String} {file file' : Workload.File} {k j : ℕ} (hk : file.k = k)
    (hj : file'.k = j) : predictName out file = predictName out file' ↔
      baseName file.filename = baseName file'.filename ∧ k = j := by
  constructor
  · intro h
    have hlist := congrArg String.toList h
    have hsep : "_part-".toList = ['_', 'p', 'a', 'r', 't'] ++ ['-'] := by decide
    simp only [predictName, hk, hj, String.toList_append, hsep, List.append_assoc,
      List.cons_append, List.nil_append] at hlist
    rw [← List.append_assoc, ← List.append_assoc] at hlist
    have hcut : ∀ (as : List Char) (bs : List Char),
        as ++ '_' :: 'p' :: 'a' :: 'r' :: 't' :: '-' :: bs =
          (as ++ ['_', 'p', 'a', 'r', 't']) ++ '-' :: bs := by simp
    rw [hcut, hcut] at hlist
    obtain ⟨hbase, hpart⟩ := append_cons_inj_of_notMem_right (dash_notMem_toString k)
      (dash_notMem_toString j) hlist
    refine ⟨?_, toString_natCast_inj hpart⟩
    apply String.toList_inj.mp
    exact List.append_cancel_left (List.append_cancel_right hbase)
  · rintro ⟨hbase, rfl⟩
    rw [predictName, predictName, hbase, hk, hj]

theorem predictName_ne_empty (out : String) (file : Workload.File) : predictName out file ≠ "" := by
  intro h
  have hlist := congrArg (fun s => '-' ∈ s.toList) h
  simp [predictName] at hlist

/-! ## Streams -/

/-- The files by name. -/
abbrev Files := String → Option (List Char)

/-- Write at a position. -/
def writeAt (pos : ℕ) (xs content : List Char) : List Char :=
  content.take pos ++ List.replicate (pos - content.length) (Char.ofNat 0) ++ xs ++
    content.drop (pos + xs.length)

theorem writeAt_length (xs content : List Char) :
    writeAt content.length xs content = content ++ xs := by
  rw [writeAt, List.take_length, Nat.sub_self, List.replicate_zero, List.append_nil,
    List.drop_of_length_le (Nat.le_add_right _ _), List.append_nil]

/-- `Stream` -/
structure Stream where
  file : String
  pos : ℕ
  deriving DecidableEq

/-- `IterWorker` -/
structure IterWorker where
  /-- `pred_out_` -/
  predOut : Option Stream := none
  /-- `prev_out_` -/
  prevOut : String := ""
  deriving DecidableEq

namespace IterWorker

/-- The worker after `Stream::Create(out, "w")`. -/
def created (out : String) : IterWorker :=
  { predOut := some { file := out, pos := 0 }, prevOut := out }

/-- `PredictStream` for the output `out`; a file that is there is truncated. -/
def predictStream (out : String) (w : IterWorker) (files : Files) : IterWorker × Files :=
  if out ≠ w.prevOut then (created out, Function.update files out (some []))
  else (w, files)

/-- `Write`; `none` if there is no stream. -/
def write (xs : List Char) (w : IterWorker) (files : Files) : Option (IterWorker × Files) :=
  match w.predOut with
  | none => none
  | some st =>
    some ({ w with predOut := some { st with pos := st.pos + xs.length } },
      Function.update files st.file (some (writeAt st.pos xs ((files st.file).getD []))))

/-- `Predict(PredictStream(...), ...)` with the text of the predictions. -/
def print (out : String) (xs : List Char) (w : IterWorker) (files : Files) :
    Option (IterWorker × Files) :=
  let r := w.predictStream out files
  r.1.write xs r.2

/-- The stream of `w` is at the end of `out`, which has the content `xs`. -/
structure Opened (out : String) (xs : List Char) (w : IterWorker) (files : Files) : Prop where
  prevOut : w.prevOut = out
  predOut : w.predOut = some { file := out, pos := xs.length }
  content : files out = some xs

variable {out : String} {w : IterWorker} {files : Files}

theorem Opened.congr {xs : List Char} {files' : Files} (h : Opened out xs w files)
    (hfiles : files' out = files out) : Opened out xs w files' :=
  ⟨h.prevOut, h.predOut, hfiles.trans h.content⟩

/-- **Printing** appends to the output of the worker, or makes a new one, and leaves the other
files alone. -/
theorem print_eq (old xs : List Char)
    (h : Opened out old w files ∨ old = [] ∧ w.prevOut ≠ out) :
    ∃ w' files', print out xs w files = some (w', files') ∧ Opened out (old ++ xs) w' files' ∧
      ∀ g, g ≠ out → files' g = files g := by
  have hwrite : ∀ {w : IterWorker} {files : Files}, Opened out old w files →
      ∃ w' files', write xs w files = some (w', files') ∧ Opened out (old ++ xs) w' files' ∧
        ∀ g, g ≠ out → files' g = files g := by
    intro w files hopen
    refine ⟨{ w with predOut := some { file := out, pos := old.length + xs.length } },
      Function.update files out (some (writeAt old.length xs ((files out).getD []))), ?_,
      ⟨hopen.prevOut, ?_, ?_⟩, ?_⟩
    · simp only [write, hopen.predOut]
    · rw [List.length_append]
    · rw [Function.update_self, hopen.content, Option.getD_some, writeAt_length]
    · intro g hg
      exact Function.update_of_ne hg _ _
  rcases h with hopen | ⟨rfl, hne⟩
  · have hsame : w.predictStream out files = (w, files) :=
      if_neg (not_not.mpr hopen.prevOut.symm)
    rw [print, hsame]
    exact hwrite hopen
  · have hnew : w.predictStream out files =
        (created out, Function.update files out (some [])) := if_pos (Ne.symm hne)
    have hopen : Opened out [] (created out) (Function.update files out (some [])) :=
      ⟨rfl, rfl, Function.update_self _ _ _⟩
    obtain ⟨w', files', hprint, hopen', hframe⟩ := hwrite hopen
    refine ⟨w', files', by rw [print, hnew, hprint], hopen', fun g hg => ?_⟩
    rw [hframe g hg, Function.update_of_ne hg]

end IterWorker

end Difacto.Solver
