import Mathlib.Algebra.Ring.Nat
import Mathlib.Data.List.Basic
import Mathlib.Tactic.Tauto

/-!
# Reading an object

`obs::ReadStream` of `dmlc-core/src/io/obs_filesys.cc`: a stream over an object of a bucket.
Every read is a request for a range of bytes. `get_object` is code of the SDK and a parameter
here: for request number `r`, the first byte and the number of bytes it returns the buffers
that are passed to `get_object_data_callback`, or `none` if the status is not
`OBS_STATUS_OK`. `requests` is history. A fatal error is `none`.

`Cursor` says what the stream is for: a position in the content.

## Main definitions

* `ReadStream.read`, `ReadStream.seek` — the stream.
* `Cursor.call` — a position in the content.
* `Cursor.NeverSeeksEnd` — no call moves to the end of the object by `Seek`.

## Main results

* `ReadStream.Sim.call` — one call.
* `ReadStream.refines_iff` — when the stream answers as the cursor does.
-/

namespace Difacto.Io

/-- `get_object`, by the number of the request, `start_byte` and `byte_count`. -/
abbrev GetObject : Type := ℕ → ℕ → ℕ → Option (List (List UInt8))

/-- What the SDK documents of `get_object` for an object with this content. -/
structure GetObject.Serves (getObject : GetObject) (content : List UInt8) : Prop where
  deliver : ∀ r start count, start < content.length → 0 < count →
    ∃ bufs, getObject r start count = some bufs ∧
      bufs.flatten = (content.drop start).take count
  fail : ∀ r start count, content.length ≤ start → getObject r start count = none

/-- `get_object_callback_data` -/
structure GetObjectData where
  outBuf : List UInt8
  nread : ℕ

/-- `get_object_data_callback` -/
def getObjectDataCallback (data : GetObjectData) (buffer : List UInt8) : GetObjectData :=
  { outBuf := data.outBuf.take data.nread ++ buffer ++
      data.outBuf.drop (data.nread + buffer.length)
    nread := data.nread + buffer.length }

/-- A call: `Seek(pos)`, or `Read(ptr, size)` where `ptr` points to `size` bytes. -/
inductive Call
  | seek (pos : ℕ)
  | read (ptr : List UInt8)
  deriving DecidableEq

/-- What the caller sees of a call: what `Read` returns and what is in its buffer after it, and
the answers of `Tell` and `AtEnd`. -/
structure Seen where
  nread : ℕ
  ptr : List UInt8
  tell : ℕ
  atEnd : Bool
  deriving DecidableEq

/-- `ReadStream` -/
structure ReadStream where
  expectedFileSize : ℕ
  currBytes : ℕ
  atEnd : Bool
  requests : ℕ

namespace ReadStream

/-- `ReadStream::ReadStream` -/
def init (fileSize : ℕ) : ReadStream :=
  { expectedFileSize := fileSize, currBytes := 0, atEnd := false, requests := 0 }

/-- `Cleanup` -/
def cleanup (s : ReadStream) : ReadStream := { s with currBytes := 0, atEnd := false }

/-- `Seek` -/
def seek (s : ReadStream) (pos : ℕ) : ReadStream :=
  if s.currBytes ≠ pos then { s.cleanup with currBytes := pos } else s

/-- The part of `Read` after a request that delivered `nread` bytes. -/
def advance (s : ReadStream) (nread : ℕ) : ReadStream :=
  { s with
    currBytes := s.currBytes + nread
    atEnd := if s.currBytes + nread = s.expectedFileSize then true else s.atEnd
    requests := s.requests + 1 }

/-- `Read`: the stream, what it returns, and the buffer. -/
def read (getObject : GetObject) (s : ReadStream) (ptr : List UInt8) :
    Option (ReadStream × ℕ × List UInt8) :=
  if ptr.length = 0 then some (s, 0, ptr)
  else if s.atEnd then some (s, 0, ptr)
  else do
    let bufs ← getObject s.requests s.currBytes ptr.length
    let data := bufs.foldl getObjectDataCallback { outBuf := ptr, nread := 0 }
    return (s.advance data.nread, data.nread, data.outBuf)

/-- What the caller sees of the stream after a call. -/
def seen (s : ReadStream) (nread : ℕ) (ptr : List UInt8) : Seen :=
  { nread, ptr, tell := s.currBytes, atEnd := s.atEnd }

/-- One call. -/
def call (getObject : GetObject) (s : ReadStream) : Call → Option (ReadStream × Seen)
  | .seek pos => some (s.seek pos, (s.seek pos).seen 0 [])
  | .read ptr => (s.read getObject ptr).map fun r => (r.1, r.1.seen r.2.1 r.2.2)

/-- A sequence of calls. -/
def calls (getObject : GetObject) (s : ReadStream) : List Call → Option (List Seen)
  | [] => some []
  | c :: cs => do
    let (s, a) ← s.call getObject c
    let as ← calls getObject s cs
    return a :: as

/-- All that is seen of a stream: as it is opened, and after each call. -/
def observe (getObject : GetObject) (fileSize : ℕ) (cs : List Call) : Option (List Seen) :=
  ((init fileSize).calls getObject cs).map fun as => (init fileSize).seen 0 [] :: as

end ReadStream

/-! ## The cursor -/

namespace Cursor

variable (content : List UInt8)

/-- What is seen of a cursor. -/
def seen (pos nread : ℕ) (ptr : List UInt8) : Seen :=
  { nread, ptr, tell := pos, atEnd := decide (pos = content.length) }

/-- The bytes from `pos` on that a read of `size` bytes returns. -/
def bytes (pos size : ℕ) : List UInt8 := (content.drop pos).take size

/-- One call: the position after it, and what is seen. -/
def call (pos : ℕ) : Call → ℕ × Seen
  | .seek p => (p, seen content p 0 [])
  | .read ptr =>
    let b := bytes content pos ptr.length
    (pos + b.length, seen content (pos + b.length) b.length (b ++ ptr.drop b.length))

/-- A sequence of calls. -/
def calls (pos : ℕ) : List Call → List Seen
  | [] => []
  | c :: cs => (call content pos c).2 :: calls (call content pos c).1 cs

/-- All that is seen of a cursor. -/
def observe (cs : List Call) : List Seen := seen content 0 0 [] :: calls content 0 cs

/-- The calls seek inside the object. -/
def InBounds (cs : List Call) : Prop := ∀ p, .seek p ∈ cs → p ≤ content.length

/-- No call of `Seek` moves to the end of the object; one that is made there may stay. -/
def NeverSeeksEnd (pos : ℕ) : List Call → Prop
  | [] => True
  | .seek p :: cs => (p = content.length → pos = content.length) ∧ NeverSeeksEnd p cs
  | .read ptr :: cs => NeverSeeksEnd (call content pos (.read ptr)).1 cs

end Cursor

/-! ## One call -/

/-- The buffers of a request are put together in the buffer of the caller. -/
theorem foldl_getObjectDataCallback (bufs : List (List UInt8)) (data : GetObjectData)
    (hle : data.nread ≤ data.outBuf.length) :
    bufs.foldl getObjectDataCallback data =
      { outBuf := data.outBuf.take data.nread ++ bufs.flatten ++
          data.outBuf.drop (data.nread + bufs.flatten.length)
        nread := data.nread + bufs.flatten.length } := by
  induction bufs generalizing data with
  | nil => simp
  | cons b bufs ih =>
      have hlen : (data.outBuf.take data.nread).length = data.nread := by
        rw [List.length_take]
        omega
      have hfront : (data.outBuf.take data.nread ++ b).length = data.nread + b.length := by
        rw [List.length_append, hlen]
      have hle' : (getObjectDataCallback data b).nread ≤
          (getObjectDataCallback data b).outBuf.length := by
        simp only [getObjectDataCallback, List.length_append, hlen]
        omega
      have hback : (data.outBuf.take data.nread ++ b ++
            data.outBuf.drop (data.nread + b.length)).drop
              (data.nread + b.length + bufs.flatten.length) =
          data.outBuf.drop (data.nread + (b.length + bufs.flatten.length)) := by
        rw [List.drop_append, hfront, List.drop_of_length_le (by omega), List.nil_append,
          List.drop_drop]
        congr 1
        omega
      rw [List.foldl_cons, ih _ hle']
      simp only [getObjectDataCallback, List.flatten_cons, List.length_append, hback]
      rw [List.take_left' hfront, List.append_assoc _ b, Nat.add_assoc]

namespace Cursor

variable {content : List UInt8} {pos : ℕ}

theorem length_bytes (content : List UInt8) (pos size : ℕ) :
    (bytes content pos size).length = min size (content.length - pos) := by
  rw [bytes, List.length_take, List.length_drop]

end Cursor

namespace ReadStream

open Cursor

variable {getObject : GetObject} {content : List UInt8} {s : ReadStream} {pos : ℕ}

/-- The stream is at the position of the cursor, and knows if it is at the end. -/
structure Sim (content : List UInt8) (s : ReadStream) (pos : ℕ) : Prop where
  size : s.expectedFileSize = content.length
  curr : s.currBytes = pos
  le : pos ≤ content.length
  atEnd : s.atEnd = decide (pos = content.length)

/-- A stream and a cursor that are in the same place are seen alike. -/
theorem Sim.seen (h : Sim content s pos) (nread : ℕ) (ptr : List UInt8) :
    s.seen nread ptr = Cursor.seen content pos nread ptr := by
  rw [ReadStream.seen, Cursor.seen, h.curr, h.atEnd]

/-- **A read is a read of the cursor.** At the end no request is made. -/
theorem Sim.read (hget : getObject.Serves content) (h : Sim content s pos) (ptr : List UInt8) :
    ∃ s', s.read getObject ptr = some (s', (bytes content pos ptr.length).length,
        bytes content pos ptr.length ++ ptr.drop (bytes content pos ptr.length).length) ∧
      Sim content s' (pos + (bytes content pos ptr.length).length) := by
  have hlen := length_bytes content pos ptr.length
  have hle := h.le
  by_cases hzero : ptr.length = 0
  · have hnil : bytes content pos ptr.length = [] := List.length_eq_zero_iff.mp (by omega)
    refine ⟨s, ?_, ?_⟩
    · rw [ReadStream.read, if_pos hzero, hnil]
      rfl
    · rw [hnil]
      exact h
  · by_cases hend : pos = content.length
    · have hnil : bytes content pos ptr.length = [] := List.length_eq_zero_iff.mp (by omega)
      have hatEnd : s.atEnd = true := by rw [h.atEnd, decide_eq_true hend]
      refine ⟨s, ?_, ?_⟩
      · rw [ReadStream.read, if_neg hzero, if_pos hatEnd, hnil]
        rfl
      · rw [hnil]
        exact h
    · have hatEnd : ¬ s.atEnd = true := by
        rw [h.atEnd, decide_eq_true_eq]
        exact hend
      obtain ⟨bufs, hbufs, hflat⟩ := hget.deliver s.requests pos ptr.length (by omega) (by omega)
      have hfold := foldl_getObjectDataCallback bufs { outBuf := ptr, nread := 0 } (Nat.zero_le _)
      simp only [List.take_zero, List.nil_append, Nat.zero_add, hflat] at hfold
      refine ⟨s.advance (bytes content pos ptr.length).length, ?_, ?_⟩
      · rw [ReadStream.read, if_neg hzero, if_neg hatEnd, h.curr, hbufs]
        simp only [Option.bind_eq_bind, Option.bind_some, hfold]
        rfl
      · refine ⟨h.size, by rw [advance, h.curr], by omega, ?_⟩
        -- `at_end_` is set when the last byte was read
        rw [advance, h.curr, h.size, h.atEnd, decide_eq_false hend]
        split
        · rename_i hlast
          exact (decide_eq_true hlast).symm
        · rename_i hlast
          exact (decide_eq_false hlast).symm

/-- A `Seek` that does not move to the end. -/
theorem Sim.seek (h : Sim content s pos) {p : ℕ} (hp : p ≤ content.length)
    (hend : p = content.length → pos = content.length) : Sim content (s.seek p) p := by
  by_cases hmove : s.currBytes = p
  · rw [ReadStream.seek, if_neg (not_not.mpr hmove)]
    have hpos : pos = p := h.curr.symm.trans hmove
    exact hpos ▸ h
  · rw [ReadStream.seek, if_pos hmove]
    have hnot : p ≠ content.length := by
      intro hp'
      exact hmove (h.curr.trans ((hend hp').trans hp'.symm))
    exact ⟨h.size, rfl, hp, (decide_eq_false hnot).symm⟩

/-- After a `Seek` that moves to the end the stream does not know that it is there. -/
theorem Sim.seek_end (h : Sim content s pos) (hmove : pos ≠ content.length) :
    (s.seek content.length).atEnd = false := by
  have hne : s.currBytes ≠ content.length := by
    rw [h.curr]
    exact hmove
  rw [ReadStream.seek, if_pos hne]
  rfl

/-! ## All calls -/

/-- From the same place the stream answers as the cursor does if and only if no call moves to
the end by `Seek`. -/
theorem Sim.calls_iff (hget : getObject.Serves content) (h : Sim content s pos) (cs : List Call)
    (hcs : InBounds content cs) :
    s.calls getObject cs = some (Cursor.calls content pos cs) ↔ NeverSeeksEnd content pos cs := by
  induction cs generalizing s pos with
  | nil => simp [ReadStream.calls, Cursor.calls, NeverSeeksEnd]
  | cons c cs ih =>
      have hcs' : InBounds content cs := fun p hp => hcs p (List.mem_cons_of_mem _ hp)
      -- a call that both answer alike leaves them in the same place
      have hstep : ∀ s', s.call getObject c = some (s', (Cursor.call content pos c).2) →
          Sim content s' (Cursor.call content pos c).1 →
          (s.calls getObject (c :: cs) = some (Cursor.calls content pos (c :: cs)) ↔
            NeverSeeksEnd content (Cursor.call content pos c).1 cs) := by
        intro s' hcall hsim
        rw [← ih hsim hcs', Cursor.calls, ReadStream.calls, hcall]
        cases hrest : s'.calls getObject cs with
        | none => simp [hrest]
        | some as => simp [hrest]
      cases c with
      | read ptr =>
          obtain ⟨s', hread, hsim⟩ := h.read hget ptr
          rw [NeverSeeksEnd]
          refine hstep s' ?_ hsim
          rw [call, hread, Option.map_some, hsim.seen]
          rfl
      | seek p =>
          have hp := hcs p (by simp)
          rw [NeverSeeksEnd]
          by_cases hend : p = content.length → pos = content.length
          · have hsim := h.seek hp hend
            rw [hstep (s.seek p) (by rw [call, hsim.seen]; rfl) hsim]
            exact (and_iff_right hend).symm
          · obtain ⟨rfl, hmove⟩ := Classical.not_imp.mp hend
            refine iff_of_false (fun heq => ?_) (by tauto)
            have hfalse := h.seek_end hmove
            rw [ReadStream.calls, call] at heq
            cases hrest : (s.seek content.length).calls getObject cs with
            | none => simp [hrest] at heq
            | some as =>
                simp [hrest, Cursor.calls, Cursor.call, ReadStream.seen, Cursor.seen,
                  hfalse] at heq

theorem sim_init (hne : content ≠ []) : Sim content (init content.length) 0 :=
  ⟨rfl, rfl, Nat.zero_le _,
    (decide_eq_false fun h => hne (List.length_eq_zero_iff.mp h.symm)).symm⟩

/-- **When the stream is a cursor**: for a content that is not empty, and sequences of calls
without a `Seek` that moves to the end. -/
theorem refines_iff (content : List UInt8) (hget : getObject.Serves content) (cs : List Call)
    (hcs : InBounds content cs) :
    observe getObject content.length cs = some (Cursor.observe content cs) ↔
      content ≠ [] ∧ NeverSeeksEnd content 0 cs := by
  by_cases hne : content = []
  · refine iff_of_false (fun heq => ?_) (fun h => h.1 hne)
    obtain ⟨as, -, has⟩ := Option.map_eq_some_iff.mp heq
    have hseen := (List.cons.inj has).1
    rw [hne] at hseen
    exact absurd (congrArg Seen.atEnd hseen) (by decide)
  · have hsim := sim_init hne
    rw [← and_iff_right (b := NeverSeeksEnd content 0 cs) hne, ← hsim.calls_iff hget cs hcs,
      observe, Cursor.observe, hsim.seen]
    cases hrun : (init content.length).calls getObject cs with
    | none => simp [hne]
    | some as => simp [hne]

/-- A service that passes on a range byte by byte. -/
def byteAtATime (content : List UInt8) : GetObject := fun _ start count =>
  if start < content.length then some ((bytes content start count).map ([·])) else none

theorem byteAtATime_serves (content : List UInt8) : (byteAtATime content).Serves content where
  deliver r start count hstart _ := by
    refine ⟨(bytes content start count).map ([·]), if_pos hstart, ?_⟩
    rw [← List.flatMap_def, List.flatMap_singleton']
    rfl
  fail r start count hstart := if_neg (by omega)

/-- Reads up to the end and beyond it, after a `Seek` back to the beginning. -/
def readTwice : List Call := [.read [0, 0], .seek 0, .read [0, 0, 0, 0], .seek 3, .read [0]]

theorem refines_readTwice :
    observe (byteAtATime [1, 2, 3]) 3 readTwice =
      some [⟨0, [], 0, false⟩, ⟨2, [1, 2], 2, false⟩, ⟨0, [], 0, false⟩,
        ⟨3, [1, 2, 3, 0], 3, true⟩, ⟨0, [], 3, true⟩, ⟨0, [0], 3, true⟩] := by
  have hin : InBounds [1, 2, 3] readTwice := by
    intro p hp
    simp only [readTwice, List.mem_cons, Call.seek.injEq, reduceCtorEq, List.not_mem_nil,
      or_false, false_or] at hp
    rcases hp with rfl | rfl <;> decide
  have hgood : NeverSeeksEnd [1, 2, 3] 0 readTwice := by
    simp [readTwice, NeverSeeksEnd, Cursor.call, bytes]
  exact (refines_iff [1, 2, 3] (byteAtATime_serves _) readTwice hin).mpr ⟨by decide, hgood⟩

/-- **A read after a `Seek` to the end is fatal**, and so is the first read of an empty
object. -/
theorem read_at_end_fatal :
    (byteAtATime [7]).Serves [7] ∧ InBounds [7] [.seek 1, .read [0]] ∧
      observe (byteAtATime [7]) 1 [.seek 1, .read [0]] = none ∧
      (Cursor.observe [7] [.seek 1, .read [0]]).map Seen.nread = [0, 0, 0] ∧
    (byteAtATime []).Serves [] ∧ observe (byteAtATime []) 0 [.read [0]] = none := by
  refine ⟨byteAtATime_serves _, ?_, by decide, by decide, byteAtATime_serves _, by decide⟩
  intro p hp
  simp only [List.mem_cons, Call.seek.injEq, reduceCtorEq, List.not_mem_nil, or_false] at hp
  rw [hp]
  decide

end ReadStream

end Difacto.Io
