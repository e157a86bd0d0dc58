import Difacto.Base.Binary32
import Difacto.Lib.Reach
import Difacto.Server.Entry

/-!
# The two storage modes of an entry

An `AdaGradEntry` (`difacto/async_sgd.h`) of size 1 keeps its values in the bytes of its pointers
and a larger one in arrays, and only the size says which. `Resize` to 1 sets the size without
moving the values: in either mode they are in arrays then, and the next access takes the bytes of
a pointer for floats. All the other calls keep the two modes apart.

## Main definitions

* `EntryOp`, `EntryOp.Allowed`, `AdaGradEntry.step` — what is done to an entry.
* `AdaGradEntry.Modes` — the size says where the values are.
* `AdaGradEntry.Keeps` — what a change of the size leaves as it is.

## Main results

* `AdaGradEntry.not_modes_resize_one` — a resize to 1 mixes the modes.
* `AdaGradEntry.modes_of_reach` — without one they are kept apart, and a resize keeps the values.
-/

namespace Difacto.Server

open Base Lib

variable {F : Type}

/-- One call on an entry, or one assignment through a reference or a pointer of it. -/
inductive EntryOp (F : Type)
  | resize (junk : ℕ → F) (n : ℕ)
  | setW0 (x : F)
  | setSqcGrad0 (x : F)
  | setZ0 (x : F)
  | setW (i : ℕ) (x : F)
  | setSqcGrad (i : ℕ) (x : F)
  | load (junk : ℕ → F) (bs : List UInt8)

namespace AdaGradEntry

/-- An entry with its values in the pointers. -/
abbrev inlined (cnt : UInt32) (x y u v : F) : AdaGradEntry F :=
  { feaCnt := cnt, size := 1, w := .inline x y, sqcGrad := .inline u v }

/-- An entry with its values in arrays. -/
abbrev arrays (cnt : UInt32) (n : ℕ) (ws cs : List F) : AdaGradEntry F :=
  { feaCnt := cnt, size := n, w := .heap ws, sqcGrad := .heap cs }

/-- The size says where the values are, and the arrays are long enough for it. -/
structure Modes (e : AdaGradEntry F) : Prop where
  size_pos : 1 ≤ e.size
  inline_iff : e.size = 1 ↔
    (∃ x y, e.w = .inline x y) ∧ ∃ x y, e.sqcGrad = .inline x y
  heap_iff : 1 < e.size ↔
    (∃ ws, e.w = .heap ws ∧ e.size ≤ ws.length) ∧
      ∃ cs, e.sqcGrad = .heap cs ∧ e.size + 1 ≤ cs.length

/-- The first `m` weights of `e` are those of `e'`, with what belongs to them. -/
structure Keeps (m : ℕ) (e e' : AdaGradEntry F) : Prop where
  w0 : ∃ x, e.w0 = some x ∧ e'.w0 = some x
  sqcGrad0 : ∃ x, e.sqcGrad0 = some x ∧ e'.sqcGrad0 = some x
  z0 : ∃ x, e.z0 = some x ∧ e'.z0 = some x
  w : ∀ i, 1 ≤ i → i < m → ∃ x, e.w.elem i = some x ∧ e'.w.elem i = some x
  sqcGrad : ∀ i, 1 ≤ i → i < m →
    ∃ x, e.sqcGrad.elem (i + 1) = some x ∧ e'.sqcGrad.elem (i + 1) = some x

section Modes

variable {e : AdaGradEntry F} {junk : ℕ → F} {n : ℕ} {ws cs : List F}

theorem modes_inlined (cnt : UInt32) (x y u v : F) : (inlined cnt x y u v).Modes where
  size_pos := le_rfl
  inline_iff := by simp
  heap_iff := by simp

theorem modes_arrays (cnt : UInt32) (hn : 1 < n) (hws : n ≤ ws.length)
    (hcs : n + 1 ≤ cs.length) : (arrays cnt n ws cs).Modes where
  size_pos := hn.le
  inline_iff := by simp [hn.ne']
  heap_iff := ⟨fun _ => ⟨⟨ws, rfl, hws⟩, cs, rfl, hcs⟩, fun _ => hn⟩

/-- What holds in each of the two modes. -/
theorem Modes.cases {motive : AdaGradEntry F → Prop} (h : e.Modes)
    (inline : ∀ cnt x y u v, motive (inlined cnt x y u v))
    (heap : ∀ cnt n ws cs, 1 < n → n ≤ ws.length → n + 1 ≤ cs.length →
      motive (arrays cnt n ws cs)) : motive e := by
  obtain ⟨cnt, size, w, sqcGrad⟩ := e
  rcases Nat.eq_or_lt_of_le h.size_pos with hone | hgt
  · obtain ⟨⟨x, y, hw⟩, u, v, hcg⟩ := h.inline_iff.mp hone.symm
    cases hone
    cases hw
    cases hcg
    exact inline cnt x y u v
  · obtain ⟨⟨ws, hw, hws⟩, cs, hcg, hcs⟩ := h.heap_iff.mp hgt
    cases hw
    cases hcg
    exact heap cnt size ws cs hgt hws hcs

/-! ### Resize -/

theorem length_copyInto {xs base : List F} (h : xs.length ≤ base.length) :
    (copyInto xs base).length = base.length := by
  rw [copyInto, List.length_append, List.length_drop]
  omega

theorem getElem?_copyInto {xs base : List F} {i : ℕ} (h : i < xs.length) :
    (copyInto xs base)[i]? = xs[i]? :=
  List.getElem?_append_left h

@[simp] theorem length_fresh (junk : ℕ → F) (n : ℕ) : (fresh junk n).length = n := by
  simp [fresh]

theorem setElem_heap {a : List F} {i : ℕ} (hi : i < a.length) (x : F) :
    (Slot.heap a).setElem i x = some (.heap (a.set i x)) :=
  if_pos hi

/-- Arrays that begin alike keep the values of an entry. -/
theorem keeps_heap {cnt cnt' : UInt32} {n n' m : ℕ} {ws' cs' : List F} (hn : 1 < n) (hn' : 1 < n')
    (hm : 1 < m) (hws : m ≤ ws.length) (hcs : m + 1 ≤ cs.length)
    (hws' : ∀ i < m, ws'[i]? = ws[i]?) (hcs' : ∀ i < m + 1, cs'[i]? = cs[i]?) :
    Keeps m (arrays cnt n ws cs) (arrays cnt' n' ws' cs') := by
  have hw : ∀ i < m, ∃ x, ws[i]? = some x ∧ ws'[i]? = some x := by
    intro i hi
    simp only [hws' i hi, and_self]
    exact ⟨_, List.getElem?_eq_getElem (hi.trans_le hws)⟩
  have hcg : ∀ i < m + 1, ∃ x, cs[i]? = some x ∧ cs'[i]? = some x := by
    intro i hi
    simp only [hcs' i hi, and_self]
    exact ⟨_, List.getElem?_eq_getElem (hi.trans_le hcs)⟩
  refine ⟨?_, ?_, ?_, fun i _ hi => hw i hi, fun i _ hi => hcg (i + 1) (by omega)⟩
  · simpa [w0, Slot.elem, hn.ne', hn'.ne'] using hw 0 (by omega)
  · simpa [sqcGrad0, Slot.elem, hn.ne', hn'.ne'] using hcg 0 (by omega)
  · simpa [z0, Slot.elem, hn.ne', hn'.ne'] using hcg 1 (by omega)

/-- A resize to any other size than 1, from either mode, keeps the modes apart and the values. -/
theorem Modes.resize (h : e.Modes) (junk : ℕ → F) (hn : 1 < n) :
    ∃ e', e.resize junk n = some e' ∧ e'.size = n ∧ e'.Modes ∧ Keeps (min n e.size) e e' := by
  refine Modes.cases
    (motive := fun e => ∃ e', e.resize junk n = some e' ∧ e'.size = n ∧ e'.Modes ∧
      Keeps (min n e.size) e e') h ?_ ?_
  · intro cnt x y u v
    have hge : ¬n < 1 := by omega
    refine ⟨arrays cnt n (copyInto [x] (fresh junk n)) (copyInto [u, v] (fresh junk (n + 1))),
      ?_, rfl, ?_, ?_⟩
    · simp [AdaGradEntry.resize, hge, w0, sqcGrad0, z0, Slot.lo, Slot.hi]
    · refine modes_arrays cnt hn ?_ ?_
      · rw [length_copyInto, length_fresh]
        simpa using hn.le
      · rw [length_copyInto, length_fresh]
        simpa using hn.le
    · have hone : ∀ i, 1 ≤ i → ¬i < min n 1 := by omega
      refine ⟨⟨x, rfl, ?_⟩, ⟨u, rfl, ?_⟩, ⟨v, rfl, ?_⟩, fun i hi hlt => absurd hlt (hone i hi),
        fun i hi hlt => absurd hlt (hone i hi)⟩
      · simp [w0, hn.ne', Slot.elem, copyInto]
      · simp [sqcGrad0, hn.ne', Slot.elem, copyInto]
      · simp [z0, hn.ne', Slot.elem, copyInto]
  · intro cnt size ws cs hsize hws hcs
    have hold : (arrays cnt size ws cs).size = size := rfl
    rw [hold]
    by_cases hlt : n < size
    · -- the arrays stay as they are
      refine ⟨arrays cnt n ws cs, ?_, rfl, modes_arrays cnt hn (by omega) (by omega), ?_⟩
      · simp [AdaGradEntry.resize, hlt]
      · exact keeps_heap hsize hn (by omega) (by omega) (by omega) (fun _ _ => rfl)
          (fun _ _ => rfl)
    · have hwlen : (ws.take size).length = size := List.length_take_of_le hws
      have hclen : (cs.take (size + 1)).length = size + 1 := List.length_take_of_le hcs
      refine ⟨arrays cnt n (copyInto (ws.take size) (fresh junk n))
        (copyInto (cs.take (size + 1)) (fresh junk (n + 1))), ?_, rfl, ?_, ?_⟩
      · simp [AdaGradEntry.resize, hlt, hsize.ne', Slot.front, hws, hcs]
      · refine modes_arrays cnt hn ?_ ?_
        · rw [length_copyInto (by rw [hwlen, length_fresh]; omega), length_fresh]
        · rw [length_copyInto (by rw [hclen, length_fresh]; omega), length_fresh]
      · refine keeps_heap hsize hn (by omega) (by omega) (by omega) ?_ ?_
        · intro i hi
          rw [getElem?_copyInto (by omega), List.getElem?_take_of_lt (by omega)]
        · intro i hi
          rw [getElem?_copyInto (by omega), List.getElem?_take_of_lt (by omega)]

/-- A resize to 1 leaves the values in arrays: they were there, or they are moved there. -/
theorem Modes.resize_one (h : e.Modes) (junk : ℕ → F) :
    ∃ e', e.resize junk 1 = some e' ∧ e'.size = 1 ∧ (∃ ws, e'.w = .heap ws) ∧
      ∃ cs, e'.sqcGrad = .heap cs := by
  refine Modes.cases
    (motive := fun e => ∃ e', e.resize junk 1 = some e' ∧ e'.size = 1 ∧
      (∃ ws, e'.w = .heap ws) ∧ ∃ cs, e'.sqcGrad = .heap cs) h ?_ ?_
  · intro cnt x y u v
    exact ⟨_, rfl, rfl, ⟨_, rfl⟩, _, rfl⟩
  · intro cnt n ws cs hn _ _
    refine ⟨arrays cnt 1 ws cs, ?_, rfl, ⟨ws, rfl⟩, cs, rfl⟩
    simp [AdaGradEntry.resize, hn]

/-- A resize to 1 mixes the modes, and the weight is lost. -/
theorem Modes.not_modes_resize_one (h : e.Modes) (junk : ℕ → F) :
    ∃ e', e.resize junk 1 = some e' ∧ ¬e'.Modes ∧ e'.w0 = none := by
  obtain ⟨e', hres, hsize, ⟨ws, hw⟩, -⟩ := h.resize_one junk
  refine ⟨e', hres, fun hmodes => ?_, by simp [w0, hsize, hw, Slot.lo]⟩
  obtain ⟨⟨x, y, hinline⟩, -⟩ := hmodes.inline_iff.mp hsize
  rw [hw] at hinline
  cases hinline

end Modes

/-! ### Load -/

section Load

variable [FixedBytes F] {r : AdaGradEntry F} {record : List UInt8}

theorem rep_eq_some {p : Slot F} {bs : List UInt8} (h : p.rep = some bs) :
    ∃ x y : F, bs = FixedBytes.toBytes x ++ FixedBytes.toBytes y := by
  cases p with
  | inline x y => exact ⟨x, y, (Option.some.inj h).symm⟩
  | heap a => cases h

theorem arrayBytes_eq_some {p : Slot F} {n : ℕ} {bs : List UInt8} (h : p.arrayBytes n = some bs) :
    ∃ xs : List F, xs.length = n ∧ bs = toBytesArray xs := by
  cases p with
  | inline x y => cases h
  | heap a =>
      by_cases hn : n ≤ a.length
      · simp only [Slot.arrayBytes, Slot.front, if_pos hn, Option.map_some, Option.some.injEq] at h
        exact ⟨a.take n, List.length_take_of_le hn, h.symm⟩
      · simp only [Slot.arrayBytes, Slot.front, if_neg hn, Option.map_none] at h
        cases h

variable [LawfulFixedBytes F]

/-- What `Load` makes of a record that `Save` wrote, whatever it was saved from and loaded into. -/
theorem Modes.load (junk : ℕ → F) (e : AdaGradEntry F) (hpos : 1 ≤ r.size)
    (hint : r.size < 2 ^ 31) (hsave : r.save = some record) (rest : List UInt8) :
    ∃ e', e.loadFields junk (record ++ rest) = some (e', rest) ∧ e'.size = r.size ∧ e'.Modes := by
  have hread : ∀ bs, readInto 4 (leBytes 4 e.size) (leBytes 4 r.size ++ bs) =
      (leBytes 4 r.size, bs) :=
    fun bs => readInto_append (by simp) (by simp)
  have hnum : ofLeBytes (leBytes 4 r.size) = r.size :=
    ofLeBytes_leBytes (hint.trans (by decide))
  by_cases hone : r.size = 1
  · simp only [save, hone, if_true, Option.bind_eq_bind, Option.bind_eq_some_iff, Option.pure_def,
      Option.some.injEq] at hsave
    obtain ⟨ws, hw, cs, hcg, rfl⟩ := hsave
    obtain ⟨x, y, rfl⟩ := rep_eq_some hw
    obtain ⟨u, v, rfl⟩ := rep_eq_some hcg
    refine ⟨inlined e.feaCnt x y u v, ?_, hone.symm, modes_inlined ..⟩
    rw [hone] at hread hnum
    simp only [loadFields, List.append_assoc, hread, hnum]
    simp [Slot.readRep_append]
  · simp only [save, hone, if_false, Option.bind_eq_bind, Option.bind_eq_some_iff, Option.pure_def,
      Option.some.injEq] at hsave
    obtain ⟨wbytes, hw, cgbytes, hcg, rfl⟩ := hsave
    obtain ⟨ws, hws, rfl⟩ := arrayBytes_eq_some hw
    obtain ⟨cs, hcs, rfl⟩ := arrayBytes_eq_some hcg
    refine ⟨arrays e.feaCnt r.size ws cs, ?_, rfl,
      modes_arrays _ (by omega) hws.ge hcs.ge⟩
    have hreadw := Slot.readArray_append junk ws
    have hreadcg := Slot.readArray_append junk cs
    rw [hws] at hreadw
    rw [hcs] at hreadcg
    simp only [loadFields, List.append_assoc, hread, hnum, hone, hint, hreadw, hreadcg]
    simp

end Load

/-! ### Runs -/

section Runs

variable [FixedBytes F]

/-- One step of an entry. -/
def step (e : AdaGradEntry F) : EntryOp F → Option (AdaGradEntry F)
  | .resize junk n => e.resize junk n
  | .setW0 x => e.setW0 x
  | .setSqcGrad0 x => e.setSqcGrad0 x
  | .setZ0 x => e.setZ0 x
  | .setW i x => (e.w.setElem i x).map fun w => { e with w := w }
  | .setSqcGrad i x => (e.sqcGrad.setElem i x).map fun cg => { e with sqcGrad := cg }
  | .load junk bs => (e.loadFields junk bs).map Prod.fst

/-- The calls that can be made: sizes are positive, the arrays are written inside their bounds
and only if there are arrays, and what is loaded begins with a record that `Save` can write. -/
def Allowed (e : AdaGradEntry F) : EntryOp F → Prop
  | .resize _ n => 1 ≤ n
  | .setW i _ => 1 < e.size ∧ i < e.size
  | .setSqcGrad i _ => 1 < e.size ∧ i < e.size + 1
  | .load _ bs => ∃ (r : AdaGradEntry F) (record rest : List UInt8),
      1 ≤ r.size ∧ r.size < 2 ^ 31 ∧ r.save = some record ∧ bs = record ++ rest
  | _ => True

/-- The call is no resize to 1. -/
def NotToOne (_ : AdaGradEntry F) : EntryOp F → Prop
  | .resize _ n => n ≠ 1
  | _ => True

variable {e : AdaGradEntry F} {op : EntryOp F}

/-- The assignments stay in the mode of the entry. -/
theorem Modes.assign (h : e.Modes) (hok : e.Allowed op)
    (hop : (∀ junk n, op ≠ .resize junk n) ∧ ∀ junk bs, op ≠ .load junk bs) :
    ∃ e', e.step op = some e' ∧ e'.Modes := by
  revert hok
  refine Modes.cases (motive := fun e => e.Allowed op → ∃ e', e.step op = some e' ∧ e'.Modes) h
    ?_ ?_
  · intro cnt x' y u v hok
    cases op with
    | resize junk n => exact absurd rfl (hop.1 junk n)
    | load junk bs => exact absurd rfl (hop.2 junk bs)
    | setW0 x => exact ⟨_, rfl, modes_inlined ..⟩
    | setSqcGrad0 x => exact ⟨_, rfl, modes_inlined ..⟩
    | setZ0 x => exact ⟨_, rfl, modes_inlined ..⟩
    | setW i x => exact absurd hok.1 (lt_irrefl 1)
    | setSqcGrad i x => exact absurd hok.1 (lt_irrefl 1)
  · intro cnt n ws cs hn hws hcs hok
    have hsetw : ∀ i x, i < n →
        ∃ w, (Slot.heap ws).setElem i x = some w ∧ Modes { arrays cnt n ws cs with w := w } :=
      fun i x hi => ⟨_, setElem_heap (hi.trans_le hws) x,
        modes_arrays cnt hn (by rwa [List.length_set]) hcs⟩
    have hsetcg : ∀ i x, i < n + 1 → ∃ cg, (Slot.heap cs).setElem i x = some cg ∧
        Modes { arrays cnt n ws cs with sqcGrad := cg } :=
      fun i x hi => ⟨_, setElem_heap (hi.trans_le hcs) x,
        modes_arrays cnt hn hws (by rwa [List.length_set])⟩
    cases op with
    | resize junk n => exact absurd rfl (hop.1 junk n)
    | load junk bs => exact absurd rfl (hop.2 junk bs)
    | setW0 x =>
        obtain ⟨w, hset, hmodes⟩ := hsetw 0 x (by omega)
        exact ⟨_, by simp [AdaGradEntry.step, setW0, hn.ne', hset], hmodes⟩
    | setSqcGrad0 x =>
        obtain ⟨cg, hset, hmodes⟩ := hsetcg 0 x (by omega)
        exact ⟨_, by simp [AdaGradEntry.step, setSqcGrad0, hn.ne', hset], hmodes⟩
    | setZ0 x =>
        obtain ⟨cg, hset, hmodes⟩ := hsetcg 1 x (by omega)
        exact ⟨_, by simp [AdaGradEntry.step, setZ0, hn.ne', hset], hmodes⟩
    | setW i x =>
        obtain ⟨w, hset, hmodes⟩ := hsetw i x hok.2
        exact ⟨_, by simp [AdaGradEntry.step, hset], hmodes⟩
    | setSqcGrad i x =>
        obtain ⟨cg, hset, hmodes⟩ := hsetcg i x hok.2
        exact ⟨_, by simp [AdaGradEntry.step, hset], hmodes⟩

variable [LawfulFixedBytes F]

/-- Every call but a resize to 1 succeeds and keeps the modes apart. -/
theorem Modes.step (h : e.Modes) (hok : e.Allowed op) (hone : e.NotToOne op) :
    ∃ e', e.step op = some e' ∧ e'.Modes := by
  cases op with
  | resize junk n =>
      have hn : 1 < n := Nat.lt_of_le_of_ne hok (Ne.symm hone)
      obtain ⟨e', hres, -, hmodes, -⟩ := h.resize junk hn
      exact ⟨e', hres, hmodes⟩
  | load junk bs =>
      obtain ⟨r, record, rest, hpos, hint, hsave, rfl⟩ := hok
      obtain ⟨e', hload, -, hmodes⟩ := Modes.load junk e hpos hint hsave rest
      exact ⟨e', by simp [AdaGradEntry.step, hload], hmodes⟩
  | _ => exact h.assign hok ⟨by simp, by simp⟩

variable [Zero F]

/-- **The storage modes of an entry.** In every run of calls without a resize to 1 the size of the
entry says where its values are, no call fails, and a resize keeps the weight, the cumulative
gradient, `z` and as many other weights with their accumulators as are there before and after it.
A resize to 1 takes any entry out of the modes and loses the weight. -/
theorem modes_of_reach
    (hr : Reach AdaGradEntry.step (fun e op => e.Allowed op ∧ e.NotToOne op) new e) :
    e.Modes ∧
    (∀ op, e.Allowed op → e.NotToOne op → (e.step op).isSome) ∧
    (∀ junk n, 1 ≤ n → n ≠ 1 → ∃ e', e.resize junk n = some e' ∧ e'.size = n ∧
      Keeps (min n e.size) e e') ∧
    ∀ junk, ∃ e', e.resize junk 1 = some e' ∧ ¬e'.Modes ∧ e'.w0 = none := by
  have hmodes : e.Modes := by
    refine hr.invariant (modes_inlined ..) fun e op e' h hok hs => ?_
    obtain ⟨e'', hs', hmodes⟩ := h.step hok.1 hok.2
    rw [hs, Option.some.injEq] at hs'
    exact hs' ▸ hmodes
  refine ⟨hmodes, fun op hok hone => ?_, fun junk n hpos hone => ?_,
    hmodes.not_modes_resize_one⟩
  · obtain ⟨e', hs, -⟩ := hmodes.step hok hone
    simp [hs]
  · obtain ⟨e', hres, hsize, -, hkeeps⟩ := hmodes.resize junk (by omega : 1 < n)
    exact ⟨e', hres, hsize, hkeeps⟩

/-- An entry that grows, is written to and shrinks. -/
theorem modes_of_reach_shrunk :
    (arrays 0 2 [0, ⟨5⟩, 0] [0, 0, 0, 0] : AdaGradEntry Binary32).Modes := by
  have hrun : Reach AdaGradEntry.step (fun e op => e.Allowed op ∧ e.NotToOne op) new
      (arrays 0 2 [0, ⟨5⟩, 0] [0, 0, 0, 0] : AdaGradEntry Binary32) :=
    .tail (a := .resize (fun _ => 0) 2)
      (.tail (a := .setW 1 ⟨5⟩)
        (.tail (a := .resize (fun _ => 0) 3) .refl ⟨(by decide : 1 ≤ 3), (by decide : 3 ≠ 1)⟩ rfl)
        ⟨(by decide : 1 < 3 ∧ 1 < 3), trivial⟩ rfl)
      ⟨(by decide : 1 ≤ 2), (by decide : 2 ≠ 1)⟩ rfl
  exact (modes_of_reach hrun).1

/-- A new entry that is resized to 1 has size 1 and its values in arrays. -/
theorem not_modes_of_resize_one :
    ∃ e : AdaGradEntry Binary32, Reach AdaGradEntry.step (fun e op => e.Allowed op) new e ∧
      ¬e.Modes := by
  obtain ⟨e', hres, hmodes, -⟩ :=
    (modes_inlined 0 0 0 0 0).not_modes_resize_one fun _ => (0 : Binary32)
  exact ⟨e', .tail (a := .resize (fun _ => 0) 1) .refl le_rfl hres, hmodes⟩

end Runs

end AdaGradEntry

end Difacto.Server
