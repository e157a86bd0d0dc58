import Mathlib.Data.List.TakeWhile
import Mathlib.Order.Basic
import Mathlib.Tactic.Common

/-!
# A pointer into a buffer

Parsers walk over a buffer with a pointer `p` and compare it with the buffer's `end`, sometimes
after they have read `*p`. Here a pointer is given by its distance to `end` and by the memory
from it on, which does not stop at `end`. Of this memory finitely many bytes are listed; behind
them it is zero.

## Main definitions

* `Ptr` — the pointer; `Ptr.inside` — one that has not been moved beyond `end`.
* `Ptr.skip`, `Ptr.skipInside`, `Ptr.find` — loops that move it.

## Main results

* `Ptr.skip_inside`, `Ptr.skipInside_inside`, `Ptr.find_inside` — what they do inside the buffer.
* `Ptr.find_eq_none` — behind it, a search may run on for ever.
-/

namespace Difacto.Lib

/-- A pointer `p`. -/
structure Ptr where
  /-- `end - p` -/
  left : ℤ
  /-- the memory from `p` on -/
  mem : List UInt8
  /-- the least `end - p` so far -/
  low : ℤ
  deriving DecidableEq, Repr

namespace Ptr

/-- A pointer to the bytes `t` before `end`, which `behind` follow. -/
def inside (t behind : List UInt8) : Ptr where
  left := t.length
  mem := t ++ behind
  low := t.length

variable (p : Ptr)

/-- `*p` -/
def get : UInt8 := p.mem.headD 0

/-- `p + n` -/
def add (n : ℕ) : Ptr where
  left := p.left - n
  mem := p.mem.drop n
  low := min p.low (p.left - n)

/-- The `n` bytes from `p` on. -/
def bytes (n : ℕ) : List UInt8 := (p.mem.take n).rightpad n 0

/-- `while (f(*p)) ++p;`, where `f(0)` is false. -/
def skip (f : UInt8 → Bool) : Ptr := p.add (p.mem.takeWhile f).length

/-- The turns of `while (f(*p) && p != end) ++p;`. -/
def turnsInside (f : UInt8 → Bool) : ℤ → List UInt8 → ℕ
  | _, [] => 0
  | left, c :: mem => if f c = true ∧ left ≠ 0 then turnsInside f (left - 1) mem + 1 else 0

/-- `while (f(*p) && p != end) ++p;`, where `f(0)` is false. -/
def skipInside (f : UInt8 → Bool) : Ptr := p.add (turnsInside f p.left p.mem)

/-- The turns of `while (p != end && *p != c) ++p;`, if it stops. -/
def turnsFind (c : UInt8) : ℤ → List UInt8 → Option ℕ
  | left, [] => if 0 ≤ left then some left.toNat else none
  | left, d :: mem => if left ≠ 0 ∧ d ≠ c then (turnsFind c (left - 1) mem).map (· + 1) else some 0

/-- `while (p != end && *p != c) ++p;`, where `c` is not 0. -/
def find (c : UInt8) : Option Ptr := (turnsFind c p.left p.mem).map p.add

variable {p} {f : UInt8 → Bool} {c : UInt8} {s t behind : List UInt8}

theorem add_add (m n : ℕ) : (p.add m).add n = p.add (m + n) := by
  have hleft : p.left - m - n = p.left - (m + n : ℕ) := by omega
  have hmin : min (min p.low (p.left - m)) (p.left - (m + n : ℕ)) =
      min p.low (p.left - (m + n : ℕ)) := by omega
  rw [add, add, add, hleft, hmin, List.drop_drop]

/-! ## The memory that is left -/

@[simp] theorem length_mem_add (n : ℕ) : (p.add n).mem.length = p.mem.length - n :=
  List.length_drop

@[simp] theorem left_add (n : ℕ) : (p.add n).left = p.left - n := rfl

theorem turnsInside_le (left : ℤ) (mem : List UInt8) : turnsInside f left mem ≤ mem.length := by
  induction mem generalizing left with
  | nil => exact le_rfl
  | cons c mem ih =>
      rw [turnsInside]
      split
      · exact Nat.succ_le_succ (ih _)
      · exact Nat.zero_le _

theorem length_mem_skipInside_le : (p.skipInside f).mem.length ≤ p.mem.length := by
  rw [skipInside, length_mem_add]
  exact Nat.sub_le ..

/-- A loop that moves the pointer takes up memory. -/
theorem length_mem_skipInside_lt (h : (p.skipInside f).left ≠ p.left) :
    (p.skipInside f).mem.length < p.mem.length := by
  have hle := turnsInside_le (f := f) p.left p.mem
  have hpos : turnsInside f p.left p.mem ≠ 0 := by
    intro hzero
    simp [skipInside, add, hzero] at h
  rw [skipInside, length_mem_add]
  omega

theorem length_mem_skip_le : (p.skip f).mem.length ≤ p.mem.length := by
  rw [skip, length_mem_add]
  exact Nat.sub_le ..

theorem length_mem_skip_lt (h : (p.skip f).left ≠ p.left) :
    (p.skip f).mem.length < p.mem.length := by
  have hle := (List.takeWhile_prefix f (l := p.mem)).length_le
  have hpos : (p.mem.takeWhile f).length ≠ 0 := by
    intro hzero
    simp [skip, add, hzero] at h
  rw [skip, length_mem_add]
  omega

theorem length_mem_find_le {q : Ptr} (h : p.find c = some q) :
    q.mem.length ≤ p.mem.length := by
  obtain ⟨n, -, rfl⟩ := Option.map_eq_some_iff.mp h
  rw [length_mem_add]
  exact Nat.sub_le ..

/-- Where nothing but zeros follow, a search can only stop at `end`. -/
theorem left_find_of_nil {q : Ptr} (h : p.find c = some q) (hmem : p.mem = []) : q.left = 0 := by
  obtain ⟨n, hn, rfl⟩ := Option.map_eq_some_iff.mp h
  rw [hmem, turnsFind] at hn
  split at hn
  · cases hn
    rw [left_add]
    omega
  · cases hn

/-! ## Inside the buffer -/

@[simp] theorem left_inside : (inside t behind).left = t.length := rfl

@[simp] theorem low_inside : (inside t behind).low = t.length := rfl

@[simp] theorem mem_inside : (inside t behind).mem = t ++ behind := rfl

@[simp] theorem get_inside : (inside (c :: t) behind).get = c := rfl

theorem get_inside_of_ne_nil (ht : t ≠ []) : (inside t behind).get = t.headD 0 := by
  obtain ⟨c, t, rfl⟩ := List.exists_cons_of_ne_nil ht
  rfl

theorem add_inside : (inside (s ++ t) behind).add s.length = inside t behind := by
  have hlow : ((s ++ t).length : ℤ) - s.length = t.length := by
    rw [List.length_append]
    omega
  have hmin : min ((s ++ t).length : ℤ) t.length = t.length := by
    rw [List.length_append]
    omega
  rw [add, inside, inside, hlow, hmin, List.append_assoc, List.drop_left]

theorem add_one_inside : (inside (c :: t) behind).add 1 = inside t behind :=
  add_inside (s := [c])

theorem bytes_inside : (inside (s ++ t) behind).bytes s.length = s := by
  rw [bytes, mem_inside, List.append_assoc, List.take_left, List.rightpad, Nat.sub_self,
    List.replicate_zero, List.append_nil]

/-- A loop that stops inside the buffer. -/
theorem skip_inside (hs : ∀ d ∈ s, f d = true) (hc : f c = false) :
    (inside (s ++ c :: t) behind).skip f = inside (c :: t) behind := by
  have hstop : ((c :: t) ++ behind).takeWhile f = [] := by simp [hc]
  have hturns : ((s ++ c :: t) ++ behind).takeWhile f = s := by
    rw [List.append_assoc, List.takeWhile_append_of_pos hs, hstop, List.append_nil]
  rw [skip, mem_inside, hturns, add_inside]

theorem turnsInside_eq :
    turnsInside f t.length (t ++ behind) = (t.takeWhile f).length := by
  induction t with
  | nil => cases behind <;> simp [turnsInside]
  | cons c t ih =>
      have hleft : ((c :: t).length : ℤ) - 1 = t.length := by
        rw [List.length_cons]
        omega
      have hne : ((c :: t).length : ℤ) ≠ 0 := by
        rw [List.length_cons]
        omega
      rw [List.cons_append, turnsInside, hleft, ih]
      by_cases hc : f c = true
      · rw [if_pos ⟨hc, hne⟩, List.takeWhile_cons_of_pos hc, List.length_cons]
      · rw [if_neg fun h => hc h.1, List.takeWhile_cons_of_neg hc, List.length_nil]

/-- A loop that looks for `end` stays inside the buffer. -/
theorem skipInside_inside : (inside t behind).skipInside f = inside (t.dropWhile f) behind := by
  have hsplit := List.takeWhile_append_dropWhile (p := f) (l := t)
  have hadd : (inside (t.takeWhile f ++ t.dropWhile f) behind).add (t.takeWhile f).length =
      inside (t.dropWhile f) behind := add_inside
  rw [hsplit] at hadd
  rw [skipInside, left_inside, mem_inside, turnsInside_eq, hadd]

theorem turnsFind_append (hs : c ∉ s) (ht : ∀ d ∈ t.head?, d = c) :
    turnsFind c (s ++ t).length (s ++ t ++ behind) = some s.length := by
  induction s with
  | nil =>
      cases t with
      | nil => cases behind <;> simp [turnsFind]
      | cons d t => simp [turnsFind, ht d rfl]
  | cons d s ih =>
      rw [List.mem_cons, not_or] at hs
      have hleft : (((d :: s) ++ t).length : ℤ) - 1 = (s ++ t).length := by
        simp only [List.cons_append, List.length_cons]
        omega
      have hne : (((d :: s) ++ t).length : ℤ) ≠ 0 := by
        simp only [List.cons_append, List.length_cons]
        omega
      rw [List.cons_append, List.cons_append, turnsFind, if_pos ⟨hne, Ne.symm hs.1⟩,
        ← List.cons_append, hleft, ih hs.2, Option.map_some, List.length_cons]

/-- A search stops at the first `c`, or at `end`. -/
theorem find_inside (hs : c ∉ s) (ht : ∀ d ∈ t.head?, d = c) :
    (inside (s ++ t) behind).find c = some (inside t behind) := by
  rw [find, left_inside, mem_inside, turnsFind_append hs ht, Option.map_some, add_inside]

/-! ## Behind the buffer -/

theorem turnsFind_eq_none {left : ℤ} {mem : List UInt8} (hleft : left < 0) (hmem : c ∉ mem) :
    turnsFind c left mem = none := by
  induction mem generalizing left with
  | nil => rw [turnsFind, if_neg (by omega)]
  | cons d mem ih =>
      rw [List.mem_cons, not_or] at hmem
      rw [turnsFind, if_pos ⟨by omega, Ne.symm hmem.1⟩, ih (by omega) hmem.2, Option.map_none]

/-- A search that starts behind `end` finds `c` or runs on for ever. -/
theorem find_eq_none (hleft : p.left < 0) (hmem : c ∉ p.mem) : p.find c = none := by
  rw [find, turnsFind_eq_none hleft hmem, Option.map_none]

end Ptr

end Difacto.Lib
