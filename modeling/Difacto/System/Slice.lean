import Mathlib.Algebra.Group.Nat.Defs
import Mathlib.Data.List.Chain
import Mathlib.Data.UInt
import Mathlib.Order.Lattice

/-!
# Slicing a message

`Range` of `ps-lite/src/base/range.h` and `SliceMessage` of `ps-lite/src/system/message.h`,
which cuts the keys of a message at the ends of the servers' key ranges. Keys are of any
linearly ordered type. A failed `CHECK` is `none`.

## Main definitions

* `Range`, `lowerBound` — key ranges and `std::lower_bound`.
* `sliceMessage` — the piece for each server.
* `Covers` — key ranges that are contiguous and cover a range.

## Main results

* `segment_eq_filter` — the keys between two lower bounds.
* `sliceMessage_eq` — the pieces for ranges that are contiguous.
* `sliceMessage_key` — the values do not change the keys of the pieces.
-/

namespace Difacto.System

/-- A range between [begin, end). -/
structure Range (K : Type) where
  begin_ : K
  end_ : K
  deriving DecidableEq

variable {K β : Type} [LinearOrder K]

namespace Range

def empty (r : Range K) : Prop := r.end_ ≤ r.begin_

instance (r : Range K) : Decidable r.empty := inferInstanceAs (Decidable (_ ≤ _))

def contains (r : Range K) (k : K) : Prop := r.begin_ ≤ k ∧ k < r.end_

instance (r : Range K) (k : K) : Decidable (r.contains k) := inferInstanceAs (Decidable (_ ∧ _))

/-- `Project`: project `v` into this range. -/
def project (r : Range K) (v : K) : K := max r.begin_ (min r.end_ v)

def setIntersection (r dest : Range K) : Range K :=
  { begin_ := max r.begin_ dest.begin_, end_ := min r.end_ dest.end_ }

end Range

/-- `std::lower_bound` in a sorted array. -/
def lowerBound (keys : List K) (k : K) : ℕ := (keys.takeWhile (· < k)).length

/-- `SArray::Segment` -/
def segment {α : Type} (first last : ℕ) (xs : List α) : Option (List α) :=
  if first ≤ last ∧ last ≤ xs.length then some ((xs.take last).drop first) else none

/-- A value array, with the lengths of the values if these are dynamic. -/
structure Value (β : Type) where
  data : List β
  len : Option (List ℕ)
  deriving DecidableEq

/-- What `SliceMessage` reads of a message. The elements of a value array are `char`s. -/
structure Message (K β : Type) where
  keyRange : Range K
  key : List K
  value : List (Value β)

/-- A slice; one that is not valid is not sent. -/
structure Piece (K β : Type) where
  valid : Bool
  key : List K
  value : List (Value β)
  deriving DecidableEq

namespace Value

/-- Where the value of key `p` begins; the first key that is sent is `pos₀`. -/
def valPos (v : Value β) (pos₀ p : ℕ) : ℕ :=
  match v.len with
  | none => p
  | some len => ((len.take p).drop pos₀).sum

/-- The number of elements for each unit of length, or for each of the `n` keys. -/
def unit (v : Value β) (n pos₀ pos : ℕ) : Option ℕ :=
  let total := match v.len with
    | none => n
    | some _ => v.valPos pos₀ pos
  let k := v.data.length / total
  if total ≠ 0 ∧ total * k = v.data.length then some k else none

/-- The part for the keys from `first` to `last`. -/
def slice (v : Value β) (k pos₀ first last : ℕ) : Option (Value β) := do
  let data ← segment (v.valPos pos₀ first * k) (v.valPos pos₀ last * k) v.data
  match v.len with
  | none => return { data, len := none }
  | some len => return { data, len := some (← segment first last len) }

end Value

/-- `pos[1]`, …, `pos[n]`. -/
def positions (keyRange : Range K) (keys : List K) (krs : List (Range K)) : List ℕ :=
  krs.map fun kr => lowerBound keys (keyRange.project kr.end_)

/-- The slice of one server. -/
def sliceOne (msg : Message K β) (units : List ℕ) (pos₀ : ℕ) (kr : Range K) (first last : ℕ) :
    Option (Piece K β) :=
  if (kr.setIntersection msg.keyRange).empty ∨ first = last then
    some { valid := false, key := [], value := [] }
  else do
    let key ← segment first last msg.key
    let value ← (msg.value.zip units).mapM fun vk => vk.1.slice vk.2 pos₀ first last
    return { valid := true, key, value }

/-- The slices, `pos` being `pos[i]`. -/
def sliceLoop (msg : Message K β) (units : List ℕ) (pos₀ : ℕ) :
    ℕ → List (Range K) → List ℕ → Option (List (Piece K β))
  | pos, kr :: krs, last :: rest => do
    let piece ← sliceOne msg units pos₀ kr pos last
    return piece :: (← sliceLoop msg units pos₀ last krs rest)
  | _, _, _ => some []

/-- `SliceMessage`. Without keys only the ranges decide. -/
def sliceMessage (msg : Message K β) (krs : List (Range K)) : Option (List (Piece K β)) :=
  match krs with
  | [] => some []
  | kr :: _ =>
    if msg.key = [] then
      some (krs.map fun kr =>
        { valid := !decide (kr.setIntersection msg.keyRange).empty, key := [], value := [] })
    else if krs.IsChain fun a b => a.end_ = b.begin_ then do
      let pos₀ := lowerBound msg.key (msg.keyRange.project kr.begin_)
      let pos := positions msg.keyRange msg.key krs
      let units ← msg.value.mapM fun v => v.unit msg.key.length pos₀ (pos.getLastD 0)
      sliceLoop msg units pos₀ pos₀ krs pos
    else none

/-- Key ranges that are contiguous and cover `r` exactly. -/
structure Covers (krs : List (Range K)) (r : Range K) : Prop where
  chain : krs.IsChain fun a b => a.end_ = b.begin_
  le : ∀ kr ∈ krs, kr.begin_ ≤ kr.end_
  head : krs.head?.map Range.begin_ = some r.begin_
  last : krs.getLast?.map Range.end_ = some r.end_

/-! ## The keys of the slices -/

section Keys

variable {keys : List K}

theorem lowerBound_le (a : K) : lowerBound keys a ≤ keys.length :=
  (List.takeWhile_sublist _).length_le

theorem lowerBound_cons (k a : K) :
    lowerBound (k :: keys) a = if k < a then lowerBound keys a + 1 else 0 := by
  by_cases hk : k < a
  · simp [lowerBound, hk]
  · simp [lowerBound, hk]

theorem lowerBound_mono {a b : K} (hab : a ≤ b) : lowerBound keys a ≤ lowerBound keys b := by
  induction keys with
  | nil => exact le_rfl
  | cons k keys ih =>
      rw [lowerBound_cons, lowerBound_cons]
      by_cases ha : k < a
      · rw [if_pos ha, if_pos (ha.trans_le hab)]
        exact Nat.succ_le_succ ih
      · rw [if_neg ha]
        exact Nat.zero_le _

/-- In a sorted list the first keys are those below. -/
theorem take_lowerBound (hsorted : keys.Pairwise (· < ·)) (a : K) :
    keys.take (lowerBound keys a) = keys.filter (· < a) := by
  induction keys with
  | nil => rfl
  | cons k keys ih =>
      obtain ⟨hlt, hrest⟩ := List.pairwise_cons.mp hsorted
      rw [lowerBound_cons]
      by_cases ha : k < a
      · rw [if_pos ha, List.take_succ_cons, ih hrest, List.filter_cons_of_pos (by simpa using ha)]
      · rw [if_neg ha, List.take_zero, eq_comm, List.filter_eq_nil_iff]
        intro x hx
        have hkx : k ≤ x := by
          rcases List.mem_cons.mp hx with rfl | hmem
          · exact le_rfl
          · exact (hlt x hmem).le
        simpa using (not_lt.mp ha).trans hkx

/-- The keys from `a` on, below `b`. -/
def between (keys : List K) (a b : K) : List K := keys.filter fun k => a ≤ k ∧ k < b

/-- **The keys between two lower bounds** are those between the two values. -/
theorem segment_eq_between (hsorted : keys.Pairwise (· < ·)) {a b : K} (hab : a ≤ b) :
    segment (lowerBound keys a) (lowerBound keys b) keys = some (between keys a b) := by
  rw [segment, if_pos ⟨lowerBound_mono hab, lowerBound_le b⟩, Option.some.injEq]
  induction keys with
  | nil => rfl
  | cons k keys ih =>
      obtain ⟨hlt, hrest⟩ := List.pairwise_cons.mp hsorted
      by_cases ha : k < a
      · have hout : between (k :: keys) a b = between keys a b := by
          simp [between, not_le.mpr ha]
        rw [lowerBound_cons, lowerBound_cons, if_pos ha, if_pos (ha.trans_le hab),
          List.take_succ_cons, List.drop_succ_cons, ih hrest, hout]
      · -- all keys are at least `a`
        have hle : ∀ x ∈ k :: keys, a ≤ x := by
          intro x hx
          rcases List.mem_cons.mp hx with rfl | hmem
          · exact not_lt.mp ha
          · exact (not_lt.mp ha).trans (hlt x hmem).le
        rw [take_lowerBound hsorted, lowerBound_cons, if_neg ha, List.drop_zero, between]
        apply List.filter_congr
        intro x hx
        simp [hle x hx]

theorem between_eq_nil_iff (hsorted : keys.Pairwise (· < ·)) {a b : K} (hab : a ≤ b) :
    between keys a b = [] ↔ lowerBound keys a = lowerBound keys b := by
  have hseg := segment_eq_between hsorted hab
  rw [segment, if_pos ⟨lowerBound_mono hab, lowerBound_le b⟩, Option.some.injEq] at hseg
  have hmono : lowerBound keys a ≤ lowerBound keys b := lowerBound_mono hab
  have hlen : (between keys a b).length = lowerBound keys b - lowerBound keys a := by
    rw [← hseg, List.length_drop, List.length_take, min_eq_left (lowerBound_le b)]
  rw [← List.length_eq_zero_iff, hlen]
  omega

theorem mem_between {a b k : K} : k ∈ between keys a b ↔ k ∈ keys ∧ a ≤ k ∧ k < b := by
  simp [between]

end Keys

/-! ## The slices -/

section Slices

variable {msg : Message K β} {krs : List (Range K)}

/-- The slice of a server that has the key range `kr`. -/
def pieceOf (keys : List K) (kr : Range K) : Piece K β :=
  { valid := !(between keys kr.begin_ kr.end_).isEmpty
    key := between keys kr.begin_ kr.end_
    value := [] }

/-- A message that may have any key. -/
def Unbounded (r : Range K) : Prop := ∀ k, r.begin_ ≤ k ∧ k ≤ r.end_

theorem Unbounded.project_eq {r : Range K} (hr : Unbounded r) (k : K) : r.project k = k := by
  rw [Range.project, min_eq_right (hr k).2, max_eq_right (hr k).1]

theorem sliceOne_eq (hsorted : msg.key.Pairwise (· < ·)) (hrange : Unbounded msg.keyRange)
    (hvalue : msg.value = []) {kr : Range K} (hkr : kr.begin_ ≤ kr.end_) (pos₀ : ℕ) :
    sliceOne msg [] pos₀ kr (lowerBound msg.key kr.begin_) (lowerBound msg.key kr.end_) =
      some (pieceOf msg.key kr) := by
  have hinter : kr.setIntersection msg.keyRange = kr := by
    rw [Range.setIntersection, max_eq_left (hrange _).1, min_eq_left (hrange _).2]
  rw [sliceOne, hinter, segment_eq_between hsorted hkr]
  by_cases hnil : between msg.key kr.begin_ kr.end_ = []
  · rw [if_pos (.inr ((between_eq_nil_iff hsorted hkr).mp hnil)), pieceOf, hnil]
    rfl
  · have hlt : ¬ kr.empty := by
      intro hempty
      obtain ⟨k, hk⟩ := List.exists_mem_of_ne_nil _ hnil
      obtain ⟨-, hle, hlt⟩ := mem_between.mp hk
      exact absurd (hle.trans_lt hlt) (not_lt.mpr hempty)
    have hpos := fun h => hnil ((between_eq_nil_iff hsorted hkr).mpr h)
    rw [if_neg (not_or.mpr ⟨hlt, hpos⟩), hvalue, pieceOf]
    simp [hnil]

theorem positions_cons (hrange : Unbounded msg.keyRange) (kr : Range K) :
    positions msg.keyRange msg.key (kr :: krs) =
      lowerBound msg.key kr.end_ :: positions msg.keyRange msg.key krs := by
  rw [positions, List.map_cons, hrange.project_eq]
  rfl

theorem sliceLoop_eq (hsorted : msg.key.Pairwise (· < ·)) (hrange : Unbounded msg.keyRange)
    (hvalue : msg.value = []) (pos₀ : ℕ) {kr : Range K}
    (hchain : (kr :: krs).IsChain fun a b => a.end_ = b.begin_)
    (hle : ∀ r ∈ kr :: krs, r.begin_ ≤ r.end_) :
    sliceLoop msg [] pos₀ (lowerBound msg.key kr.begin_) (kr :: krs)
        (positions msg.keyRange msg.key (kr :: krs)) =
      some ((kr :: krs).map (pieceOf msg.key)) := by
  have hone := sliceOne_eq hsorted hrange hvalue (hle kr (by simp)) pos₀
  induction krs generalizing kr with
  | nil =>
      rw [positions_cons hrange, sliceLoop, hone]
      rfl
  | cons kr' krs ih =>
      rw [List.isChain_cons_cons] at hchain
      have hle' : ∀ r ∈ kr' :: krs, r.begin_ ≤ r.end_ :=
        fun r hr => hle r (List.mem_cons_of_mem _ hr)
      have hrest := ih hchain.2 hle' (sliceOne_eq hsorted hrange hvalue (hle' kr' (by simp)) pos₀)
      rw [positions_cons hrange, sliceLoop, hone, hchain.1, Option.bind_eq_bind, Option.bind_some,
        hrest]
      rfl

/-- **The slices of a message without values**: every server gets the keys of its range. -/
theorem sliceMessage_eq (hsorted : msg.key.Pairwise (· < ·)) (hne : msg.key ≠ [])
    (hrange : Unbounded msg.keyRange) (hvalue : msg.value = [])
    (hchain : krs.IsChain fun a b => a.end_ = b.begin_) (hle : ∀ kr ∈ krs, kr.begin_ ≤ kr.end_) :
    sliceMessage msg krs = some (krs.map (pieceOf msg.key)) := by
  cases krs with
  | nil => rfl
  | cons kr krs =>
      have hunits : msg.value.mapM (fun v => v.unit msg.key.length (lowerBound msg.key kr.begin_)
          ((positions msg.keyRange msg.key (kr :: krs)).getLastD 0)) = some [] := by
        rw [hvalue]
        rfl
      have hloop := sliceLoop_eq hsorted hrange hvalue (lowerBound msg.key kr.begin_) hchain hle
      rw [sliceMessage, if_neg hne, if_pos hchain, hrange.project_eq]
      simp only [hunits, Option.bind_eq_bind, Option.bind_some, hloop]

/-- The keys of a slice, whatever the values. -/
theorem sliceOne_key (hsorted : msg.key.Pairwise (· < ·)) (hrange : Unbounded msg.keyRange)
    {kr : Range K} (hkr : kr.begin_ ≤ kr.end_) {units : List ℕ} {pos₀ : ℕ} {p : Piece K β}
    (h : sliceOne msg units pos₀ kr (lowerBound msg.key kr.begin_) (lowerBound msg.key kr.end_) =
      some p) :
    p.valid = !(between msg.key kr.begin_ kr.end_).isEmpty ∧
      p.key = between msg.key kr.begin_ kr.end_ := by
  have hplain := @sliceOne_eq K β _ { msg with value := [] } hsorted hrange rfl kr hkr pos₀
  rw [sliceOne] at h hplain
  split at h
  · rename_i hinvalid
    rw [if_pos hinvalid, Option.some.injEq] at hplain
    cases h
    have hnil := congrArg Piece.key hplain
    rw [show between msg.key kr.begin_ kr.end_ = [] from hnil.symm]
    exact ⟨rfl, rfl⟩
  · rename_i hvalid
    rw [if_neg hvalid] at hplain
    simp only [Option.bind_eq_bind, Option.bind_eq_some_iff, Option.pure_def,
      Option.some.injEq] at h hplain
    obtain ⟨key, hkey, value, -, rfl⟩ := h
    obtain ⟨key', hkey', value', -, hpiece⟩ := hplain
    rw [hkey, Option.some.injEq] at hkey'
    subst hkey'
    exact ⟨congrArg Piece.valid hpiece, congrArg Piece.key hpiece⟩

theorem sliceLoop_key (hsorted : msg.key.Pairwise (· < ·)) (hrange : Unbounded msg.keyRange)
    {units : List ℕ} (pos₀ : ℕ) {kr : Range K}
    (hchain : (kr :: krs).IsChain fun a b => a.end_ = b.begin_)
    (hle : ∀ r ∈ kr :: krs, r.begin_ ≤ r.end_) {pieces : List (Piece K β)}
    (h : sliceLoop msg units pos₀ (lowerBound msg.key kr.begin_) (kr :: krs)
        (positions msg.keyRange msg.key (kr :: krs)) = some pieces) :
    pieces.map (fun p => (p.valid, p.key)) = (kr :: krs).map fun kr =>
      (!(between msg.key kr.begin_ kr.end_).isEmpty, between msg.key kr.begin_ kr.end_) := by
  induction krs generalizing kr pieces with
  | nil =>
      rw [positions_cons hrange, sliceLoop] at h
      simp only [Option.bind_eq_bind, Option.bind_eq_some_iff, Option.pure_def,
        Option.some.injEq] at h
      obtain ⟨p, hp, ps, hps, rfl⟩ := h
      obtain ⟨hvalid, hkey⟩ := sliceOne_key hsorted hrange (hle kr (by simp)) hp
      cases hps
      simp [hvalid, hkey]
  | cons kr' krs ih =>
      rw [List.isChain_cons_cons] at hchain
      rw [positions_cons hrange, sliceLoop] at h
      simp only [Option.bind_eq_bind, Option.bind_eq_some_iff, Option.pure_def,
        Option.some.injEq] at h
      obtain ⟨p, hp, ps, hps, rfl⟩ := h
      obtain ⟨hvalid, hkey⟩ := sliceOne_key hsorted hrange (hle kr (by simp)) hp
      rw [hchain.1] at hps
      have hrest := ih hchain.2 (fun r hr => hle r (List.mem_cons_of_mem _ hr)) hps
      rw [List.map_cons, hrest, hvalid, hkey]
      rfl

/-- **The keys of the slices** depend on the keys and the ranges only: a message with values,
if it can be sliced at all, has the same slices as one without. -/
theorem sliceMessage_key (hsorted : msg.key.Pairwise (· < ·)) (hne : msg.key ≠ [])
    (hrange : Unbounded msg.keyRange)
    (hle : ∀ kr ∈ krs, kr.begin_ ≤ kr.end_) {pieces : List (Piece K β)}
    (h : sliceMessage msg krs = some pieces) :
    pieces.map (fun p => (p.valid, p.key)) = krs.map fun kr =>
      (!(between msg.key kr.begin_ kr.end_).isEmpty, between msg.key kr.begin_ kr.end_) := by
  cases krs with
  | nil =>
      cases h
      rfl
  | cons kr krs =>
      rw [sliceMessage, if_neg hne] at h
      split at h
      · rename_i hchain
        simp only [Option.bind_eq_bind, Option.bind_eq_some_iff, hrange.project_eq] at h
        obtain ⟨units, -, hloop⟩ := h
        exact sliceLoop_key hsorted hrange _ hchain hle hloop
      · cases h

end Slices

/-! ## Ranges that cover -/

/-- Contiguous ranges lie one after the other. -/
theorem pairwise_of_chain {krs : List (Range K)} (hchain : krs.IsChain fun a b => a.end_ = b.begin_)
    (hle : ∀ kr ∈ krs, kr.begin_ ≤ kr.end_) : krs.Pairwise fun a b => a.end_ ≤ b.begin_ := by
  induction krs with
  | nil => exact List.Pairwise.nil
  | cons kr krs ih =>
      have hrest := ih hchain.tail fun r hr => hle r (List.mem_cons_of_mem _ hr)
      refine List.pairwise_cons.mpr ⟨fun r hr => ?_, hrest⟩
      cases krs with
      | nil => cases hr
      | cons kr' krs =>
          have hend : kr.end_ = kr'.begin_ := (List.isChain_cons_cons.mp hchain).1
          rcases List.mem_cons.mp hr with rfl | hmem
          · exact hend.le
          · have hkr' := hle kr' (by simp)
            exact hend.le.trans (hkr'.trans ((List.pairwise_cons.mp hrest).1 r hmem))

namespace Covers

variable {krs : List (Range K)} {r : Range K}

/-- The ranges lie one after the other. -/
theorem pairwise (h : Covers krs r) : krs.Pairwise fun a b => a.end_ ≤ b.begin_ :=
  pairwise_of_chain h.chain h.le

theorem begin_le (h : Covers krs r) {kr : Range K} (hkr : kr ∈ krs) : r.begin_ ≤ kr.begin_ := by
  have hpw := h.pairwise
  obtain ⟨-, hle, hhead, -⟩ := h
  cases krs with
  | nil => cases hkr
  | cons kr₀ krs =>
      rw [List.head?_cons, Option.map_some, Option.some.injEq] at hhead
      rw [← hhead]
      rcases List.mem_cons.mp hkr with rfl | hmem
      · exact le_rfl
      · exact (hle kr₀ (by simp)).trans ((List.pairwise_cons.mp hpw).1 kr hmem)

theorem end_le (h : Covers krs r) {kr : Range K} (hkr : kr ∈ krs) : kr.end_ ≤ r.end_ := by
  have hpw := h.pairwise
  obtain ⟨-, hle, -, hlast⟩ := h
  obtain ⟨last, hlast, hend⟩ := Option.map_eq_some_iff.mp hlast
  rw [← hend]
  obtain ⟨krs', rfl⟩ := List.getLast?_eq_some_iff.mp hlast
  rcases List.mem_append.mp hkr with hmem | hmem
  · have hcross := (List.pairwise_append.mp hpw).2.2 kr hmem last (by simp)
    exact hcross.trans (hle last (by simp))
  · rw [List.mem_singleton.mp hmem]

/-- Every key is in one of the ranges. -/
theorem exists_contains (h : Covers krs r) {k : K} (hk : r.contains k) :
    ∃ kr ∈ krs, kr.contains k := by
  obtain ⟨hchain, hle, hhead, hlast⟩ := h
  induction krs generalizing r with
  | nil => cases hhead
  | cons kr krs ih =>
      rw [List.head?_cons, Option.map_some, Option.some.injEq] at hhead
      rcases lt_or_ge k kr.end_ with hlt | hge
      · exact ⟨kr, by simp, hhead.le.trans hk.1, hlt⟩
      · cases krs with
        | nil =>
            rw [List.getLast?_singleton, Option.map_some, Option.some.injEq] at hlast
            exact absurd (hlast ▸ hge) (not_le.mpr hk.2)
        | cons kr' krs =>
            rw [List.isChain_cons_cons] at hchain
            rw [List.getLast?_cons_cons] at hlast
            obtain ⟨kr₁, hmem, hcontains⟩ := ih
              (r := { begin_ := kr'.begin_, end_ := r.end_ }) ⟨hchain.1 ▸ hge, hk.2⟩ hchain.2
              (fun r hr => hle r (List.mem_cons_of_mem _ hr)) rfl hlast
            exact ⟨kr₁, List.mem_cons_of_mem _ hmem, hcontains⟩

/-- A key of the range is in exactly one of the ranges, another key in none. -/
theorem existsUnique_iff (h : Covers krs r) {k : K} :
    (∃! i : ℕ, ∃ kr : Range K, krs[i]? = some kr ∧ kr.contains k) ↔ r.contains k := by
  constructor
  · rintro ⟨i, ⟨kr, hkr, hlow, hlt⟩, -⟩
    have hmem := List.mem_of_getElem? hkr
    exact ⟨(h.begin_le hmem).trans hlow, hlt.trans_le (h.end_le hmem)⟩
  · intro hk
    obtain ⟨kr, hmem, hcontains⟩ := h.exists_contains hk
    obtain ⟨i, hi⟩ := List.mem_iff_getElem?.mp hmem
    refine ⟨i, ⟨kr, hi, hcontains⟩, ?_⟩
    rintro j ⟨kr', hj, hcontains'⟩
    have hdisjoint : ∀ {a b : ℕ} {ra rb : Range K}, a < b → krs[a]? = some ra →
        krs[b]? = some rb → ra.contains k → ¬ rb.contains k := by
      intro a b ra rb hab hra hrb hka hkb
      obtain ⟨ha, rfl⟩ := List.getElem?_eq_some_iff.mp hra
      obtain ⟨hb, rfl⟩ := List.getElem?_eq_some_iff.mp hrb
      have hle := List.pairwise_iff_getElem.mp h.pairwise a b ha hb hab
      exact absurd (hka.2.trans_le (hle.trans hkb.1)) (lt_irrefl k)
    rcases lt_trichotomy i j with hij | rfl | hij
    · exact absurd hcontains' (hdisjoint hij hi hj hcontains)
    · rfl
    · exact absurd hcontains (hdisjoint hij hj hi hcontains')

end Covers

end Difacto.System
