import Difacto.Base.Localizer
import Difacto.System.Slice

/-!
# The key space

Three components choose a convention for the key space: the localizer of the workers, the
scheduler, which divides a range of keys among the servers (`Manager::Init` of
`ps-lite/src/system/manager.cc`), and the slicing of messages. A key outside the range of the
scheduler is in no slice.

`Range::All()` is half open, so it lacks the largest number of 64 bits.

## Main definitions

* `keyRange` — the range the scheduler divides.
* `Placed` — every key is in one slice.

## Main results

* `placed_iff` — the keys of a minibatch are placed.
-/

namespace Difacto.System

open Base

/-- `Range<Key>::All()` -/
def allKeys : Range UInt64 := { begin_ := 0, end_ := maxIndex }

/-- The range that `Manager::Init` gives to the `NodeAssigner`. -/
def keyRange (maxKey : UInt64) : Range UInt64 :=
  if maxKey = maxIndex then allKeys else { begin_ := 0, end_ := maxKey }

/-- A request for the given keys; `set_key` sets its key range. -/
def request (keys : List UInt64) : Message UInt64 UInt8 :=
  { keyRange := allKeys, key := keys, value := [] }

/-- Every key is in the range that is divided among the servers, and in exactly one of the
slices that are sent. -/
def Placed (maxKey : UInt64) (krs : List (Range UInt64)) (keys : List UInt64) : Prop :=
  ∃ pieces, sliceMessage (request keys) krs = some pieces ∧
    ∀ k ∈ keys, (keyRange maxKey).contains k ∧
      ∃! i : ℕ, ∃ p, pieces[i]? = some p ∧ p.valid = true ∧ k ∈ p.key

theorem le_maxIndex (k : UInt64) : k ≤ maxIndex := by
  rw [UInt64.le_iff_toNat_le]
  have := k.toNat_lt
  have hmax : maxIndex.toNat = 2 ^ 64 - 1 := by decide
  omega

theorem unbounded_allKeys : Unbounded allKeys := by
  intro k
  refine ⟨?_, le_maxIndex k⟩
  rw [UInt64.le_iff_toNat_le]
  exact Nat.zero_le _

theorem contains_keyRange {maxKey k : UInt64} : (keyRange maxKey).contains k ↔ k < maxKey := by
  have hzero : (0 : UInt64) ≤ k := (unbounded_allKeys k).1
  have hend : (keyRange maxKey).end_ = maxKey := by
    rw [keyRange]
    split
    · rename_i h
      rw [h]
      rfl
    · rfl
  have hbegin : (keyRange maxKey).begin_ = 0 := by
    rw [keyRange]
    split <;> rfl
  rw [Range.contains, hend, hbegin]
  exact and_iff_right hzero

/-- Sorted keys of the range are placed. -/
theorem placed_of_contains {maxKey : UInt64} {krs : List (Range UInt64)} {keys : List UInt64}
    (hcover : Covers krs (keyRange maxKey)) (hsorted : keys.Pairwise (· < ·))
    (hkeys : ∀ k ∈ keys, (keyRange maxKey).contains k) : Placed maxKey krs keys := by
  by_cases hne : keys = []
  · subst hne
    cases hk : krs with
    | nil => exact ⟨[], rfl, by simp⟩
    | cons kr krs => exact ⟨_, rfl, by simp⟩
  · refine ⟨_, sliceMessage_eq hsorted hne unbounded_allKeys rfl hcover.chain hcover.le, ?_⟩
    intro k hk
    refine ⟨hkeys k hk, ?_⟩
    have hpiece : ∀ i : ℕ, (∃ p, (krs.map (pieceOf (β := UInt8) keys))[i]? = some p ∧
        p.valid = true ∧ k ∈ p.key) ↔ ∃ kr : Range UInt64, krs[i]? = some kr ∧ kr.contains k := by
      intro i
      rw [List.getElem?_map]
      constructor
      · rintro ⟨p, hp, -, hmem⟩
        obtain ⟨kr, hkr, rfl⟩ := Option.map_eq_some_iff.mp hp
        exact ⟨kr, hkr, (mem_between.mp hmem).2⟩
      · rintro ⟨kr, hkr, hcontains⟩
        have hmem : k ∈ between keys kr.begin_ kr.end_ := mem_between.mpr ⟨hk, hcontains⟩
        refine ⟨_, by rw [hkr, Option.map_some], ?_, hmem⟩
        have hnil := List.ne_nil_of_mem hmem
        simp [pieceOf, hnil]
    have hunique := hcover.existsUnique_iff.mpr (hkeys k hk)
    simpa only [request, hpiece] using hunique

variable {F : Type}

theorem localKey_lt {maxKey id : UInt64} (hmax : 1 ≤ maxKey) (hset : maxKey ≠ maxIndex) :
    localKey maxKey id < maxKey := by
  have hlt : maxKey < maxIndex := lt_of_le_of_ne (le_maxIndex maxKey) hset
  rw [localKey, if_pos hlt, UInt64.lt_iff_toNat_lt, UInt64.toNat_mod]
  exact Nat.mod_lt _ (UInt64.le_iff_toNat_le.mp hmax)

/-- Without `max_key`, the largest id is the only one with the largest key. -/
theorem localKey_eq_maxIndex {id : UInt64} : localKey maxIndex id = maxIndex ↔ id = maxIndex := by
  have hrev : reverseBytes maxIndex = maxIndex := by decide
  rw [localKey, if_neg (lt_irrefl _)]
  constructor
  · intro h
    rw [← reverseBytes_reverseBytes id, h, hrev]
  · rintro rfl
    exact hrev

/-- **Every key has a server** if and only if the minibatch has an id, or no row, and the
largest id does not occur without `max_key`. (With too many ids there are no keys, because a
`CHECK` fails.) -/
theorem placed_iff (maxKey : UInt64) (hmax : 1 ≤ maxKey) (blk : InputBlock UInt64 F)
    (krs : List (Range UInt64)) (hcover : Covers krs (keyRange maxKey)) :
    (∀ junk kcs, countUniqIndex maxKey junk blk = some kcs →
        Placed maxKey krs (kcs.map Prod.fst)) ↔
      blk.size = 0 ∨ 2 ^ 32 - 1 ≤ blk.offset.getD blk.size 0 ∨
        blk.ids ≠ [] ∧ (maxKey ≠ maxIndex ∨ maxIndex ∉ blk.ids) := by
  by_cases hsize : blk.size = 0
  · refine iff_of_true (fun junk kcs hkcs => ?_) (.inl hsize)
    rw [countUniqIndex, if_pos hsize] at hkcs
    cases hkcs
    exact placed_of_contains hcover List.Pairwise.nil (by simp)
  by_cases hidx : 2 ^ 32 - 1 ≤ blk.offset.getD blk.size 0
  · refine iff_of_true (fun junk kcs hkcs => ?_) (.inr (.inl hidx))
    rw [countUniqIndex, if_neg hsize, if_neg (not_lt.mpr hidx)] at hkcs
    cases hkcs
  have hsome : ∀ junk, ∃ kcs, countUniqIndex maxKey junk blk = some kcs := by
    intro junk
    rw [countUniqIndex, if_neg hsize, if_pos (not_le.mp hidx)]
    exact ⟨_, rfl⟩
  have hnever : ∀ k, (keyRange maxKey).contains k → k ≠ maxIndex := by
    rintro k hk rfl
    exact absurd (contains_keyRange.mp hk) (not_lt.mpr (le_maxIndex maxKey))
  constructor
  · intro hall
    -- the largest key is in no range
    obtain ⟨kcs, hkcs⟩ := hsome maxIndex
    obtain ⟨pieces, -, hplaced⟩ := hall maxIndex kcs hkcs
    have hnot : maxIndex ∉ kcs.map Prod.fst :=
      fun hmem => hnever maxIndex (hplaced maxIndex hmem).1 rfl
    rw [mem_countUniqIndex hkcs hsize] at hnot
    push Not at hnot
    refine .inr (.inr ⟨fun hnil => hnot.2 hnil rfl, ?_⟩)
    by_cases hset : maxKey = maxIndex
    · subst hset
      exact .inr fun hmem => hnot.1 maxIndex hmem (localKey_eq_maxIndex.mpr rfl)
    · exact .inl hset
  · rintro (h | h | ⟨hids, hor⟩)
    · exact absurd h hsize
    · exact absurd h hidx
    · intro junk kcs hkcs
      refine placed_of_contains hcover (countUniqIndex_sorted hkcs) fun k hk => ?_
      rw [contains_keyRange]
      rcases (mem_countUniqIndex hkcs hsize).mp hk with ⟨id, hid, rfl⟩ | ⟨hnil, -⟩
      · by_cases hset : maxKey = maxIndex
        · subst hset
          refine lt_of_le_of_ne (le_maxIndex _) fun heq => ?_
          rw [localKey_eq_maxIndex] at heq
          rcases hor with h | h
          · exact h rfl
          · exact h (heq ▸ hid)
        · exact localKey_lt hmax hset
      · exact absurd hnil hids

/-- One row with the ids `3` and `5`. -/
def smallBlock : InputBlock UInt64 UInt32 :=
  { size := 1, offset := [0, 2], label := [1], weight := none, index := [3, 5], value := none }

/-- Two servers share all keys. -/
theorem placed_smallBlock : ∃ krs kcs, krs.length = 2 ∧ Covers krs (keyRange maxIndex) ∧
    countUniqIndex maxIndex 0 smallBlock = some kcs ∧ kcs.length = 2 ∧
    Placed maxIndex krs (kcs.map Prod.fst) := by
  have hcover : Covers ([⟨0, 0x8000000000000000⟩, ⟨0x8000000000000000, maxIndex⟩] :
      List (Range UInt64)) (keyRange maxIndex) :=
    ⟨by decide, by decide, by decide, by decide⟩
  exact ⟨_, _, rfl, hcover, rfl, rfl, (placed_iff maxIndex (by decide) smallBlock _ hcover).mpr
    (by decide) 0 _ rfl⟩

/-- One row with the largest id. -/
def largestBlock : InputBlock UInt64 UInt32 :=
  { size := 1, offset := [0, 1], label := [1], weight := none, index := [maxIndex],
    value := none }

/-- **The largest key has no server**: `Range::All()` lacks it, and the only slice is not
valid. -/
theorem largest_not_placed : ∃ kcs krs pieces, countUniqIndex maxIndex 0 largestBlock = some kcs ∧
    kcs.map Prod.fst = [maxIndex] ∧ Covers krs (keyRange maxIndex) ∧
    sliceMessage (request (kcs.map Prod.fst)) krs = some pieces ∧
    pieces.map Piece.valid = [false] ∧ ¬ (keyRange maxIndex).contains maxIndex := by
  refine ⟨[(maxIndex, 1)], [allKeys], [{ valid := false, key := [], value := [] }], ?_, rfl,
    ⟨by decide, by decide, by decide, by decide⟩, ?_, rfl, by decide⟩
  · decide
  · decide

end Difacto.System
