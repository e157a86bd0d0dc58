import Difacto.Base.Shuffle
import Mathlib.Algebra.Order.Ring.Unbundled.Rat
import Mathlib.Data.Rat.Defs
import Mathlib.Tactic.NormNum

/-!
# Sampling of negative rows

`negative_sampling` of `MinibatchIter`: two runs over the same source with the same shuffles and
draws, at different rates. A row with a label that is not positive is skipped when its draw is
greater than `1 - negative_sampling`, so that below 1 a larger rate skips more rows.

## Main results

* `ShuffleIter.Delivers.kept_of_rate` — what a run keeps.
* `ShuffleIter.monotone_iff` — when a larger rate keeps more rows.
-/

namespace Difacto.Base

namespace ShuffleIter

variable {I F : Type} [One F] [Zero F] [Sub F] [LinearOrder F] {rnd : Randomness F}
  {mbSize shufBuf : ℕ} {rate : F} {source : List (InputBlock I F)}

/-- The label of row `p` of the source. -/
def labelAt (source : List (InputBlock I F)) (p : ℕ) : F :=
  (rowAt (InputBlock.sourceRows source) p).label

/-- The number of draws at a rate below 1: one for each row with a label that is not positive. -/
def negatives (source : List (InputBlock I F)) : ℕ :=
  (InputBlock.sourceRows source).countP fun r => r.label ≤ 0

/-- What a run keeps. -/
theorem Delivers.kept_of_rate {blks : List (InputBlock I F)} {t : ShuffleIter I F}
    (h : Delivers rnd (init mbSize shufBuf rate source) blks t) (hm : 1 ≤ mbSize)
    (hlt : mbSize < shufBuf) (hbuf : shufBuf + 1 < 2 ^ 32) (hsource : ∀ b ∈ source, b.Valid) :
    t.kept = sampled rnd rate (labelAt source) 0
      (visits rnd shufBuf 0 [] 0 (InputBlock.sourceRows source).length) :=
  (h.kept_eq (inv_init hm hlt hbuf hsource)).2

omit [Sub F] in
/-- Every negative row is visited once. -/
theorem countP_visits (rnd : Randomness F) (hbuf : 0 < shufBuf) :
    (visits rnd shufBuf 0 [] 0 (InputBlock.sourceRows source).length).countP
      (labelAt source · ≤ 0) = negatives source := by
  have hperm := visits_source_perm rnd hbuf (InputBlock.sourceRows source).length
  have hrows := (map_rowAt_perm hperm).countP_eq fun r => r.label ≤ 0
  rw [List.countP_map] at hrows
  exact hrows

/-- What one rate keeps of all rows the other keeps, if and only if it is 1 or no draw is between
the two thresholds. -/
theorem sampled_visits_subset_iff (hbuf : 0 < shufBuf) {s₁ s₂ : F} (hle : s₁ ≤ s₂)
    (hone : s₂ ≤ 1) :
    (∀ p ∈ sampled rnd s₁ (labelAt source) 0
        (visits rnd shufBuf 0 [] 0 (InputBlock.sourceRows source).length),
      p ∈ sampled rnd s₂ (labelAt source) 0
        (visits rnd shufBuf 0 [] 0 (InputBlock.sourceRows source).length)) ↔
      (s₂ = 1 ∨ ∀ k < negatives source, ¬ (1 - s₂ < rnd.draw k ∧ rnd.draw k ≤ 1 - s₁)) := by
  have hnodup := (visits_source_perm rnd hbuf (InputBlock.sourceRows source).length).nodup_iff.mpr
    List.nodup_range
  rcases hone.lt_or_eq with hless | heq
  · have hiff : _ ⊆ sampled rnd s₂ (labelAt source) 0 _ ↔ _ :=
      sampled_subset_iff (hle.trans_lt hless) hless 0 hnodup
    rw [countP_visits rnd hbuf] at hiff
    simp only [Nat.zero_add] at hiff
    rw [or_iff_right hless.ne]
    exact hiff
  · rw [heq, sampled_of_not_lt (lt_irrefl 1)]
    exact iff_of_true (fun p hp => (sampled_sublist _ _).subset hp) (.inl rfl)

/-- When `shuf_buf + 1` wraps around, no row is kept. -/
theorem Delivers.kept_of_wrap {blks : List (InputBlock I F)} {t : ShuffleIter I F}
    (h : Delivers rnd (init mbSize shufBuf rate source) blks t) (hm : 1 ≤ mbSize)
    (hlt : mbSize < shufBuf) (hmax : shufBuf + 1 = 2 ^ 32) : t.kept = [] := by
  obtain ⟨t', hnil, hruns⟩ := delivers_of_wrap rnd rate source hm hlt hmax
  rw [((hruns blks t).mp h).2, hnil]

/-- **Sampling is monotone in its rate** if and only if there is no row or `shuf_buf + 1` does not
wrap around, and the larger rate is 1 or no draw of a negative row is above its threshold and not
above that of the smaller one. The runs are over the same source, with the same shuffles and
draws. -/
theorem monotone_iff (hm : 1 ≤ mbSize) (hlt : mbSize < shufBuf) (hbuf : shufBuf < 2 ^ 32)
    (hsource : ∀ b ∈ source, b.Valid) {s₁ s₂ : F} (hle : s₁ ≤ s₂) (hone : s₂ ≤ 1)
    {blks₁ blks₂ blks : List (InputBlock I F)} {t₁ t₂ t : ShuffleIter I F}
    (h₁ : Delivers rnd (init mbSize shufBuf s₁ source) blks₁ t₁)
    (h₂ : Delivers rnd (init mbSize shufBuf s₂ source) blks₂ t₂)
    (h : Delivers rnd (init mbSize shufBuf 1 source) blks t) :
    ((∀ p ∈ t₁.kept, p ∈ t₂.kept) ∧
      (∀ p < (InputBlock.sourceRows source).length, 0 < labelAt source p →
        p ∈ t₁.kept ∧ p ∈ t₂.kept) ∧
      ∀ p < (InputBlock.sourceRows source).length, p ∈ t.kept) ↔
    (InputBlock.sourceRows source = [] ∨ shufBuf + 1 < 2 ^ 32) ∧
      (s₂ = 1 ∨ ∀ k < negatives source, ¬ (1 - s₂ < rnd.draw k ∧ rnd.draw k ≤ 1 - s₁)) := by
  by_cases hwrap : shufBuf + 1 < 2 ^ 32
  · have hpos : 0 < shufBuf := Nat.zero_lt_of_lt hlt
    have hperm := visits_source_perm rnd hpos (InputBlock.sourceRows source).length
    have hvisited : ∀ p < (InputBlock.sourceRows source).length,
        p ∈ visits rnd shufBuf 0 [] 0 (InputBlock.sourceRows source).length :=
      fun p hp => hperm.mem_iff.mpr (List.mem_range.mpr hp)
    rw [h₁.kept_of_rate hm hlt hwrap hsource, h₂.kept_of_rate hm hlt hwrap hsource,
      h.kept_of_rate hm hlt hwrap hsource]
    have hpositive : ∀ p < (InputBlock.sourceRows source).length, 0 < labelAt source p →
        ∀ rate : F, p ∈ sampled rnd rate (labelAt source) 0
          (visits rnd shufBuf 0 [] 0 (InputBlock.sourceRows source).length) :=
      fun p hp hlabel rate => mem_sampled_of_pos hlabel 0 (hvisited p hp)
    have hall : ∀ p < (InputBlock.sourceRows source).length, p ∈ sampled rnd 1 (labelAt source) 0
        (visits rnd shufBuf 0 [] 0 (InputBlock.sourceRows source).length) := by
      intro p hp
      rw [sampled_of_not_lt (lt_irrefl 1)]
      exact hvisited p hp
    rw [sampled_visits_subset_iff hpos hle hone]
    constructor
    · rintro ⟨hrate, -, -⟩
      exact ⟨.inr hwrap, hrate⟩
    · rintro ⟨-, hrate⟩
      exact ⟨hrate, fun p hp hlabel => ⟨hpositive p hp hlabel s₁, hpositive p hp hlabel s₂⟩, hall⟩
  · have hmax : shufBuf + 1 = 2 ^ 32 := by omega
    rw [h₁.kept_of_wrap hm hlt hmax, h₂.kept_of_wrap hm hlt hmax, h.kept_of_wrap hm hlt hmax,
      or_iff_left hwrap]
    constructor
    · rintro ⟨-, -, hall⟩
      have hempty : InputBlock.sourceRows source = [] := by
        by_contra hne
        exact absurd (hall 0 (List.length_pos_iff.mpr hne)) List.not_mem_nil
      refine ⟨hempty, .inr fun k hk => ?_⟩
      rw [negatives, hempty] at hk
      exact absurd hk (Nat.not_lt_zero k)
    · rintro ⟨hempty, -⟩
      rw [hempty]
      exact ⟨fun p hp => hp, fun p hp => absurd hp (Nat.not_lt_zero p),
        fun p hp => absurd hp (Nat.not_lt_zero p)⟩

/-- One row with the label -1. -/
def negativeBlock : InputBlock UInt64 ℚ :=
  { size := 1, offset := [0, 1], label := [-1], weight := none, index := [5], value := none }

theorem valid_negativeBlock : negativeBlock.Valid :=
  ⟨rfl, by decide, rfl, by decide, by simp [negativeBlock]⟩

/-- A run over this row. -/
theorem exists_run_negativeBlock (rnd : Randomness ℚ) (rate : ℚ) :
    ∃ blks t, Delivers rnd (init 1 2 rate [negativeBlock]) blks t := by
  have hvalid : ∀ b ∈ [negativeBlock], b.Valid := by simp [valid_negativeBlock]
  have hplain : ∀ b ∈ [negativeBlock], b.value = none := by simp [negativeBlock]
  obtain ⟨blks, t, hrun, -, -⟩ := exists_run rnd rate (show 1 ≤ 1 by decide)
    (show 1 < 2 by decide) (by decide) hvalid hplain (by decide)
  exact ⟨blks, t, hrun⟩

/-- Both rates keep a row with a small draw. -/
theorem monotone_smallDraw : ∃ blks₁ t₁ blks₂ t₂,
    Delivers (reversing (1 / 8)) (init 1 2 (1 / 4) [negativeBlock]) blks₁ t₁ ∧
    Delivers (reversing (1 / 8)) (init 1 2 (3 / 4) [negativeBlock]) blks₂ t₂ ∧
    ∀ p ∈ t₁.kept, p ∈ t₂.kept := by
  have hvalid : ∀ b ∈ [negativeBlock], b.Valid := by simp [valid_negativeBlock]
  obtain ⟨blks₁, t₁, h₁⟩ := exists_run_negativeBlock (reversing (1 / 8)) (1 / 4)
  obtain ⟨blks₂, t₂, h₂⟩ := exists_run_negativeBlock (reversing (1 / 8)) (3 / 4)
  obtain ⟨blks, t, h⟩ := exists_run_negativeBlock (reversing (1 / 8)) 1
  have hdraws : ∀ k < negatives [negativeBlock],
      ¬ (1 - 3 / 4 < (reversing (1 / 8 : ℚ)).draw k ∧
        (reversing (1 / 8 : ℚ)).draw k ≤ 1 - 1 / 4) := by
    intro k _ hbetween
    have hlow : (1 - 3 / 4 : ℚ) < 1 / 8 := hbetween.1
    norm_num at hlow
  have hiff := monotone_iff (by decide) (by decide) (by decide) hvalid
    (show (1 / 4 : ℚ) ≤ 3 / 4 by norm_num) (by norm_num) h₁ h₂ h
  exact ⟨blks₁, t₁, blks₂, t₂, h₁, h₂, (hiff.mpr ⟨.inr (by decide), .inr hdraws⟩).1⟩

/-- **A larger rate keeps fewer rows**: with the draw 1/2 the row is kept at the rate 1/4 and not
at the rate 3/4. -/
theorem larger_rate_skips : ∃ blks₁ t₁ blks₂ t₂,
    Delivers (reversing (1 / 2)) (init 1 2 (1 / 4) [negativeBlock]) blks₁ t₁ ∧
    Delivers (reversing (1 / 2)) (init 1 2 (3 / 4) [negativeBlock]) blks₂ t₂ ∧
    t₁.kept = [0] ∧ t₂.kept = [] := by
  have hvalid : ∀ b ∈ [negativeBlock], b.Valid := by simp [valid_negativeBlock]
  obtain ⟨blks₁, t₁, h₁⟩ := exists_run_negativeBlock (reversing (1 / 2)) (1 / 4)
  obtain ⟨blks₂, t₂, h₂⟩ := exists_run_negativeBlock (reversing (1 / 2)) (3 / 4)
  have hvisits : visits (reversing (1 / 2 : ℚ)) 2 0 [] 0
      (InputBlock.sourceRows [negativeBlock]).length = [0] :=
    List.perm_singleton.mp (visits_source_perm (reversing (1 / 2 : ℚ)) (by decide) 1)
  have hlabel : labelAt [negativeBlock] 0 = -1 := rfl
  refine ⟨blks₁, t₁, blks₂, t₂, h₁, h₂, ?_, ?_⟩
  · rw [h₁.kept_of_rate (by decide) (by decide) (by decide) hvalid, hvisits, sampled, hlabel]
    norm_num [reversing, sampled]
  · rw [h₂.kept_of_rate (by decide) (by decide) (by decide) hvalid, hvisits, sampled, hlabel]
    norm_num [reversing, sampled]

end ShuffleIter

end Difacto.Base
