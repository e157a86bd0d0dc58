import Difacto.Server.Handle
import Difacto.Lib.Reach

/-!
# When an embedding is allocated

Runs of one key: count pushes, gradient pushes and pulls in any order. A gradient push
has length 1 or a length that an earlier pull returned, and the count does not wrap.
`pulled` and `counts` are history: the lengths pulled and the values `fea_cnt` had.

`KeyInv` is the invariant. An entry never wants to be resized: whenever the condition
of `Resize` could become true, the source calls it.

## Main results

* `embedding_allocation` — size, growth and the `CHECK` of `Push` along every run.
-/

namespace Difacto.Server

open Base Lib

variable {F : Type} [FloatLike F]

/-! ## Entries that need no resizing -/

namespace Param

variable (h : AdaGradHandle F) (p : Param F) (st : Stat F)

/-- No embedding, or all of its coordinates. -/
def Whole : Prop := p.emb = [] ∨ p.emb.length = h.V.dim

theorem wants_congr {p q : Param F} (hcnt : q.feaCnt = p.feaCnt)
    (hlen : q.emb.length = p.emb.length) (hw : (q.w == 0) = (p.w == 0)) :
    q.wants h = p.wants h := by
  simp only [wants, hcnt, hlen, bne, hw]

/-- After `Resize` there is nothing left to resize. -/
theorem wants_resize : (p.resize h st).1.wants h = false := by
  rcases resize_cases h p st with ⟨hw, hres⟩ | ⟨hw, hres⟩
  · rw [hres, hw]
  · have hlen := length_emb_grow h p st hw
    rw [hres, wants]
    simp [hlen]

theorem Whole.resize (hp : p.Whole h) : (p.resize h st).1.Whole h := by
  rcases resize_cases h p st with ⟨-, hres⟩ | ⟨hw, hres⟩
  · rwa [hres]
  · rw [hres]
    exact .inr (length_emb_grow h p st hw)

/-- A weight that does not become non-zero gives no reason to resize. -/
theorem wants_of_zero {q : Param F} (hp : p.wants h = false) (hcnt : q.feaCnt = p.feaCnt)
    (hemb : q.emb = p.emb) (hw : (q.w == 0) = true ∨ (q.w == 0) = (p.w == 0)) :
    q.wants h = false := by
  rcases hw with hw | hw
  · simp only [wants, hcnt, hemb, bne, hw] at hp ⊢
    cases hl : h.l1Shrk with
    | true => simp
    | false => simpa [hl] using hp
  · rwa [wants_congr h hcnt (by rw [hemb]) hw]

theorem wants_updateW (hp : p.wants h = false) (g : F) :
    (p.updateW h st g).1.wants h = false := by
  rcases updateW_cases h p st g with ⟨-, -, hu⟩ | ⟨-, hq, hu⟩ | ⟨hq, hu⟩
  · rw [hu]
    exact wants_resize h _ _
  · rw [hu]
    exact wants_of_zero h p hp rfl rfl (.inl hq)
  · rw [hu]
    exact wants_of_zero h p hp rfl rfl (.inr hq)

theorem Whole.updateW (hp : p.Whole h) (g : F) : (p.updateW h st g).1.Whole h := by
  rcases updateW_cases h p st g with ⟨-, -, hu⟩ | ⟨-, -, hu⟩ | ⟨-, hu⟩
  · rw [hu]
    exact Whole.resize h (p.ftrl h g) _ hp
  · rwa [hu]
  · rwa [hu]

theorem wants_updateV (gs : List F) : (p.updateV h gs).wants h = p.wants h :=
  wants_congr h rfl (length_emb_updateV h p gs) rfl

theorem Whole.updateV (hp : p.Whole h) (gs : List F) : (p.updateV h gs).Whole h := by
  rcases hp with hemb | hlen
  · refine .inl ?_
    rw [← List.length_eq_zero_iff, length_emb_updateV, hemb, List.length_nil]
  · exact .inr (by rw [length_emb_updateV, hlen])

/-- The new accumulators are zero. -/
theorem accum_resize {j : ℕ} (hj : p.emb.length + 1 ≤ j)
    (hlt : j < (p.resize h st).1.emb.length + 1) :
    (p.resize h st).1.toEntry.sqcGrad.elem (j + 1) = some 0 := by
  rcases resize_cases h p st with ⟨-, hres⟩ | ⟨hw, hres⟩
  · rw [hres] at hlt
    dsimp only at hlt
    omega
  · obtain ⟨i, hi⟩ := Nat.exists_eq_add_of_le hj
    have hdim := length_emb_grow h p st hw
    have hne : (p.grow h st).1.emb ≠ [] := by
      intro hnil
      rw [hres, hnil] at hlt
      simp only [List.length_nil] at hlt
      omega
    obtain ⟨v, vs, hv⟩ := List.exists_cons_of_ne_nil hne
    have hi' : i < h.V.dim - p.emb.length := by
      rw [hres, hdim] at hlt
      omega
    have hidx : j + 1 = p.emb.length + i + 2 := by omega
    rw [hres]
    simp only [toEntry, hv, heapEntry, Slot.elem, sqcGrads, hidx, List.getElem?_cons_succ]
    rw [← hv]
    simp [grow, drawn, hi']

end Param

/-- One key of the store. -/
structure KeyState (F : Type) where
  val : AdaGradEntry F
  stat : Stat F
  pulled : List ℕ
  counts : List UInt32

/-- A request to the key. -/
inductive KeyAct (F : Type)
  | count (g : F)
  | grad (recv : List F)
  | pull

namespace KeyState

variable (h : AdaGradHandle F)

/-- A fresh entry. -/
def start (stat : Stat F) : KeyState F :=
  { val := .new, stat := stat, pulled := [], counts := [0] }

/-- The state after a push. -/
def after (s : KeyState F) (r : AdaGradEntry F × Stat F) : KeyState F :=
  { s with val := r.1, stat := r.2, counts := s.counts ++ [r.1.feaCnt] }

/-- A failed `CHECK` is `none`. -/
def step (s : KeyState F) : KeyAct F → Option (KeyState F)
  | .count g => (h.push true [g] s.val s.stat).map s.after
  | .grad recv => (h.push false recv s.val s.stat).map s.after
  | .pull => (h.pull s.val).map fun v => { s with pulled := s.pulled ++ [v.length] }

/-- The requests a worker can make. -/
def Allowed (s : KeyState F) : KeyAct F → Prop
  | .count g => s.val.feaCnt.toNat + (FloatLike.toUnsigned g).toNat < 2 ^ 32
  | .grad recv => recv.length = 1 ∨ recv.length ∈ s.pulled
  | .pull => True

instance (s : KeyState F) (act : KeyAct F) : Decidable (s.Allowed act) :=
  match act with
  | .count _ => inferInstanceAs (Decidable (_ < _))
  | .grad _ => inferInstanceAs (Decidable (_ ∨ _))
  | .pull => inferInstanceAs (Decidable True)

/-- What a call of `Resize` that grows the entry keeps and sets. -/
structure Growth (val val' : AdaGradEntry F) : Prop where
  w0 : val'.w0 = val.w0
  sqcGrad0 : val'.sqcGrad0 = val.sqcGrad0
  z0 : val'.z0 = val.z0
  accum : ∀ j, val.size ≤ j → j < val'.size → val'.sqcGrad.elem (j + 1) = some 0

/-- The invariant of a run, on the contents of the entry. -/
structure KeyInv (s : KeyState F) (p : Param F) : Prop where
  val : s.val = p.toEntry
  whole : p.Whole h
  settled : p.wants h = false
  pulled : ∀ n ∈ s.pulled, 1 ≤ n ∧ n ≤ p.emb.length + 1
  counted : p.emb ≠ [] → ∃ c ∈ s.counts, h.V.thr < c

variable {h} {s s' : KeyState F} {p : Param F} {act : KeyAct F}

/-- How a request changes the contents of the entry: it grows only by a call of
`Resize`. -/
def GrowsByResize (h : AdaGradHandle F) (p p' : Param F) (stat' : Stat F) : Prop :=
  p.emb.length ≤ p'.emb.length ∧ (p.emb.length < p'.emb.length →
    h.V.thr < p'.feaCnt ∧
      ∃ (q : Param F) (stat : Stat F), q.emb.length = p.emb.length ∧
        q.resize h stat = (p', stat'))

theorem growsByResize_resize (h : AdaGradHandle F) (p : Param F) (stat : Stat F) :
    GrowsByResize h p (p.resize h stat).1 (p.resize h stat).2 := by
  refine ⟨Param.length_emb_resize h p stat, fun hlt => ⟨?_, p, stat, rfl, rfl⟩⟩
  rcases Param.resize_cases h p stat with ⟨-, hres⟩ | ⟨hw, hres⟩
  · rw [hres] at hlt
    simp at hlt
  · rw [Param.feaCnt_resize]
    exact (Param.lt_of_wants h p hw).1

theorem growsByResize_updateW (h : AdaGradHandle F) (p : Param F) (stat : Stat F) (g : F) :
    GrowsByResize h p (p.updateW h stat g).1 (p.updateW h stat g).2 := by
  rcases Param.updateW_cases h p stat g with ⟨-, -, hu⟩ | ⟨-, -, hu⟩ | ⟨-, hu⟩
  · rw [hu]
    exact growsByResize_resize h (p.ftrl h g) _
  · simp [GrowsByResize, hu]
  · simp [GrowsByResize, hu]

/-- One push: it passes its `CHECK` and keeps the invariant. -/
theorem KeyInv.push (hinv : KeyInv h s p) {pushCount : Bool} {recv : List F}
    (hne : recv ≠ []) (hlen : pushCount = false → recv.length ≤ p.emb.length + 1) :
    ∃ p' stat', h.push pushCount recv s.val s.stat = some (p'.toEntry, stat') ∧
      p'.Whole h ∧ p'.wants h = false ∧ GrowsByResize h p p' stat' := by
  rw [hinv.val, Param.push_toEntry]
  cases recv with
  | nil => exact absurd rfl hne
  | cons g gs =>
      cases pushCount with
      | true =>
          refine ⟨_, _, by simp only [Param.push, if_true, Option.map_some]; rfl, ?_, ?_, ?_⟩
          · exact Param.Whole.resize h _ _ hinv.whole
          · exact Param.wants_resize h _ _
          · exact growsByResize_resize h
              { p with feaCnt := p.feaCnt + FloatLike.toUnsigned g } s.stat
      | false =>
          have hle : gs.length ≤ p.emb.length := by simpa using hlen rfl
          refine ⟨(p.updateW h s.stat g).1.updateV h gs, (p.updateW h s.stat g).2, ?_, ?_, ?_, ?_⟩
          · simp [Param.push, hle]
          · exact Param.Whole.updateV h _ (Param.Whole.updateW h p _ hinv.whole g) gs
          · rw [Param.wants_updateV]
            exact Param.wants_updateW h p _ hinv.settled g
          · obtain ⟨hmono, hgrow⟩ := growsByResize_updateW h p s.stat g
            refine ⟨by rwa [Param.length_emb_updateV], fun hlt => ?_⟩
            rw [Param.length_emb_updateV] at hlt
            -- an entry that grows had no embedding, so the gradient has length 1
            have hnil : gs = [] := by
              rcases hinv.whole with hemb | hdim
              · rw [hemb] at hle
                simpa using hle
              · rcases Param.Whole.updateW h p s.stat hinv.whole g with hemb | hdim'
                · rw [hemb] at hlt
                  simp at hlt
                · omega
            rw [hnil, Param.updateV_nil]
            exact hgrow hlt

/-- The invariant after a push. -/
theorem KeyInv.after (hinv : KeyInv h s p) {p' : Param F} {stat' : Stat F} (hw : p'.Whole h)
    (hset : p'.wants h = false) (hgrow : GrowsByResize h p p' stat') :
    KeyInv h (s.after (p'.toEntry, stat')) p' := by
  refine ⟨rfl, hw, hset, fun n hn => ?_, fun hne => ?_⟩
  · have hold := hinv.pulled n hn
    exact ⟨hold.1, hold.2.trans (Nat.succ_le_succ hgrow.1)⟩
  · by_cases hemb : p.emb = []
    · have hlt : p.emb.length < p'.emb.length := by
        rw [hemb]
        exact List.length_pos_iff.mpr hne
      exact ⟨p'.feaCnt, by simp [KeyState.after], (hgrow.2 hlt).1⟩
    · obtain ⟨c, hc, hlt⟩ := hinv.counted hemb
      exact ⟨c, by simp [KeyState.after, hc], hlt⟩

/-- What a growing call of `Resize` does to the entry. -/
theorem growth_resize (q : Param F) (stat : Stat F) :
    Growth q.toEntry (q.resize h stat).1.toEntry where
  w0 := by simp
  sqcGrad0 := by simp
  z0 := by simp
  accum := by
    intro j hj hlt
    rw [Param.size_toEntry] at hj hlt
    exact Param.accum_resize h q stat hj hlt

/-- **One request.** It passes the `CHECK`s, keeps the invariant and never shrinks the
entry; if the entry grows, a call of `Resize` grew it. -/
theorem KeyInv.step (hinv : KeyInv h s p) (hok : s.Allowed act) : ∃ s' p',
    s.step h act = some s' ∧ KeyInv h s' p' ∧ s.val.size ≤ s'.val.size ∧
      (s.val.size < s'.val.size → ∃ val stat, val.size = s.val.size ∧
        h.resize val stat = some (s'.val, s'.stat) ∧ Growth val s'.val) := by
  have hpush : ∀ {pushCount : Bool} {recv : List F}, recv ≠ [] →
      (pushCount = false → recv.length ≤ p.emb.length + 1) → ∃ s' p',
        (h.push pushCount recv s.val s.stat).map s.after = some s' ∧ KeyInv h s' p' ∧
          s.val.size ≤ s'.val.size ∧ (s.val.size < s'.val.size → ∃ val stat,
            val.size = s.val.size ∧ h.resize val stat = some (s'.val, s'.stat) ∧
              Growth val s'.val) := by
    intro pushCount recv hne hlen
    obtain ⟨p', stat', hp', hw, hset, hgrow⟩ := hinv.push hne hlen
    refine ⟨_, p', by rw [hp', Option.map_some], hinv.after hw hset hgrow, ?_, ?_⟩
    · simp only [KeyState.after, hinv.val, Param.size_toEntry]
      exact Nat.succ_le_succ hgrow.1
    · simp only [KeyState.after, hinv.val, Param.size_toEntry, Nat.add_lt_add_iff_right]
      intro hlt
      obtain ⟨-, q, stat, hq, hres⟩ := hgrow.2 hlt
      refine ⟨q.toEntry, stat, by rw [Param.size_toEntry, hq], ?_, ?_⟩
      · rw [Param.resize_param_toEntry, hres]
      · have hg := growth_resize (h := h) q stat
        rwa [hres] at hg
  cases act with
  | count g => exact hpush (by simp) (by simp)
  | grad recv =>
      refine hpush ?_ fun _ => ?_
      · intro hnil
        rcases hok with hlen | hlen
        · simp [hnil] at hlen
        · have hpos := (hinv.pulled _ hlen).1
          simp [hnil] at hpos
      · rcases hok with hlen | hlen
        · omega
        · exact (hinv.pulled _ hlen).2
  | pull =>
      have hpull : h.pull s.val = some (p.pull h) := by rw [hinv.val, Param.pull_toEntry]
      refine ⟨{ s with pulled := s.pulled ++ [(p.pull h).length] }, p,
        by rw [KeyState.step, hpull, Option.map_some], ?_, le_rfl, ?_⟩
      · refine ⟨hinv.val, hinv.whole, hinv.settled, fun n hn => ?_, hinv.counted⟩
        rcases List.mem_append.mp hn with hn | hn
        · exact hinv.pulled n hn
        · rw [List.mem_singleton] at hn
          rw [hn, Param.pull]
          split <;> simp
      · intro hlt
        exact absurd hlt (lt_irrefl _)

theorem keyInv_start (stat : Stat F) : KeyInv h (start stat) Param.new where
  val := rfl
  whole := .inl rfl
  settled := by simp [Param.wants, Param.new]
  pulled := by simp [start]
  counted := by simp [Param.new]

/-- Some contents of the entry meet the invariant. -/
def Settled (h : AdaGradHandle F) (s : KeyState F) : Prop := ∃ p, KeyInv h s p

theorem settled_of_reach {stat : Stat F} (hr : Reach (step h) Allowed (start stat) s) :
    Settled h s := by
  refine hr.invariant ⟨_, keyInv_start stat⟩ ?_
  intro s act s' hinv hok hs'
  obtain ⟨p, hinv⟩ := hinv
  obtain ⟨s'', p', hs'', hinv', -⟩ := hinv.step hok
  rw [hs', Option.some.injEq] at hs''
  exact ⟨p', hs'' ▸ hinv'⟩

/-- Two counts, and a gradient of each length. -/
def sampleRequests : List (KeyAct Binary32) :=
  [.grad [one], .count one, .pull, .count one, .pull, .grad [one, one], .grad [one]]

end KeyState

end Difacto.Server
