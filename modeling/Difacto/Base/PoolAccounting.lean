import Difacto.Base.PoolInvariant
import Difacto.Lib.Reach
import Mathlib.Data.Finset.Card

/-!
# Workload pool accounting

A pool together with its history since the last `Clear`: which files were added and
which parts were finished. A run starts with a `Clear`, continues with one or more
`Add`s that share one number of parts per file, and then mixes `Get`, `Finish`,
`Reset` and `RemoveStraggler` freely; `ClearRemain` may come at any point and ends
the phase in which files can be added.

## Main results

* `pool_accounting` — in every reachable state the fields of the pool agree with the
  history: tracks, entries, erased files, `num_finished_` and `IsFinished`.
-/

namespace Difacto.Base

open WorkloadPool Lib

/-- The calls a run is made of. Which entries `RemoveStraggler` judges slow is
arbitrary. -/
inductive PoolOp
  | add (files : List Workload.File) (id : String)
  | get (id : String) (order : List String) (rnd : ℕ) (now : ℚ) (wl : Workload)
  | finish (id : String) (now : ℚ)
  | reset (id : String)
  | removeStraggler (slow : Assigned → Bool)
  | clearRemain

/-- How far a run has come since `Clear`. -/
inductive PoolPhase
  /-- nothing added yet -/
  | cleared
  | adding
  | mixing
  /-- after `ClearRemain` -/
  | drained
  deriving DecidableEq, Repr

/-- A pool and its history since `Clear`. -/
structure Ledger where
  pool : WorkloadPool
  phase : PoolPhase
  /-- the files added -/
  added : Finset String
  /-- the parts some node finished -/
  finished : Finset (String × ℕ)

namespace Ledger

/-- The part an entry hands out. -/
def part (a : Assigned) : String × ℕ := (a.filename, a.k)

/-- The parts `id` holds. -/
def held (p : WorkloadPool) (id : String) : Finset (String × ℕ) :=
  ((p.assigned.filter fun a => a.node = id).map part).toFinset

/-- The phase after an operation other than `Add` and `ClearRemain`. -/
def mixed : PoolPhase → PoolPhase
  | .drained => .drained
  | _ => .mixing

/-- One call on the pool. `none` is a failed `CHECK`. A part is finished when
`Finish(id)` runs while `id` holds it. -/
def step (npart : ℕ) (s : Ledger) : PoolOp → Option Ledger
  | .add files id => (s.pool.add files npart id).map fun p =>
      { s with pool := p, phase := .adding, added := s.added ∪ (files.map (·.filename)).toFinset }
  | .get id order rnd now wl =>
      some { s with pool := (s.pool.get id order rnd now wl).1, phase := mixed s.phase }
  | .finish id now => (s.pool.finish id now).map fun p =>
      { s with pool := p, phase := mixed s.phase, finished := s.finished ∪ held s.pool id }
  | .reset id => (s.pool.reset id).map fun p => { s with pool := p, phase := mixed s.phase }
  | .removeStraggler slow => (s.pool.removeStragglerBy slow).map fun p =>
      { s with pool := p, phase := mixed s.phase }
  | .clearRemain => some { s with pool := s.pool.clearRemain, phase := .drained }

/-- The shape of a run: `Add`s come first, every other call needs an `Add` before it,
and `Get` iterates over the files that are in the pool. -/
def Allowed (s : Ledger) : PoolOp → Prop
  | .add _ _ => s.phase = .cleared ∨ s.phase = .adding
  | .get _ order _ _ _ => s.phase ≠ .cleared ∧ s.pool.Enumerates order
  | _ => s.phase ≠ .cleared

instance (s : Ledger) (op : PoolOp) : Decidable (s.Allowed op) :=
  match op with
  | .add _ _ => inferInstanceAs (Decidable (_ ∨ _))
  | .get _ _ _ _ _ => inferInstanceAs (Decidable (_ ∧ _))
  | .finish _ _ | .reset _ | .removeStraggler _ | .clearRemain =>
      inferInstanceAs (Decidable (_ ≠ _))

/-- The state right after `Clear`. -/
def start (p : WorkloadPool) : Ledger :=
  { pool := p.clear, phase := .cleared, added := ∅, finished := ∅ }

/-- The accounting of a pool against its history. -/
structure Accounting (npart : ℕ) (s : Ledger) : Prop where
  track_length : ∀ f t, s.pool.task.lookup f = some t → t.track.length = npart
  done_eq : ∀ f t, s.pool.task.lookup f = some t → t.done = t.track.count .done
  done_lt : ∀ f t, s.pool.task.lookup f = some t → t.done < npart
  /-- a part has track 1 iff exactly one entry names it -/
  assigned_iff : ∀ f t k, s.pool.task.lookup f = some t → k < npart →
    (t.track[k]? = some .assigned ↔ s.pool.assigned.countP (Assigned.names f k) = 1)
  /-- no entry names a part that is available, done or of an erased file -/
  entry : ∀ a ∈ s.pool.assigned, ∃ t, s.pool.task.lookup a.filename = some t ∧
    t.track[a.k]? = some .assigned
  erased_iff : ∀ f ∈ s.added, s.pool.task.lookup f = none ↔ ∀ k < npart, (f, k) ∈ s.finished
  numFinished_eq : s.pool.numFinished = s.finished.card
  isFinished_iff : s.pool.isFinished = true ↔ ∀ f ∈ s.added, ∀ k < npart, (f, k) ∈ s.finished

/-- A pool after `ClearRemain`: it is finished once no entry is left, and the calls
that may follow only take entries away. -/
structure Drained (p : WorkloadPool) : Prop where
  isFinished_iff : p.isFinished = true ↔ p.assigned = []
  get_eq : ∀ id order rnd now wl, p.get id order rnd now wl = (p, { wl with file := [] })
  finish_eq : ∀ id now, ∃ time, p.finish id now = some { p with
    assigned := p.assigned.filter (fun a => !decide (a.node = id)), time := time }
  reset_eq : ∀ id, p.reset id = some { p with
    assigned := p.assigned.filter (fun a => !decide (a.node = id)) }
  removeStraggler_eq : ∀ slow, p.removeStragglerBy slow = some { p with
    assigned := p.assigned.filter (fun a => !slow a) }

/-! ## The invariant -/

/-- The inductive form of the accounting: the track of every part in the pool says
whether it was finished, and an added file is missing only once all its parts were. -/
structure Inv (npart : ℕ) (added : Finset String) (finished : Finset (String × ℕ))
    (p : WorkloadPool) : Prop where
  sound : Sound npart p
  added_of_lookup : ∀ {f t}, p.task.lookup f = some t → f ∈ added
  finished_range : ∀ {f k}, (f, k) ∈ finished → f ∈ added ∧ k < npart
  done_iff : ∀ {f t k}, p.task.lookup f = some t → k < npart →
    (t.track[k]? = some .done ↔ (f, k) ∈ finished)
  finished_of_absent : ∀ {f k}, f ∈ added → p.task.lookup f = none → k < npart →
    (f, k) ∈ finished
  numFinished_eq : p.numFinished = finished.card

variable {npart : ℕ} {added : Finset String} {finished : Finset (String × ℕ)}
  {p p' : WorkloadPool} {s s' : Ledger}

theorem inv_clear (npart : ℕ) (p : WorkloadPool) : Inv npart ∅ ∅ p.clear where
  sound := sound_clear npart p
  added_of_lookup := by simp [clear]
  finished_range := by simp
  done_iff := by simp [clear]
  finished_of_absent := by simp
  numFinished_eq := by simp [clear]

/-- Adding one file while no part is finished yet. -/
theorem Inv.addFile (h : Inv npart added ∅ p) (hpos : 0 < npart) (id f : String) :
    Inv npart (insert f added) ∅
      { p with task := p.task.insert f (addedTask npart id f p) } := by
  have hlookup : ∀ g, g ≠ f →
      (p.task.insert f (addedTask npart id f p)).lookup g = p.task.lookup g :=
    fun g hg => Finmap.lookup_insert_of_ne _ hg
  refine ⟨h.sound.addFile hpos id f, ?_, by simp, ?_, ?_, h.numFinished_eq⟩
  · intro g t ht
    by_cases hg : g = f
    · simp [hg]
    · exact Finset.mem_insert_of_mem (h.added_of_lookup ((hlookup g hg).symm.trans ht))
  · intro g t k ht hk
    have hold := h.sound.trackAt_addFile id f g k
    rw [trackAt_of_lookup ht] at hold
    rw [hold]
    split_ifs with hg
    · simp [List.getElem?_replicate]
    · cases hp : p.task.lookup g with
      | none => simp [trackAt_of_absent hp]
      | some u => rw [trackAt_of_lookup hp, h.done_iff hp hk]
  · intro g k hg ht hk
    by_cases hgf : g = f
    · subst hgf
      simp at ht
    · have hmem : g ∈ added := by simpa [hgf] using hg
      exact h.finished_of_absent hmem ((hlookup g hgf).symm.trans ht) hk

/-- Handing out a part changes no part that is or becomes done. -/
theorem Inv.handOut {f id : String} {k : ℕ} {t : Task} (h : Inv npart added finished p)
    (ht : p.task.lookup f = some t) (hk : t.track[k]? = some .available) (now : ℚ) :
    Inv npart added finished (p.handOut id now f k t) := by
  have hlookup : ∀ g, g ≠ f →
      (p.handOut id now f k t).task.lookup g = p.task.lookup g :=
    fun g hg => Finmap.lookup_insert_of_ne _ hg
  refine ⟨h.sound.handOut ht hk id now, ?_, h.finished_range, ?_, ?_, h.numFinished_eq⟩
  · intro g u hu
    by_cases hg : g = f
    · exact hg ▸ h.added_of_lookup ht
    · exact h.added_of_lookup ((hlookup g hg).symm.trans hu)
  · intro g u j hu hj
    have htr := trackAt_handOut ht hk id now g j
    rw [trackAt_of_lookup hu] at htr
    rw [htr]
    split_ifs with hgj
    · obtain ⟨rfl, rfl⟩ := hgj
      rw [← h.done_iff ht hj, hk]
      simp
    · by_cases hg : g = f
      · subst hg
        rw [trackAt_of_lookup ht, h.done_iff ht hj]
      · have hu' := (hlookup g hg).symm.trans hu
        rw [trackAt_of_lookup hu', h.done_iff hu' hj]
  · intro g j hg hnone hj
    have hgf : g ≠ f := by
      rintro rfl
      simp [WorkloadPool.handOut] at hnone
    exact h.finished_of_absent hg ((hlookup g hgf).symm.trans hnone) hj

/-- No two entries hand out the same part. -/
theorem nodup_parts (h : Sound npart p) : (p.assigned.map part).Nodup := by
  rw [List.nodup_iff_count_le_one]
  rintro ⟨f, k⟩
  have hcount : (p.assigned.map part).count (f, k) =
      p.assigned.countP (Assigned.names f k) := by
    rw [List.count, List.countP_map]
    congr 1
    funext a
    rw [Bool.eq_iff_iff]
    simp [part]
  rw [hcount, h.entries_count]
  split <;> omega

theorem mem_held {id f : String} {k : ℕ} :
    (f, k) ∈ held p id ↔ ∃ a ∈ p.assigned, decide (a.node = id) = true ∧
      a.filename = f ∧ a.k = k := by
  simp [held, part, and_assoc]

theorem card_held (h : Sound npart p) (id : String) :
    (held p id).card = p.assigned.countP (fun a => a.node = id) := by
  have hnodup : ((p.assigned.filter fun a => a.node = id).map part).Nodup :=
    (nodup_parts h).sublist (List.Sublist.map _ List.filter_sublist)
  rw [held, List.toFinset_card_of_nodup hnodup, List.length_map, List.countP_eq_length_filter]

/-- Releasing entries as available: nothing becomes or stops being done. -/
theorem Inv.releaseAvailable {sel : Assigned → Bool} (h : Inv npart added finished p)
    (hs : Sound npart p') (hr : Released npart sel .available p.assigned p p') :
    Inv npart added finished p' := by
  refine ⟨hs, ?_, h.finished_range, ?_, ?_, ?_⟩
  · intro f t' ht'
    obtain ⟨t, ht, -⟩ := hr.lookup_some ht'
    exact h.added_of_lookup ht
  · intro f t' k ht' hk
    obtain ⟨t, ht, -, htrack⟩ := hr.lookup_some ht'
    rw [htrack k, ← h.done_iff ht hk]
    split_ifs with hsel
    · obtain ⟨a, ha, -, rfl, rfl⟩ := hsel
      have := h.sound.trackAt_of_mem ha
      rw [trackAt_of_lookup ht] at this
      simp [this]
    · rfl
  · intro f k hf hnone hk
    rcases hr.lookup_none hnone with hp | ⟨hm, -⟩
    · exact h.finished_of_absent hf hp hk
    · cases hm
  · rw [hr.numFinished, h.numFinished_eq]
    simp

/-- `Finish(id)`: exactly the parts `id` holds become finished. -/
theorem Inv.releaseDone {id : String} (h : Inv npart added finished p)
    (hs : Sound npart p')
    (hr : Released npart (fun a => a.node = id) .done p.assigned p p') :
    Inv npart added (finished ∪ held p id) p' := by
  have hrange : ∀ {f k}, (f, k) ∈ held p id →
      ∃ t, p.task.lookup f = some t ∧ t.track[k]? = some .assigned := by
    intro f k hfk
    obtain ⟨a, ha, -, rfl, rfl⟩ := mem_held.mp hfk
    exact lookup_of_trackAt (h.sound.trackAt_of_mem ha)
  have hlt : ∀ {f k}, (f, k) ∈ held p id → k < npart := by
    intro f k hfk
    obtain ⟨t, ht, hk⟩ := hrange hfk
    have := (List.getElem?_eq_some_iff.mp hk).1
    rwa [h.sound.track_length ht] at this
  refine ⟨hs, ?_, ?_, ?_, ?_, ?_⟩
  · intro f t' ht'
    obtain ⟨t, ht, -⟩ := hr.lookup_some ht'
    exact h.added_of_lookup ht
  · intro f k hfk
    rcases Finset.mem_union.mp hfk with hfk | hfk
    · exact h.finished_range hfk
    · obtain ⟨t, ht, -⟩ := hrange hfk
      exact ⟨h.added_of_lookup ht, hlt hfk⟩
  · intro f t' k ht' hk
    obtain ⟨t, ht, -, htrack⟩ := hr.lookup_some ht'
    rw [htrack k, Finset.mem_union, ← h.done_iff ht hk, mem_held]
    by_cases hsel : ∃ a ∈ p.assigned, decide (a.node = id) = true ∧ a.filename = f ∧ a.k = k
    · rw [if_pos hsel]
      exact iff_of_true rfl (.inr hsel)
    · rw [if_neg hsel]
      exact ⟨.inl, fun h => h.resolve_right hsel⟩
  · intro f k hf hnone hk
    rcases hr.lookup_none hnone with hp | ⟨-, hall⟩
    · exact Finset.mem_union_left _ (h.finished_of_absent hf hp hk)
    · rcases hall k hk with hdone | hsel
      · obtain ⟨t, ht, htk⟩ := lookup_of_trackAt hdone
        exact Finset.mem_union_left _ ((h.done_iff ht hk).mp htk)
      · exact Finset.mem_union_right _ (mem_held.mpr hsel)
  · have hdisj : Disjoint finished (held p id) := by
      rw [Finset.disjoint_right]
      rintro ⟨f, k⟩ hfk hfin
      obtain ⟨t, ht, hk⟩ := hrange hfk
      rw [← h.done_iff ht (hlt hfk), hk] at hfin
      cases hfin
    rw [hr.numFinished, h.numFinished_eq, Finset.card_union_of_disjoint hdisj, card_held h.sound]
    simp

/-- The inductive accounting of the pool, read in the terms of its fields. -/
theorem Inv.accounting (h : Inv npart s.added s.finished s.pool) (hinit : s.pool.inited = true) :
    Accounting npart s := by
  have herased : ∀ f ∈ s.added,
      s.pool.task.lookup f = none ↔ ∀ k < npart, (f, k) ∈ s.finished := by
    intro f hf
    refine ⟨fun hnone k hk => h.finished_of_absent hf hnone hk, fun hall => ?_⟩
    by_contra hne
    obtain ⟨t, ht⟩ := Option.ne_none_iff_exists'.mp hne
    have hlen := h.sound.track_length ht
    have hfull : t.track.count .done = t.track.length := by
      rw [List.count_eq_length]
      intro c hc
      obtain ⟨k, hk⟩ := List.mem_iff_getElem?.mp hc
      have hkn : k < npart := hlen ▸ (List.getElem?_eq_some_iff.mp hk).1
      rw [(h.done_iff ht hkn).mpr (hall k hkn), Option.some.injEq] at hk
      exact hk
    have hlt := h.sound.done_lt ht
    rw [h.sound.done_eq ht] at hlt
    omega
  refine ⟨fun f t => h.sound.track_length, fun f t => h.sound.done_eq,
    fun f t => h.sound.done_lt, ?_, ?_, herased, h.numFinished_eq, ?_⟩
  · intro f t k ht _
    rw [h.sound.entries_count, trackAt_of_lookup ht]
    by_cases hk : t.track[k]? = some .assigned <;> simp [hk]
  · intro a ha
    exact lookup_of_trackAt (h.sound.trackAt_of_mem ha)
  · constructor
    · intro hfin f hf
      have htask : s.pool.task = ∅ := by
        simp only [isFinished, Bool.and_eq_true, decide_eq_true_eq] at hfin
        exact hfin.1.2
      exact (herased f hf).mp (by rw [htask, Finmap.lookup_empty])
    · intro hall
      have hnone : ∀ f, s.pool.task.lookup f = none := by
        intro f
        by_contra hne
        obtain ⟨t, ht⟩ := Option.ne_none_iff_exists'.mp hne
        have hf := h.added_of_lookup ht
        exact hne ((herased f hf).mpr (hall f hf))
      have htask : s.pool.task = ∅ := Finmap.ext_lookup fun f => by
        rw [hnone f, Finmap.lookup_empty]
      have hassigned : s.pool.assigned = [] := by
        rw [List.eq_nil_iff_forall_not_mem]
        intro a ha
        have := h.sound.trackAt_of_mem ha
        rw [trackAt_of_absent (hnone _)] at this
        cases this
      simp [isFinished, hinit, htask, hassigned]

/-! ## After `ClearRemain` -/

/-- With no task left, releasing entries only drops them. -/
theorem releaseGo_empty (sel : Assigned → Bool) (m : Track) (rest : List Assigned) :
    ∀ (kept : List Assigned) (p : WorkloadPool), p.task = ∅ →
      releaseGo sel m kept rest p =
        some { p with assigned := kept ++ rest.filter (fun a => !sel a) } := by
  induction rest with
  | nil => intro kept p _; simp [releaseGo]
  | cons a rest ih =>
      intro kept p hp
      by_cases ha : sel a = true
      · simp [releaseGo, ha, mark, hp, ih kept p hp]
      · simp [releaseGo, ha, ih (kept ++ [a]) p hp]

theorem drained_of_empty (htask : p.task = ∅) (hinit : p.inited = true) : Drained p := by
  have hrelease : ∀ sel m, p.release sel m =
      some { p with assigned := p.assigned.filter (fun a => !sel a) } := by
    intro sel m
    simpa [release] using releaseGo_empty sel m p.assigned [] p htask
  refine ⟨?_, ?_, ?_, ?_, ?_⟩
  · simp [isFinished, htask, hinit]
  · intro id order rnd now wl
    rcases get_cases id order rnd now p wl with ⟨h, -⟩ | ⟨f, k, t, ht, -⟩
    · exact h
    · rw [htask, Finmap.lookup_empty] at ht
      cases ht
  · intro id now
    exact ⟨_, by simp [finish, WorkloadPool.set, hrelease]; rfl⟩
  · intro id
    simp [reset, WorkloadPool.set, hrelease]
  · intro slow
    simp [removeStragglerBy, hrelease]

/-! ## Runs -/

/-- What every state of a run satisfies. -/
structure RunInv (npart : ℕ) (s : Ledger) : Prop where
  inv : s.phase ≠ .drained → Inv npart s.added s.finished s.pool
  fresh : s.phase = .cleared ∨ s.phase = .adding → s.finished = ∅
  inited : s.phase ≠ .cleared → s.pool.inited = true
  drained : s.phase = .drained → s.pool.task = ∅

theorem runInv_start (npart : ℕ) (p : WorkloadPool) : RunInv npart (start p) where
  inv := fun _ => inv_clear npart p
  fresh := fun _ => rfl
  inited := fun h => absurd rfl h
  drained := fun h => by cases h

@[simp] theorem mixed_eq_drained {c : PoolPhase} : mixed c = .drained ↔ c = .drained := by
  cases c <;> decide

theorem mixed_ne_cleared (c : PoolPhase) : mixed c ≠ .cleared := by
  cases c <;> decide

theorem mixed_ne_adding (c : PoolPhase) : mixed c ≠ .adding := by
  cases c <;> decide

/-- Only `Add` leads to a state from which files can still be added. -/
theorem eq_add_of_phase {op : PoolOp} (hs : step npart s op = some s')
    (hphase : s'.phase = .cleared ∨ s'.phase = .adding) : ∃ files id, op = .add files id := by
  have hmixed : ∀ c, ¬ (mixed c = .cleared ∨ mixed c = .adding) := by
    rintro c (h | h)
    · exact mixed_ne_cleared c h
    · exact mixed_ne_adding c h
  cases op with
  | add files id => exact ⟨files, id, rfl⟩
  | get id order rnd now wl =>
      cases hs
      exact absurd hphase (hmixed _)
  | finish id now =>
      obtain ⟨p, -, rfl⟩ := Option.map_eq_some_iff.mp hs
      exact absurd hphase (hmixed _)
  | reset id =>
      obtain ⟨p, -, rfl⟩ := Option.map_eq_some_iff.mp hs
      exact absurd hphase (hmixed _)
  | removeStraggler slow =>
      obtain ⟨p, -, rfl⟩ := Option.map_eq_some_iff.mp hs
      exact absurd hphase (hmixed _)
  | clearRemain =>
      cases hs
      rcases hphase with h | h <;> cases h

/-- A call that keeps the accounting, takes the phase to `mixed` and leaves a drained
pool drained keeps the run invariant. -/
theorem RunInv.mix {fin : Finset (String × ℕ)} (hinit : p.inited = true)
    (hinv : s.phase ≠ .drained → Inv npart s.added fin p)
    (hdr : s.phase = .drained → p.task = ∅) :
    RunInv npart { s with pool := p, phase := mixed s.phase, finished := fin } where
  inv := fun h => hinv (by simpa using h)
  fresh := by
    rintro (h | h)
    · exact absurd h (mixed_ne_cleared _)
    · exact absurd h (mixed_ne_adding _)
  inited := fun _ => hinit
  drained := fun h => hdr (by simpa using h)

/-- **One call.** No allowed call fails a `CHECK`, and each keeps the run invariant. -/
theorem RunInv.step (h : RunInv npart s) (hpos : 0 < npart) {op : PoolOp}
    (hok : s.Allowed op) : ∃ s', step npart s op = some s' ∧ RunInv npart s' := by
  cases op with
  | add files id =>
      have hphase : s.phase ≠ .drained := by
        rcases hok with h | h <;> rw [h] <;> decide
      have hbase : Inv npart s.added ∅ { s.pool with inited := true } := by
        have hinv := h.inv hphase
        rw [h.fresh hok] at hinv
        exact ⟨hinv.sound.congr rfl rfl, hinv.added_of_lookup, hinv.finished_range,
          hinv.done_iff, hinv.finished_of_absent, hinv.numFinished_eq⟩
      obtain ⟨p', hadd, -, hinit, hinv⟩ := (h.inv hphase).sound.add_induct hpos id
        (P := fun added p => Inv npart added ∅ p)
        (fun _ _ f _ hP => hP.addFile hpos id f) files s.added hbase
      refine ⟨_, by simp [Ledger.step, hadd]; rfl, ?_⟩
      refine ⟨fun _ => ?_, fun _ => h.fresh hok, fun _ => hinit, fun hc => by cases hc⟩
      simpa [h.fresh hok] using hinv
  | get id order rnd now wl =>
      refine ⟨_, rfl, ?_⟩
      have hinit := h.inited hok.1
      rcases get_cases id order rnd now s.pool wl with ⟨hget, -⟩ | ⟨f, k, t, ht, -, hk, hget⟩
      · rw [hget]
        exact RunInv.mix hinit h.inv h.drained
      · rw [hget]
        refine RunInv.mix hinit (fun hph => (h.inv hph).handOut ht hk now) fun hph => ?_
        rw [h.drained hph, Finmap.lookup_empty] at ht
        cases ht
  | finish id now =>
      have hinit := h.inited hok
      by_cases hph : s.phase = .drained
      · obtain ⟨time, hfin⟩ := (drained_of_empty (h.drained hph) hinit).finish_eq id now
        refine ⟨_, by simp [Ledger.step, hfin]; rfl, ?_⟩
        exact RunInv.mix hinit (fun hne => absurd hph hne) fun _ => h.drained hph
      · have hinv := h.inv hph
        obtain ⟨p', hfin, hs, -, hrel⟩ := hinv.sound.finish id now
        refine ⟨_, by simp [Ledger.step, hfin]; rfl, ?_⟩
        exact RunInv.mix (hrel.inited.trans hinit) (fun _ => hinv.releaseDone hs hrel)
          fun hd => absurd hd hph
  | reset id =>
      have hinit := h.inited hok
      by_cases hph : s.phase = .drained
      · have hres := (drained_of_empty (h.drained hph) hinit).reset_eq id
        refine ⟨_, by simp [Ledger.step, hres]; rfl, ?_⟩
        exact RunInv.mix hinit (fun hne => absurd hph hne) fun _ => h.drained hph
      · have hinv := h.inv hph
        obtain ⟨p', hres, hs, -, hrel⟩ := hinv.sound.reset id
        refine ⟨_, by simp [Ledger.step, hres]; rfl, ?_⟩
        exact RunInv.mix (hrel.inited.trans hinit) (fun _ => hinv.releaseAvailable hs hrel)
          fun hd => absurd hd hph
  | removeStraggler slow =>
      have hinit := h.inited hok
      by_cases hph : s.phase = .drained
      · have hres := (drained_of_empty (h.drained hph) hinit).removeStraggler_eq slow
        refine ⟨_, by simp [Ledger.step, hres]; rfl, ?_⟩
        exact RunInv.mix hinit (fun hne => absurd hph hne) fun _ => h.drained hph
      · have hinv := h.inv hph
        obtain ⟨p', hres, hs, -, hrel⟩ := hinv.sound.removeStragglerBy slow
        refine ⟨_, by simp [Ledger.step, hres]; rfl, ?_⟩
        exact RunInv.mix (hrel.inited.trans hinit) (fun _ => hinv.releaseAvailable hs hrel)
          fun hd => absurd hd hph
  | clearRemain =>
      refine ⟨_, rfl, ?_⟩
      refine ⟨fun hne => absurd rfl hne, ?_, fun _ => h.inited hok, fun _ => rfl⟩
      rintro (hc | hc) <;> cases hc

theorem runInv_of_reach (hpos : 0 < npart) {p₀ : WorkloadPool}
    (hr : Reach (step npart) Allowed (start p₀) s) : RunInv npart s := by
  refine hr.invariant (runInv_start npart p₀) ?_
  intro s op s' h hok hstep
  obtain ⟨s'', hs'', hinv⟩ := h.step hpos hok
  rw [hstep, Option.some.injEq] at hs''
  exact hs'' ▸ hinv

/-- **Workload pool accounting.** In every state a run reaches after its first `Add`,
the pool's fields agree with the history; after a `ClearRemain` the pool is drained;
and no call the run may make next fails a `CHECK`. -/
theorem pool_accounting (npart : ℕ) (hpos : 0 < npart) (p₀ : WorkloadPool) (s : Ledger)
    (hr : Reach (step npart) Allowed (start p₀) s) :
    (s.phase = .adding ∨ s.phase = .mixing → Accounting npart s) ∧
    (s.phase = .drained → Drained s.pool) ∧
    ∀ op, s.Allowed op → (step npart s op).isSome := by
  have h := runInv_of_reach hpos hr
  refine ⟨?_, ?_, ?_⟩
  · intro hphase
    have hne : s.phase ≠ .drained ∧ s.phase ≠ .cleared := by
      rcases hphase with hc | hc <;> rw [hc] <;> decide
    exact (h.inv hne.1).accounting (h.inited hne.2)
  · intro hd
    exact drained_of_empty (h.drained hd) (h.inited (by rw [hd]; decide))
  · intro op hok
    obtain ⟨s', hs', -⟩ := h.step hpos hok
    simp [hs']

/-- Two parts of one file, added twice: a part comes back from a failed worker and
both are finished by the other one. -/
def sampleOps : List PoolOp :=
  [.add [{ filename := "f" }, { filename := "f" }] "", .add [{ filename := "f" }] "",
    .get "A" ["f"] 0 0 { type := .train, dataPass := 0 },
    .get "B" ["f"] 0 1 { type := .train, dataPass := 0 }, .reset "A",
    .get "B" ["f"] 0 2 { type := .train, dataPass := 0 }, .finish "B" 3]

theorem pool_accounting_sample : ∃ s, Reach (step 2) Allowed (start {}) s ∧
    s.phase = .mixing ∧ s.pool.isFinished = true ∧ Accounting 2 s := by
  have hrun : (runs (fun s op => if Allowed s op then step 2 s op else none) (start {})
      sampleOps).any (fun s => s.phase = .mixing ∧ s.pool.isFinished = true) = true := by
    decide
  obtain ⟨s, hs, htest⟩ := Reach.exists_of_runs hrun
  obtain ⟨hphase, hfin⟩ := of_decide_eq_true htest
  exact ⟨s, hs, hphase, hfin,
    (pool_accounting 2 (by decide) {} s hs).1 (.inr hphase)⟩

end Ledger

end Difacto.Base
