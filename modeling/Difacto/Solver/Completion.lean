import Difacto.Solver.Attribution

/-!
# What a finished pass has processed

`PoolDone npart D added p` relates a pool to a predicate `D` on parts: every part the
pool counts as done satisfies `D`, and so does every part of an added file that has
left the pool. The pool's operations keep it, `Finish` as long as the parts it marks
satisfy `D`. With `D` the parts processed in the current pass, the attribution
invariant gives just that, and a pool that `IsFinished` has all its parts processed.

## Main results

* `finish_attributed` — along runs that meet `Answered`, every part `Finish` marks was
  processed in this pass by the worker that is credited, and `IsFinished` means that
  all parts of the pass were processed.
* `finish_misattributed` — without the condition, a part is marked done that nobody
  processed in the pass.
-/

namespace Difacto.Solver

open Base Base.WorkloadPool Lib

/-! ## Done parts of a pool -/

section PoolDone

variable {npart : ℕ} {D : String → ℕ → Prop} {added : Finset String} {p p' : WorkloadPool}
  {f id : String} {k : ℕ} {t : Task} {sel : Assigned → Bool} {m : Track}

/-- The parts a pool counts as done satisfy `D`. -/
structure PoolDone (npart : ℕ) (D : String → ℕ → Prop) (added : Finset String)
    (p : WorkloadPool) : Prop where
  sound : Sound npart p
  done : ∀ f k, p.trackAt f k = some .done → D f k
  erased : ∀ f ∈ added, p.task.lookup f = none → ∀ k < npart, D f k

theorem poolDone_clear (npart : ℕ) (D : String → ℕ → Prop) (p : WorkloadPool) :
    PoolDone npart D ∅ p.clear :=
  ⟨sound_clear npart p, by simp [trackAt, WorkloadPool.clear], by simp⟩

theorem PoolDone.mono {D' : String → ℕ → Prop} (h : PoolDone npart D added p)
    (hD : ∀ f k, D f k → D' f k) : PoolDone npart D' added p :=
  ⟨h.sound, fun f k hk => hD f k (h.done f k hk),
    fun f hf hnone k hk => hD f k (h.erased f hf hnone k hk)⟩

/-- A new file has no done part. -/
theorem PoolDone.addFile (h : PoolDone npart D added p) (hpos : 0 < npart) (id f : String) :
    PoolDone npart D (insert f added)
      { p with task := p.task.insert f (addedTask npart id f p) } := by
  refine ⟨h.sound.addFile hpos id f, fun g k hk => ?_, fun g hg hnone k hk => ?_⟩
  · rw [h.sound.trackAt_addFile] at hk
    split at hk
    · simp [List.getElem?_replicate] at hk
    · exact h.done g k hk
  · have hne : g ≠ f := by
      intro heq
      subst heq
      simp at hnone
    have hin : g ∈ added := by simpa [hne] using hg
    exact h.erased g hin (by simpa [Finmap.lookup_insert_of_ne _ hne] using hnone) k hk

/-- `Add` leaves no part done that was not done before. -/
theorem PoolDone.add (h : PoolDone npart D added p) (hpos : 0 < npart)
    {files : List Workload.File} (hp : p.add files npart id = some p') :
    PoolDone npart D (added ∪ (files.map (·.filename)).toFinset) p' := by
  have hinit : PoolDone npart D added { p with inited := true } :=
    ⟨h.sound.congr rfl rfl, h.done, h.erased⟩
  obtain ⟨q, hq, -, -, hdone⟩ := h.sound.add_induct hpos id
    (P := fun added p => PoolDone npart D added p)
    (fun _ _ f _ hP => hP.addFile hpos id f) files added hinit
  rw [hq, Option.some.injEq] at hp
  exact hp ▸ hdone

/-- The loop of `Set` and `RemoveStraggler`: what it marks done has to satisfy `D`. -/
theorem PoolDone.released (h : PoolDone npart D added p) (hsound : Sound npart p')
    (hrel : Released npart sel m p.assigned p p')
    (hD : m = .done → ∀ a ∈ p.assigned, sel a = true → D a.filename a.k) :
    PoolDone npart D added p' := by
  refine ⟨hsound, fun g j hj => ?_, fun g hg hnone j hj => ?_⟩
  · obtain ⟨t', ht', htrack'⟩ := lookup_of_trackAt hj
    obtain ⟨t, ht, -, htrack⟩ := hrel.lookup_some ht'
    rw [htrack j] at htrack'
    split at htrack'
    · rename_i hex
      obtain ⟨a, ha, hsel, rfl, rfl⟩ := hex
      exact hD (Option.some.inj htrack') a ha hsel
    · exact h.done g j (by rw [trackAt_of_lookup ht, htrack'])
  · rcases hrel.lookup_none hnone with hold | ⟨hm, hall⟩
    · exact h.erased g hg hold j hj
    · rcases hall j hj with hdone | ⟨a, ha, hsel, rfl, rfl⟩
      · exact h.done g j hdone
      · exact hD hm a ha hsel

theorem PoolDone.handOut (h : PoolDone npart D added p) (ht : p.task.lookup f = some t)
    (hk : t.track[k]? = some .available) (id : String) (now : ℚ) :
    PoolDone npart D added (p.handOut id now f k t) := by
  refine ⟨h.sound.handOut ht hk id now, fun g j hj => ?_, fun g hg hnone j hj => ?_⟩
  · rw [trackAt_handOut ht hk] at hj
    split at hj
    · cases hj
    · exact h.done g j hj
  · have hne : g ≠ f := by
      intro heq
      subst heq
      simp [WorkloadPool.handOut] at hnone
    rw [WorkloadPool.handOut, Finmap.lookup_insert_of_ne _ hne] at hnone
    exact h.erased g hg hnone j hj

end PoolDone

namespace Sys

variable {c : Cluster} {s s' : Sys} {act : Act}

/-- Some worker has processed part `k` of the file `f` in the current pass. -/
def Processed (s : Sys) (f : String) (k : ℕ) : Prop :=
  ∃ id, { node := id, filename := f, k := k, pass := s.pass } ∈ s.completed

/-- In a pass whose rest was not thrown away, done parts were processed. -/
def DoneInv (c : Cluster) (s : Sys) : Prop :=
  s.stopped = false → PoolDone c.npart s.Processed s.added s.pool

/-- A step that touches neither the pool nor the pass. -/
theorem DoneInv.congr (h : s.DoneInv c) (hpool : s'.pool = s.pool) (hadded : s'.added = s.added)
    (hpass : s'.pass = s.pass) (hcomp : ∀ x ∈ s.completed, x ∈ s'.completed)
    (hstop : s'.stopped = s.stopped) : s'.DoneInv c := by
  intro hs
  rw [hpool, hadded]
  refine (h (hstop ▸ hs)).mono fun f k hk => ?_
  obtain ⟨id, hid⟩ := hk
  exact ⟨id, hpass ▸ hcomp _ hid⟩

theorem DoneInv.stepMain (h : s.DoneInv c) (hs' : s.stepMain c act = some s') :
    s'.DoneInv c := by
  cases act with
  | clear =>
      simp only [Sys.stepMain] at hs'
      split at hs' <;> cases hs'
      exact fun _ => poolDone_clear c.npart _ s.pool
  | add files =>
      simp only [Sys.stepMain] at hs'
      split at hs'
      · simp only [Option.map_eq_some_iff] at hs'
        obtain ⟨p, hp, rfl⟩ := hs'
        intro hstop
        have hadd := (h hstop).add c.npart_pos hp
        simp only [matched, List.map_map, Function.comp_def, List.map_id'] at hadd
        exact hadd
      · cases hs'
  | stopDispatch =>
      simp only [Sys.stepMain] at hs'
      split at hs' <;> cases hs'
      exact fun hstop => by cases hstop
  | iterate _ _ _ | matchFiles | waited | broadcast | finished =>
      simp only [Sys.stepMain] at hs'
      split at hs' <;> cases hs'
      exact h.congr rfl rfl rfl (by simp [sendGroup]) rfl
  | _ => simp [Sys.stepMain] at hs'

/-- `Finish` is the one step that marks parts done; the attribution invariant says that
they were processed. -/
theorem DoneInv.stepExec (h : s.DoneInv c) (hattr : s.AttrInv)
    (hs' : s.stepExec c act = some s') : s'.DoneInv c := by
  cases act with
  | pick id =>
      simp only [Sys.stepExec] at hs'
      split at hs'
      · split at hs'
        · cases hs'
        · split at hs'
          · cases hs'
            exact h.congr rfl rfl rfl (by simp [setLink]) rfl
          · split at hs' <;> cases hs' <;> exact h.congr rfl rfl rfl (by simp [setLink]) rfl
      · cases hs'
  | addLocal =>
      simp only [Sys.stepExec] at hs'
      split at hs'
      · simp only [Option.map_eq_some_iff] at hs'
        obtain ⟨p, hp, rfl⟩ := hs'
        exact fun hstop => (h hstop).add c.npart_pos hp
      · cases hs'
  | finish now =>
      simp only [Sys.stepExec] at hs'
      split at hs'
      · rename_i id hexec
        simp only [Option.map_eq_some_iff] at hs'
        obtain ⟨p, hp, rfl⟩ := hs'
        intro hstop
        have hdone := h hstop
        obtain ⟨q, hq, hsound, -, hrel⟩ := hdone.sound.finish id now
        rw [hq, Option.some.injEq] at hp
        subst hp
        refine hdone.released hsound hrel fun _ a ha hsel => ?_
        have hnode : a.node = id := by simpa using hsel
        exact ⟨a.node, (hattr.entries a ha).acked (.inr (hnode ▸ hexec))⟩
      · cases hs'
  | get order rnd now =>
      simp only [Sys.stepExec] at hs'
      split at hs'
      · rename_i id wl hexec
        split at hs'
        · cases hs'
          intro hstop
          have hdone := h hstop
          rcases get_cases id order rnd now s.pool wl with ⟨hget, -⟩ | ⟨f, k, t, ht, -, hk, hget⟩
          · simp only [hget]
            exact hdone
          · simp only [hget]
            exact hdone.handOut ht hk id now
        · cases hs'
      · cases hs'
  | copy | send =>
      simp only [Sys.stepExec] at hs'
      split at hs' <;> cases hs'
      exact h.congr rfl rfl rfl (by simp [setLink]) rfl
  | _ => simp [Sys.stepExec] at hs'

theorem DoneInv.stepRest (h : s.DoneInv c) (hs' : s.stepRest c act = some s') :
    s'.DoneInv c := by
  cases act with
  | receive id =>
      simp only [Sys.stepRest] at hs'
      split at hs' <;> cases hs'
      exact h.congr rfl rfl rfl (by simp [setLink]) rfl
  | reply id files =>
      simp only [Sys.stepRest] at hs'
      split at hs' <;> cases hs'
      exact h.congr rfl rfl rfl (by simp +contextual) rfl
  | removeStraggler slow =>
      simp only [Sys.stepRest, Option.map_eq_some_iff] at hs'
      obtain ⟨p, hp, rfl⟩ := hs'
      intro hstop
      have hdone := h hstop
      obtain ⟨q, hq, hsound, -, hrel⟩ := hdone.sound.removeStragglerBy slow
      rw [hq, Option.some.injEq] at hp
      subst hp
      exact hdone.released hsound hrel fun hm => by cases hm
  | reset id =>
      simp only [Sys.stepRest] at hs'
      split at hs'
      · simp only [Option.map_eq_some_iff] at hs'
        obtain ⟨p, hp, rfl⟩ := hs'
        intro hstop
        have hdone := h hstop
        obtain ⟨q, hq, hsound, -, hrel⟩ := hdone.sound.reset id
        rw [hq, Option.some.injEq] at hp
        subst hp
        exact hdone.released hsound hrel fun hm => by cases hm
      · cases hs'
  | crash id | removeNode id =>
      simp only [Sys.stepRest] at hs'
      split at hs' <;> cases hs'
      exact h.congr rfl rfl rfl (by simp [setLink]) rfl
  | _ => simp [Sys.stepRest] at hs'

theorem DoneInv.step (h : s.DoneInv c) (hattr : s.AttrInv) (hs' : s.step c act = some s') :
    s'.DoneInv c := by
  cases act with
  | iterate _ _ _ | clear | matchFiles | waited | add _ | broadcast | finished | stopDispatch =>
      simp only [Sys.step] at hs'
      exact h.stepMain hs'
  | pick _ | addLocal | finish _ | copy | get _ _ _ | send =>
      simp only [Sys.step] at hs'
      exact h.stepExec hattr hs'
  | receive _ | reply _ _ | removeStraggler _ | crash _ | reset _ | removeNode _ =>
      simp only [Sys.step] at hs'
      exact h.stepRest hs'

theorem doneInv_init (c : Cluster) (pool : WorkloadPool) : (init pool).DoneInv c :=
  fun _ => poolDone_clear c.npart _ pool

/-- What holds in every state of a run whose broadcasts wait for the answers. -/
structure CreditInv (c : Cluster) (s : Sys) : Prop where
  attr : s.AttrInv
  done : s.DoneInv c

theorem creditInv_of_reach {pool : WorkloadPool}
    (h : Reach (step c) (Answered c) (init pool) s) : CreditInv c s := by
  refine h.invariant ⟨attrInv_init pool, doneInv_init c pool⟩ ?_
  intro s act s' hinv hok hs'
  exact ⟨hinv.attr.step hok hs', hinv.done.step hinv.attr hs'⟩

/-- **Completion attribution.** Over any number of passes, if every broadcast of the
empty workload finds the live workers with nothing left to answer, then whenever the
executor is about to call `Finish(id)`, the worker `id` has processed every part that
this call marks done, in the current pass. And whenever `IsFinished` holds in a pass
that was not stopped, every part of the pass has been processed. -/
theorem finish_attributed {pool : WorkloadPool}
    (h : Reach (step c) (Answered c) (init pool) s) :
    (∀ id, s.exec = .finish id → ∀ a ∈ s.pool.assigned, a.node = id → s.Completed a) ∧
      (s.pool.isFinished = true → s.stopped = false →
        ∀ f ∈ s.added, ∀ k < c.npart, s.Processed f k) := by
  obtain ⟨hattr, hdone⟩ := creditInv_of_reach h
  refine ⟨?_, ?_⟩
  · intro id hexec a ha hnode
    exact (hattr.entries a ha).acked (.inr (hnode ▸ hexec))
  · intro hfin hstop f hf k hk
    have htask : s.pool.task = ∅ := by
      simp only [isFinished, Bool.and_eq_true, decide_eq_true_eq] at hfin
      exact hfin.1.2
    refine (hdone hstop).erased f hf ?_ k hk
    rw [htask, Finmap.lookup_empty]

/-- A pass in which `A` gets the only part and answers. -/
def onePass : List Act :=
  dispatch 0 ++ serve "A" ["f"] ++ [.send, .receive "A", .reply "A" [], .pick "A"]

/-- Along `onePass` the broadcast waits for nothing, the part goes to `A` and `A` has
processed it when `Finish` is called; after that the pass is finished. -/
theorem finish_attributed_onePass :
    (∃ s, Reach (step twoWorkers) (Answered twoWorkers) (init {}) s ∧ s.exec = .finish "A" ∧
      ∃ a ∈ s.pool.assigned, a.node = "A" ∧ s.Completed a) ∧
    ∃ s, Reach (step twoWorkers) (Answered twoWorkers) (init {}) s ∧
      s.pool.isFinished = true ∧ "f" ∈ s.added ∧ s.Processed "f" 0 := by
  have hpick : (runs (fun s act => if Answered twoWorkers s act then step twoWorkers s act
      else none) (init {}) onePass).any
      (fun s => s.exec = .finish "A" ∧ ∃ a ∈ s.pool.assigned, a.node = "A") = true := by
    decide
  have hdone : (runs (fun s act => if Answered twoWorkers s act then step twoWorkers s act
      else none) (init {}) (onePass ++ [.finish 0])).any
      (fun s => s.pool.isFinished = true ∧ s.stopped = false ∧ "f" ∈ s.added) = true := by
    decide
  refine ⟨?_, ?_⟩
  · obtain ⟨s, hs, htest⟩ := Reach.exists_of_runs hpick
    obtain ⟨hexec, a, ha, hnode⟩ := of_decide_eq_true htest
    exact ⟨s, hs, hexec, a, ha, hnode, (finish_attributed hs).1 "A" hexec a ha hnode⟩
  · obtain ⟨s, hs, htest⟩ := Reach.exists_of_runs hdone
    obtain ⟨hfin, hstop, hadded⟩ := of_decide_eq_true htest
    exact ⟨s, hs, hfin, hadded, (finish_attributed hs).2 hfin hstop "f" hadded 0 (by decide)⟩

/-- `B` answers the broadcast of the first pass only in the second one. -/
def stalePass : List Act :=
  onePass ++ [.finish 0, .copy, .get [] 0 0, .finished] ++ dispatch 1 ++
    serve "B" ["f"] ++ [.send, .receive "B", .reply "B" [], .pick "B"]

/-- The second pass is broadcast while `B` still has the empty workload of the first
pass to answer. That answer gets `B` the part, and the answer to the second broadcast
is credited for it: `IsFinished` holds although nobody processed anything in this
pass. -/
theorem finish_misattributed : ∃ s s',
    Reach (step twoWorkers) anyStep (init {}) s ∧
      s.exec = .finish "B" ∧ (∃ a ∈ s.pool.assigned, a.node = "B" ∧ ¬ s.Completed a) ∧
      step twoWorkers s (.finish 0) = some s' ∧ s'.pool.isFinished = true ∧
      s'.stopped = false ∧ ∃ f ∈ s'.added, ∃ k < twoWorkers.npart, ¬ s'.Processed f k := by
  have hrun : (runs (fun s act => if anyStep s act then step twoWorkers s act else none)
      (init {}) stalePass).any (fun s => s.exec = .finish "B" ∧
        (∃ a ∈ s.pool.assigned, a.node = "B" ∧ ¬ s.Completed a) ∧
        (step twoWorkers s (.finish 0)).any (fun s' => s'.pool.isFinished = true ∧
          s'.stopped = false ∧ "f" ∈ s'.added ∧ ∀ x ∈ s'.completed, x.pass ≠ s'.pass)) = true := by
    decide
  obtain ⟨s, hs, htest⟩ := Reach.exists_of_runs hrun
  obtain ⟨hexec, hentry, hfin⟩ := of_decide_eq_true htest
  obtain ⟨s', hs', htest'⟩ := (Option.any_eq_true _ _).mp hfin
  obtain ⟨hfin', hstop, hadded, hold⟩ := of_decide_eq_true htest'
  refine ⟨s, s', hs, hexec, hentry, hs', hfin', hstop, "f", hadded, 0, by decide, ?_⟩
  intro hproc
  obtain ⟨id, hid⟩ := hproc
  exact hold _ hid rfl

end Sys

end Difacto.Solver
