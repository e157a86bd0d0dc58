import Difacto.Solver.Messages

/-!
# No stuck dispatch

A worker is offered a part only in reaction to its own ack. So an available part that
some live worker can read is handed out eventually only if one of the live workers
that can read it still has a workload request to answer: it is *attended*. The
broadcast at the start of a pass makes every part attended, and taking up an ack keeps
it so. A part that comes back to the pool by `Reset` or `RemoveStraggler`, and a crash,
can leave a part unattended; `Reoffered` is the condition that they do not.

## Main results

* `not_stuck` — no run that meets `Reoffered` reaches a stuck state.
* `stuck_reachable` — without the condition such a state is reached.
-/

namespace Difacto.Solver

open Base Base.WorkloadPool Lib

/-! ## Attended parts of a pool -/

section Attended

variable {npart : ℕ} {L A L' A' : Finset String} {p p' : WorkloadPool} {t t' : Task}
  {f id : String} {k : ℕ} {sel : Assigned → Bool} {m : Track}

/-- If a worker of `L` can read the file, one of `A` can. -/
def Attended (L A : Finset String) (t : Task) : Prop :=
  (∃ i ∈ L, t.capable i) → ∃ j ∈ A, t.capable j

instance (L A : Finset String) (t : Task) : Decidable (Attended L A t) :=
  inferInstanceAs (Decidable (_ → _))

/-- Every file with an available part is attended. -/
def AllAttended (L A : Finset String) (p : WorkloadPool) : Prop :=
  ∀ f ∈ p.task.keys, ∀ t ∈ p.task.lookup f, .available ∈ t.track → Attended L A t

instance (L A : Finset String) (p : WorkloadPool) : Decidable (AllAttended L A p) :=
  inferInstanceAs (Decidable (∀ f ∈ p.task.keys, _))

theorem allAttended_iff : AllAttended L A p ↔
    ∀ f t, p.task.lookup f = some t → .available ∈ t.track → Attended L A t := by
  constructor
  · intro h f t ht
    exact h f (Finmap.mem_keys.mpr (Finmap.mem_of_lookup_eq_some ht)) t ht
  · intro h f _ t ht
    exact h f t ht

theorem Attended.congr (h : Attended L A t) (hnode : t'.node = t.node) : Attended L A t' := by
  simpa only [Attended, Task.capable, hnode] using h

theorem AllAttended.mono (h : AllAttended L A p) (hL : L' ⊆ L) (hA : A ⊆ A') :
    AllAttended L' A' p := by
  intro f hf t ht hav hcap
  obtain ⟨i, hi, hci⟩ := hcap
  obtain ⟨j, hj, hcj⟩ := h f hf t ht hav ⟨i, hL hi, hci⟩
  exact ⟨j, hA hj, hcj⟩

/-- A worker that no file can be read by need not attend. -/
theorem AllAttended.erase (h : AllAttended L A p) (id : String)
    (hno : ∀ f t, p.task.lookup f = some t → .available ∈ t.track → ¬ t.capable id) :
    AllAttended L (A.erase id) p := by
  intro f hf t ht hav hcap
  obtain ⟨j, hj, hcj⟩ := h f hf t ht hav hcap
  have hne : j ≠ id := by
    intro heq
    exact hno f t ht hav (heq ▸ hcj)
  exact ⟨j, Finset.mem_erase.mpr ⟨hne, hj⟩, hcj⟩

/-- The loop of `Set` and `RemoveStraggler`: what it makes available has to be
attended. -/
theorem AllAttended.released (h : AllAttended L A p)
    (hrel : Released npart sel m p.assigned p p')
    (hm : m = .available → ∀ a ∈ p.assigned, sel a = true →
      ∀ t ∈ p.task.lookup a.filename, Attended L A t) : AllAttended L A p' := by
  rw [allAttended_iff] at h ⊢
  intro g t' ht' hav
  obtain ⟨t, ht, hnode, htrack⟩ := hrel.lookup_some ht'
  obtain ⟨j, hj⟩ := List.mem_iff_getElem?.mp hav
  rw [htrack j] at hj
  refine Attended.congr (t := t) ?_ hnode
  split at hj
  · rename_i hex
    obtain ⟨a, ha, hsel, rfl, -⟩ := hex
    exact hm (Option.some.inj hj) a ha hsel t ht
  · exact h g t ht (List.mem_of_getElem? hj)

theorem AllAttended.handOut (h : AllAttended L A p) (ht : p.task.lookup f = some t)
    (id : String) (now : ℚ) (k : ℕ) : AllAttended L A (p.handOut id now f k t) := by
  rw [allAttended_iff] at h ⊢
  intro g t' ht' hav
  by_cases hg : g = f
  · subst hg
    simp only [WorkloadPool.handOut, Finmap.lookup_insert, Option.some.injEq] at ht'
    subst ht'
    rcases List.mem_or_eq_of_mem_set hav with hold | hold
    · exact (h g t ht hold).congr rfl
    · cases hold
  · rw [WorkloadPool.handOut, Finmap.lookup_insert_of_ne _ hg] at ht'
    exact h g t' ht' hav

/-- A file added for a node that is not live is read by no further live node. -/
theorem AllAttended.addFile (h : AllAttended L A p) (hs : Sound npart p) (hid : id ∉ L)
    (hne : id ≠ "") (f : String) :
    AllAttended L A { p with task := p.task.insert f (addedTask npart id f p) } := by
  rw [allAttended_iff] at h ⊢
  intro g t' ht' hav hcap
  by_cases hg : g = f
  · subst hg
    simp only [Finmap.lookup_insert, Option.some.injEq] at ht'
    subst ht'
    have hnode : (addedTask npart id g p).node = insert id ((p.task.lookup g).getD {}).node := by
      simp [addedTask, node_insertNode, hne]
    obtain ⟨i, hi, hci⟩ := hcap
    have hii : i ≠ id := fun heq => hid (heq ▸ hi)
    simp only [Task.capable, hnode, Finset.insert_ne_empty, Finset.mem_insert, hii,
      false_or] at hci
    cases ht : p.task.lookup g with
    | none => simp [ht] at hci
    | some t =>
        simp only [ht, Option.getD_some] at hci hnode
        rw [hs.track_addedTask ht] at hav
        obtain ⟨j, hj, hcj⟩ := h g t ht hav ⟨i, hi, .inr hci⟩
        rcases hcj with hempty | hcj
        · simp [hempty] at hci
        · exact ⟨j, hj, .inr (hnode ▸ Finset.mem_insert_of_mem hcj)⟩
  · rw [Finmap.lookup_insert_of_ne _ hg] at ht'
    exact h g t' ht' hav hcap

theorem AllAttended.add (h : AllAttended L A p) (hs : Sound npart p) (hpos : 0 < npart)
    (hid : id ∉ L) (hne : id ≠ "") {files : List Workload.File}
    (hp : p.add files npart id = some p') : AllAttended L A p' := by
  obtain ⟨q, hq, -, -, hatt⟩ := hs.add_induct hpos id (P := fun _ p => AllAttended L A p)
    (fun _ _ f hs hP => hP.addFile hs hid hne f) files ∅ h
  rw [hq, Option.some.injEq] at hp
  exact hp ▸ hatt

end Attended

/-! ## Pools after `ClearRemain` -/

section Retired

variable {npart : ℕ} {R R' : String → Prop} {p p' : WorkloadPool} {f id : String} {k : ℕ}
  {sel : Assigned → Bool} {m : Track}

/-- Every file left in the pool can be read by nodes of `R` only. -/
def Retired (R : String → Prop) (p : WorkloadPool) : Prop :=
  ∀ f t, p.task.lookup f = some t → ∀ i, t.capable i → R i

theorem Retired.mono (h : Retired R p) (hR : ∀ i, R i → R' i) : Retired R' p :=
  fun f t ht i hi => hR i (h f t ht i hi)

/-- The nodes of every file left are those of before. -/
theorem Retired.of_nodes (h : Retired R p)
    (hnode : ∀ f t', p'.task.lookup f = some t' →
      ∃ t, p.task.lookup f = some t ∧ t'.node = t.node) : Retired R p' := by
  intro f t' ht' i hi
  obtain ⟨t, ht, hn⟩ := hnode f t' ht'
  simp only [Task.capable, hn] at hi
  exact h f t ht i hi

theorem node_mark (hp : p.mark f k m = some p') : ∀ g t', p'.task.lookup g = some t' →
    ∃ t, p.task.lookup g = some t ∧ t'.node = t.node := by
  intro g t' ht'
  simp only [WorkloadPool.mark] at hp
  split at hp
  · cases hp
    exact ⟨t', ht', rfl⟩
  · rename_i t ht
    split at hp
    · cases hp
      simp only [lookup_ite_erase] at ht'
      by_cases hg : g = f
      · subst hg
        rw [if_pos rfl, Option.ite_none_left_eq_some, Option.some.injEq] at ht'
        exact ⟨t, ht, by rw [← ht'.2]⟩
      · rw [if_neg hg] at ht'
        exact ⟨t', ht', rfl⟩
    · cases hp

theorem node_releaseGo {rest : List Assigned} :
    ∀ {kept : List Assigned} {p : WorkloadPool}, releaseGo sel m kept rest p = some p' →
      ∀ g t', p'.task.lookup g = some t' →
        ∃ t, p.task.lookup g = some t ∧ t'.node = t.node := by
  induction rest with
  | nil =>
      intro kept p hp g t' ht'
      simp only [releaseGo, Option.some.injEq] at hp
      subst hp
      exact ⟨t', ht', rfl⟩
  | cons a rest ih =>
      intro kept p hp g t' ht'
      by_cases ha : sel a = true
      · simp only [releaseGo, ha, if_true, Option.bind_eq_some_iff] at hp
        obtain ⟨q, hq, hp⟩ := hp
        obtain ⟨u, hu, hnu⟩ := ih hp g t' ht'
        obtain ⟨t, ht, hnt⟩ := node_mark hq g u hu
        exact ⟨t, ht, hnu.trans hnt⟩
      · simp only [releaseGo, ha, Bool.false_eq_true, if_false] at hp
        exact ih hp g t' ht'

theorem Retired.set {del : Bool} {now : ℚ} (h : Retired R p)
    (hp : p.set id del now = some p') : Retired R p' := by
  cases del with
  | false =>
      simp only [WorkloadPool.set, Bool.false_eq_true, if_false] at hp
      exact h.of_nodes (node_releaseGo hp)
  | true =>
      simp only [WorkloadPool.set, if_true, Option.map_eq_some_iff] at hp
      obtain ⟨q, hq, rfl⟩ := hp
      have hq' : Retired R q := h.of_nodes (node_releaseGo hq)
      exact hq'

theorem Retired.handOut (h : Retired R p) {t : Task} (ht : p.task.lookup f = some t)
    (id : String) (now : ℚ) (k : ℕ) : Retired R (p.handOut id now f k t) := by
  refine h.of_nodes fun g t' ht' => ?_
  by_cases hg : g = f
  · subst hg
    simp only [WorkloadPool.handOut, Finmap.lookup_insert, Option.some.injEq] at ht'
    exact ⟨t, ht, by rw [← ht']⟩
  · rw [WorkloadPool.handOut, Finmap.lookup_insert_of_ne _ hg] at ht'
    exact ⟨t', ht', rfl⟩

/-- A file added for a node of `R`. -/
theorem Retired.add (h : Retired R p) (hid : R id) (hne : id ≠ "")
    {files : List Workload.File} (hp : p.add files npart id = some p') : Retired R p' := by
  have hfold : ∀ (fs : List String) (q q' : WorkloadPool), Retired R q →
      fs.foldlM (WorkloadPool.addFile npart id) q = some q' → Retired R q' := by
    intro fs
    induction fs with
    | nil =>
        intro q q' h hq
        simp only [List.foldlM_nil, Option.pure_def, Option.some.injEq] at hq
        exact hq ▸ h
    | cons f fs ih =>
        intro q q' h hq
        simp only [List.foldlM_cons, Option.bind_eq_bind, Option.bind_eq_some_iff] at hq
        obtain ⟨r, hr, hq⟩ := hq
        refine ih r q' ?_ hq
        simp only [WorkloadPool.addFile] at hr
        split at hr
        · cases hr
          intro g t' ht' i hi
          by_cases hg : g = f
          · subst hg
            simp only [Finmap.lookup_insert, Option.some.injEq] at ht'
            subst ht'
            simp only [Task.capable, node_insertNode, hne, if_false, node_resize,
              Finset.insert_ne_empty, Finset.mem_insert, false_or] at hi
            rcases hi with rfl | hi
            · exact hid
            · cases ht : q.task.lookup g with
              | none => simp [ht] at hi
              | some t => exact h g t ht i (.inr (by simpa [ht] using hi))
          · simp only [Finmap.lookup_insert_of_ne _ hg] at ht'
            exact h g t' ht' i hi
        · cases hr
  exact hfold _ { p with inited := true } _ h hp

end Retired

/-! ## The invariant -/

namespace Sys

variable {c : Cluster} {s s' : Sys} {act : Act} {id : String}

/-- The workers that are alive. -/
def live (c : Cluster) (s : Sys) : Finset String :=
  c.workers.toFinset.filter fun id => (s.link id).health = .up

/-- The live workers that have a workload request to answer, so will ask for work. -/
def asking (c : Cluster) (s : Sys) : Finset String :=
  (live c s).filter fun id => 1 ≤ s.unanswered id

/-- Once `StartDispatch` has returned, a crash leaves every available part attended, and
so does giving back the parts of a dead node or of stragglers. -/
def Reoffered (c : Cluster) (s : Sys) : Act → Prop
  | .crash id => s.main = .poll →
      AllAttended ((live c s).erase id) ((asking c s).erase id) s.pool
  | .reset id => s.main = .poll → ∀ a ∈ s.pool.assigned, a.node = id →
      ∀ t ∈ s.pool.task.lookup a.filename, Attended (live c s) (asking c s) t
  | .removeStraggler slow => s.main = .poll → ∀ a ∈ s.pool.assigned, slow a = true →
      ∀ t ∈ s.pool.task.lookup a.filename, Attended (live c s) (asking c s) t
  | _ => True

instance (c : Cluster) (s : Sys) (act : Act) : Decidable (Reoffered c s act) :=
  match act with
  | .crash _ => inferInstanceAs (Decidable (_ → _))
  | .reset _ => inferInstanceAs (Decidable (_ → ∀ a ∈ _, _ → _))
  | .removeStraggler _ => inferInstanceAs (Decidable (_ → ∀ a ∈ _, _ → _))
  | .iterate _ _ _ | .clear | .matchFiles | .waited | .add _ | .broadcast | .finished
  | .stopDispatch | .pick _ | .addLocal | .finish _ | .copy | .get _ _ _ | .send | .receive _
  | .reply _ _ | .removeNode _ => inferInstanceAs (Decidable True)

/-- Nothing will ever happen again: no message is in flight, no live worker is inside
`Process`, a part is available that some live worker may read, and `IsFinished` does
not hold. -/
structure Stuck (c : Cluster) (s : Sys) : Prop where
  dispatched : s.main = .poll
  exec_idle : s.exec = .idle
  no_message : ∀ id ∈ c.workers, (s.link id).inbox = [] ∧ (s.link id).outbox = []
  no_process : ∀ id ∈ live c s, (s.link id).current = none
  available : ∃ f t, s.pool.task.lookup f = some t ∧ .available ∈ t.track ∧
    ∃ id ∈ live c s, t.capable id
  not_finished : s.pool.isFinished = false

/-- What holds in every state of a run. -/
structure DispatchInv (c : Cluster) (s : Sys) : Prop where
  /-- a node that is not removed owes at most the one answer it is awaited for -/
  owed : ∀ id, (s.link id).health ≠ .removed →
    s.pending false id ≤ if id ∈ s.awaiting then 1 else 0
  awaited : s.main ≠ .wait → ∀ id ∈ s.awaiting, (s.link id).health = .removed
  dead : ∀ id, (s.link id).health ≠ .up → id ∈ c.workers
  sent : ∀ id r, s.exec = .send id r → r.isWork = true
  stopped_main : s.stopped = true → s.main = .poll ∨ s.main = .idle ∨ s.main = .clear
  sound : s.stopped = false → Sound c.npart s.pool
  retired : s.stopped = true → Retired (fun id => (s.link id).health = .removed) s.pool
  attended : s.stopped = false → s.main = .poll → AllAttended (live c s) (asking c s) s.pool

/-- A stuck state has an available part that no asking worker may read. -/
theorem DispatchInv.false_of_stuck (h : DispatchInv c s) (hst : Stuck c s) : False := by
  obtain ⟨f, t, ht, hav, id, hid, hcap⟩ := hst.available
  have hup : (s.link id).health = .up := (Finset.mem_filter.mp hid).2
  cases hstop : s.stopped with
  | true =>
      have hrem : (s.link id).health = .removed := h.retired hstop f t ht id hcap
      rw [hup] at hrem
      cases hrem
  | false =>
      obtain ⟨j, hj, -⟩ := allAttended_iff.mp (h.attended hstop hst.dispatched) f t ht hav
        ⟨id, hid, hcap⟩
      obtain ⟨hlive, hask⟩ := Finset.mem_filter.mp hj
      obtain ⟨hin, hout⟩ := hst.no_message j (List.mem_toFinset.mp (Finset.mem_filter.mp hlive).1)
      have hidle : s.unanswered j = 0 := by
        simp [unanswered, Link.work, hst.exec_idle, hin, hout, hst.no_process j hlive,
          Exec.handles]
      omega

/-! ## Steps -/

theorem removed_of_step (hs' : s.step c act = some s') (h : (s.link id).health = .removed) :
    (s'.link id).health = .removed := by
  rcases health_cases hs' id with heq | ⟨-, -, hup, -⟩ | ⟨-, hcr, -⟩ | ⟨-, hre, -⟩
  · rw [heq, h]
  · rw [h] at hup
    cases hup
  · rw [h] at hcr
    cases hcr
  · rw [h] at hre
    cases hre

theorem up_of_step (hs' : s.step c act = some s') (h : (s'.link id).health = .up) :
    (s.link id).health = .up ∧ act ≠ .crash id := by
  rcases health_cases hs' id with heq | ⟨-, -, -, hcr⟩ | ⟨-, -, hre⟩ | ⟨-, -, hrm⟩
  · rw [← heq]
    refine ⟨h, fun hact => ?_⟩
    subst hact
    simp only [step, stepRest] at hs'
    split at hs' <;> cases hs'
    simp at h
  · rw [h] at hcr
    cases hcr
  · rw [h] at hre
    cases hre
  · rw [h] at hrm
    cases hrm

theorem up_step (hs' : s.step c act = some s') (h : (s.link id).health = .up)
    (hact : act ≠ .crash id) : (s'.link id).health = .up := by
  rcases health_cases hs' id with heq | ⟨hcr, -⟩ | ⟨-, hcr, -⟩ | ⟨-, hre, -⟩
  · rw [heq, h]
  · exact absurd hcr hact
  · rw [h] at hcr
    cases hcr
  · rw [h] at hre
    cases hre

theorem live_step (hs' : s.step c act = some s') : live c s' ⊆ live c s := by
  intro id hid
  obtain ⟨hw, hup⟩ := Finset.mem_filter.mp hid
  exact Finset.mem_filter.mpr ⟨hw, (up_of_step hs' hup).1⟩

/-- The scheduler's messages to a group: only the kind that is sent grows. -/
theorem tally_sendGroup (wl : Workload) (w : Bool) (id : String) :
    ((sendGroup c s wl).link id).tally w = (s.link id).tally w +
      if id ∈ c.workers ∧ (s.link id).health = .up ∧
        Request.isWork { wl := wl, pass := s.pass } = w then 1 else 0 := by
  rw [link_sendGroup]
  by_cases hid : id ∈ c.workers
  · simp [hid, tally_push]
  · simp [hid]

/-- Work that is pending for a live worker stays pending, except at `Get`. -/
theorem pending_work_mono (hs' : s.step c act = some s')
    (hsent : ∀ id r, s.exec = .send id r → r.isWork = true)
    (hget : ∀ o n t, act ≠ .get o n t) (hup : (s'.link id).health = .up) :
    s.pending true id ≤ s'.pending true id := by
  obtain ⟨hold, hcr⟩ := up_of_step hs' hup
  cases act with
  | get o n t => exact absurd rfl (hget o n t)
  | matchFiles | broadcast =>
      simp only [step, stepMain] at hs'
      split at hs' <;> cases hs'
      simp only [pending, tally_sendGroup]
      simp [sendGroup]
  | addLocal =>
      simp only [step, stepExec] at hs'
      split at hs'
      · rename_i hexec
        simp only [Option.map_eq_some_iff] at hs'
        obtain ⟨p, -, rfl⟩ := hs'
        simp [pending, hexec, Exec.holds]
      · cases hs'
  | send =>
      simp only [step, stepExec] at hs'
      split at hs' <;> cases hs'
      rename_i i r hexec
      by_cases hid : id = i
      · subst hid
        simp [pending, tally_push, hold, hsent _ _ hexec, hexec, Exec.holds]
      · simp [pending, link_setLink_of_ne hid, hexec, Exec.holds, Ne.symm hid]
  | crash i =>
      have hid : id ≠ i := fun heq => hcr (by rw [heq])
      simp only [step, stepRest] at hs'
      split at hs' <;> cases hs'
      apply ge_of_eq
      exact pending_congr (by rw [link_setLink_of_ne hid]) rfl
  | iterate _ _ _ | clear | waited | add _ | finished | stopDispatch | pick _ | finish _ | copy
  | receive _ | reply _ _ | removeStraggler _ | reset _ | removeNode _ =>
      rw [pending_of_keeps hs' rfl (by rw [hold]; decide)]

/-- Nobody but `StartDispatch` sends match requests. -/
theorem pending_match_le (hs' : s.step c act = some s')
    (hsent : ∀ id r, s.exec = .send id r → r.isWork = true) (hact : act ≠ .matchFiles)
    (hrem : (s.link id).health ≠ .removed) : s'.pending false id ≤ s.pending false id := by
  cases act with
  | matchFiles => exact absurd rfl hact
  | broadcast =>
      simp only [step, stepMain] at hs'
      split at hs' <;> cases hs'
      simp only [pending, tally_sendGroup]
      simp [sendGroup, Request.isWork, isMatch]
  | addLocal =>
      simp only [step, stepExec] at hs'
      split at hs'
      · simp only [Option.map_eq_some_iff] at hs'
        obtain ⟨p, -, rfl⟩ := hs'
        simp [pending, Exec.holds]
      · cases hs'
  | get o n t =>
      simp only [step, stepExec] at hs'
      split at hs'
      · rename_i hexec
        split at hs'
        · cases hs'
          apply le_of_eq
          refine pending_congr rfl ?_
          rw [hexec]
          dsimp only
          split <;> rfl
        · cases hs'
      · cases hs'
  | send =>
      simp only [step, stepExec] at hs'
      split at hs' <;> cases hs'
      rename_i i r hexec
      by_cases hid : id = i
      · subst hid
        simp [pending, tally_push, hsent _ _ hexec, hexec, Exec.holds]
      · simp [pending, link_setLink_of_ne hid, hexec, Exec.holds]
  | crash i =>
      simp only [step, stepRest] at hs'
      split at hs' <;> cases hs'
      by_cases hid : id = i
      · subst hid
        simp only [pending, link_setLink_self, Link.tally, List.countP_nil, Option.toList_none]
        change _ + (s.exec.holds false id).toNat ≤ _
        omega
      · apply le_of_eq
        exact pending_congr (by rw [link_setLink_of_ne hid]) rfl
  | iterate _ _ _ | clear | waited | add _ | finished | stopDispatch | pick _ | finish _ | copy
  | receive _ | reply _ _ | removeStraggler _ | reset _ | removeNode _ =>
      exact (pending_of_keeps hs' rfl hrem false).le

/-- The executor, the workers and the failures leave the main thread alone. -/
theorem main_stepExec (hs' : s.stepExec c act = some s') :
    s'.main = s.main ∧ s'.stopped = s.stopped := by
  cases act with
  | pick id =>
      obtain ⟨r, rest, e, -, -, rfl, -⟩ := pick_cases hs'
      exact ⟨rfl, rfl⟩
  | addLocal | finish _ =>
      simp only [stepExec] at hs'
      split at hs'
      · simp only [Option.map_eq_some_iff] at hs'
        obtain ⟨p, -, rfl⟩ := hs'
        exact ⟨rfl, rfl⟩
      · cases hs'
  | copy | send =>
      simp only [stepExec] at hs'
      split at hs' <;> cases hs'
      exact ⟨rfl, rfl⟩
  | get _ _ _ =>
      simp only [stepExec] at hs'
      split at hs'
      · split at hs' <;> cases hs'
        exact ⟨rfl, rfl⟩
      · cases hs'
  | _ => simp [stepExec] at hs'

theorem main_stepRest (hs' : s.stepRest c act = some s') :
    s'.main = s.main ∧ s'.stopped = s.stopped ∧ s'.awaiting = s.awaiting ∧ s'.exec = s.exec := by
  cases act with
  | receive _ | reply _ _ | crash _ | removeNode _ =>
      simp only [stepRest] at hs'
      split at hs' <;> cases hs'
      exact ⟨rfl, rfl, rfl, rfl⟩
  | removeStraggler slow =>
      simp only [stepRest, Option.map_eq_some_iff] at hs'
      obtain ⟨p, -, rfl⟩ := hs'
      exact ⟨rfl, rfl, rfl, rfl⟩
  | reset id =>
      simp only [stepRest] at hs'
      split at hs'
      · simp only [Option.map_eq_some_iff] at hs'
        obtain ⟨p, -, rfl⟩ := hs'
        exact ⟨rfl, rfl, rfl, rfl⟩
      · cases hs'
  | _ => simp [stepRest] at hs'

/-- The asking workers of the next state, except after `Get`. -/
theorem asking_step (hs' : s.step c act = some s')
    (hsent : ∀ id r, s.exec = .send id r → r.isWork = true)
    (hget : ∀ o n t, act ≠ .get o n t) (hid : id ∈ asking c s) (hact : act ≠ .crash id) :
    id ∈ asking c s' := by
  simp only [asking, live, Finset.mem_filter, unanswered_eq_pending] at hid ⊢
  obtain ⟨⟨hw, hup⟩, hask⟩ := hid
  have hup' := up_step hs' hup hact
  exact ⟨⟨hw, hup'⟩, hask.trans (pending_work_mono hs' hsent hget hup')⟩

/-- The parts attended before a step that leaves the pool alone are attended after. -/
theorem AllAttended.step {p : WorkloadPool} (h : AllAttended (live c s) (asking c s) p)
    (hs' : s.step c act = some s') (hsent : ∀ id r, s.exec = .send id r → r.isWork = true)
    (hget : ∀ o n t, act ≠ .get o n t) (hcr : ∀ id, act ≠ .crash id) :
    AllAttended (live c s') (asking c s') p :=
  h.mono (live_step hs') fun _ hid => asking_step hs' hsent hget hid (hcr _)

/-- The fields that follow from the step alone, and those that depend on the pool. -/
theorem DispatchInv.of_step (h : DispatchInv c s) (hs' : s.step c act = some s')
    (hmain : s'.main = s.main) (hstop : s'.stopped = s.stopped)
    (howed : ∀ id, (s'.link id).health ≠ .removed →
      s'.pending false id ≤ if id ∈ s'.awaiting then 1 else 0)
    (hawait : s'.awaiting ⊆ s.awaiting)
    (hsent : ∀ id r, s'.exec = .send id r → r.isWork = true)
    (hsound : s.stopped = false → Sound c.npart s'.pool)
    (hretired : s.stopped = true →
      Retired (fun id => (s'.link id).health = .removed) s'.pool)
    (hatt : s.stopped = false → s.main = .poll →
      AllAttended (live c s') (asking c s') s'.pool) : DispatchInv c s' := by
  refine ⟨howed, ?_, ?_, hsent, ?_, hstop ▸ hsound, hstop ▸ hretired, ?_⟩
  · intro hwait id hid
    exact removed_of_step hs' (h.awaited (hmain ▸ hwait) id (hawait hid))
  · intro id hdead
    rcases health_cases hs' id with heq | ⟨-, hw, -⟩ | ⟨-, hcr, -⟩ | ⟨-, hre, -⟩
    · exact h.dead id (heq ▸ hdead)
    · exact hw
    · exact h.dead id (by rw [hcr]; decide)
    · exact h.dead id (by rw [hre]; decide)
  · intro hst
    exact hmain ▸ h.stopped_main (hstop ▸ hst)
  · intro hst hpoll
    exact hatt (hstop ▸ hst) (hmain ▸ hpoll)

theorem DispatchInv.owed_step (h : DispatchInv c s) (hs' : s.step c act = some s')
    (hact : act ≠ .matchFiles) (hawait : s'.awaiting = s.awaiting) (id : String)
    (hrem : (s'.link id).health ≠ .removed) :
    s'.pending false id ≤ if id ∈ s'.awaiting then 1 else 0 := by
  have hold : (s.link id).health ≠ .removed := fun hr => hrem (removed_of_step hs' hr)
  rw [hawait]
  exact (pending_match_le hs' h.sent hact hold).trans (h.owed id hold)

theorem DispatchInv.retired_step (h : DispatchInv c s) (hs' : s.step c act = some s')
    (hstop : s.stopped = true) : Retired (fun id => (s'.link id).health = .removed) s.pool :=
  (h.retired hstop).mono fun _ hr => removed_of_step hs' hr

/-- Workers, stragglers and failures. -/
theorem DispatchInv.stepRest (h : DispatchInv c s) (hok : Reoffered c s act)
    (hs' : s.step c act = some s') (hrest : s.stepRest c act = some s') : DispatchInv c s' := by
  obtain ⟨hmain, hstop, hawait, hexec⟩ := main_stepRest hrest
  have hact : act ≠ .matchFiles := by
    intro hact
    simp [hact, Sys.stepRest] at hrest
  have hframe := h.of_step hs' hmain hstop (h.owed_step hs' hact hawait) hawait.subset
    (hexec ▸ h.sent)
  cases act with
  | receive _ | reply _ _ | removeNode _ =>
      have hpool : s'.pool = s.pool := by
        simp only [Sys.stepRest] at hrest
        split at hrest <;> cases hrest
        rfl
      refine hframe (hpool ▸ h.sound) (hpool ▸ h.retired_step hs') ?_
      intro hst hpoll
      rw [hpool]
      exact AllAttended.step (h.attended hst hpoll) hs' h.sent (by simp) (by simp)
  | crash i =>
      have hpool : s'.pool = s.pool := by
        simp only [Sys.stepRest] at hrest
        split at hrest <;> cases hrest
        rfl
      refine hframe (hpool ▸ h.sound) (hpool ▸ h.retired_step hs') ?_
      intro hst hpoll
      rw [hpool]
      refine AllAttended.mono (hok hpoll) ?_ ?_
      · intro id hid
        have hup := (Finset.mem_filter.mp hid).2
        refine Finset.mem_erase.mpr ⟨fun heq => ?_, live_step hs' hid⟩
        exact (up_of_step hs' hup).2 (by rw [heq])
      · intro id hid
        obtain ⟨hne, hid⟩ := Finset.mem_erase.mp hid
        exact asking_step hs' h.sent (by simp) hid (fun heq => hne (Act.crash.inj heq).symm)
  | removeStraggler slow =>
      have hpool : s.pool.removeStragglerBy slow = some s'.pool := by
        simp only [Sys.stepRest, Option.map_eq_some_iff] at hrest
        obtain ⟨p, hp, rfl⟩ := hrest
        exact hp
      refine hframe ?_ ?_ ?_
      · intro hst
        obtain ⟨p, hp, hsound, -⟩ := (h.sound hst).removeStragglerBy slow
        rw [hpool, Option.some.injEq] at hp
        exact hp ▸ hsound
      · intro hst
        exact (h.retired_step hs' hst).of_nodes (node_releaseGo hpool)
      · intro hst hpoll
        obtain ⟨p, hp, -, -, hrel⟩ := (h.sound hst).removeStragglerBy slow
        rw [hpool, Option.some.injEq] at hp
        refine AllAttended.step ?_ hs' h.sent (by simp) (by simp)
        exact hp ▸ (h.attended hst hpoll).released hrel fun _ => hok hpoll
  | reset i =>
      have hpool : s.pool.reset i = some s'.pool := by
        simp only [Sys.stepRest] at hrest
        split at hrest
        · simp only [Option.map_eq_some_iff] at hrest
          obtain ⟨p, hp, rfl⟩ := hrest
          exact hp
        · cases hrest
      refine hframe ?_ ?_ ?_
      · intro hst
        obtain ⟨p, hp, hsound, -⟩ := (h.sound hst).reset i
        rw [hpool, Option.some.injEq] at hp
        exact hp ▸ hsound
      · intro hst
        exact (h.retired_step hs' hst).set hpool
      · intro hst hpoll
        obtain ⟨p, hp, -, -, hrel⟩ := (h.sound hst).reset i
        rw [hpool, Option.some.injEq] at hp
        refine AllAttended.step ?_ hs' h.sent (by simp) (by simp)
        refine hp ▸ (h.attended hst hpoll).released hrel fun _ a ha hsel => ?_
        exact hok hpoll a ha (by simpa using hsel)
  | _ => simp [Sys.stepRest] at hrest

/-- A node whose list of files the executor is about to add, once `Wait` has returned,
has been removed. -/
theorem DispatchInv.removed_of_add {fs : List Workload.File} (h : DispatchInv c s)
    (hexec : s.exec = .add id fs) (hwait : s.main ≠ .wait) : (s.link id).health = .removed := by
  by_contra hrem
  have hle := h.owed id hrem
  have hpos : 1 ≤ s.pending false id := by
    simp [pending, hexec, Exec.holds]
  split at hle
  · rename_i hid
    exact hrem (h.awaited hwait id hid)
  · omega

/-- `Get` leaves the asked worker without work only when there is no part for it. -/
theorem DispatchInv.attended_get {order : List String} {rnd : ℕ} {now : ℚ} {wl : Workload}
    (h : DispatchInv c s) (hs' : s.step c (.get order rnd now) = some s')
    (hexec : s.exec = .get id wl) (horder : s.pool.Enumerates order) (hst : s.stopped = false)
    (hpoll : s.main = .poll) : AllAttended (live c s') (asking c s') s'.pool := by
  have hlive := live_step hs'
  have hs'' := hs'
  simp only [Sys.step, Sys.stepExec, hexec, if_pos horder, Option.some.injEq] at hs''
  have hother : ∀ i, i ≠ id → i ∈ asking c s → i ∈ asking c s' := by
    intro i hi hask
    simp only [asking, live, Finset.mem_filter, unanswered_eq_pending] at hask ⊢
    refine ⟨⟨hask.1.1, up_step hs' hask.1.2 (by simp)⟩, hask.2.trans ?_⟩
    apply ge_of_eq
    refine pending_congr (by rw [← hs'']) ?_
    rw [← hs'', hexec]
    dsimp only
    split <;> simp [Exec.holds, Ne.symm hi]
  rcases get_cases id order rnd now s.pool wl with ⟨hget, hzero⟩ | ⟨f, k, t, ht, -, hk, hget⟩
  · have hpool : s'.pool = s.pool := by rw [← hs'', hget]
    rw [hpool]
    refine ((h.attended hst hpoll).erase id fun f t ht hav hcap => ?_).mono hlive ?_
    · obtain ⟨k, hk⟩ := List.mem_iff_getElem?.mp hav
      exact (h.sound hst).not_available horder hzero ht hcap hk
    · intro i hi
      obtain ⟨hne, hi⟩ := Finset.mem_erase.mp hi
      exact hother i hne hi
  · have hpool : s'.pool = s.pool.handOut id now f k t := by rw [← hs'', hget]
    rw [hpool]
    refine ((h.attended hst hpoll).handOut ht id now k).mono hlive ?_
    intro i hi
    by_cases hne : i = id
    · subst hne
      simp only [asking, live, Finset.mem_filter, unanswered_eq_pending] at hi ⊢
      refine ⟨⟨hi.1.1, up_step hs' hi.1.2 (by simp)⟩, ?_⟩
      have hsend : s'.exec.holds true i = true := by
        rw [← hs'', hget]
        simp [Workload.empty, Exec.holds]
      simp [pending, hsend]
    · exact hother i hne hi

/-- The files of a worker come into the pool. -/
theorem DispatchInv.stepAddLocal (h : DispatchInv c s) (hs' : s.step c .addLocal = some s')
    (hex : s.stepExec c .addLocal = some s') : DispatchInv c s' := by
  obtain ⟨hmain, hstop⟩ := main_stepExec hex
  simp only [Sys.stepExec] at hex
  split at hex
  · rename_i i fs hexec
    simp only [Option.map_eq_some_iff] at hex
    obtain ⟨p, hp, hex⟩ := hex
    have hne : s.main ≠ .wait → i ≠ "" := by
      intro hwait
      exact c.id_ne i (h.dead i (by rw [h.removed_of_add hexec hwait]; decide))
    subst hex
    refine h.of_step hs' hmain hstop ?_ (Finset.erase_subset _ _) (by simp) ?_ ?_ ?_
    · intro id hrem
      have hle := h.owed id hrem
      by_cases hid : id = i
      · subst hid
        have hpend : s.pending false id = (s.link id).tally false + 1 := by
          simp [pending, hexec, Exec.holds]
        have hzero : (s.link id).tally false = 0 := by
          split at hle <;> omega
        simp [pending, hzero, Exec.holds]
      · simpa [pending, hexec, Exec.holds, hid, Ne.symm hid] using hle
    · intro hst
      exact (h.sound hst).add c.npart_pos hp
    · intro hst
      have hwait : s.main ≠ .wait := by
        rcases h.stopped_main hst with hm | hm | hm <;> rw [hm] <;> decide
      exact (h.retired hst).add (h.removed_of_add hexec hwait) (hne hwait) hp
    · intro hst hpoll
      have hwait : s.main ≠ .wait := by rw [hpoll]; decide
      have hdead : i ∉ live c s := by
        simp [live, h.removed_of_add hexec hwait]
      refine AllAttended.step ?_ hs' h.sent (by simp) (by simp)
      exact (h.attended hst hpoll).add (h.sound hst) c.npart_pos hdead (hne hwait) hp
  · cases hex

/-- A part is finished. -/
theorem DispatchInv.stepFinish (h : DispatchInv c s) {now : ℚ}
    (hs' : s.step c (.finish now) = some s') (hex : s.stepExec c (.finish now) = some s') :
    DispatchInv c s' := by
  obtain ⟨hmain, hstop⟩ := main_stepExec hex
  simp only [Sys.stepExec] at hex
  split at hex
  · rename_i i hexec
    simp only [Option.map_eq_some_iff] at hex
    obtain ⟨p, hp, rfl⟩ := hex
    refine h.of_step hs' hmain hstop (h.owed_step hs' (by simp) rfl) (fun _ hi => hi)
      (by simp) ?_ ?_ ?_
    · intro hst
      obtain ⟨q, hq, hsound, -⟩ := (h.sound hst).finish i now
      rw [hp, Option.some.injEq] at hq
      exact hq ▸ hsound
    · intro hst
      exact (h.retired hst).set hp
    · intro hst hpoll
      obtain ⟨q, hq, -, -, hrel⟩ := (h.sound hst).finish i now
      rw [hp, Option.some.injEq] at hq
      refine AllAttended.step ?_ hs' h.sent (by simp) (by simp)
      exact hq ▸ (h.attended hst hpoll).released hrel fun hm => by cases hm
  · cases hex

/-- A part is handed out, or there is none. -/
theorem DispatchInv.stepGet (h : DispatchInv c s) {order : List String} {rnd : ℕ} {now : ℚ}
    (hs' : s.step c (.get order rnd now) = some s')
    (hex : s.stepExec c (.get order rnd now) = some s') : DispatchInv c s' := by
  obtain ⟨hmain, hstop⟩ := main_stepExec hex
  simp only [Sys.stepExec] at hex
  split at hex
  · rename_i i wl hexec
    split at hex
    · rename_i horder
      have hatt := fun hst hpoll => h.attended_get hs' hexec horder hst hpoll
      simp only [Option.some.injEq] at hex
      subst hex
      refine h.of_step hs' hmain hstop (h.owed_step hs' (by simp) rfl) (fun _ hi => hi)
        ?_ ?_ ?_ hatt
      · intro id r hr
        rcases get_cases i order rnd now s.pool wl with
          ⟨hget, -⟩ | ⟨f, k, t, -, -, hk, hget⟩
        · simp [hget, Workload.empty] at hr
        · simp only [hget, Workload.empty_iff, List.cons_ne_nil, if_false,
            Exec.send.injEq] at hr
          rw [← hr.2]
          exact isWork_handedEntry hk i now wl s.pass
      · intro hst
        rcases get_cases i order rnd now s.pool wl with
          ⟨hget, -⟩ | ⟨f, k, t, ht, -, hk, hget⟩
        · simpa only [hget] using h.sound hst
        · simpa only [hget] using (h.sound hst).handOut ht hk i now
      · intro hst
        rcases get_cases i order rnd now s.pool wl with
          ⟨hget, -⟩ | ⟨f, k, t, ht, -, hk, hget⟩
        · simpa only [hget] using h.retired hst
        · simpa only [hget] using (h.retired hst).handOut ht i now k
    · cases hex
  · cases hex

/-- The executor. -/
theorem DispatchInv.stepExec (h : DispatchInv c s) (hs' : s.step c act = some s')
    (hex : s.stepExec c act = some s') : DispatchInv c s' := by
  obtain ⟨hmain, hstop⟩ := main_stepExec hex
  cases act with
  | pick i =>
      obtain ⟨r, rest, e, -, -, rfl, he⟩ := pick_cases hex
      refine h.of_step hs' hmain hstop (h.owed_step hs' (by simp) rfl) (fun _ hi => hi) ?_
        h.sound (h.retired_step hs') ?_
      · intro id r hr
        rcases he with ⟨-, rfl⟩ | ⟨-, ⟨-, rfl⟩ | ⟨fs, -, rfl⟩⟩ <;> cases hr
      · intro hst hpoll
        exact AllAttended.step (h.attended hst hpoll) hs' h.sent (by simp) (by simp)
  | addLocal => exact h.stepAddLocal hs' hex
  | finish now => exact h.stepFinish hs' hex
  | copy | send =>
      simp only [Sys.stepExec] at hex
      split at hex <;> cases hex
      refine h.of_step hs' hmain hstop (h.owed_step hs' (by simp) rfl) (fun _ hi => hi)
        (by simp) h.sound (h.retired_step hs') ?_
      intro hst hpoll
      exact AllAttended.step (h.attended hst hpoll) hs' h.sent (by simp) (by simp)
  | get order rnd now => exact h.stepGet hs' hex
  | _ => simp [Sys.stepExec] at hex

/-- The match requests go to nodes that owe no other answer. -/
theorem DispatchInv.matchFiles (h : DispatchInv c s)
    (hs' : s.step c .matchFiles = some s') : DispatchInv c s' := by
  have hrem' : ∀ id, (s'.link id).health ≠ .removed → (s.link id).health ≠ .removed :=
    fun id hr hold => hr (removed_of_step hs' hold)
  have hup' : ∀ id, (s'.link id).health ≠ .up → (s.link id).health ≠ .up :=
    fun id hd hold => hd (up_step hs' hold (by simp))
  simp only [Sys.step, Sys.stepMain] at hs'
  split at hs'
  · rename_i hmain
    cases hs'
    have hst : s.stopped = false := by
      by_contra hst
      rw [Bool.not_eq_false] at hst
      rcases h.stopped_main hst with hm | hm | hm <;> rw [hmain] at hm <;> cases hm
    refine ⟨?_, by simp, fun id hd => h.dead id (hup' id hd), h.sent, ?_, h.sound, ?_, ?_⟩
    · intro id hrem
      have hold := hrem' id hrem
      have hzero : s.pending false id = 0 := by
        have hle := h.owed id hold
        have hnot : id ∉ s.awaiting := fun hid =>
          hold (h.awaited (by rw [hmain]; decide) id hid)
        rw [if_neg hnot] at hle
        omega
      have hpend : (sendGroup c s s.matchWorkload).pending false id ≤
          if id ∈ c.workers then 1 else 0 := by
        have hsame : (sendGroup c s s.matchWorkload).pending false id = s.pending false id +
            if id ∈ c.workers ∧ (s.link id).health = .up ∧
              Request.isWork { wl := s.matchWorkload, pass := s.pass } = false then 1 else 0 := by
          simp only [pending, tally_sendGroup]
          simp only [sendGroup]
          omega
        rw [hsame, hzero]
        by_cases hid : id ∈ c.workers
        · simp only [hid, true_and, if_true]
          split <;> omega
        · simp [hid]
      refine Nat.le_trans (m := if id ∈ c.workers then 1 else 0) hpend ?_
      simp [hold]
    · intro hst'
      rw [show s.stopped = true from hst'] at hst
      cases hst
    · intro hst'
      rw [show s.stopped = true from hst'] at hst
      cases hst
    · intro _ hpoll
      cases hpoll
  · cases hs'

/-- Every live worker is sent a workload request, so every part is attended. -/
theorem attended_broadcast (hs' : s.step c .broadcast = some s') (p : WorkloadPool) :
    AllAttended (live c s') (asking c s') p := by
  have hlive : live c s' ⊆ asking c s' := by
    intro id hid
    refine Finset.mem_filter.mpr ⟨hid, ?_⟩
    obtain ⟨hw, hup⟩ := Finset.mem_filter.mp hid
    have hold := (up_of_step hs' hup).1
    simp only [Sys.step, Sys.stepMain] at hs'
    split at hs' <;> cases hs'
    rw [unanswered_eq_pending]
    simp only [pending, tally_sendGroup]
    simp [List.mem_toFinset.mp hw, hold, Request.isWork, isMatch]
    omega
  intro f _ t _ _ hcap
  obtain ⟨i, hi, hci⟩ := hcap
  exact ⟨i, hlive hi, hci⟩

/-- The main thread. -/
theorem DispatchInv.stepMain (h : DispatchInv c s) (hs' : s.step c act = some s')
    (hma : s.stepMain c act = some s') : DispatchInv c s' := by
  cases act with
  | iterate _ _ _ =>
      simp only [Sys.stepMain] at hma
      split at hma <;> cases hma
      rename_i hmain
      exact ⟨h.owed, fun _ => h.awaited (by rw [hmain]; decide), h.dead, h.sent, by simp, h.sound,
        h.retired, fun _ hpoll => by cases hpoll⟩
  | clear =>
      simp only [Sys.stepMain] at hma
      split at hma <;> cases hma
      rename_i hmain
      refine ⟨h.owed, fun _ => h.awaited (by rw [hmain]; decide), h.dead, h.sent, by simp,
        fun _ => sound_clear _ _, by simp, fun _ hpoll => ?_⟩
      dsimp only at hpoll
      split at hpoll <;> cases hpoll
  | matchFiles => exact h.matchFiles hs'
  | waited =>
      simp only [Sys.stepMain] at hma
      split at hma <;> cases hma
      rename_i hmain
      refine ⟨h.owed, fun _ => hmain.2, h.dead, h.sent, fun hst => ?_, h.sound, h.retired,
        fun _ hpoll => by cases hpoll⟩
      rcases h.stopped_main hst with hm | hm | hm <;> rw [hmain.1] at hm <;> cases hm
  | add files =>
      simp only [Sys.stepMain] at hma
      split at hma
      · rename_i hmain
        simp only [Option.map_eq_some_iff] at hma
        obtain ⟨p, hp, rfl⟩ := hma
        have hst : s.stopped ≠ true := by
          intro hst
          rcases h.stopped_main hst with hm | hm | hm <;> rw [hmain] at hm <;> cases hm
        exact ⟨h.owed, fun _ => h.awaited (by rw [hmain]; decide), h.dead, h.sent,
          fun hc => absurd hc hst, fun hc => (h.sound hc).add c.npart_pos hp,
          fun hc => absurd hc hst, fun _ hpoll => by cases hpoll⟩
      · cases hma
  | broadcast =>
      have howed := fun (ha : s'.awaiting = s.awaiting) => h.owed_step hs' (by simp) ha
      have hatt := attended_broadcast hs' s.pool
      have hdead : ∀ id, (s'.link id).health ≠ .up → id ∈ c.workers :=
        fun id hd => h.dead id fun hold => hd (up_step hs' hold (by simp))
      have hrem := fun hst => h.retired_step hs' hst
      have hawait : ∀ id, (s.link id).health = .removed → (s'.link id).health = .removed :=
        fun id hid => removed_of_step hs' hid
      simp only [Sys.stepMain] at hma
      split at hma
      · rename_i hmain
        cases hma
        exact ⟨howed rfl, fun _ id hid => hawait id (h.awaited (by rw [hmain]; decide) id hid),
          hdead, h.sent, by simp, h.sound, hrem, fun _ _ => hatt⟩
      · cases hma
  | finished =>
      simp only [Sys.stepMain] at hma
      split at hma <;> cases hma
      rename_i hmain
      exact ⟨h.owed, fun _ => h.awaited (by rw [hmain.1]; decide), h.dead, h.sent, by simp,
        h.sound, h.retired, fun _ hpoll => by cases hpoll⟩
  | stopDispatch =>
      simp only [Sys.stepMain] at hma
      split at hma <;> cases hma
      rename_i hmain
      exact ⟨h.owed, fun _ => h.awaited (by rw [hmain]; decide), h.dead, h.sent, by simp [hmain],
        by simp, fun _ => by simp [Retired, clearRemain], by simp⟩
  | _ => simp [Sys.stepMain] at hma

theorem DispatchInv.step (h : DispatchInv c s) (hok : Reoffered c s act)
    (hs' : s.step c act = some s') : DispatchInv c s' := by
  have hgroup := hs'
  cases act with
  | iterate _ _ _ | clear | matchFiles | waited | add _ | broadcast | finished | stopDispatch =>
      simp only [Sys.step] at hgroup
      exact h.stepMain hs' hgroup
  | pick _ | addLocal | finish _ | copy | get _ _ _ | send =>
      simp only [Sys.step] at hgroup
      exact h.stepExec hs' hgroup
  | receive _ | reply _ _ | removeStraggler _ | crash _ | reset _ | removeNode _ =>
      simp only [Sys.step] at hgroup
      exact h.stepRest hok hs' hgroup

theorem dispatchInv_init (c : Cluster) (pool : WorkloadPool) : DispatchInv c (init pool) where
  owed := by simp [init, pending, Link.tally, Exec.holds]
  awaited := by simp [init]
  dead := by simp [init]
  sent := by simp [init]
  stopped_main := by simp [init]
  sound := fun _ => sound_clear c.npart pool
  retired := by simp [init]
  attended := by simp [init]

/-- **No stuck dispatch.** If crashes, resets and straggler removals always leave each
available part that a live worker can read to one that still has a request to answer,
no run reaches a stuck state. -/
theorem not_stuck {pool : WorkloadPool}
    (h : Reach (step c) (Reoffered c) (init pool) s) : ¬ Stuck c s := by
  have hinv : DispatchInv c s := by
    refine h.invariant (dispatchInv_init c pool) ?_
    intro s act s' hinv hok hs'
    exact hinv.step hok hs'
  exact hinv.false_of_stuck

/-- `A` has the only part and dies before `B` has answered the broadcast. -/
def earlyCrash : List Act :=
  dispatch 0 ++ serve "A" ["f"] ++ [.send, .crash "A", .reset "A"]

/-- After `earlyCrash` the part is available and `B` will ask for it. -/
theorem not_stuck_earlyCrash : ∃ s,
    Reach (step twoWorkers) (Reoffered twoWorkers) (init {}) s ∧ s.main = .poll ∧
      s.pool.trackAt "f" 0 = some .available ∧ live twoWorkers s = {"B"} ∧
      ¬ Stuck twoWorkers s := by
  have hrun : (runs (fun s act => if Reoffered twoWorkers s act then step twoWorkers s act
      else none) (init {}) earlyCrash).any (fun s => s.main = .poll ∧
        s.pool.trackAt "f" 0 = some .available ∧ live twoWorkers s = {"B"}) = true := by
    decide
  obtain ⟨s, hs, htest⟩ := Reach.exists_of_runs hrun
  obtain ⟨hmain, htrack, hlive⟩ := of_decide_eq_true htest
  exact ⟨s, hs, hmain, htrack, hlive, not_stuck hs⟩

/-- `B` is told that there is nothing left, and then `A` dies with the only part. -/
def lateCrash : List Act :=
  dispatch 0 ++ serve "A" ["f"] ++ [.send] ++ serve "B" ["f"] ++ [.crash "A", .reset "A"]

/-- After `lateCrash` the part is available, `B` is alive and may read it, nothing is in
flight and `B` will never be offered it. -/
theorem stuck_reachable : ∃ s,
    Reach (step twoWorkers) anyStep (init {}) s ∧ Stuck twoWorkers s := by
  have hrun : (runs (fun s act => if anyStep s act then step twoWorkers s act else none)
      (init {}) lateCrash).any (fun s => s.main = .poll ∧ s.exec = .idle ∧
        (∀ id ∈ twoWorkers.workers, (s.link id).inbox = [] ∧ (s.link id).outbox = []) ∧
        (∀ id ∈ live twoWorkers s, (s.link id).current = none) ∧
        (∃ t ∈ s.pool.task.lookup "f", .available ∈ t.track ∧
          ∃ id ∈ live twoWorkers s, t.capable id) ∧ s.pool.isFinished = false) = true := by
    decide
  obtain ⟨s, hs, htest⟩ := Reach.exists_of_runs hrun
  obtain ⟨hmain, hexec, hmsg, hproc, ⟨t, ht, hav⟩, hfin⟩ := of_decide_eq_true htest
  exact ⟨s, hs, hmain, hexec, hmsg, hproc, ⟨"f", t, ht, hav⟩, hfin⟩

end Sys

end Difacto.Solver
