import Difacto.Solver.Messages

/-!
# Which part an ack stands for

An ack carries no workload, so `Finish(id)` credits whatever parts `id` holds. That is
right as long as no worker has two workload requests outstanding. Requests sent by
`ProcessResponse` answer an ack and keep to this; the empty workload that
`StartDispatch` broadcasts does not wait for anything. `Answered` is the condition
that it did: when the broadcast is made, every live worker has answered every workload
request before it.

`Attributed s a` is the invariant for one entry `a` of `assigned_`: whatever `a.node`
still has to answer is the part of `a`, and once its ack is on the way the part has
been processed in the current pass.

## Main results

* `AttrInv.step` — every step that meets `Answered` keeps the invariant: no worker has
  two workload requests to answer, and every entry of `assigned_` is attributed.
-/

namespace Difacto.Solver

open Base Base.WorkloadPool Lib

variable {c : Cluster} {s s' : Sys} {a : Assigned} {id : String} {r : Request}

/-- The request hands out exactly the part of the entry `a`, taken from the pool in
pass `pass`. -/
def Request.Carries (r : Request) (a : Assigned) (pass : ℕ) : Prop :=
  r.pass = pass ∧ r.isWork = true ∧
    ∃ f, r.wl.file = [f] ∧ f.filename = a.filename ∧ f.k = a.k

namespace Sys

/-- The node of `a` has processed the part of `a` in the current pass. -/
def Completed (s : Sys) (a : Assigned) : Prop :=
  { node := a.node, filename := a.filename, k := a.k, pass := s.pass } ∈ s.completed

instance (s : Sys) (a : Assigned) : Decidable (s.Completed a) :=
  inferInstanceAs (Decidable (_ ∈ _))

/-- When the empty workload is broadcast, every live worker has answered every
workload request sent to it and the executor is done with its acks. -/
def Answered (c : Cluster) (s : Sys) : Act → Prop
  | .broadcast => ∀ id ∈ c.workers, (s.link id).health = .up → s.unanswered id = 0
  | _ => True

instance (c : Cluster) (s : Sys) (act : Act) : Decidable (Answered c s act) :=
  match act with
  | .broadcast => inferInstanceAs (Decidable (∀ id ∈ c.workers, _ → _))
  | .iterate _ _ _ | .clear | .matchFiles | .waited | .add _ | .finished | .stopDispatch
  | .pick _ | .addLocal | .finish _ | .copy | .get _ _ _ | .send | .receive _ | .reply _ _
  | .removeStraggler _ | .crash _ | .reset _ | .removeNode _ =>
    inferInstanceAs (Decidable True)

/-- A workload request to `id` that is not processed yet. -/
def Outstanding (s : Sys) (id : String) (r : Request) : Prop :=
  (r ∈ (s.link id).inbox ∧ r.isWork = true) ∨
    ((s.link id).current = some r ∧ r.isWork = true) ∨ s.exec = .send id r

/-- An ack of `id` waits for its `Finish`. -/
def Acked (s : Sys) (id : String) : Prop :=
  Response.ack ∈ (s.link id).outbox ∨ s.exec = .finish id

/-- The executor is between `Finish` and `Get` for `id`. -/
def Asking (s : Sys) (id : String) : Prop :=
  s.exec = .copy id ∨ ∃ wl, s.exec = .get id wl

/-- What the outstanding work of a node says about an entry of that node. -/
structure Attributed (s : Sys) (a : Assigned) : Prop where
  carries : ∀ r, s.Outstanding a.node r → r.Carries a s.pass
  acked : s.Acked a.node → s.Completed a
  not_asking : ¬ s.Asking a.node
  work : (s.link a.node).health = .up → 1 ≤ s.unanswered a.node

/-- At most one unanswered workload request per node, and every entry attributed. -/
structure AttrInv (s : Sys) : Prop where
  one : ∀ id, s.unanswered id ≤ 1
  entries : ∀ a ∈ s.pool.assigned, s.Attributed a

/-! ## Steps that leave a node alone -/

/-- An entry stays attributed in a state where its node has no new outstanding work,
no new ack and as much unanswered as before. -/
theorem Attributed.mono (h : s.Attributed a) (hpass : s'.pass = s.pass)
    (hcomp : ∀ x ∈ s.completed, x ∈ s'.completed)
    (hout : ∀ r, s'.Outstanding a.node r → s.Outstanding a.node r)
    (hack : s'.Acked a.node → s.Acked a.node ∨ s'.Completed a)
    (hask : s'.Asking a.node → s.Asking a.node)
    (hwork : (s'.link a.node).health = .up →
      (s.link a.node).health = .up ∧ s.unanswered a.node ≤ s'.unanswered a.node) :
    s'.Attributed a := by
  refine ⟨?_, ?_, fun hc => h.not_asking (hask hc), ?_⟩
  · intro r hr
    exact hpass ▸ h.carries r (hout r hr)
  · intro hc
    rcases hack hc with hc | hc
    · have hdone := hcomp _ (h.acked hc)
      rwa [← hpass] at hdone
    · exact hc
  · intro hup
    obtain ⟨hup', hle⟩ := hwork hup
    exact (h.work hup').trans hle

/-- What the executor is doing says nothing about a node whose ack it does not
handle. -/
theorem exec_ne_of_handles {e : Exec} (h : e.handles id = false) :
    e ≠ .finish id ∧ e ≠ .copy id ∧ (∀ wl, e ≠ .get id wl) ∧ ∀ r, e ≠ .send id r := by
  cases e <;> simp_all [Exec.handles]

/-- An entry stays attributed when its node's channels, what the executor does for it
and the pass are unchanged. -/
theorem Attributed.congr (h : s.Attributed a) (hlink : s'.link a.node = s.link a.node)
    (hexec : s'.exec = s.exec ∨ s.exec.handles a.node = false ∧ s'.exec.handles a.node = false)
    (hpass : s'.pass = s.pass) (hcomp : ∀ x ∈ s.completed, x ∈ s'.completed) :
    s'.Attributed a := by
  rcases hexec with he | ⟨he, he'⟩
  · refine h.mono hpass hcomp ?_ ?_ ?_ ?_
    · simp [Outstanding, hlink, he]
    · exact fun hc => .inl (by simpa [Acked, hlink, he] using hc)
    · simp [Asking, he]
    · simp [unanswered, hlink, he]
  · obtain ⟨hfin, hcopy, hget, hsend⟩ := exec_ne_of_handles he'
    refine h.mono hpass hcomp ?_ ?_ ?_ ?_
    · intro r hr
      simp only [Outstanding, hlink, hsend, or_false] at hr ⊢
      exact hr.imp_right .inl
    · intro hc
      simp only [Acked, hlink, hfin, or_false] at hc
      exact .inl (.inl hc)
    · intro hc
      simp [Asking, hcopy, hget] at hc
    · simp [unanswered, hlink, he, he']

/-- A step that only drops entries and touches neither channels nor the executor. -/
theorem AttrInv.congr (h : s.AttrInv) (hlink : s'.link = s.link)
    (hexec : s'.exec = s.exec ∨ ∀ id, s.exec.handles id = false ∧ s'.exec.handles id = false)
    (hpass : s'.pass = s.pass) (hcomp : s'.completed = s.completed)
    (hsub : ∀ a ∈ s'.pool.assigned, a ∈ s.pool.assigned) : s'.AttrInv := by
  refine ⟨fun id => ?_, fun a ha => ?_⟩
  · have hone := h.one id
    rcases hexec with he | he
    · simpa [unanswered, hlink, he] using hone
    · obtain ⟨h₁, h₂⟩ := he id
      simpa [unanswered, hlink, h₁, h₂] using hone
  · exact (h.entries a (hsub a ha)).congr (by rw [hlink]) (hexec.imp_right fun he => he a.node)
      hpass (by simp [hcomp])

/-- A step about one node: every other node is as before, so only the entries of that
node are left to check. -/
theorem AttrInv.touch (h : s.AttrInv) (id : String)
    (hlink : ∀ i, i ≠ id → s'.link i = s.link i)
    (hexec : ∀ i, i ≠ id → s'.exec = s.exec ∨
      s.exec.handles i = false ∧ s'.exec.handles i = false)
    (hpass : s'.pass = s.pass) (hcomp : ∀ x ∈ s.completed, x ∈ s'.completed)
    (hsub : ∀ a ∈ s'.pool.assigned, a ∈ s.pool.assigned ∨ a.node = id)
    (hone : s'.unanswered id ≤ 1)
    (hid : ∀ a ∈ s'.pool.assigned, a.node = id → s'.Attributed a) : s'.AttrInv := by
  refine ⟨fun i => ?_, fun a ha => ?_⟩
  · by_cases hi : i = id
    · exact hi ▸ hone
    · have hle := h.one i
      rcases hexec i hi with he | ⟨he, he'⟩
      · rwa [unanswered, hlink i hi, he]
      · simpa [unanswered, hlink i hi, he, he'] using hle
  · by_cases hi : a.node = id
    · exact hid a ha hi
    · rcases hsub a ha with ha | ha
      · exact (h.entries a ha).congr (hlink _ hi) (hexec _ hi) hpass hcomp
      · exact absurd ha hi

/-- While the executor handles an ack of `id`, the link holds no other work. -/
theorem AttrInv.link_work_eq_zero (h : s.AttrInv) (hex : s.exec.handles id = true) :
    (s.link id).work = 0 := by
  have hle := h.one id
  simp only [unanswered, hex, Bool.toNat_true] at hle
  omega

/-! ## The main thread -/

/-- The match request is not a workload request. -/
theorem AttrInv.matchFiles (h : s.AttrInv) (hs' : s.stepMain c .matchFiles = some s') :
    s'.AttrInv := by
  simp only [stepMain] at hs'
  split at hs'
  · simp only [Option.some.injEq] at hs'
    have hlink : ∀ id, s'.link id = (sendGroup c s s.matchWorkload).link id := by simp [← hs']
    have hexec : s'.exec = s.exec := by simp [← hs', sendGroup]
    have hun : ∀ id, s'.unanswered id = s.unanswered id := by
      intro id
      rw [unanswered_eq (hlink id) hexec, unanswered, link_sendGroup]
      split
      · simp [Link.work_push, isWork_matchWorkload]
      · rfl
    refine ⟨fun id => hun id ▸ h.one id, fun a ha => ?_⟩
    have hin : a ∈ s.pool.assigned := by simpa [← hs', sendGroup] using ha
    refine (h.entries a hin).mono (by simp [← hs', sendGroup]) (by simp [← hs', sendGroup])
      ?_ ?_ (by simp [Asking, hexec]) ?_
    · intro r hr
      simp only [Outstanding, hlink, hexec, link_sendGroup] at hr ⊢
      split at hr
      · simp only [Link.current_push] at hr
        refine hr.imp_left fun hwork => ⟨?_, hwork.2⟩
        obtain ⟨hmem, hw⟩ := hwork
        rcases Link.mem_inbox_push hmem with hmem | rfl
        · exact hmem
        · rw [isWork_matchWorkload] at hw
          cases hw
      · exact hr
    · intro hc
      simp only [Acked, hlink, hexec, link_sendGroup] at hc ⊢
      split at hc
      · exact .inl (by simpa using hc)
      · exact .inl hc
    · intro hup
      rw [hlink, link_sendGroup] at hup
      refine ⟨?_, (hun _).ge⟩
      split at hup
      · simpa using hup
      · exact hup
  · cases hs'

/-- The broadcast goes to live workers that have nothing left to answer, and those
hold no part. -/
theorem AttrInv.broadcast (h : s.AttrInv) (hok : Answered c s .broadcast)
    (hs' : s.stepMain c .broadcast = some s') : s'.AttrInv := by
  simp only [stepMain] at hs'
  split at hs'
  · simp only [Option.some.injEq] at hs'
    have hlink : ∀ id, s'.link id =
        (sendGroup c s { s.workload with file := [] }).link id := by simp [← hs']
    have hexec : s'.exec = s.exec := by simp [← hs', sendGroup]
    have hsame : ∀ id, ¬ (id ∈ c.workers ∧ (s.link id).health = .up) →
        s'.link id = s.link id := by
      intro id hid
      rw [hlink, link_sendGroup]
      split
      · rename_i hw
        simp [Link.push, show (s.link id).health ≠ .up from fun hup => hid ⟨hw, hup⟩]
      · rfl
    refine ⟨fun id => ?_, fun a ha => ?_⟩
    · by_cases hid : id ∈ c.workers ∧ (s.link id).health = .up
      · have hzero := hok id hid.1 hid.2
        rw [unanswered] at hzero
        rw [unanswered_eq (hlink id) hexec, link_sendGroup, if_pos hid.1, Link.work_push]
        split <;> omega
      · rw [unanswered_eq (hsame id hid) hexec]
        exact h.one id
    · have hin : a ∈ s.pool.assigned := by simpa [← hs', sendGroup] using ha
      have hattr := h.entries a hin
      have hid : ¬ (a.node ∈ c.workers ∧ (s.link a.node).health = .up) := by
        intro hid
        have hzero := hok _ hid.1 hid.2
        have hwork := hattr.work hid.2
        omega
      exact hattr.congr (hsame _ hid) (.inl hexec) (by simp [← hs', sendGroup])
        (by simp [← hs', sendGroup])
  · cases hs'

/-! ## The executor -/

theorem AttrInv.pick (h : s.AttrInv) (hs' : s.stepExec c (.pick id) = some s') : s'.AttrInv := by
  have hkept := pending_pick (w := true) hs'
  -- the response leaves the channel; what the executor then handles is `e`
  obtain ⟨r, rest, e, hidle, hout, rfl, he⟩ := pick_cases hs'
  have hlink : ({ s.setLink id { s.link id with outbox := rest } with exec := e } : Sys).link id =
      { s.link id with outbox := rest } := link_setLink_self
  have hhandles : ∀ i, i ≠ id → e.handles i = false := by
    intro i hi
    rcases he with ⟨-, rfl⟩ | ⟨-, ⟨-, rfl⟩ | ⟨fs, -, rfl⟩⟩ <;> simp [Exec.handles, Ne.symm hi]
  have hsame : (s.link id).health ≠ .removed →
      ({ s.setLink id { s.link id with outbox := rest } with exec := e } : Sys).unanswered id =
        s.unanswered id := by
    intro hrem
    rw [unanswered_eq_pending, unanswered_eq_pending, hkept hrem]
  have hle : ({ s.setLink id { s.link id with outbox := rest } with exec := e } : Sys).unanswered
      id ≤ s.unanswered id := by
    rcases he with ⟨-, rfl⟩ | ⟨hrem, -⟩
    · rw [unanswered_eq hlink rfl, unanswered, hidle]
      have hcount := (List.sublist_cons_self r rest).count_le Response.ack
      simp only [Link.work, hout]
      omega
    · exact (hsame hrem).le
  refine h.touch id (fun i hi => link_setLink_of_ne hi) ?_ rfl (by simp [setLink])
    (fun a ha => .inl ha) (hle.trans (h.one id)) ?_
  · intro i hi
    exact .inr ⟨by rw [hidle]; rfl, hhandles i hi⟩
  · intro a ha hnode
    subst hnode
    refine (h.entries a ha).mono rfl (by simp [setLink]) ?_ ?_ ?_ ?_
    · intro q hq
      simp only [Outstanding, link_setLink_self] at hq ⊢
      rcases hq with hq | hq | hq
      · exact .inl hq
      · exact .inr (.inl hq)
      · rcases he with ⟨-, rfl⟩ | ⟨-, ⟨-, rfl⟩ | ⟨fs, -, rfl⟩⟩ <;> cases hq
    · intro hc
      simp only [Acked, link_setLink_self, hout] at hc ⊢
      rcases hc with hc | hc
      · exact .inl (.inl (List.mem_cons_of_mem _ hc))
      · rcases he with ⟨-, rfl⟩ | ⟨-, ⟨rfl, rfl⟩ | ⟨fs, -, rfl⟩⟩
        · cases hc
        · exact .inl (.inl (by simp))
        · cases hc
    · intro hc
      simp only [Asking] at hc
      rcases he with ⟨-, rfl⟩ | ⟨-, ⟨-, rfl⟩ | ⟨fs, -, rfl⟩⟩ <;> simp at hc
    · intro hup
      have hup' : (s.link a.node).health = .up := by simpa [hlink] using hup
      exact ⟨hup', (hsame (by rw [hup']; decide)).ge⟩

/-- After `Finish(id)` no entry of `id` is left. -/
theorem AttrInv.finish {now : ℚ} (h : s.AttrInv)
    (hs' : s.stepExec c (.finish now) = some s') : s'.AttrInv := by
  simp only [stepExec] at hs'
  split at hs'
  · rename_i id hexec
    simp only [Option.map_eq_some_iff] at hs'
    obtain ⟨p, hp, rfl⟩ := hs'
    have hassigned := assigned_finish hp
    refine h.touch id (fun i _ => rfl) ?_ rfl (by simp) ?_ ?_ ?_
    · intro i hi
      simp [hexec, Exec.handles, Ne.symm hi]
    · intro a ha
      rw [hassigned, List.mem_filter] at ha
      exact .inl ha.1
    · have hle := h.one id
      simpa [unanswered, hexec, Exec.handles] using hle
    · intro a ha hnode
      rw [hassigned, List.mem_filter] at ha
      simp [hnode] at ha
  · cases hs'

theorem AttrInv.copy (h : s.AttrInv) (hs' : s.stepExec c .copy = some s') : s'.AttrInv := by
  simp only [stepExec] at hs'
  split at hs'
  · rename_i id hexec
    cases hs'
    refine h.touch id (fun i _ => rfl) ?_ rfl (by simp) (fun a ha => .inl ha) ?_ ?_
    · intro i hi
      simp [hexec, Exec.handles, Ne.symm hi]
    · have hle := h.one id
      simpa [unanswered, hexec, Exec.handles] using hle
    · intro a ha hnode
      exact absurd (.inl (hnode ▸ hexec)) (h.entries a ha).not_asking
  · cases hs'

/-- The request built for a fresh entry carries its part. -/
theorem carries_handedEntry {f : String} {k : ℕ} {t : Task} (hk : t.track[k]? = some .available)
    (id : String) (now : ℚ) (wl : Workload) (pass : ℕ) :
    Request.Carries
      { wl := withFormat c { wl with file := [(handedEntry id now f k t).get] }, pass := pass }
      (handedEntry id now f k t) pass :=
  ⟨rfl, isWork_handedEntry hk id now wl pass, _, rfl, rfl, rfl⟩

theorem AttrInv.get {order : List String} {rnd : ℕ} {now : ℚ} (h : s.AttrInv)
    (hs' : s.stepExec c (.get order rnd now) = some s') : s'.AttrInv := by
  simp only [stepExec] at hs'
  split at hs'
  · rename_i id wl hexec
    split at hs'
    · simp only [Option.some.injEq] at hs'
      have hzero : (s.link id).work = 0 := h.link_work_eq_zero (by simp [hexec, Exec.handles])
      have hnone : ∀ a ∈ s.pool.assigned, a.node ≠ id := fun a ha hnode =>
        (h.entries a ha).not_asking (.inr ⟨wl, hnode ▸ hexec⟩)
      have hhandles : ∀ i, i ≠ id → s.exec.handles i = false := by
        intro i hi
        simp [hexec, Exec.handles, Ne.symm hi]
      rcases get_cases id order rnd now s.pool wl with ⟨hget, -⟩ | ⟨f, k, t, -, -, hk, hget⟩
      · rw [hget] at hs'
        simp only [Workload.empty_iff, if_true] at hs'
        subst hs'
        refine h.touch id (fun i _ => rfl) (fun i hi => .inr ⟨hhandles i hi, rfl⟩) rfl (by simp)
          (fun a ha => .inl ha) ?_ ?_
        · simp [unanswered, hzero, Exec.handles]
        · exact fun a ha hnode => absurd hnode (hnone a ha)
      · rw [hget] at hs'
        simp only [Workload.empty_iff, List.cons_ne_nil, if_false] at hs'
        subst hs'
        refine h.touch id (fun i _ => rfl) ?_ rfl (by simp) ?_ ?_ ?_
        · intro i hi
          exact .inr ⟨hhandles i hi, by simp [Exec.handles, Ne.symm hi]⟩
        · intro a ha
          simp only [handOut, List.mem_append, List.mem_singleton] at ha
          rcases ha with ha | rfl
          · exact .inl ha
          · exact .inr rfl
        · simp [unanswered, hzero, Exec.handles]
        · intro a ha hnode
          simp only [handOut, List.mem_append, List.mem_singleton] at ha
          rcases ha with ha | rfl
          · exact absurd hnode (hnone a ha)
          · obtain ⟨hin, hcur, hack⟩ := Link.of_work_eq_zero hzero
            refine ⟨?_, ?_, ?_, ?_⟩
            · rintro r (⟨hr, hw⟩ | ⟨hr, hw⟩ | hr)
              · simp [hin r hr] at hw
              · simp [hcur r hr] at hw
              · simp only [handedEntry, Exec.send.injEq, true_and] at hr
                subst hr
                exact carries_handedEntry hk id now wl s.pass
            · rintro (hr | hr)
              · exact absurd hr hack
              · cases hr
            · rintro (hr | ⟨_, hr⟩) <;> cases hr
            · intro _
              simp [unanswered, Exec.handles, handedEntry]
    · cases hs'
  · cases hs'

/-- A request to a dead node is lost, otherwise it joins the channel. -/
theorem AttrInv.send (h : s.AttrInv) (hs' : s.stepExec c .send = some s') : s'.AttrInv := by
  simp only [stepExec] at hs'
  split at hs'
  · rename_i id r hexec
    simp only [Option.some.injEq] at hs'
    have hlink : s'.link id = (s.link id).push r := by simp [← hs']
    have hidle : s'.exec = .idle := by simp [← hs']
    have hpass : s'.pass = s.pass := by simp [← hs', setLink]
    have hcompl : s'.completed = s.completed := by simp [← hs', setLink]
    have hpool : s'.pool = s.pool := by simp [← hs', setLink]
    have hold : s.unanswered id = (s.link id).work + 1 := by
      simp [unanswered, hexec, Exec.handles]
    have hnew : s'.unanswered id = (s.link id).work +
        if (s.link id).health = .up ∧ r.isWork = true then 1 else 0 := by
      simp [unanswered_eq hlink hidle, Link.work_push, Exec.handles]
    refine h.touch id ?_ ?_ hpass (by simp [hcompl]) (by simp only [hpool]; tauto) ?_ ?_
    · intro i hi
      rw [← hs']
      exact link_setLink_of_ne hi
    · intro i hi
      exact .inr ⟨by simp [hexec, Exec.handles, Ne.symm hi], by simp [hidle, Exec.handles]⟩
    · have hle := h.one id
      rw [hnew]
      split <;> omega
    · intro a ha hnode
      subst hnode
      have hattr := h.entries a (hpool ▸ ha)
      have hcarries : r.Carries a s.pass := hattr.carries r (.inr (.inr hexec))
      refine hattr.mono hpass (by simp [hcompl]) ?_ ?_ ?_ ?_
      · intro q hq
        simp only [Outstanding, hlink, hidle, Link.current_push] at hq
        rcases hq with ⟨hq, hw⟩ | hq | hq
        · rcases Link.mem_inbox_push hq with hq | rfl
          · exact .inl ⟨hq, hw⟩
          · exact .inr (.inr hexec)
        · exact .inr (.inl hq)
        · cases hq
      · intro hc
        simp only [Acked, hlink, hidle, Link.outbox_push, reduceCtorEq, or_false] at hc
        exact .inl (.inl hc)
      · intro hc
        simp [Asking, hidle] at hc
      · intro hup
        have hup' : (s.link a.node).health = .up := by simpa [hlink] using hup
        refine ⟨hup', ?_⟩
        rw [hnew, hold, if_pos ⟨hup', hcarries.2.1⟩]
  · cases hs'

/-! ## Workers, stragglers and failures -/

theorem AttrInv.receive (h : s.AttrInv) (hs' : s.stepRest c (.receive id) = some s') :
    s'.AttrInv := by
  have hun : s'.unanswered id = s.unanswered id := by
    rw [unanswered_eq_pending, unanswered_eq_pending, pending_receive hs']
  simp only [stepRest] at hs'
  split at hs'
  · rename_i r rest hcur hin
    cases hs'
    refine h.touch id (fun i hi => link_setLink_of_ne hi) (fun i _ => .inl rfl) rfl
      (by simp [setLink]) (fun a ha => .inl ha) (hun ▸ h.one id) ?_
    intro a ha hnode
    subst hnode
    refine (h.entries a ha).mono rfl (by simp [setLink]) ?_ ?_ id ?_
    · rintro q (⟨hq, hw⟩ | ⟨hq, hw⟩ | hq)
      · rw [link_setLink_self] at hq
        exact .inl ⟨by simp only [hin]; exact List.mem_cons_of_mem _ hq, hw⟩
      · rw [link_setLink_self, Option.some.injEq] at hq
        subst hq
        exact .inl ⟨by simp [hin], hw⟩
      · exact .inr (.inr hq)
    · intro hc
      simp only [Acked, link_setLink_self] at hc
      exact .inl hc
    · intro hup
      exact ⟨by simpa using hup, hun.ge⟩
  · cases hs'

/-- The ack of a part is sent when the part has been processed. -/
theorem AttrInv.reply {files : List String} (h : s.AttrInv)
    (hs' : s.stepRest c (.reply id files) = some s') : s'.AttrInv := by
  have hun : s'.unanswered id = s.unanswered id := by
    rw [unanswered_eq_pending, unanswered_eq_pending, pending_reply hs']
  simp only [stepRest] at hs'
  split at hs'
  · rename_i r hcur
    simp only [Option.some.injEq] at hs'
    have hlink : s'.link id = { s.link id with
        current := none, outbox := (s.link id).outbox ++ [response r files] } := by simp [← hs']
    have hexec : s'.exec = s.exec := by simp [← hs', setLink]
    have hcompl : s'.completed = s.completed ++ processed id r := by simp [← hs', setLink]
    have hpass : s'.pass = s.pass := by simp [← hs', setLink]
    refine h.touch id ?_ (fun i _ => .inl hexec) hpass (by simp +contextual [hcompl]) ?_
      (hun ▸ h.one id) ?_
    · intro i hi
      rw [← hs']
      exact link_setLink_of_ne hi
    · intro a ha
      exact .inl (by simpa [← hs', setLink] using ha)
    · intro a ha hnode
      subst hnode
      have hin : a ∈ s.pool.assigned := by simpa [← hs', setLink] using ha
      have hattr := h.entries a hin
      refine hattr.mono hpass (by simp +contextual [hcompl]) ?_ ?_ (by simp [Asking, hexec]) ?_
      · intro q hq
        simp only [Outstanding, hlink, hexec] at hq ⊢
        rcases hq with hq | ⟨hq, -⟩ | hq
        · exact .inl hq
        · cases hq
        · exact .inr (.inr hq)
      · intro hc
        simp only [Acked, hlink, hexec, List.mem_append, List.mem_singleton] at hc
        rcases hc with (hc | hc) | hc
        · exact .inl (.inl hc)
        · -- the new ack: the request was the part of `a`
          have hm : isMatch r.wl ≠ true := by
            intro hm
            simp [response, hm] at hc
          have hwork : r.isWork = true := by simpa [Request.isWork] using hm
          obtain ⟨hrp, -, f, hf, hname, hk⟩ := hattr.carries r (.inr (.inl ⟨hcur, hwork⟩))
          refine .inr ?_
          simp [Completed, hcompl, hpass, processed, hm, hf, hname, hk, hrp]
        · exact .inl (.inr hc)
      · intro hup
        exact ⟨by simpa [hlink] using hup, hun.ge⟩
  · cases hs'

/-- Losing requests or learning that a node is dead: nothing becomes outstanding. -/
theorem AttrInv.health (h : s.AttrInv) (id : String) (l : Link)
    (hin : ∀ r ∈ l.inbox, r ∈ (s.link id).inbox)
    (hcur : ∀ r, l.current = some r → (s.link id).current = some r)
    (hout : l.outbox = (s.link id).outbox) (hwork : l.work ≤ (s.link id).work)
    (hdead : l.health ≠ .up) (hlink : s'.link = (s.setLink id l).link) (hexec : s'.exec = s.exec)
    (hpass : s'.pass = s.pass) (hcomp : s'.completed = s.completed)
    (hsub : ∀ a ∈ s'.pool.assigned, a ∈ s.pool.assigned) : s'.AttrInv := by
  have hself : s'.link id = l := by rw [hlink, link_setLink_self]
  refine h.touch id ?_ (fun i _ => .inl hexec) hpass (by simp [hcomp])
    (fun a ha => .inl (hsub a ha)) ?_ ?_
  · intro i hi
    rw [hlink, link_setLink_of_ne hi]
  · have hle := h.one id
    rw [unanswered] at hle
    rw [unanswered_eq hself hexec]
    omega
  · intro a ha hnode
    subst hnode
    refine (h.entries a (hsub a ha)).mono hpass (by simp [hcomp]) ?_ ?_ (by simp [Asking, hexec]) ?_
    · intro r hr
      simp only [Outstanding, hself, hexec] at hr ⊢
      rcases hr with ⟨hr, hw⟩ | ⟨hr, hw⟩ | hr
      · exact .inl ⟨hin r hr, hw⟩
      · exact .inr (.inl ⟨hcur r hr, hw⟩)
      · exact .inr (.inr hr)
    · intro hc
      exact .inl (by simpa only [Acked, hself, hexec, hout] using hc)
    · intro hup
      exact absurd (hself ▸ hup) hdead

theorem AttrInv.crash (h : s.AttrInv) (hs' : s.stepRest c (.crash id) = some s') : s'.AttrInv := by
  simp only [stepRest] at hs'
  split at hs'
  · cases hs'
    refine h.health id { s.link id with inbox := [], current := none, health := .crashed }
      (by simp) (by simp) rfl ?_ (by simp) rfl rfl rfl rfl (fun a ha => ha)
    simp only [Link.work, List.countP_nil, Option.toList_none]
    omega
  · cases hs'

theorem AttrInv.reset (h : s.AttrInv) (hs' : s.stepRest c (.reset id) = some s') : s'.AttrInv := by
  simp only [stepRest] at hs'
  split at hs'
  · simp only [Option.map_eq_some_iff] at hs'
    obtain ⟨p, hp, rfl⟩ := hs'
    refine h.health id { s.link id with health := .reset } (by simp) (by simp) rfl le_rfl
      (by simp) rfl rfl rfl rfl ?_
    intro a ha
    rw [assigned_reset hp, List.mem_filter] at ha
    exact ha.1
  · cases hs'

theorem AttrInv.removeNode (h : s.AttrInv) (hs' : s.stepRest c (.removeNode id) = some s') :
    s'.AttrInv := by
  simp only [stepRest] at hs'
  split at hs'
  · cases hs'
    exact h.health id { s.link id with health := .removed } (by simp) (by simp)
      rfl le_rfl (by simp) rfl rfl rfl rfl (fun a ha => ha)
  · cases hs'

/-! ## Runs -/

/-- **Every step keeps the attribution**, provided the broadcast waits for the answers. -/
theorem AttrInv.step {act : Act} (h : s.AttrInv) (hok : Answered c s act)
    (hs' : s.step c act = some s') : s'.AttrInv := by
  cases act with
  | iterate _ _ _ =>
      simp only [Sys.step, stepMain] at hs'
      split at hs' <;> cases hs'
      exact h.congr rfl (.inl rfl) rfl rfl (fun a ha => ha)
  | clear =>
      simp only [Sys.step, stepMain] at hs'
      split at hs' <;> cases hs'
      exact ⟨h.one, by simp [WorkloadPool.clear]⟩
  | matchFiles => exact h.matchFiles (c := c) hs'
  | waited =>
      simp only [Sys.step, stepMain] at hs'
      split at hs' <;> cases hs'
      exact h.congr rfl (.inl rfl) rfl rfl (fun a ha => ha)
  | add files =>
      simp only [Sys.step, stepMain] at hs'
      split at hs'
      · simp only [Option.map_eq_some_iff] at hs'
        obtain ⟨p, hp, rfl⟩ := hs'
        exact h.congr rfl (.inl rfl) rfl rfl (by simp [assigned_add hp])
      · cases hs'
  | broadcast => exact h.broadcast hok hs'
  | finished =>
      simp only [Sys.step, stepMain] at hs'
      split at hs' <;> cases hs'
      exact h.congr rfl (.inl rfl) rfl rfl (fun a ha => ha)
  | stopDispatch =>
      simp only [Sys.step, stepMain] at hs'
      split at hs' <;> cases hs'
      exact h.congr rfl (.inl rfl) rfl rfl (fun a ha => ha)
  | pick id => exact h.pick (c := c) hs'
  | addLocal =>
      simp only [Sys.step, stepExec] at hs'
      split at hs'
      · rename_i hexec
        simp only [Option.map_eq_some_iff] at hs'
        obtain ⟨p, hp, rfl⟩ := hs'
        exact h.congr rfl (.inr fun i => by simp [hexec, Exec.handles]) rfl rfl
          (by simp [assigned_add hp])
      · cases hs'
  | finish now => exact h.finish (c := c) hs'
  | copy => exact h.copy (c := c) hs'
  | get order rnd now => exact h.get (c := c) hs'
  | send => exact h.send (c := c) hs'
  | receive id => exact h.receive (c := c) hs'
  | reply id files => exact h.reply (c := c) hs'
  | removeStraggler slow =>
      simp only [Sys.step, stepRest, Option.map_eq_some_iff] at hs'
      obtain ⟨p, hp, rfl⟩ := hs'
      refine h.congr rfl (.inl rfl) rfl rfl fun a ha => ?_
      rw [assigned_removeStragglerBy hp, List.mem_filter] at ha
      exact ha.1
  | crash id => exact h.crash (c := c) hs'
  | reset id => exact h.reset (c := c) hs'
  | removeNode id => exact h.removeNode (c := c) hs'

theorem attrInv_init (pool : WorkloadPool) : (init pool).AttrInv := by
  refine ⟨fun id => ?_, by simp [init, WorkloadPool.clear]⟩
  simp [init, unanswered, Link.work, Exec.handles]

end Sys

end Difacto.Solver
