import Difacto.Solver.DataParallel
import Difacto.Base.PoolInvariant

/-!
# Messages on the links

What each step does to the channels of a node. The messages of a node fall into two
kinds: workload requests with their acks, and match requests with the file lists that
answer them. No step turns one kind into the other, so both are counted by one
definition.

## Main results

* `health_cases` — what a step does to the health of a node.
* `pending_of_keeps` — everything pending for a node stays pending until it is taken up.
-/

namespace Difacto.Solver

open Base

/-! ## Links -/

namespace Link

variable (l : Link) (r : Request)

@[simp] theorem health_push : (l.push r).health = l.health := by
  unfold push; split <;> rfl

@[simp] theorem current_push : (l.push r).current = l.current := by
  unfold push; split <;> rfl

@[simp] theorem outbox_push : (l.push r).outbox = l.outbox := by
  unfold push; split <;> rfl

theorem work_push :
    (l.push r).work = l.work + if l.health = .up ∧ r.isWork = true then 1 else 0 := by
  by_cases hup : l.health = .up
  · by_cases hr : r.isWork = true
    · simp only [push, work, hup, hr, and_self, if_true, List.countP_append,
        List.countP_singleton]
      omega
    · simp [push, work, hup, hr]
  · simp [push, hup]

variable {l r}

theorem mem_inbox_push {r' : Request} (h : r' ∈ (l.push r).inbox) : r' ∈ l.inbox ∨ r' = r := by
  unfold push at h
  split at h
  · simpa using h
  · exact .inl h

/-- A link without work has neither requests nor acks. -/
theorem of_work_eq_zero (h : l.work = 0) :
    (∀ r ∈ l.inbox, r.isWork = false) ∧ (∀ r, l.current = some r → r.isWork = false) ∧
      Response.ack ∉ l.outbox := by
  have hin : l.inbox.countP Request.isWork = 0 := by unfold work at h; omega
  have hcur : l.current.toList.countP Request.isWork = 0 := by unfold work at h; omega
  have hout : l.outbox.count .ack = 0 := by unfold work at h; omega
  refine ⟨fun r hr => ?_, fun r hr => ?_, List.count_eq_zero.mp hout⟩
  · simpa using List.countP_eq_zero.mp hin r hr
  · simpa using List.countP_eq_zero.mp hcur r (by simp [hr])

end Link

namespace Sys

variable {c : Cluster} {s s' : Sys} {id i : String} {l : Link}

@[simp] theorem link_setLink_self : (s.setLink id l).link id = l := by
  simp [setLink]

theorem link_setLink_of_ne (hi : i ≠ id) : (s.setLink id l).link i = s.link i := by
  simp [setLink, Function.update_of_ne hi]

theorem link_sendGroup (wl : Workload) (id : String) : (sendGroup c s wl).link id =
    if id ∈ c.workers then (s.link id).push { wl := wl, pass := s.pass } else s.link id := rfl

theorem unanswered_eq {e : Exec} (hlink : s'.link id = l) (hexec : s'.exec = e) :
    s'.unanswered id = l.work + (e.handles id).toNat := by
  rw [unanswered, hlink, hexec]

/-- A match request is not a workload request. -/
theorem isWork_matchWorkload (s : Sys) (pass : ℕ) :
    Request.isWork { wl := s.matchWorkload, pass := pass } = false := by
  simp [Request.isWork, isMatch, matchWorkload]

/-- A part has a positive number of siblings, so no worker takes it for a match
request. -/
theorem isWork_handedEntry {f : String} {k : ℕ} {t : Task}
    (hk : t.track[k]? = some .available) (id : String) (now : ℚ) (wl : Workload) (pass : ℕ) :
    Request.isWork { wl := withFormat c { wl with
      file := [(WorkloadPool.handedEntry id now f k t).get] }, pass := pass } = true := by
  have hne : t.track ≠ [] := by
    intro hnil
    simp [hnil] at hk
  simp [Request.isWork, isMatch, withFormat, Assigned.get, WorkloadPool.handedEntry, hne]

end Sys

/-! ## What is pending for a node -/

/-- The response answers a workload request. -/
def Response.isWork (r : Response) : Bool := decide (r = .ack)

/-- The executor handles a response of `id` of the kind `work`. -/
def Exec.holds (e : Exec) (work : Bool) (id : String) : Bool :=
  match e with
  | .finish i | .copy i | .get i _ | .send i _ => work && decide (i = id)
  | .add i _ => !work && decide (i = id)
  | .idle => false

/-- The requests and responses of one kind on a link. -/
def Link.tally (l : Link) (work : Bool) : ℕ :=
  l.inbox.countP (·.isWork == work) + l.current.toList.countP (·.isWork == work) +
    l.outbox.countP (·.isWork == work)

namespace Sys

variable {c : Cluster} {s s' : Sys} {act : Act} {id i : String} {l : Link}

/-- The requests of one kind to `id` that the scheduler is not done with. -/
def pending (s : Sys) (work : Bool) (id : String) : ℕ :=
  (s.link id).tally work + (s.exec.holds work id).toNat

theorem unanswered_eq_pending (s : Sys) (id : String) : s.unanswered id = s.pending true id := by
  have hhold : s.exec.handles id = s.exec.holds true id := by
    cases s.exec <;> simp [Exec.handles, Exec.holds]
  have hwork : (s.link id).work = (s.link id).tally true := by
    simp [Link.work, Link.tally, List.count, Response.isWork]
    rfl
  rw [unanswered, pending, hhold, hwork]

theorem tally_push (l : Link) (r : Request) (w : Bool) : (l.push r).tally w =
    l.tally w + if l.health = .up ∧ r.isWork = w then 1 else 0 := by
  by_cases hup : l.health = .up
  · by_cases hr : r.isWork = w
    · simp only [Link.push, Link.tally, hup, hr, and_self, if_true, List.countP_append,
        List.countP_singleton, beq_self_eq_true]
      omega
    · simp [Link.push, Link.tally, hup, hr]
  · simp [Link.push, hup]

theorem health_setLink {i : String} {l : Link} (hl : l.health = (s.link i).health) (id : String) :
    ((s.setLink i l).link id).health = (s.link id).health := by
  by_cases hid : id = i
  · rw [hid, link_setLink_self, hl]
  · rw [link_setLink_of_ne hid]

/-- The main thread leaves the nodes as they are. -/
theorem health_stepMain (hs' : s.stepMain c act = some s') (id : String) :
    (s'.link id).health = (s.link id).health := by
  have hgroup : ∀ wl, ((sendGroup c s wl).link id).health = (s.link id).health := by
    intro wl
    rw [link_sendGroup]
    split <;> simp
  cases act with
  | iterate _ _ _ | clear | waited | finished | stopDispatch =>
      simp only [stepMain] at hs'
      split at hs' <;> cases hs'
      rfl
  | matchFiles | broadcast =>
      simp only [stepMain] at hs'
      split at hs' <;> cases hs'
      exact hgroup _
  | add files =>
      simp only [stepMain] at hs'
      split at hs'
      · simp only [Option.map_eq_some_iff] at hs'
        obtain ⟨p, -, rfl⟩ := hs'
        rfl
      · cases hs'
  | _ => cases hs'

/-- So does the executor thread. -/
theorem health_stepExec (hs' : s.stepExec c act = some s') (id : String) :
    (s'.link id).health = (s.link id).health := by
  cases act with
  | pick i =>
      simp only [stepExec] at hs'
      split at hs'
      · split at hs'
        · cases hs'
        · split at hs'
          · cases hs'
            exact health_setLink (by rfl) id
          · split at hs' <;> cases hs' <;> exact health_setLink (by rfl) id
      · cases hs'
  | addLocal | finish _ =>
      simp only [stepExec] at hs'
      split at hs'
      · simp only [Option.map_eq_some_iff] at hs'
        obtain ⟨p, -, rfl⟩ := hs'
        rfl
      · cases hs'
  | copy =>
      simp only [stepExec] at hs'
      split at hs' <;> cases hs'
      rfl
  | get _ _ _ =>
      simp only [stepExec] at hs'
      split at hs'
      · split at hs' <;> cases hs'
        rfl
      · cases hs'
  | send =>
      simp only [stepExec] at hs'
      split at hs' <;> cases hs'
      exact health_setLink (by simp) id
  | _ => cases hs'

/-- What a step does to the health of a node. -/
theorem health_cases (hs' : s.step c act = some s') (id : String) :
    (s'.link id).health = (s.link id).health ∨
      (act = .crash id ∧ id ∈ c.workers ∧ (s.link id).health = .up ∧
        (s'.link id).health = .crashed) ∨
      (act = .reset id ∧ (s.link id).health = .crashed ∧ (s'.link id).health = .reset) ∨
      (act = .removeNode id ∧ (s.link id).health = .reset ∧ (s'.link id).health = .removed) := by
  cases act with
  | iterate _ _ _ | clear | matchFiles | waited | add _ | broadcast | finished | stopDispatch =>
      simp only [step] at hs'
      exact .inl (health_stepMain hs' id)
  | pick _ | addLocal | finish _ | copy | get _ _ _ | send =>
      simp only [step] at hs'
      exact .inl (health_stepExec hs' id)
  | receive i | reply i _ =>
      simp only [step, stepRest] at hs'
      split at hs' <;> cases hs'
      exact .inl (health_setLink (by rfl) id)
  | removeStraggler slow =>
      simp only [step, stepRest, Option.map_eq_some_iff] at hs'
      obtain ⟨p, -, rfl⟩ := hs'
      exact .inl rfl
  | crash i =>
      simp only [step, stepRest] at hs'
      split at hs'
      · rename_i hcr
        cases hs'
        by_cases hid : id = i
        · subst hid
          exact .inr (.inl ⟨rfl, hcr.1, hcr.2, by simp⟩)
        · exact .inl (by rw [link_setLink_of_ne hid])
      · cases hs'
  | reset i =>
      simp only [step, stepRest] at hs'
      split at hs'
      · rename_i hcr
        simp only [Option.map_eq_some_iff] at hs'
        obtain ⟨p, -, rfl⟩ := hs'
        by_cases hid : id = i
        · subst hid
          exact .inr (.inr (.inl ⟨rfl, hcr, by simp⟩))
        · exact .inl (by simp only [link_setLink_of_ne hid])
      · cases hs'
  | removeNode i =>
      simp only [step, stepRest] at hs'
      split at hs'
      · rename_i hcr
        cases hs'
        by_cases hid : id = i
        · subst hid
          exact .inr (.inr (.inr ⟨rfl, hcr, by simp⟩))
        · exact .inl (by rw [link_setLink_of_ne hid])
      · cases hs'

end Sys

/-- The steps that neither create nor destroy a message of a live node: everything but
sending, taking a response to `Add` or `Get`, and crashing. -/
def Act.keeps : Act → Bool
  | .matchFiles | .broadcast | .addLocal | .get _ _ _ | .send | .crash _ => false
  | .iterate _ _ _ | .clear | .waited | .add _ | .finished | .stopDispatch | .pick _
  | .finish _ | .copy | .receive _ | .reply _ _ | .removeStraggler _ | .reset _
  | .removeNode _ => true

namespace Sys

variable {c : Cluster} {s s' : Sys} {act : Act} {id : String}

theorem pending_congr {w : Bool} (hlink : (s'.link id).tally w = (s.link id).tally w)
    (hexec : s'.exec.holds w id = s.exec.holds w id) : s'.pending w id = s.pending w id := by
  rw [pending, pending, hlink, hexec]

/-- A link whose messages are unchanged. -/
theorem tally_setLink {l : Link} {i : String} {w : Bool} (hin : l.inbox = (s.link i).inbox)
    (hcur : l.current = (s.link i).current) (hout : l.outbox = (s.link i).outbox) :
    ((s.setLink i l).link id).tally w = (s.link id).tally w := by
  by_cases hid : id = i
  · subst hid
    simp [Link.tally, hin, hcur, hout]
  · rw [link_setLink_of_ne hid]

/-- What taking a response does. -/
theorem pick_cases (hs' : s.stepExec c (.pick id) = some s') : ∃ r rest e,
    s.exec = .idle ∧ (s.link id).outbox = r :: rest ∧
      s' = { s.setLink id { s.link id with outbox := rest } with exec := e } ∧
      ((s.link id).health = .removed ∧ e = .idle ∨
        (s.link id).health ≠ .removed ∧
          (r = .ack ∧ e = .finish id ∨ ∃ fs, r = .files fs ∧ e = .add id fs)) := by
  simp only [stepExec] at hs'
  split at hs'
  · rename_i hidle
    split at hs'
    · cases hs'
    · rename_i r rest hout
      refine ⟨r, rest, s'.exec, hidle, hout, ?_⟩
      split at hs'
      · rename_i hrem
        cases hs'
        exact ⟨rfl, .inl ⟨hrem, hidle⟩⟩
      · rename_i hrem
        split at hs' <;> cases hs'
        · exact ⟨rfl, .inr ⟨hrem, .inl ⟨rfl, rfl⟩⟩⟩
        · exact ⟨rfl, .inr ⟨hrem, .inr ⟨_, rfl, rfl⟩⟩⟩
  · cases hs'

theorem pending_pick {w : Bool} (hs' : s.stepExec c (.pick id) = some s')
    (hrem : (s.link id).health ≠ .removed) : s'.pending w id = s.pending w id := by
  obtain ⟨r, rest, e, hidle, hout, rfl, ⟨hr, -⟩ | ⟨-, he⟩⟩ := pick_cases hs'
  · exact absurd hr hrem
  · have hcount : (s.link id).tally w =
        Link.tally { s.link id with outbox := rest } w + if r.isWork = w then 1 else 0 := by
      simp only [Link.tally, hout, List.countP_cons, beq_iff_eq]
      omega
    have hhold : (e.holds w id).toNat = if r.isWork = w then 1 else 0 := by
      rcases he with ⟨rfl, rfl⟩ | ⟨fs, rfl, rfl⟩ <;> cases w <;>
        simp [Exec.holds, Response.isWork]
    simp only [pending, link_setLink_self, hcount, hidle, hhold]
    rfl

theorem pending_receive {w : Bool} (hs' : s.stepRest c (.receive id) = some s') :
    s'.pending w id = s.pending w id := by
  simp only [stepRest] at hs'
  split at hs'
  · rename_i r rest hcur hin
    cases hs'
    simp only [pending, link_setLink_self, Link.tally, hcur, hin, List.countP_cons,
      Option.toList_some, Option.toList_none, List.countP_nil]
    change _ + (s.exec.holds w id).toNat = _
    omega
  · cases hs'

theorem pending_reply {w : Bool} {files : List String}
    (hs' : s.stepRest c (.reply id files) = some s') : s'.pending w id = s.pending w id := by
  simp only [stepRest] at hs'
  split at hs'
  · rename_i r hcur
    cases hs'
    have hkind : (response r files).isWork = r.isWork := by
      by_cases hm : isMatch r.wl = true
      · simp [response, Response.isWork, Request.isWork, hm]
      · simp [response, Response.isWork, Request.isWork, hm]
    simp only [pending, link_setLink_self, Link.tally, hcur, hkind, List.countP_append,
      List.countP_cons, Option.toList_some, Option.toList_none, List.countP_nil]
    change _ + (s.exec.holds w id).toNat = _
    omega
  · cases hs'

/-- Everything pending for a node stays pending until it is taken up. -/
theorem pending_of_keeps (hs' : s.step c act = some s') (hk : act.keeps = true)
    (hrem : (s.link id).health ≠ .removed) (w : Bool) : s'.pending w id = s.pending w id := by
  cases act with
  | matchFiles | broadcast | addLocal | get _ _ _ | send | crash _ => cases hk
  | iterate _ _ _ | clear | waited | finished | stopDispatch =>
      simp only [step, stepMain] at hs'
      split at hs' <;> cases hs'
      rfl
  | add files =>
      simp only [step, stepMain] at hs'
      split at hs'
      · simp only [Option.map_eq_some_iff] at hs'
        obtain ⟨p, -, rfl⟩ := hs'
        rfl
      · cases hs'
  | pick i =>
      by_cases hid : id = i
      · subst hid
        exact pending_pick (c := c) hs' hrem
      · obtain ⟨r, rest, e, hidle, -, rfl, he⟩ := pick_cases (c := c) hs'
        refine pending_congr (by simp [link_setLink_of_ne hid]) ?_
        rw [hidle]
        rcases he with ⟨-, rfl⟩ | ⟨-, ⟨-, rfl⟩ | ⟨fs, -, rfl⟩⟩ <;>
          simp [Exec.holds, Ne.symm hid]
  | finish _ =>
      simp only [step, stepExec] at hs'
      split at hs'
      · rename_i i hexec
        simp only [Option.map_eq_some_iff] at hs'
        obtain ⟨p, -, rfl⟩ := hs'
        exact pending_congr rfl (by simp [hexec, Exec.holds])
      · cases hs'
  | copy =>
      simp only [step, stepExec] at hs'
      split at hs' <;> cases hs'
      rename_i i hexec
      exact pending_congr rfl (by simp [hexec, Exec.holds])
  | receive i =>
      by_cases hid : id = i
      · subst hid
        exact pending_receive (c := c) hs'
      · simp only [step, stepRest] at hs'
        split at hs' <;> cases hs'
        exact pending_congr (by simp [link_setLink_of_ne hid]) rfl
  | reply i files =>
      by_cases hid : id = i
      · subst hid
        exact pending_reply (c := c) hs'
      · simp only [step, stepRest] at hs'
        split at hs' <;> cases hs'
        exact pending_congr (by simp [link_setLink_of_ne hid]) rfl
  | removeStraggler slow =>
      simp only [step, stepRest, Option.map_eq_some_iff] at hs'
      obtain ⟨p, -, rfl⟩ := hs'
      rfl
  | reset i =>
      simp only [step, stepRest] at hs'
      split at hs'
      · simp only [Option.map_eq_some_iff] at hs'
        obtain ⟨p, -, rfl⟩ := hs'
        exact pending_congr (tally_setLink rfl rfl rfl) rfl
      · cases hs'
  | removeNode i =>
      simp only [step, stepRest] at hs'
      split at hs' <;> cases hs'
      exact pending_congr (tally_setLink rfl rfl rfl) rfl

end Sys

end Difacto.Solver
