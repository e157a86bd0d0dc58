import Difacto.Lib.Reach
import Difacto.System.Manager

/-!
# The life of a cluster

The scheduler, the workers and the servers of a job, from their start to their exit, with the
control messages between them. A connection delivers messages in the order in which they were sent,
and what happens first at different nodes is up to the environment.

As many workers and servers are started as the flags say.

## Main definitions

* `Setup`, `Cluster`, `Cluster.step` — a job, its state and its steps.
* `Cluster.Place` — where a node is between its start and its exit.

## Main results

* `Cluster.ready_together` — when a node runs, all nodes know all nodes, their ranks and their
  ranges, and have the servers in the order of the ranges.
* `Cluster.exit_together` — when a node exits, all nodes have finished.
* `Cluster.runs_end` — no check fails, and every run ends with all nodes exited.
-/

namespace Difacto.System

open Lib (Reach anyStep)

/-- A job: its nodes and the ranges for the servers. -/
structure Setup (N K : Type) where
  scheduler : N
  /-- the workers and servers -/
  ids : List N
  role : N → Role
  keyRange : Range K
  keyRanges : List (Range K)
  /-- the key of a node that has none -/
  unset : Range K

namespace Setup

variable {N K : Type} (c : Setup N K)

def node (n : N) : Node N K := { id := n, role := c.role n, rank := 0, key := c.unset }

def flags : Flags :=
  { numWorkers := c.ids.countP fun n => c.role n = .worker
    numServers := c.ids.countP fun n => c.role n = .server }

/-- The manager of a node before `Init`. -/
def manager (n : N) : Manager N K :=
  { myNode := c.node n, nodeAssigner := { keyRanges := c.keyRanges, keyRange := c.keyRange } }

/-- Workers and servers with different ids, and a range for each server. -/
structure Valid [LinearOrder K] : Prop where
  nodup : c.ids.Nodup
  scheduler : c.scheduler ∉ c.ids
  ne_nil : c.ids ≠ []
  role_scheduler : c.role c.scheduler = .scheduler
  role : ∀ n ∈ c.ids, c.role n ≠ .scheduler
  length : c.keyRanges.length = c.flags.numServers
  increasing : c.keyRanges.Pairwise fun a b => a.begin_ < b.begin_

end Setup

/-- The managers, and the messages on their way from one node to another. -/
structure Cluster (N K : Type) where
  managers : N → Manager N K
  net : N → N → List (Control N K)

namespace Cluster

variable {N K : Type} [LinearOrder N] [LinearOrder K] (c : Setup N K)

/-- One step: a program calls `Init` or `Stop`, a message is processed, the scheduler notices that
a node has exited, or its `Stop` ends. -/
inductive Act (N : Type)
  | start (n : N)
  | deliver (sender recver : N)
  | stop (n : N)
  | disconnect (n : N)
  | finish

def init : Cluster N K :=
  { managers := c.manager, net := fun _ _ => [] }

/-- Node `n` after a function of its manager, with what it sends. -/
def after (s : Cluster N K) (n : N) (r : Manager N K × List (N × Control N K)) : Cluster N K :=
  { managers := Function.update s.managers n r.1
    net := fun a b =>
      if a = n then s.net a b ++ (r.2.filter fun p => p.1 = b).map Prod.snd else s.net a b }

/-- The first message from `a` to `b` is taken. -/
def pop (s : Cluster N K) (a b : N) : Cluster N K :=
  { s with net := fun x y => if x = a ∧ y = b then (s.net x y).tail else s.net x y }

def step (s : Cluster N K) : Act N → Option (Cluster N K)
  | .start n =>
    if n ∈ c.scheduler :: c.ids ∧ (s.managers n).phase = .new then
      ((s.managers n).init c.flags c.scheduler).map (s.after n)
    else none
  | .deliver a b =>
    (s.net a b).head?.bind fun ctrl =>
      if (s.managers b).phase ≠ .new ∧ (s.managers b).done = false then
        ((s.managers b).process c.flags c.scheduler a ctrl).map ((s.pop a b).after b)
      else none
  | .stop n =>
    if n ∈ c.scheduler :: c.ids then ((s.managers n).stop c.scheduler).map (s.after n) else none
  | .disconnect n =>
    if n ∈ c.ids ∧ (s.managers n).done then
      ((s.managers c.scheduler).nodeDisconnected n).map fun m => s.after c.scheduler (m, [])
    else none
  | .finish => ((s.managers c.scheduler).finish).map (s.after c.scheduler)

/-! ## Counting nodes -/

section Counting

variable {c}

omit [LinearOrder N] in
theorem count_roles (role : N → Role) {ns : List N} (h : ∀ n ∈ ns, role n ≠ .scheduler) :
    ns.countP (fun n => role n = .worker) + ns.countP (fun n => role n = .server) = ns.length := by
  induction ns with
  | nil => rfl
  | cons n ns ih =>
    have hn := h n List.mem_cons_self
    have hns := ih fun k hk => h k (List.mem_cons_of_mem _ hk)
    rw [List.countP_cons, List.countP_cons, List.length_cons]
    cases hr : role n with
    | server => simp; omega
    | worker => simp; omega
    | scheduler => exact absurd hr hn

omit [LinearOrder N] in
theorem length_ids (hc : c.Valid) : c.flags.numWorkers + c.flags.numServers = c.ids.length :=
  count_roles c.role hc.role

/-- The nodes of a table are nodes of the job. -/
structure Known (c : Setup N K) (nodes : List (Node N K)) : Prop where
  sorted : nodes.Pairwise fun a b => a.id < b.id
  mem : ∀ x ∈ nodes, x.id ∈ c.scheduler :: c.ids
  role : ∀ x ∈ nodes, x.role = c.role x.id

variable {nodes : List (Node N K)}

/-- The workers and servers among them. -/
theorem Known.comp_perm (h : Known c nodes) (hc : c.Valid) :
    ((nodes.filter Node.isComp).map Node.id).Nodup ∧
      ∀ n, n ∈ (nodes.filter Node.isComp).map Node.id ↔ n ∈ c.ids ∧ n ∈ nodes.map Node.id := by
  refine ⟨?_, fun n => ?_⟩
  · have hne : (nodes.map Node.id).Nodup := List.pairwise_map.mpr (h.sorted.imp fun h => h.ne)
    exact hne.sublist (List.filter_sublist.map _)
  · have hcomp : ∀ x ∈ nodes, x.isComp = true ↔ x.id ∈ c.ids := by
      intro x hx
      have hmem := h.mem x hx
      rw [List.mem_cons] at hmem
      rw [Node.isComp, Node.isWorker, Node.isServer, h.role x hx]
      constructor
      · intro hkind
        rcases hmem with hid | hid
        · rw [hid, hc.role_scheduler] at hkind
          simp at hkind
        · exact hid
      · intro hid
        have hrole := hc.role x.id hid
        cases hr : c.role x.id <;> simp_all
    constructor
    · intro hn
      obtain ⟨x, hx, rfl⟩ := List.mem_map.mp hn
      obtain ⟨hx, hkind⟩ := List.mem_filter.mp hx
      exact ⟨(hcomp x hx).mp hkind, List.mem_map_of_mem hx⟩
    · rintro ⟨hid, hn⟩
      obtain ⟨x, hx, rfl⟩ := List.mem_map.mp hn
      exact List.mem_map_of_mem (List.mem_filter.mpr ⟨hx, (hcomp x hx).mpr hid⟩)

omit [LinearOrder K] in
theorem Known.count (h : Known c nodes) (r : Role) (hr : r ≠ .scheduler) :
    nodes.countP (fun x => x.role = r) =
      ((nodes.filter Node.isComp).map Node.id).countP fun n => c.role n = r := by
  rw [List.countP_map, List.countP_filter]
  refine List.countP_congr fun x hx => ?_
  have hrole := h.role x hx
  simp only [Function.comp, ← hrole, Node.isComp, Node.isWorker, Node.isServer]
  cases hx : x.role <;> cases r <;> simp_all

/-- **All have registered** as soon as there are as many as the flags say. -/
theorem Known.full_iff (h : Known c nodes) (hc : c.Valid) :
    (c.flags.numWorkers ≤ nodes.countP Node.isWorker ∧
      c.flags.numServers ≤ nodes.countP Node.isServer) ↔ ∀ n ∈ c.ids, n ∈ nodes.map Node.id := by
  obtain ⟨hnodup, hmem⟩ := h.comp_perm hc
  obtain ⟨comp, hcomp⟩ : ∃ comp, comp = (nodes.filter Node.isComp).map Node.id := ⟨_, rfl⟩
  have hworkers : nodes.countP Node.isWorker = comp.countP fun n => c.role n = .worker := by
    rw [hcomp]
    exact h.count .worker (by simp)
  have hservers : nodes.countP Node.isServer = comp.countP fun n => c.role n = .server := by
    rw [hcomp]
    exact h.count .server (by simp)
  rw [← hcomp] at hnodup hmem
  rw [hworkers, hservers]
  have hsub : comp.Subperm c.ids := hnodup.subperm fun n hn => ((hmem n).mp hn).1
  constructor
  · rintro ⟨hw, hs⟩ n hn
    have hlen : c.ids.length ≤ comp.length := by
      have hids := length_ids hc
      have hroles := count_roles c.role fun n hn => hc.role n ((hmem n).mp hn).1
      omega
    exact ((hmem n).mp ((hsub.perm_of_length_le hlen).mem_iff.mpr hn)).2
  · intro hall
    have hsup : c.ids.Subperm comp := hc.nodup.subperm fun n hn => (hmem n).mpr ⟨hn, hall n hn⟩
    exact ⟨hsup.countP_le _, hsup.countP_le _⟩

/-- What a node gets of a message to `kCompGroup`. -/
theorem Known.sendComp (h : Known c nodes) (hc : c.Valid) {m : Manager N K} (hm : m.nodes = nodes)
    (ctrl : Control N K) (b : N) :
    ((m.sendComp ctrl).filter fun p => p.1 = b).map Prod.snd =
      if b ∈ c.ids ∧ b ∈ nodes.map Node.id then [ctrl] else [] := by
  obtain ⟨hnodup, hmem⟩ := h.comp_perm hc
  have hone : ∀ ns : List (Node N K), (ns.map Node.id).Nodup →
      ((ns.map fun n => (n.id, ctrl)).filter fun p => p.1 = b).map Prod.snd =
        if b ∈ ns.map Node.id then [ctrl] else [] := by
    intro ns hns
    induction ns with
    | nil => rfl
    | cons x ns ih =>
      rw [List.map_cons, List.nodup_cons] at hns
      have hrest := ih hns.2
      by_cases hx : x.id = b
      · subst hx
        rw [if_neg hns.1] at hrest
        simp [hrest]
      · simp [hx, hrest, Ne.symm hx]
  rw [Manager.sendComp, hm, hone _ hnodup]
  simp only [hmem]

end Counting

/-! ## The scheduler -/

/-- The ranks are given in the order of registration, and a server has the range of its rank. -/
structure Assigned (c : Setup N K) (h : Manager N K) : Prop where
  known : Known c h.nodes
  table : h.Table
  myNode : h.myNode = c.node c.scheduler
  keyRanges : h.nodeAssigner.keyRanges = c.keyRanges
  serverRanks : ((h.nodes.filter Node.isServer).map Node.rank).Perm
    (List.range h.nodeAssigner.serverRank)
  workerRanks : ((h.nodes.filter Node.isWorker).map Node.rank).Perm
    (List.range h.nodeAssigner.workerRank)
  keys : ∀ x ∈ h.nodes, x.isServer → c.keyRanges[x.rank]? = some x.key

/-- What the scheduler keeps. -/
structure Registry (c : Setup N K) (h : Manager N K) : Prop extends Assigned c h where
  active : ∀ n ∈ h.activeNodes, n ∈ c.ids
  alive : ∀ n ∈ h.aliveNodes, n ∈ c.scheduler :: c.ids
  inited : h.inited → h.Full c.flags
  launched : c.ids.length ≤ h.activeNodes.card → h.inited = true
  exit : h.inExit = true ↔ h.phase = .stopping ∨ h.phase = .stopped
  exit_inited : h.inExit → h.inited
  done : h.done → h.phase = .stopped
  new : h.phase = .new → h = c.manager c.scheduler
  self : h.phase ≠ .new → c.node c.scheduler ∈ h.nodes ∧ c.scheduler ∈ h.aliveNodes

/-- `n` has registered. -/
def Registered (h : Manager N K) (n : N) : Prop := n ∈ h.nodes.map Node.id

section Scheduler

variable {c} {h : Manager N K} {n : N}

theorem Assigned.congr {h' : Manager N K} (ha : Assigned c h) (hs : h.SameTable h') :
    Assigned c h' := by
  obtain ⟨hknown, htable, hmy, hranges, hservers, hworkers, hkeys⟩ := ha
  refine ⟨?_, htable.congr hs, ?_, ?_, ?_, ?_, ?_⟩
  · rwa [hs.nodes]
  · rwa [hs.myNode]
  · rwa [hs.nodeAssigner]
  · rwa [hs.nodes, hs.nodeAssigner]
  · rwa [hs.nodes, hs.nodeAssigner]
  · rwa [hs.nodes]

theorem Registry.isScheduler (hr : Registry c h) (hc : c.Valid) : h.isScheduler = true := by
  rw [Manager.isScheduler, hr.myNode]
  exact decide_eq_true hc.role_scheduler

theorem Registry.full_iff (hr : Registry c h) (hc : c.Valid) :
    h.Full c.flags ↔ ∀ n ∈ c.ids, Registered h n := by
  rw [Manager.Full, hr.table.numWorkers, hr.table.numServers]
  exact hr.known.full_iff hc

/-- A server that has not registered has no range yet, but one is left. -/
theorem Registry.serverRank_lt (hr : Registry c h) (hc : c.Valid) (hn : n ∈ c.ids)
    (hnew : ¬ Registered h n) (hserver : c.role n = .server) :
    h.nodeAssigner.serverRank < c.keyRanges.length := by
  obtain ⟨hnodup, hmem⟩ := hr.known.comp_perm hc
  have hlen := hr.serverRanks.length_eq
  rw [List.length_map, ← List.countP_eq_length_filter, List.length_range] at hlen
  have hcount := hr.known.count .server (by simp)
  have hsub : (n :: (h.nodes.filter Node.isComp).map Node.id).Subperm c.ids := by
    have hcons := List.nodup_cons.mpr ⟨fun hin => hnew ((hmem n).mp hin).2, hnodup⟩
    refine hcons.subperm fun k hk => ?_
    rcases List.mem_cons.mp hk with rfl | hk
    · exact hn
    · exact ((hmem k).mp hk).1
  have hle := hsub.countP_le fun k => decide (c.role k = .server)
  rw [List.countP_cons, ← hcount, if_pos (by simpa using hserver)] at hle
  rw [hc.length, ← hlen]
  exact hle

/-- Filling in a node that registers. -/
theorem Registry.assign (hr : Registry c h) (hc : c.Valid) (hn : n ∈ c.ids)
    (hnew : ¬ Registered h n) :
    ∃ x a, h.nodeAssigner.assign (c.node n) = some (x, a) ∧ x.id = n ∧ x.role = c.role n ∧
      a.keyRanges = c.keyRanges ∧ (x.isServer → c.keyRanges[x.rank]? = some x.key) ∧
      (if x.isServer then x.rank = h.nodeAssigner.serverRank ∧
        a.serverRank = h.nodeAssigner.serverRank + 1 else
        a.serverRank = h.nodeAssigner.serverRank) ∧
      (if x.isWorker then x.rank = h.nodeAssigner.workerRank ∧
        a.workerRank = h.nodeAssigner.workerRank + 1 else
        a.workerRank = h.nodeAssigner.workerRank) := by
  have hrole := hc.role n hn
  rw [NodeAssigner.assign, hr.keyRanges]
  cases hkind : c.role n with
  | server =>
    have hlt := hr.serverRank_lt hc hn hnew hkind
    have hnode : (c.node n).role = .server := hkind
    rw [hnode]
    simp only [List.getElem?_eq_getElem hlt, Option.map_some]
    exact ⟨_, _, rfl, rfl, rfl, rfl, fun _ => List.getElem?_eq_getElem hlt,
      by simp [Node.isServer], by simp [Node.isWorker]⟩
  | worker =>
    have hnode : (c.node n).role = .worker := hkind
    rw [hnode]
    exact ⟨_, _, rfl, rfl, rfl, rfl, by simp [Node.isServer], by simp [Node.isServer],
      by simp [Node.isWorker]⟩
  | scheduler => exact absurd hkind hrole

/-- **A node registers.** -/
theorem Registry.register (hr : Registry c h) (hc : c.Valid) (hn : n ∈ c.ids)
    (hnew : ¬ Registered h n) (hphase : h.phase ≠ .new) (hinited : h.inited = false) :
    ∃ h', h.process c.flags c.scheduler n (.registerNode (c.node n)) =
        some (h', if h'.Full c.flags then h'.sendComp (.addNode h'.nodes) else []) ∧
      Registry c h' ∧ (∀ k, Registered h' k ↔ k = n ∨ Registered h k) ∧
      h'.activeNodes = h.activeNodes ∧ h'.aliveNodes = insert n h.aliveNodes ∧ h'.inited = false ∧
      h'.inExit = h.inExit ∧ h'.done = h.done ∧ h'.phase = h.phase := by
  obtain ⟨x, a, hassign, hid, hrole, hranges, hkey, hserver, hworker⟩ := hr.assign hc hn hnew
  have hfreshId : ∀ y ∈ h.nodes, y.id ≠ x.id := by
    rintro y hy heq
    exact hnew (by rw [← hid, ← heq]; exact List.mem_map_of_mem hy)
  have hfresh : Manager.Fresh h.nodes x := by
    refine ⟨hfreshId, fun hx y hy hykind => ?_⟩
    rw [if_pos hx] at hserver
    have hrank := hr.serverRanks.mem_iff.mp
      (List.mem_map_of_mem (List.mem_filter.mpr ⟨hy, hykind⟩))
    rw [List.mem_range] at hrank
    obtain ⟨hlt, hget⟩ := List.getElem?_eq_some_iff.mp (hr.keys y hy hykind)
    obtain ⟨hlt', hget'⟩ := List.getElem?_eq_some_iff.mp (hkey hx)
    have hless := List.pairwise_iff_getElem.mp hc.increasing y.rank x.rank hlt hlt' (by omega)
    rw [hget, hget'] at hless
    exact hless.ne
  have hnotme : x.id ≠ h.myNode.id := by
    rw [hr.myNode, hid]
    rintro rfl
    exact hc.scheduler hn
  obtain ⟨h₁, hh₁⟩ : ∃ h₁, h₁ = { h with nodeAssigner := a } := ⟨_, rfl⟩
  have hnodes₁ : h₁.nodes = h.nodes := by rw [hh₁]
  have htable₁ : h₁.Table := by
    rw [hh₁]
    exact ⟨hr.table.sorted, hr.table.numWorkers, hr.table.numServers, hr.table.serverGroup,
      hr.table.ordered⟩
  have hfresh₁ : Manager.Fresh h₁.nodes x := by rwa [hnodes₁]
  have hrole₁ : x.id = h₁.myNode.id → x.role = h₁.myNode.role := by
    rw [hh₁]
    exact fun heq => absurd heq hnotme
  have hsame := Manager.join_same h₁ x hrole₁
  have hsched₁ : h₁.isScheduler = true := by
    rw [hh₁]
    exact hr.isScheduler hc
  have hadd := Manager.addNode_eq c.flags c.scheduler h₁ x (by rw [hh₁]; exact hinited)
    hrole₁
  rw [if_pos hsched₁] at hadd
  have hperm : (h₁.join x).nodes.Perm (x :: h.nodes) := by
    rw [← hnodes₁]
    exact Manager.insertNode_perm hfresh₁.id
  have htable := htable₁.join hfresh₁
  have hregistered : ∀ k, Registered (h₁.join x) k ↔ k = n ∨ Registered h k := by
    intro k
    rw [Registered, (hperm.map Node.id).mem_iff, List.map_cons, List.mem_cons, hid]
    rfl
  have hranks : ∀ (p : Node N K → Bool) (r r' : ℕ),
      ((h.nodes.filter p).map Node.rank).Perm (List.range r) →
      (if p x then x.rank = r ∧ r' = r + 1 else r' = r) →
      (((h₁.join x).nodes.filter p).map Node.rank).Perm (List.range r') := by
    intro p r r' hbefore hx
    refine ((hperm.filter p).map Node.rank).trans ?_
    by_cases hp : p x = true
    · rw [if_pos hp] at hx
      rw [List.filter_cons_of_pos hp, List.map_cons, hx.1, hx.2, List.range_succ]
      exact (hbefore.cons r).trans (List.perm_append_singleton r _).symm
    · rw [if_neg hp] at hx
      rw [List.filter_cons_of_neg hp, hx]
      exact hbefore
  have halive : (h₁.join x).aliveNodes = insert n h.aliveNodes := by
    rw [← hid, hh₁]
    rfl
  refine ⟨h₁.join x, ?_, ?_, hregistered, ?_⟩
  · rw [Manager.process, if_pos (hr.isScheduler hc), hassign, Option.bind_some]
    simp only [← hh₁]
    exact hadd
  · have hmy : (h₁.join x).myNode = h.myNode := by
      show (if _ then x else h₁.myNode) = _
      rw [hh₁, if_neg]
      rw [Bool.and_eq_true, decide_eq_true_eq]
      exact fun heq => hnotme heq.2
    have hassigner : (h₁.join x).nodeAssigner = a := by
      rw [hsame.nodeAssigner, hh₁]
    have hphase' : (h₁.join x).phase = h.phase := by rw [hsame.phase, hh₁]
    refine ⟨⟨⟨htable.sorted, fun y hy => ?_, fun y hy => ?_⟩, htable, hmy.trans hr.myNode, ?_, ?_,
      ?_, fun y hy hykind => ?_⟩, ?_, fun k hk => ?_, ?_, ?_, ?_, ?_, ?_, ?_, fun _ => ?_⟩
    · rcases List.mem_cons.mp (hperm.mem_iff.mp hy) with rfl | hy
      · rw [hid]
        exact List.mem_cons_of_mem _ hn
      · exact hr.known.mem y hy
    · rcases List.mem_cons.mp (hperm.mem_iff.mp hy) with rfl | hy
      · rw [hid, hrole]
      · exact hr.known.role y hy
    · rw [hassigner, hranges]
    · rw [hassigner]
      exact hranks Node.isServer _ _ hr.serverRanks hserver
    · rw [hassigner]
      exact hranks Node.isWorker _ _ hr.workerRanks hworker
    · rcases List.mem_cons.mp (hperm.mem_iff.mp hy) with rfl | hy
      · exact hkey hykind
      · exact hr.keys y hy hykind
    · rw [hsame.activeNodes, hh₁]
      exact hr.active
    · rw [halive, Finset.mem_insert] at hk
      rcases hk with rfl | hk
      · exact List.mem_cons_of_mem _ hn
      · exact hr.alive k hk
    · rw [hsame.inited, hh₁]
      exact fun h => absurd (hinited.symm.trans h) Bool.false_ne_true
    · rw [hsame.activeNodes, hsame.inited, hh₁]
      exact hr.launched
    · rw [hphase', hsame.inExit, hh₁]
      exact hr.exit
    · rw [hsame.inExit, hsame.inited, hh₁]
      exact hr.exit_inited
    · rw [hphase', hsame.done, hh₁]
      exact hr.done
    · rw [hphase']
      exact fun h => absurd h hphase
    · rw [halive]
      obtain ⟨hme, hin⟩ := hr.self hphase
      exact ⟨hperm.mem_iff.mpr (List.mem_cons_of_mem x hme), Finset.mem_insert_of_mem hin⟩
  · rw [hsame.activeNodes, halive, hsame.inited, hsame.inExit, hsame.done, hsame.phase, hh₁]
    exact ⟨rfl, rfl, hinited, rfl, rfl, rfl⟩

/-- **The scheduler starts** and knows itself. -/
theorem Registry.start (hr : Registry c h) (hc : c.Valid) (hphase : h.phase = .new) :
    ∃ h', h.init c.flags c.scheduler = some (h', []) ∧ Registry c h' ∧
      (∀ k ∈ c.ids, ¬ Registered h' k) ∧ ¬ h'.Full c.flags ∧ h'.activeNodes = ∅ ∧
      h'.aliveNodes = {c.scheduler} ∧ h'.inited = false ∧ h'.inExit = false ∧ h'.done = false ∧
      h'.phase = .running := by
  obtain ⟨h₁, hh₁⟩ : ∃ h₁, h₁ = { c.manager c.scheduler with phase := .running } := ⟨_, rfl⟩
  have hsched : (c.manager c.scheduler).isScheduler = true := by
    rw [← hr.new hphase]
    exact hr.isScheduler hc
  have hkind : (c.node c.scheduler).isServer = false ∧ (c.node c.scheduler).isWorker = false := by
    have hrole : (c.node c.scheduler).role = .scheduler := hc.role_scheduler
    simp [Node.isServer, Node.isWorker, hrole]
  have htable₁ : h₁.Table := by
    rw [hh₁]
    exact ⟨.nil, rfl, rfl, .refl _, .nil⟩
  have hfresh : Manager.Fresh h₁.nodes (c.node c.scheduler) := by
    rw [hh₁]
    refine ⟨fun y hy => by simp [Setup.manager] at hy, fun _ y hy => by simp [Setup.manager] at hy⟩
  have hsame := Manager.join_same h₁ (c.node c.scheduler) (by rw [hh₁]; exact fun _ => rfl)
  have hnodes : (h₁.join (c.node c.scheduler)).nodes = [c.node c.scheduler] := by rw [hh₁]; rfl
  have hmy : (h₁.join (c.node c.scheduler)).myNode = c.node c.scheduler := by
    show (if _ then c.node c.scheduler else h₁.myNode) = _
    rw [hh₁]
    exact ite_self _
  have halive : (h₁.join (c.node c.scheduler)).aliveNodes = {c.scheduler} := by rw [hh₁]; rfl
  have hregistry : Registry c (h₁.join (c.node c.scheduler)) := by
    refine ⟨⟨⟨?_, ?_, ?_⟩, htable₁.join hfresh, hmy, ?_, ?_, ?_, ?_⟩, ?_, ?_, ?_, ?_, ?_, ?_, ?_,
      ?_, ?_⟩
    · rw [hnodes]
      exact List.pairwise_singleton _ _
    · rw [hnodes]
      intro y hy
      rw [List.mem_singleton.mp hy]
      exact List.mem_cons_self
    · rw [hnodes]
      intro y hy
      rw [List.mem_singleton.mp hy]
      rfl
    · rw [hsame.nodeAssigner, hh₁]
      rfl
    · rw [hnodes, hsame.nodeAssigner, hh₁, List.filter_cons_of_neg (by rw [hkind.1]; simp)]
      exact .refl _
    · rw [hnodes, hsame.nodeAssigner, hh₁, List.filter_cons_of_neg (by rw [hkind.2]; simp)]
      exact .refl _
    · rw [hnodes]
      intro y hy hserver
      rw [List.mem_singleton.mp hy, hkind.1] at hserver
      cases hserver
    · rw [hsame.activeNodes, hh₁]
      exact fun n hn => absurd hn (Finset.notMem_empty n)
    · rw [halive]
      intro n hn
      rw [Finset.mem_singleton.mp hn]
      exact List.mem_cons_self
    · rw [hsame.inited, hh₁]
      exact fun h => by cases h
    · rw [hsame.activeNodes, hh₁]
      exact fun h => absurd (List.length_eq_zero_iff.mp (Nat.le_zero.mp h)) hc.ne_nil
    · rw [hsame.inExit, hsame.phase, hh₁]
      simp [Setup.manager]
    · rw [hsame.inExit, hh₁]
      exact fun h => by cases h
    · rw [hsame.done, hh₁]
      exact fun h => by cases h
    · rw [hsame.phase, hh₁]
      exact fun h => by cases h
    · rw [halive, hnodes]
      exact fun _ => ⟨List.mem_singleton_self _, Finset.mem_singleton_self _⟩
  have hnone : ∀ k ∈ c.ids, ¬ Registered (h₁.join (c.node c.scheduler)) k := by
    intro k hk hreg
    rw [Registered, hnodes, List.map_singleton, List.mem_singleton] at hreg
    exact hc.scheduler (by rwa [hreg] at hk)
  have hfull : ¬ (h₁.join (c.node c.scheduler)).Full c.flags := by
    rw [hregistry.full_iff hc]
    obtain ⟨k, hk⟩ := List.exists_mem_of_ne_nil _ hc.ne_nil
    exact fun hall => hnone k hk (hall k hk)
  refine ⟨h₁.join (c.node c.scheduler), ?_, hregistry, hnone, hfull, ?_⟩
  · have hadd := Manager.addNode_eq c.flags c.scheduler h₁ (c.node c.scheduler)
      (by rw [hh₁]; rfl) (by rw [hh₁]; exact fun _ => rfl)
    rw [if_neg hfull] at hadd
    rw [Manager.init, hr.new hphase, if_pos hsched, ← hh₁]
    exact hadd
  · rw [hsame.activeNodes, halive, hsame.inited, hsame.inExit, hsame.done, hsame.phase, hh₁]
    exact ⟨rfl, rfl, rfl, rfl, rfl, rfl⟩

end Scheduler

/-! ## Where a node is -/

/-- What a node that knows all nodes has still on its way to the scheduler: it is ready to run, more
than once if nodes follow in the list when the last one it waits for is added, and ready to exit
after that. -/
inductive Up (h m : Manager N K) (up : List (Control N K)) (n : N) : Prop
  | running (k : ℕ) : m.phase = .running → up = List.replicate k .readyToRun →
      (n ∈ h.activeNodes ∨ 0 < k) → Up h m up n
  | leaving (k : ℕ) : m.phase = .stopping → m.inited = true →
      up = List.replicate k .readyToRun ++ [.readyToExit] → (n ∈ h.activeNodes ∨ 0 < k) →
      Up h m up n
  | left : m.phase = .stopping → m.inited = true → up = [] → n ∉ h.activeNodes → Up h m up n

/-- A node that knows all nodes, with what is on its way to and from the scheduler. -/
structure Added (c : Setup N K) (h m : Manager N K) (up down : List (Control N K)) (n : N) :
    Prop where
  full : h.Full c.flags
  nodes : m.nodes = h.nodes
  table : m.Table
  myNode : m.myNode ∈ h.nodes
  id : m.myNode.id = n
  sent : Up h m up n
  coming : ∃ j, down = List.replicate j .readyToRun ++
      (if h.inExit = true ∧ m.done = false then [.exit] else []) ∧
    (m.done → h.inExit = true ∧ j = 0) ∧ (0 < j → h.inited = true) ∧
    (h.inited = true → m.inited = true ∨ 0 < j)
  inited : m.inited = true → h.inited = true
  active : h.inited = true → n ∈ h.activeNodes ∨ up = []
  exit : h.inExit = true → n ∉ h.activeNodes

/-- Where a node is. -/
inductive Place (c : Setup N K) (h m : Manager N K) (up down : List (Control N K)) (n : N) : Prop
  | new : m = c.manager n → up = [] → down = [] → ¬ Registered h n → n ∉ h.activeNodes →
      h.inited = false → Place c h m up down n
  | registering : m = { c.manager n with phase := .running } →
      up = [.registerNode (c.node n)] → down = [] → ¬ Registered h n → n ∉ h.activeNodes →
      h.inited = false → Place c h m up down n
  | registered : m = { c.manager n with phase := .running } → up = [] → Registered h n →
      down = (if h.Full c.flags then [.addNode h.nodes] else []) → n ∉ h.activeNodes →
      h.inited = false → Place c h m up down n
  | added : Added c h m up down n → Place c h m up down n

/-- What holds in every state. -/
structure Inv (c : Setup N K) (s : Cluster N K) : Prop where
  registry : Registry c (s.managers c.scheduler)
  place : ∀ n ∈ c.ids, Place c (s.managers c.scheduler) (s.managers n) (s.net n c.scheduler)
    (s.net c.scheduler n) n
  self : s.net c.scheduler c.scheduler =
    if (s.managers c.scheduler).phase = .stopped ∧ (s.managers c.scheduler).done = false then
      [.exit]
    else []
  net : ∀ a b, s.net a b ≠ [] → a = c.scheduler ∧ b ∈ c.scheduler :: c.ids ∨
    a ∈ c.ids ∧ b = c.scheduler
  gone : ∀ n ∈ c.ids, Registered (s.managers c.scheduler) n →
    n ∈ (s.managers c.scheduler).aliveNodes ∨ (s.managers n).done = true
  last : (s.managers c.scheduler).phase = .stopped → ∀ n ∈ c.ids, (s.managers n).done = true

section Places

variable {c} {h h' m : Manager N K} {up down : List (Control N K)} {n : N}

/-- What a place depends on at the scheduler. -/
structure SameView (h h' : Manager N K) (n : N) : Prop where
  nodes : h'.nodes = h.nodes
  numWorkers : h'.numWorkers = h.numWorkers
  numServers : h'.numServers = h.numServers
  active : n ∈ h'.activeNodes ↔ n ∈ h.activeNodes
  inited : h'.inited = h.inited
  inExit : h'.inExit = h.inExit

omit [LinearOrder N] [LinearOrder K] in
theorem SameView.full (hv : SameView h h' n) : h'.Full c.flags ↔ h.Full c.flags := by
  rw [Manager.Full, Manager.Full, hv.numWorkers, hv.numServers]

omit [LinearOrder N] [LinearOrder K] in
theorem SameView.registered (hv : SameView h h' n) (k : N) :
    Registered h' k ↔ Registered h k := by
  rw [Registered, Registered, hv.nodes]

omit [LinearOrder N] [LinearOrder K] in
theorem Up.congr (hup : Up h m up n) (hv : n ∈ h'.activeNodes ↔ n ∈ h.activeNodes) :
    Up h' m up n := by
  cases hup with
  | running k hphase hqueue hready => exact .running k hphase hqueue (by rwa [hv])
  | leaving k hphase hinited hqueue hready => exact .leaving k hphase hinited hqueue (by rwa [hv])
  | left hphase hinited hqueue hgone => exact .left hphase hinited hqueue (by rwa [hv])

theorem Place.congr (hp : Place c h m up down n) (hv : SameView h h' n) :
    Place c h' m up down n := by
  have hfull := hv.full (c := c)
  have hreg := hv.registered n
  cases hp with
  | new hm hup hdown hnew hnot hinited =>
    exact .new hm hup hdown (by rwa [hreg]) (by rwa [hv.active]) (by rwa [hv.inited])
  | registering hm hup hdown hnew hnot hinited =>
    exact .registering hm hup hdown (by rwa [hreg]) (by rwa [hv.active]) (by rwa [hv.inited])
  | registered hm hup hold hdown hnot hinited =>
    refine .registered hm hup (by rwa [hreg]) ?_ (by rwa [hv.active]) (by rwa [hv.inited])
    rw [hdown, hv.nodes]
    exact if_congr hfull.symm rfl rfl
  | added ha =>
    obtain ⟨j, hdown, hdone, hmore, hrun⟩ := ha.coming
    refine .added ⟨hfull.mpr ha.full, by rw [ha.nodes, hv.nodes], ha.table,
      by rw [hv.nodes]; exact ha.myNode, ha.id, ha.sent.congr hv.active, ⟨j, ?_⟩, ?_, ?_, ?_⟩
    · rw [hv.inExit, hv.inited]
      exact ⟨hdown, hdone, hmore, hrun⟩
    · rw [hv.inited]
      exact ha.inited
    · rw [hv.inited, hv.active]
      exact ha.active
    · rw [hv.inExit, hv.active]
      exact ha.exit

end Places

/-! ## Work -/

/-- How many steps a message can cause, and the message itself. -/
def upWork (c : Setup N K) : Control N K → ℕ
  | .registerNode _ => c.ids.length * ((c.ids.length + 1) * (c.ids.length + 1) + 1) + 2
  | .readyToRun => c.ids.length + 1
  | _ => 1

def downWork (c : Setup N K) : Control N K → ℕ
  | .addNode _ => (c.ids.length + 1) * (c.ids.length + 1) + 1
  | _ => 1

/-- What a node has still to do, and what is on its way to and from it. -/
def nodeWork (c : Setup N K) (m : Manager N K) (up down : List (Control N K)) : ℕ :=
  (match m.phase with
    | .new => c.ids.length * ((c.ids.length + 1) * (c.ids.length + 1) + 1) + 5
    | .running => 2
    | .stopping | .stopped => 0) +
    (up.map (upWork c)).sum + (down.map (downWork c)).sum

/-- What the scheduler has still to do. -/
def schedulerWork (c : Setup N K) (h : Manager N K) (self : List (Control N K)) : ℕ :=
  (match h.phase with
    | .new => c.ids.length + 5
    | .running => c.ids.length + 3
    | .stopping => 2
    | .stopped => 0) + h.aliveNodes.card + self.length

/-- No run has more steps than this. -/
def work (c : Setup N K) (s : Cluster N K) : ℕ :=
  schedulerWork c (s.managers c.scheduler) (s.net c.scheduler c.scheduler) +
    (c.ids.map fun n => nodeWork c (s.managers n) (s.net n c.scheduler) (s.net c.scheduler n)).sum

omit [LinearOrder N] in
/-- A sum in which everything grows by at most `e`, but one part less than that. -/
theorem sum_add_le {ns : List N} (f g : N → ℕ) {e w : ℕ} (hle : ∀ k ∈ ns, g k ≤ f k + e) {n : N}
    (hn : n ∈ ns) (hless : g n + w ≤ f n + e) :
    (ns.map g).sum + w ≤ (ns.map f).sum + ns.length * e := by
  induction ns with
  | nil => cases hn
  | cons k ns ih =>
    have hk := hle k List.mem_cons_self
    have hrest : ∀ j ∈ ns, g j ≤ f j + e := fun j hj => hle j (List.mem_cons_of_mem _ hj)
    rw [List.map_cons, List.map_cons, List.sum_cons, List.sum_cons, List.length_cons,
      Nat.add_one_mul]
    rcases List.mem_cons.mp hn with rfl | hn
    · have hsum : (ns.map g).sum ≤ (ns.map f).sum + ns.length * e := by
        clear ih hk hle hn hless
        induction ns with
        | nil => simp
        | cons j ns ih =>
          have hj := hrest j List.mem_cons_self
          have hns := ih fun i hi => hrest i (List.mem_cons_of_mem _ hi)
          rw [List.map_cons, List.map_cons, List.sum_cons, List.sum_cons, List.length_cons,
            Nat.add_one_mul]
          omega
      omega
    · have hsum := ih hrest hn
      omega

/-! ## The steps -/

section Steps

variable {c} {s s' : Cluster N K} {n : N}

omit [LinearOrder K] in
/-- What a node sends to one other node. -/
theorem after_net (s : Cluster N K) (n dst : N) {r : Manager N K × List (N × Control N K)}
    (hout : ∀ p ∈ r.2, p.1 = dst) :
    (s.after n r).net n dst = s.net n dst ++ r.2.map Prod.snd ∧
      ∀ a b, ¬ (a = n ∧ b = dst) → (s.after n r).net a b = s.net a b := by
  refine ⟨?_, fun a b hab => ?_⟩
  · show (if n = n then s.net n dst ++ _ else _) = _
    rw [if_pos rfl, List.filter_eq_self.mpr fun p hp => by simpa using hout p hp]
  · show (if a = n then s.net a b ++ _ else _) = _
    split
    · next ha =>
      have hb : ∀ p ∈ r.2, ¬ (decide (p.1 = b)) = true := by
        intro p hp heq
        rw [decide_eq_true_eq] at heq
        exact hab ⟨ha, heq.symm.trans (hout p hp)⟩
      rw [List.filter_eq_nil_iff.mpr hb, List.map_nil, List.append_nil]
    · rfl

/-- **A step of a node** that talks only to the scheduler. -/
theorem Inv.of_node (hi : Inv c s) (hc : c.Valid) (hn : n ∈ c.ids)
    (hmanagers : ∀ k ≠ n, s'.managers k = s.managers k)
    (hnet : ∀ a b, ¬ (a = n ∧ b = c.scheduler) → ¬ (a = c.scheduler ∧ b = n) →
      s'.net a b = s.net a b)
    (hdone : (s.managers n).done = true → (s'.managers n).done = true)
    (hplace : Place c (s.managers c.scheduler) (s'.managers n) (s'.net n c.scheduler)
      (s'.net c.scheduler n) n)
    (hwork : nodeWork c (s'.managers n) (s'.net n c.scheduler) (s'.net c.scheduler n) <
      nodeWork c (s.managers n) (s.net n c.scheduler) (s.net c.scheduler n)) :
    Inv c s' ∧ work c s' < work c s := by
  have hne : n ≠ c.scheduler := by
    rintro rfl
    exact hc.scheduler hn
  have hsched := hmanagers c.scheduler hne.symm
  have hself : s'.net c.scheduler c.scheduler = s.net c.scheduler c.scheduler :=
    hnet _ _ (fun h => hne h.1.symm) fun h => hne h.2.symm
  have hother : ∀ k ≠ n, s'.net k c.scheduler = s.net k c.scheduler ∧
      s'.net c.scheduler k = s.net c.scheduler k := fun k hk =>
    ⟨hnet _ _ (fun h => hk h.1) fun h => hne h.2.symm,
      hnet _ _ (fun h => hne h.1.symm) fun h => hk h.2⟩
  have hover : ∀ k, (s.managers k).done = true → (s'.managers k).done = true := by
    intro k hk
    by_cases hkn : k = n
    · subst hkn
      exact hdone hk
    · rwa [hmanagers k hkn]
  refine ⟨⟨?_, fun k hk => ?_, ?_, fun a b hab => ?_, fun k hk hreg => ?_, fun hp k hk => ?_⟩, ?_⟩
  · rw [hsched]
    exact hi.registry
  · rw [hsched]
    by_cases hkn : k = n
    · subst hkn
      exact hplace
    · rw [hmanagers k hkn, (hother k hkn).1, (hother k hkn).2]
      exact hi.place k hk
  · rw [hself, hsched]
    exact hi.self
  · by_cases h1 : a = n ∧ b = c.scheduler
    · exact Or.inr ⟨h1.1 ▸ hn, h1.2⟩
    · by_cases h2 : a = c.scheduler ∧ b = n
      · exact Or.inl ⟨h2.1, h2.2 ▸ List.mem_cons_of_mem _ hn⟩
      · rw [hnet a b h1 h2] at hab
        exact hi.net a b hab
  · rw [hsched] at hreg ⊢
    exact (hi.gone k hk hreg).imp_right (hover k)
  · rw [hsched] at hp
    exact hover k (hi.last hp k hk)
  · have hsum := sum_add_le (e := 0) (w := 1)
      (fun k => nodeWork c (s.managers k) (s.net k c.scheduler) (s.net c.scheduler k))
      (fun k => nodeWork c (s'.managers k) (s'.net k c.scheduler) (s'.net c.scheduler k))
      (fun k _ => by
        by_cases hkn : k = n
        · subst hkn
          exact hwork.le
        · rw [hmanagers k hkn, (hother k hkn).1, (hother k hkn).2]
          exact le_rfl)
      hn hwork
    rw [work, work, hsched, hself]
    omega

omit [LinearOrder N] in
theorem manager_isScheduler (hc : c.Valid) (hn : n ∈ c.ids) :
    (c.manager n).isScheduler = false :=
  decide_eq_false (hc.role n hn)

/-- **A node starts** and registers. -/
theorem Inv.start_node (hi : Inv c s) (hc : c.Valid) (hn : n ∈ c.ids)
    (hphase : (s.managers n).phase = .new) :
    ∃ s', step c s (.start n) = some s' ∧ Inv c s' ∧ work c s' < work c s := by
  have hplace := hi.place n hn
  cases hplace with
  | new hm hup hdown hnew hnot hinited =>
    have hrun : (s.managers n).init c.flags c.scheduler =
        some ({ c.manager n with phase := .running },
          [(c.scheduler, .registerNode (c.node n))]) := by
      rw [hm, Manager.init, if_neg (by rw [manager_isScheduler hc hn]; simp)]
      rfl
    obtain ⟨hout, hnet⟩ := after_net s n c.scheduler
      (r := ({ c.manager n with phase := .running }, [(c.scheduler, .registerNode (c.node n))]))
      (fun p hp => by rw [List.mem_singleton.mp hp])
    rw [hup, List.nil_append] at hout
    have hne : n ≠ c.scheduler := by
      rintro rfl
      exact hc.scheduler hn
    have hdown' := hnet c.scheduler n fun h => hne h.1.symm
    have hmanager : (s.after n ({ c.manager n with phase := .running },
        [(c.scheduler, .registerNode (c.node n))])).managers n =
          { c.manager n with phase := .running } := Function.update_self ..
    refine ⟨_, by rw [step, if_pos ⟨List.mem_cons_of_mem _ hn, hphase⟩, hrun]; rfl, ?_⟩
    refine hi.of_node hc hn (fun k hk => Function.update_of_ne hk _ _)
      (fun a b h1 _ => hnet a b h1) (by rw [hm]; exact fun h => by cases h) ?_ ?_
    · exact .registering hmanager hout (by rw [hdown', hdown]) hnew hnot hinited
    · rw [hmanager, hout, hdown', hdown, hup, hm]
      simp only [nodeWork, Setup.manager, List.map_cons, List.map_nil, List.sum_cons, List.sum_nil,
        upWork]
      omega
  | registering hm hup hdown hnew hnot hinited =>
    rw [hm] at hphase
    cases hphase
  | registered hm hup hold hdown hnot hinited =>
    rw [hm] at hphase
    cases hphase
  | added ha =>
    cases ha.sent with
    | running k hrunning _ _ => cases hphase.symm.trans hrunning
    | leaving k hstopping _ _ _ => cases hphase.symm.trans hstopping
    | left hstopping _ _ _ => cases hphase.symm.trans hstopping

/-- A node that knows all nodes is not new. -/
theorem Added.phase_ne {h m : Manager N K} {up down : List (Control N K)}
    (ha : Added c h m up down n) : m.phase ≠ .new := by
  intro hnew
  cases ha.sent with
  | running k hrunning _ _ => cases hnew.symm.trans hrunning
  | leaving k hstopping _ _ _ => cases hnew.symm.trans hstopping
  | left hstopping _ _ _ => cases hnew.symm.trans hstopping

theorem Added.isScheduler {h m : Manager N K} {up down : List (Control N K)}
    (ha : Added c h m up down n) (hr : Registry c h) (hc : c.Valid) (hn : n ∈ c.ids) :
    m.isScheduler = false := by
  rw [Manager.isScheduler, hr.known.role _ ha.myNode, ha.id]
  exact decide_eq_false (hc.role n hn)

/-- **A node stops** when it was told to run. -/
theorem Inv.stop_node (hi : Inv c s) (hc : c.Valid) (hn : n ∈ c.ids)
    (hphase : (s.managers n).phase = .running) (hrun : (s.managers n).inited = true) :
    ∃ s', step c s (.stop n) = some s' ∧ Inv c s' ∧ work c s' < work c s := by
  have hplace := hi.place n hn
  cases hplace with
  | new hm =>
    rw [hm] at hphase
    cases hphase
  | registering hm =>
    rw [hm] at hrun
    cases hrun
  | registered hm =>
    rw [hm] at hrun
    cases hrun
  | added ha =>
    cases hup : ha.sent with
    | leaving k hstopping => cases hphase.symm.trans hstopping
    | left hstopping => cases hphase.symm.trans hstopping
    | running k _ hqueue hready =>
      have hstop : (s.managers n).stop c.scheduler =
          some ({ s.managers n with phase := .stopping }, [(c.scheduler, .readyToExit)]) := by
        rw [Manager.stop, if_pos ⟨hphase, hrun⟩,
          if_neg (by rw [ha.isScheduler hi.registry hc hn]; simp)]
      obtain ⟨hout, hnet⟩ := after_net s n c.scheduler
        (r := ({ s.managers n with phase := .stopping }, [(c.scheduler, .readyToExit)]))
        (fun p hp => by rw [List.mem_singleton.mp hp])
      have hne : n ≠ c.scheduler := by
        rintro rfl
        exact hc.scheduler hn
      have hdown' := hnet c.scheduler n fun h => hne h.1.symm
      have hmanager : (s.after n ({ s.managers n with phase := .stopping },
          [(c.scheduler, .readyToExit)])).managers n = { s.managers n with phase := .stopping } :=
        Function.update_self ..
      refine ⟨_, by rw [step, if_pos (List.mem_cons_of_mem _ hn), hstop]; rfl, ?_⟩
      refine hi.of_node hc hn (fun k hk => Function.update_of_ne hk _ _)
        (fun a b h1 _ => hnet a b h1) (by rw [hmanager]; exact id) ?_ ?_
      · have hactive : n ∈ (s.managers c.scheduler).activeNodes := by
          refine (ha.active (ha.inited hrun)).elim id fun hnil => ?_
          refine hready.resolve_right fun hpos => ?_
          rw [hnil] at hqueue
          exact hpos.ne (by simpa using congrArg List.length hqueue)
        rw [hmanager, hout, hdown']
        refine .added ⟨ha.full, ha.nodes, ha.table.congr ⟨rfl, rfl, rfl, rfl, rfl, rfl⟩, ha.myNode,
          ha.id, ?_, ha.coming,
          ha.inited, fun _ => Or.inl hactive, ha.exit⟩
        exact .leaving k rfl hrun (by rw [hqueue]; rfl) hready
      · rw [hmanager, hout, hdown']
        simp only [nodeWork, hphase, List.map_append, List.sum_append, List.map_cons, List.map_nil,
          List.sum_cons, List.sum_nil, upWork]
        omega

/-- No more nodes have registered than there are. -/
theorem Registry.length_le {h : Manager N K} (hr : Registry c h) :
    h.nodes.length ≤ c.ids.length + 1 := by
  have hnodup : (h.nodes.map Node.id).Nodup :=
    List.pairwise_map.mpr (hr.known.sorted.imp fun h => h.ne)
  have hsub : (h.nodes.map Node.id).Subperm (c.scheduler :: c.ids) := by
    refine hnodup.subperm fun k hk => ?_
    obtain ⟨x, hx, rfl⟩ := List.mem_map.mp hk
    exact hr.known.mem x hx
  have hle := hsub.length_le
  rwa [List.length_map, List.length_cons] at hle

omit [LinearOrder K] in
/-- A node that gets a message. -/
theorem deliver_net (s : Cluster N K) {a b : N} (dst : N) {r : Manager N K × List (N × Control N K)}
    (hab : a ≠ b) (hout : ∀ p ∈ r.2, p.1 = dst) :
    ((s.pop a b).after b r).net b dst = s.net b dst ++ r.2.map Prod.snd ∧
      ((s.pop a b).after b r).net a b = (s.net a b).tail ∧
      ∀ x y, ¬ (x = b ∧ y = dst) → ¬ (x = a ∧ y = b) →
        ((s.pop a b).after b r).net x y = s.net x y := by
  obtain ⟨hself, hnet⟩ := after_net (s.pop a b) b dst hout
  have hpop : ∀ x y, ¬ (x = a ∧ y = b) → (s.pop a b).net x y = s.net x y :=
    fun x y h => if_neg h
  refine ⟨?_, ?_, fun x y h1 h2 => ?_⟩
  · rw [hself, hpop b dst fun h => hab h.1.symm]
  · rw [hnet a b fun h => hab h.1]
    exact if_pos ⟨rfl, rfl⟩
  · rw [hnet x y h1, hpop x y h2]

/-- **A node gets a message.** -/
theorem Inv.deliver_node (hi : Inv c s) (hc : c.Valid) (hn : n ∈ c.ids) {ctrl : Control N K}
    {rest : List (Control N K)} (hqueue : s.net c.scheduler n = ctrl :: rest)
    {m : Manager N K} (out : List (Control N K))
    (hphase : (s.managers n).phase ≠ .new) (hdone : (s.managers n).done = false)
    (hrun : (s.managers n).process c.flags c.scheduler c.scheduler ctrl =
      some (m, out.map fun ctrl => (c.scheduler, ctrl)))
    (hplace : Place c (s.managers c.scheduler) m (s.net n c.scheduler ++ out) rest n)
    (hwork : nodeWork c m (s.net n c.scheduler ++ out) rest <
      nodeWork c (s.managers n) (s.net n c.scheduler) (ctrl :: rest)) :
    ∃ s', step c s (.deliver c.scheduler n) = some s' ∧ Inv c s' ∧ work c s' < work c s := by
  have hne : c.scheduler ≠ n := by
    rintro rfl
    exact hc.scheduler hn
  obtain ⟨hup, hdown, hnet⟩ := deliver_net s c.scheduler
    (r := (m, out.map fun ctrl => (c.scheduler, ctrl))) hne (fun p hp => by
      obtain ⟨ctrl, -, rfl⟩ := List.mem_map.mp hp
      rfl)
  have hsnd : (out.map fun ctrl => (c.scheduler, ctrl)).map Prod.snd = out := by
    rw [List.map_map]
    exact List.map_id out
  simp only [hsnd] at hup
  rw [hqueue, List.tail_cons] at hdown
  have hmanager : ((s.pop c.scheduler n).after n
      (m, out.map fun ctrl => (c.scheduler, ctrl))).managers n = m := Function.update_self ..
  refine ⟨_, ?_, hi.of_node hc hn (fun k hk => Function.update_of_ne hk _ _)
    (fun a b h1 h2 => hnet a b h1 h2) (by rw [hdone]; exact fun h => by cases h) ?_ ?_⟩
  · rw [step, hqueue, List.head?_cons, Option.bind_some, if_pos ⟨hphase, hdone⟩, hrun]
    rfl
  · rw [hmanager, hup, hdown]
    exact hplace
  · rw [hmanager, hup, hdown, hqueue]
    exact hwork

/-- **A node processes a message** of the scheduler: it gets to know all nodes and is ready to run,
it runs, or it exits. -/
theorem Inv.deliver_down (hi : Inv c s) (hc : c.Valid) (hn : n ∈ c.ids)
    (hqueue : s.net c.scheduler n ≠ []) :
    ∃ s', step c s (.deliver c.scheduler n) = some s' ∧ Inv c s' ∧ work c s' < work c s := by
  have hplace := hi.place n hn
  have hr := hi.registry
  cases hplace with
  | new hm hup hdown => exact absurd hdown hqueue
  | registering hm hup hdown => exact absurd hdown hqueue
  | registered hm hup hold hdown hnot hinited =>
    have hfull : (s.managers c.scheduler).Full c.flags := by
      by_contra h
      rw [if_neg h] at hdown
      exact hqueue hdown
    rw [if_pos hfull] at hdown
    have hexit : (s.managers c.scheduler).inExit = false := by
      by_contra h
      exact absurd (hinited.symm.trans (hr.exit_inited (by simpa using h))) Bool.false_ne_true
    obtain ⟨m', k, hrun, hnodes, htable, hsame, hk, hready, hmine⟩ :=
      Manager.addNodes_spec (m := { c.manager n with phase := .running }) c.flags c.scheduler
        ⟨.nil, rfl, rfl, .refl _, .nil⟩ rfl rfl (manager_isScheduler hc hn) hr.table.listed
        (fun x hx hid => by
          rw [hr.known.role x hx, hid]
          rfl)
    obtain ⟨x, hx, hid⟩ := List.mem_map.mp hold
    have hmy := hmine x hx hid
    have hlen := hr.length_le
    have hfull' : m'.Full c.flags := by
      rw [Manager.Full, htable.numWorkers, htable.numServers, hnodes, ← hr.table.numWorkers,
        ← hr.table.numServers]
      exact hfull
    have hpos := hready hfull' (List.ne_nil_of_mem hx)
    refine hi.deliver_node hc hn hdown (m := m') (List.replicate k .readyToRun)
      (by rw [hm]; exact fun h => by cases h) (by rw [hm]; rfl) ?_ ?_ ?_
    · rw [hm, List.map_replicate]
      exact hrun
    · rw [hup, List.nil_append]
      refine .added ⟨hfull, hnodes, htable, by rw [hmy]; exact hx, by rw [hmy]; exact hid,
        .running k (hsame.phase.trans rfl) rfl (Or.inr hpos), ⟨0, ?_, ?_, ?_, ?_⟩, ?_, ?_, ?_⟩
      · rw [hexit]
        simp
      · exact fun h => absurd (hsame.done.symm.trans h) Bool.false_ne_true
      · exact fun h => absurd h (Nat.lt_irrefl 0)
      · exact fun h => absurd (hinited.symm.trans h) Bool.false_ne_true
      · exact fun h => absurd (hsame.inited.symm.trans h) Bool.false_ne_true
      · exact fun h => absurd (hinited.symm.trans h) Bool.false_ne_true
      · exact fun h => absurd (hexit.symm.trans h) Bool.false_ne_true
    · have hphase : m'.phase = .running := hsame.phase.trans rfl
      have hmul : k * (c.ids.length + 1) ≤ (c.ids.length + 1) * (c.ids.length + 1) :=
        Nat.mul_le_mul_right _ (hk.trans hlen)
      simp only [nodeWork, hphase, hm, hup, List.nil_append, List.map_replicate,
        List.sum_replicate_nat, upWork, downWork, List.map_cons, List.map_nil, List.sum_cons,
        List.sum_nil]
      omega
  | added ha =>
    obtain ⟨j, hdown, hdone, hmore, hrunning⟩ := ha.coming
    have halive : (s.managers n).done = false := by
      by_contra h
      obtain ⟨-, rfl⟩ := hdone (by simpa using h)
      rw [if_neg fun h' => h h'.2] at hdown
      exact hqueue hdown
    cases j with
    | zero =>
      have hexit : (s.managers c.scheduler).inExit = true := by
        by_contra h
        rw [if_neg fun h' => h h'.1] at hdown
        exact hqueue hdown
      rw [if_pos ⟨hexit, halive⟩] at hdown
      refine hi.deliver_node hc hn hdown (m := { s.managers n with done := true }) []
        ha.phase_ne halive rfl ?_ ?_
      · rw [List.append_nil]
        refine .added ⟨ha.full, ha.nodes, ha.table.congr ⟨rfl, rfl, rfl, rfl, rfl, rfl⟩, ha.myNode,
          ha.id, ?_,
          ⟨0, ?_, fun _ => ⟨hexit, rfl⟩, hmore, hrunning⟩, ha.inited, ha.active, ha.exit⟩
        · cases ha.sent with
          | running k h1 h2 h3 => exact .running k h1 h2 h3
          | leaving k h1 h2 h3 h4 => exact .leaving k h1 h2 h3 h4
          | left h1 h2 h3 h4 => exact .left h1 h2 h3 h4
        · rw [if_neg fun h => absurd h.2 (by simp)]
          rfl
      · simp only [nodeWork, List.append_nil, List.map_cons, List.map_nil, List.sum_cons,
          List.sum_nil, downWork]
        omega
    | succ j =>
      have hinited := hmore (Nat.succ_pos j)
      rw [List.replicate_succ, List.cons_append] at hdown
      refine hi.deliver_node hc hn hdown (m := { s.managers n with inited := true }) []
        ha.phase_ne halive ?_ ?_ ?_
      · rw [Manager.process, if_neg (by rw [ha.isScheduler hr hc hn]; simp)]
        rfl
      · rw [List.append_nil]
        refine .added ⟨ha.full, ha.nodes, ha.table.congr ⟨rfl, rfl, rfl, rfl, rfl, rfl⟩, ha.myNode,
          ha.id, ?_,
          ⟨j, rfl, fun h => absurd (halive.symm.trans h) Bool.false_ne_true, fun _ => hinited,
            fun _ => Or.inl rfl⟩, fun _ => hinited, ha.active, ha.exit⟩
        cases ha.sent with
        | running k h1 h2 h3 => exact .running k h1 h2 h3
        | leaving k h1 _ h3 h4 => exact .leaving k h1 rfl h3 h4
        | left h1 _ h3 h4 => exact .left h1 rfl h3 h4
      · simp only [nodeWork, List.append_nil, List.map_cons, List.sum_cons, downWork]
        omega

/-- What is on its way from `k` to the scheduler, as work. -/
def waiting (c : Setup N K) (s : Cluster N K) (k : N) : ℕ :=
  ((s.net k c.scheduler).map (upWork c)).sum

/-- **A step of the scheduler**, which sends `news` to all nodes and `self` to itself; `s₀` is the
state without the message that it has processed. -/
theorem Inv.of_scheduler (hi : Inv c s) (hc : c.Valid) (s₀ : Cluster N K) {h' : Manager N K}
    {out : List (N × Control N K)} (news self : List (Control N K)) (w : ℕ)
    (hmanagers : s₀.managers = s.managers)
    (hnet : ∀ a b, b ≠ c.scheduler → s₀.net a b = s.net a b)
    (hsub : ∀ a, s₀.net a c.scheduler ≠ [] → s.net a c.scheduler ≠ [])
    (hout : ∀ k ∈ c.ids, (out.filter fun p => p.1 = k).map Prod.snd = news)
    (hself : (out.filter fun p => p.1 = c.scheduler).map Prod.snd = self)
    (hother : ∀ k, k ∉ c.scheduler :: c.ids → (out.filter fun p => p.1 = k).map Prod.snd = [])
    (hregistry : Registry c h')
    (hplace : ∀ k ∈ c.ids, Place c h' (s.managers k) (s₀.net k c.scheduler)
      (s.net c.scheduler k ++ news) k)
    (hleft : s₀.net c.scheduler c.scheduler ++ self =
      if h'.phase = .stopped ∧ h'.done = false then [.exit] else [])
    (hgone : ∀ k ∈ c.ids, Registered h' k → k ∈ h'.aliveNodes ∨ (s.managers k).done = true)
    (hlast : h'.phase = .stopped → ∀ k ∈ c.ids, (s.managers k).done = true)
    (hle : ∀ k ∈ c.ids, waiting c s₀ k ≤ waiting c s k) (hn : n ∈ c.ids)
    (hless : waiting c s₀ n + w ≤ waiting c s n)
    (hwork : schedulerWork c h' (s₀.net c.scheduler c.scheduler ++ self) +
        c.ids.length * (news.map (downWork c)).sum <
      schedulerWork c (s.managers c.scheduler) (s.net c.scheduler c.scheduler) + w) :
    Inv c (s₀.after c.scheduler (h', out)) ∧
      work c (s₀.after c.scheduler (h', out)) < work c s := by
  obtain ⟨s', hs'⟩ : ∃ s', s' = s₀.after c.scheduler (h', out) := ⟨_, rfl⟩
  have hne : ∀ k ∈ c.ids, k ≠ c.scheduler := by
    rintro k hk rfl
    exact hc.scheduler hk
  have hscheduler : s'.managers c.scheduler = h' := by
    rw [hs']
    exact Function.update_self ..
  have hnodes : ∀ k ∈ c.ids, s'.managers k = s.managers k := by
    intro k hk
    rw [hs', ← hmanagers]
    exact Function.update_of_ne (hne k hk) _ _
  have hfrom : ∀ a b, a ≠ c.scheduler → s'.net a b = s₀.net a b := by
    intro a b ha
    rw [hs']
    exact if_neg ha
  have hsent : ∀ b, s'.net c.scheduler b =
      s₀.net c.scheduler b ++ (out.filter fun p => p.1 = b).map Prod.snd := by
    intro b
    rw [hs']
    exact if_pos rfl
  have hdown : ∀ k ∈ c.ids, s'.net c.scheduler k = s.net c.scheduler k ++ news := by
    intro k hk
    rw [hsent, hout k hk, hnet _ k (hne k hk)]
  have hup : ∀ k ∈ c.ids, s'.net k c.scheduler = s₀.net k c.scheduler :=
    fun k hk => hfrom k _ (hne k hk)
  have hloop : s'.net c.scheduler c.scheduler = s₀.net c.scheduler c.scheduler ++ self := by
    rw [hsent, hself]
  rw [← hs']
  refine ⟨⟨by rw [hscheduler]; exact hregistry, fun k hk => ?_, ?_, fun a b hab => ?_,
    fun k hk hreg => ?_, fun hp k hk => ?_⟩, ?_⟩
  · rw [hscheduler, hnodes k hk, hup k hk, hdown k hk]
    exact hplace k hk
  · rw [hscheduler, hloop]
    exact hleft
  · by_cases ha : a = c.scheduler
    · subst ha
      by_cases hb : b ∈ c.scheduler :: c.ids
      · exact Or.inl ⟨rfl, hb⟩
      · rw [hsent, hother b hb, List.append_nil,
          hnet _ b fun h => hb (by rw [h]; exact List.mem_cons_self)] at hab
        exact hi.net _ b hab
    · rw [hfrom a b ha] at hab
      by_cases hb : b = c.scheduler
      · subst hb
        exact hi.net a _ (hsub a hab)
      · rw [hnet a b hb] at hab
        exact hi.net a b hab
  · rw [hscheduler] at hreg ⊢
    rw [hnodes k hk]
    exact hgone k hk hreg
  · rw [hscheduler] at hp
    rw [hnodes k hk]
    exact hlast hp k hk
  · have hsum := sum_add_le (e := (news.map (downWork c)).sum) (w := w)
      (fun k => nodeWork c (s.managers k) (s.net k c.scheduler) (s.net c.scheduler k))
      (fun k => nodeWork c (s'.managers k) (s'.net k c.scheduler) (s'.net c.scheduler k))
      (fun k hk => by
        have hk' := hle k hk
        simp only [waiting] at hk'
        rw [hnodes k hk, hup k hk, hdown k hk]
        simp only [nodeWork, List.map_append, List.sum_append]
        omega)
      hn (by
        simp only [waiting] at hless
        rw [hnodes n hn, hup n hn, hdown n hn]
        simp only [nodeWork, List.map_append, List.sum_append]
        omega)
    rw [work, work, hscheduler, hloop]
    omega

/-- What a broadcast sends when all have registered. -/
theorem Registry.sendComp {h : Manager N K} (hr : Registry c h) (hc : c.Valid)
    (hfull : h.Full c.flags) (ctrl : Control N K) (b : N) :
    ((h.sendComp ctrl).filter fun p => p.1 = b).map Prod.snd =
      if b ∈ c.ids then [ctrl] else [] := by
  rw [hr.known.sendComp hc rfl ctrl b]
  refine if_congr ⟨fun h => h.1, fun h => ⟨h, ?_⟩⟩ rfl rfl
  exact (hr.full_iff hc).mp hfull b h

omit [LinearOrder K] in
/-- A message to the scheduler is taken. -/
theorem pop_waiting (s : Cluster N K) {n : N} {ctrl : Control N K} {rest : List (Control N K)}
    (hqueue : s.net n c.scheduler = ctrl :: rest) :
    (s.pop n c.scheduler).net n c.scheduler = rest ∧
      (∀ a b, ¬ (a = n ∧ b = c.scheduler) → (s.pop n c.scheduler).net a b = s.net a b) ∧
      waiting c (s.pop n c.scheduler) n + upWork c ctrl = waiting c s n ∧
      (∀ a, (s.pop n c.scheduler).net a c.scheduler ≠ [] → s.net a c.scheduler ≠ []) ∧
      ∀ k, waiting c (s.pop n c.scheduler) k ≤ waiting c s k := by
  have hpop : (s.pop n c.scheduler).net n c.scheduler = rest := by
    show (if n = n ∧ c.scheduler = c.scheduler then _ else _) = rest
    rw [if_pos ⟨rfl, rfl⟩, hqueue, List.tail_cons]
  have hother : ∀ a b, ¬ (a = n ∧ b = c.scheduler) →
      (s.pop n c.scheduler).net a b = s.net a b := fun a b h => if_neg h
  have hless : waiting c (s.pop n c.scheduler) n + upWork c ctrl = waiting c s n := by
    rw [waiting, waiting, hpop, hqueue, List.map_cons, List.sum_cons, Nat.add_comm]
  refine ⟨hpop, hother, hless, fun a ha => ?_, fun k => ?_⟩
  · by_cases han : a = n
    · subst han
      rw [hqueue]
      exact List.cons_ne_nil _ _
    · rwa [hother a _ fun h => han h.1] at ha
  · by_cases hk : k = n
    · subst hk
      omega
    · rw [waiting, waiting, hother k _ fun h => hk h.1]

theorem Added.registered {h m : Manager N K} {up down : List (Control N K)}
    (ha : Added c h m up down n) (hr : Registry c h) (hc : c.Valid) {k : N} (hk : k ∈ c.ids) :
    Registered h k :=
  (hr.full_iff hc).mp ha.full k hk

/-- **The scheduler starts.** -/
theorem Inv.start_scheduler (hi : Inv c s) (hc : c.Valid)
    (hphase : (s.managers c.scheduler).phase = .new) :
    ∃ s', step c s (.start c.scheduler) = some s' ∧ Inv c s' ∧ work c s' < work c s := by
  have hr := hi.registry
  obtain ⟨h', hrun, hr', hnone, hfull, hactive, halive, hinited, hexit, hdone, hphase'⟩ :=
    hr.start hc hphase
  obtain ⟨n, hn⟩ := List.exists_mem_of_ne_nil _ hc.ne_nil
  have hempty : ∀ k, ¬ Registered (s.managers c.scheduler) k := by
    intro k hk
    rw [Registered, hr.new hphase] at hk
    simp [Setup.manager] at hk
  have hself : s.net c.scheduler c.scheduler = [] := by
    rw [hi.self, hphase]
    rfl
  refine ⟨s.after c.scheduler (h', []), ?_, ?_⟩
  · rw [step, if_pos ⟨List.mem_cons_self, hphase⟩, hrun]
    rfl
  refine hi.of_scheduler hc s [] [] 0 rfl (fun _ _ _ => rfl) (fun _ h => h) (fun _ _ => rfl) rfl
    (fun _ _ => rfl) hr' (fun k hk => ?_) ?_ (fun k hk hreg => absurd hreg (hnone k hk))
    (fun hp => by rw [hphase'] at hp; cases hp) (fun _ _ => le_rfl) hn le_rfl ?_
  · rw [List.append_nil]
    have hnot : k ∉ h'.activeNodes := by
      rw [hactive]
      exact Finset.notMem_empty k
    cases hi.place k hk with
    | new hm hup hdown => exact .new hm hup hdown (hnone k hk) hnot hinited
    | registering hm hup hdown => exact .registering hm hup hdown (hnone k hk) hnot hinited
    | registered _ _ hold => exact absurd hold (hempty k)
    | added ha => exact absurd (ha.registered hr hc hk) (hempty k)
  · rw [hself, if_neg (by rw [hphase']; simp)]
    rfl
  · rw [hself, schedulerWork, schedulerWork, hphase, hphase', halive, Finset.card_singleton]
    simp only [List.append_nil, List.length_nil, List.map_nil, List.sum_nil, Nat.mul_zero]
    omega

/-- **A node registers at the scheduler**, which tells all nodes when it was the last one. -/
theorem Inv.deliver_register (hi : Inv c s) (hc : c.Valid) (hn : n ∈ c.ids)
    (hqueue : s.net n c.scheduler = [.registerNode (c.node n)])
    (hdown : s.net c.scheduler n = []) (hm : s.managers n = { c.manager n with phase := .running })
    (hnew : ¬ Registered (s.managers c.scheduler) n)
    (hnot : n ∉ (s.managers c.scheduler).activeNodes)
    (hinited : (s.managers c.scheduler).inited = false)
    (hphase : (s.managers c.scheduler).phase ≠ .new) :
    ∃ s', step c s (.deliver n c.scheduler) = some s' ∧ Inv c s' ∧ work c s' < work c s := by
  have hr := hi.registry
  have hne : n ≠ c.scheduler := by
    rintro rfl
    exact hc.scheduler hn
  obtain ⟨h', hrun, hr', hreg, hactive, halive, hinited', hexit', hdone', hphase'⟩ :=
    hr.register hc hn hnew hphase hinited
  have hexit : (s.managers c.scheduler).inExit = false := by
    by_contra h
    exact absurd (hinited.symm.trans (hr.exit_inited (by simpa using h))) Bool.false_ne_true
  have hstopped : (s.managers c.scheduler).phase ≠ .stopped := fun h =>
    absurd (hexit.symm.trans (hr.exit.mpr (Or.inr h))) Bool.false_ne_true
  have hdone : (s.managers c.scheduler).done = false := by
    by_contra h
    exact hstopped (hr.done (by simpa using h))
  have hfull : ¬ (s.managers c.scheduler).Full c.flags := fun h =>
    hnew ((hr.full_iff hc).mp h n hn)
  obtain ⟨hpop, hother, hwait, hsub, hle⟩ := pop_waiting s hqueue
  have hself : (s.pop n c.scheduler).net c.scheduler c.scheduler = [] := by
    rw [hother _ _ fun h => hne h.1.symm, hi.self, if_neg fun h => hstopped h.1]
  obtain ⟨news, hnews⟩ : ∃ news : List (Control N K),
      news = if h'.Full c.flags then [.addNode h'.nodes] else [] := ⟨_, rfl⟩
  obtain ⟨out, hsent⟩ : ∃ out, out =
    if h'.Full c.flags then h'.sendComp (.addNode h'.nodes) else [] := ⟨_, rfl⟩
  rw [← hsent] at hrun
  have hout : ∀ b, (out.filter fun p => p.1 = b).map Prod.snd = if b ∈ c.ids then news else [] := by
    intro b
    rw [hnews, hsent]
    by_cases hall : h'.Full c.flags
    · rw [if_pos hall, if_pos hall]
      exact hr'.sendComp hc hall _ b
    · rw [if_neg hall, if_neg hall, ite_self]
      rfl
  refine ⟨(s.pop n c.scheduler).after c.scheduler (h', out), ?_, ?_⟩
  · rw [step, hqueue, List.head?_cons, Option.bind_some, if_pos ⟨hphase, hdone⟩, hrun]
    rfl
  · refine hi.of_scheduler hc (s.pop n c.scheduler) news [] (upWork c (.registerNode (c.node n)))
      rfl (fun a b hb => hother a b fun h => hb h.2) hsub (fun k hk => (hout k).trans (if_pos hk))
      ((hout _).trans (if_neg hc.scheduler))
      (fun k hk => (hout k).trans (if_neg fun h => hk (List.mem_cons_of_mem _ h))) hr'
      (fun k hk => ?_) ?_ (fun k hk hk' => ?_)
      (fun hp => absurd (hphase'.symm.trans hp) hstopped) (fun k _ => hle k) hn hwait.le ?_
    · by_cases hkn : k = n
      · subst hkn
        rw [hpop, hdown, List.nil_append]
        exact .registered hm rfl ((hreg k).mpr (Or.inl rfl)) hnews (by rwa [hactive]) hinited'
      · rw [hother k _ fun h => hkn h.1]
        have hnew' : ¬ Registered (s.managers c.scheduler) k → ¬ Registered h' k :=
          fun h hk' => h (((hreg k).mp hk').resolve_left hkn)
        cases hi.place k hk with
        | new hm hup hdown hnew hnot hinited =>
          -- not all have registered, so nothing is sent
          have hnil : news = [] := by
            rw [hnews, if_neg fun h => hnew' hnew ((hr'.full_iff hc).mp h k hk)]
          rw [hnil, List.append_nil]
          exact .new hm hup hdown (hnew' hnew) (by rwa [hactive]) hinited'
        | registering hm hup hdown hnew hnot hinited =>
          have hnil : news = [] := by
            rw [hnews, if_neg fun h => hnew' hnew ((hr'.full_iff hc).mp h k hk)]
          rw [hnil, List.append_nil]
          exact .registering hm hup hdown (hnew' hnew) (by rwa [hactive]) hinited'
        | registered hm hup hold hdown hnot hinited =>
          rw [if_neg hfull] at hdown
          rw [hdown, List.nil_append]
          exact .registered hm hup ((hreg k).mpr (Or.inr hold)) hnews (by rwa [hactive]) hinited'
        | added ha => exact absurd ha.full hfull
    · rw [hself, hphase', if_neg fun h => hstopped h.1]
      rfl
    · rw [halive, Finset.mem_insert]
      rcases (hreg k).mp hk' with rfl | hold
      · exact Or.inl (Or.inl rfl)
      · exact (hi.gone k hk hold).imp_left Or.inr
    · have hcard : h'.aliveNodes.card ≤ (s.managers c.scheduler).aliveNodes.card + 1 := by
        rw [halive]
        exact Finset.card_insert_le _ _
      have hsum : (news.map (downWork c)).sum ≤ (c.ids.length + 1) * (c.ids.length + 1) + 1 := by
        rw [hnews]
        split
        · simp [downWork]
        · simp
      have hmul := Nat.mul_le_mul_left c.ids.length hsum
      rw [hself, schedulerWork, schedulerWork, hphase', upWork]
      simp only [List.append_nil, List.length_nil]
      omega

/-- The scheduler when a message of a node that knows all nodes waits for it. -/
theorem Inv.expecting (hi : Inv c s) (hc : c.Valid) (hn : n ∈ c.ids) {h m : Manager N K}
    {up down : List (Control N K)} (hh : s.managers c.scheduler = h)
    (ha : Added c h m up down n) (hup : up ≠ []) :
    h.phase ≠ .new ∧ h.done = false ∧ h.inExit = false ∧ (h.inited = true → n ∈ h.activeNodes) ∧
      s.net c.scheduler c.scheduler = [] := by
  have hr := hi.registry
  rw [hh] at hr
  have hactive : h.inited = true → n ∈ h.activeNodes :=
    fun hinited => (ha.active hinited).resolve_right hup
  have hexit : h.inExit = false := by
    by_contra hne
    have hexit : h.inExit = true := by simpa using hne
    exact ha.exit hexit (hactive (hr.exit_inited hexit))
  have hstopped : h.phase ≠ .stopped := fun hp =>
    absurd (hexit.symm.trans (hr.exit.mpr (Or.inr hp))) Bool.false_ne_true
  refine ⟨fun hp => ?_, ?_, hexit, hactive, ?_⟩
  · have hreg := ha.registered hr hc hn
    rw [Registered, hr.new hp] at hreg
    simp [Setup.manager] at hreg
  · by_contra hne
    exact hstopped (hr.done (by simpa using hne))
  · rw [hi.self, hh, if_neg fun hp => hstopped hp.1]

omit [LinearOrder N] [LinearOrder K] in
/-- A node that knows all nodes after one of its messages that it is ready to run. -/
theorem Up.ready {h h' m : Manager N K} {up rest : List (Control N K)} (hup : Up h m up n)
    (hqueue : up = .readyToRun :: rest) (hactive : n ∈ h'.activeNodes) : Up h' m rest n := by
  cases hup with
  | running k hphase hmsgs _ =>
    rw [hqueue] at hmsgs
    cases k with
    | zero => cases hmsgs
    | succ k =>
      rw [List.replicate_succ, List.cons.injEq] at hmsgs
      exact .running k hphase hmsgs.2 (Or.inl hactive)
  | leaving k hphase hinited hmsgs _ =>
    rw [hqueue] at hmsgs
    cases k with
    | zero => cases hmsgs
    | succ k =>
      rw [List.replicate_succ, List.cons_append, List.cons.injEq] at hmsgs
      exact .leaving k hphase hinited hmsgs.2 (Or.inl hactive)
  | left _ _ hmsgs _ =>
    rw [hqueue] at hmsgs
    cases hmsgs

/-- As many active nodes as there are nodes are all nodes. -/
theorem active_all (hc : c.Valid) {active : Finset N}
    (hactive : ∀ k ∈ active, k ∈ c.ids)
    (hcard : c.flags.numWorkers + c.flags.numServers ≤ active.card) {k : N} (hk : k ∈ c.ids) :
    k ∈ active := by
  have hsub : active ⊆ c.ids.toFinset := fun j hj => List.mem_toFinset.mpr (hactive j hj)
  rw [length_ids hc, ← List.toFinset_card_of_nodup hc.nodup] at hcard
  rw [Finset.eq_of_subset_of_card_le hsub hcard]
  exact List.mem_toFinset.mpr hk

/-- **The last node is ready to run**: all are told to. -/
theorem Inv.deliver_last (hi : Inv c s) (hc : c.Valid) (hn : n ∈ c.ids)
    {rest : List (Control N K)} (hqueue : s.net n c.scheduler = .readyToRun :: rest)
    (ha : Added c (s.managers c.scheduler) (s.managers n) (s.net n c.scheduler)
      (s.net c.scheduler n) n)
    (hcard : c.flags.numWorkers + c.flags.numServers ≤
      (insert n (s.managers c.scheduler).activeNodes).card) :
    ∃ s', step c s (.deliver n c.scheduler) = some s' ∧ Inv c s' ∧ work c s' < work c s := by
  have hr := hi.registry
  have hne : n ≠ c.scheduler := by
    rintro rfl
    exact hc.scheduler hn
  obtain ⟨hphase, hdone, hexit, -, hself⟩ :=
    hi.expecting hc hn rfl ha (by rw [hqueue]; exact List.cons_ne_nil _ _)
  obtain ⟨hpop, hother, hwait, hsub, hle⟩ := pop_waiting s hqueue
  obtain ⟨h, hh⟩ : ∃ h, h = s.managers c.scheduler := ⟨_, rfl⟩
  rw [← hh] at hr ha hphase hdone hexit hcard
  have hself' : (s.pop n c.scheduler).net c.scheduler c.scheduler = [] := by
    rw [hother _ _ fun h => hne h.1.symm, hself]
  have hactive : ∀ k ∈ insert n h.activeNodes, k ∈ c.ids := by
    intro k hk
    rcases Finset.mem_insert.mp hk with rfl | hk
    · exact hn
    · exact hr.active k hk
  obtain ⟨h₁, hh₁⟩ : ∃ h₁, h₁ =
    { h with activeNodes := insert n h.activeNodes, inited := true } := ⟨_, rfl⟩
  have hfull₁ : h₁.Full c.flags := by
    rw [hh₁]
    exact ha.full
  have hrun : h.process c.flags c.scheduler n .readyToRun = some (h₁, h₁.sendComp .readyToRun) := by
    rw [Manager.process, if_pos (hr.isScheduler hc), hh₁]
    exact if_pos hcard
  have hr₁ : Registry c h₁ := by
    rw [hh₁]
    exact ⟨hr.toAssigned.congr ⟨rfl, rfl, rfl, rfl, rfl, rfl⟩, hactive, hr.alive,
      fun _ => ha.full, fun _ => rfl, hr.exit, fun _ => rfl, hr.done,
      fun hp => absurd hp hphase, hr.self⟩
  refine ⟨(s.pop n c.scheduler).after c.scheduler (h₁, h₁.sendComp .readyToRun), ?_, ?_⟩
  · rw [step, hqueue, List.head?_cons, Option.bind_some, ← hh, if_pos ⟨hphase, hdone⟩, hrun]
    rfl
  refine hi.of_scheduler hc (s.pop n c.scheduler) [.readyToRun] []
    (upWork c (N := N) (K := K) .readyToRun) rfl (fun a b hb => hother a b fun h => hb h.2) hsub
    (fun k hk => (hr₁.sendComp hc hfull₁ _ k).trans (if_pos hk))
    ((hr₁.sendComp hc hfull₁ _ _).trans (if_neg hc.scheduler))
    (fun k hk => (hr₁.sendComp hc hfull₁ _ k).trans
      (if_neg fun h => hk (List.mem_cons_of_mem _ h)))
    hr₁ (fun k hk => ?_) ?_ (by rw [hh₁, hh]; exact hi.gone) (by rw [hh₁, hh]; exact hi.last)
    (fun k _ => hle k) hn hwait.le ?_
  · have hin := active_all hc hactive hcard hk
    have hadded : Added c h (s.managers k) (s.net k c.scheduler) (s.net c.scheduler k) k := by
      rcases Finset.mem_insert.mp hin with rfl | hin
      · exact ha
      · have hplace := hi.place k hk
        rw [← hh] at hplace
        cases hplace with
        | new _ _ _ _ hnot => exact absurd hin hnot
        | registering _ _ _ _ hnot => exact absurd hin hnot
        | registered _ _ _ _ hnot => exact absurd hin hnot
        | added ha => exact ha
    obtain ⟨j, hdown, hover, -⟩ := hadded.coming
    rw [if_neg fun h' => absurd (hexit.symm.trans h'.1) Bool.false_ne_true,
      List.append_nil] at hdown
    refine .added ⟨hfull₁, by rw [hadded.nodes, hh₁], hadded.table, ?_, hadded.id, ?_,
      ⟨j + 1, ?_, fun hover' => ?_, fun _ => ?_, fun _ => Or.inr (Nat.succ_pos j)⟩, fun _ => ?_,
      fun _ => Or.inl ?_, fun hexit' => ?_⟩
    · rw [hh₁]
      exact hadded.myNode
    · by_cases hkn : k = n
      · subst hkn
        rw [hpop]
        exact ha.sent.ready hqueue (by rw [hh₁]; exact Finset.mem_insert_self _ _)
      · rw [hother k _ fun h => hkn h.1]
        refine hadded.sent.congr ?_
        rw [hh₁]
        exact ⟨fun h => Finset.mem_of_mem_insert_of_ne h hkn, Finset.mem_insert_of_mem⟩
    · rw [hdown, List.replicate_succ', hh₁]
      simp [hexit]
    · exact absurd (hexit.symm.trans (hover hover').1) Bool.false_ne_true
    · rw [hh₁]
    · rw [hh₁]
    · rw [hh₁]
      exact hin
    · rw [hh₁] at hexit'
      exact absurd (hexit.symm.trans hexit') Bool.false_ne_true
  · rw [hself', hh₁, if_neg fun hp => absurd (hexit.symm.trans
      (hr.exit.mpr (Or.inr hp.1))) Bool.false_ne_true]
    rfl
  · rw [hself, hself', ← hh, hh₁]
    simp only [schedulerWork, upWork, downWork, List.append_nil, List.length_nil, List.map_cons,
      List.map_nil, List.sum_cons, List.sum_nil]
    omega

/-- **A node is ready to run**; all run when it was the last one. -/
theorem Inv.deliver_ready (hi : Inv c s) (hc : c.Valid) (hn : n ∈ c.ids)
    {rest : List (Control N K)} (hqueue : s.net n c.scheduler = .readyToRun :: rest)
    (ha : Added c (s.managers c.scheduler) (s.managers n) (s.net n c.scheduler)
      (s.net c.scheduler n) n) :
    ∃ s', step c s (.deliver n c.scheduler) = some s' ∧ Inv c s' ∧ work c s' < work c s := by
  by_cases hcard : c.flags.numWorkers + c.flags.numServers ≤
    (insert n (s.managers c.scheduler).activeNodes).card
  · exact hi.deliver_last hc hn hqueue ha hcard
  have hr := hi.registry
  have hne : n ≠ c.scheduler := by
    rintro rfl
    exact hc.scheduler hn
  obtain ⟨hphase, hdone, hexit, -, hself⟩ :=
    hi.expecting hc hn rfl ha (by rw [hqueue]; exact List.cons_ne_nil _ _)
  obtain ⟨hpop, hother, hwait, hsub, hle⟩ := pop_waiting s hqueue
  obtain ⟨h, hh⟩ : ∃ h, h = s.managers c.scheduler := ⟨_, rfl⟩
  rw [← hh] at hr ha hphase hdone hexit hcard
  have hself' : (s.pop n c.scheduler).net c.scheduler c.scheduler = [] := by
    rw [hother _ _ fun h => hne h.1.symm, hself]
  have hactive : ∀ k ∈ insert n h.activeNodes, k ∈ c.ids := by
    intro k hk
    rcases Finset.mem_insert.mp hk with rfl | hk
    · exact hn
    · exact hr.active k hk
  obtain ⟨h₁, hh₁⟩ : ∃ h₁, h₁ = { h with activeNodes := insert n h.activeNodes } := ⟨_, rfl⟩
  have hrun : h.process c.flags c.scheduler n .readyToRun = some (h₁, []) := by
    rw [Manager.process, if_pos (hr.isScheduler hc), hh₁]
    exact if_neg hcard
  have hr₁ : Registry c h₁ := by
    rw [hh₁]
    exact ⟨hr.toAssigned.congr ⟨rfl, rfl, rfl, rfl, rfl, rfl⟩, hactive, hr.alive, hr.inited,
      fun hle => absurd ((length_ids hc).le.trans hle) hcard, hr.exit, hr.exit_inited, hr.done,
      fun hp => absurd hp hphase, hr.self⟩
  refine ⟨(s.pop n c.scheduler).after c.scheduler (h₁, []), ?_, ?_⟩
  · rw [step, hqueue, List.head?_cons, Option.bind_some, ← hh, if_pos ⟨hphase, hdone⟩, hrun]
    rfl
  refine hi.of_scheduler hc (s.pop n c.scheduler) [] [] (upWork c (N := N) (K := K) .readyToRun)
    rfl (fun a b hb => hother a b fun h => hb h.2) hsub (fun _ _ => rfl) rfl (fun _ _ => rfl) hr₁
    (fun k hk => ?_) ?_ (by rw [hh₁, hh]; exact hi.gone) (by rw [hh₁, hh]; exact hi.last)
    (fun k _ => hle k) hn hwait.le ?_
  · rw [List.append_nil]
    by_cases hkn : k = n
    · subst hkn
      rw [hpop]
      refine .added ⟨by rw [hh₁]; exact ha.full, by rw [ha.nodes, hh₁], ha.table,
        by rw [hh₁]; exact ha.myNode, ha.id, ha.sent.ready hqueue ?_,
        by rw [hh₁]; exact ha.coming, by rw [hh₁]; exact ha.inited, fun _ => Or.inl ?_,
        fun hexit' => ?_⟩
      · rw [hh₁]
        exact Finset.mem_insert_self _ _
      · rw [hh₁]
        exact Finset.mem_insert_self _ _
      · rw [hh₁] at hexit'
        exact absurd (hexit.symm.trans hexit') Bool.false_ne_true
    · rw [hother k _ fun h => hkn h.1]
      have hplace := hi.place k hk
      rw [← hh] at hplace
      refine hplace.congr ⟨by rw [hh₁], by rw [hh₁], by rw [hh₁], ?_, by rw [hh₁], by rw [hh₁]⟩
      rw [hh₁]
      exact ⟨fun h => Finset.mem_of_mem_insert_of_ne h hkn, Finset.mem_insert_of_mem⟩
  · rw [hself', hh₁, if_neg fun hp => absurd (hexit.symm.trans
      (hr.exit.mpr (Or.inr hp.1))) Bool.false_ne_true]
    rfl
  · rw [hself, hself', ← hh, hh₁]
    simp only [schedulerWork, upWork, List.append_nil, List.length_nil, List.map_nil,
      List.sum_nil, Nat.mul_zero]
    omega

/-- **A node is ready to exit.** -/
theorem Inv.deliver_leave (hi : Inv c s) (hc : c.Valid) (hn : n ∈ c.ids)
    {rest : List (Control N K)} (hqueue : s.net n c.scheduler = .readyToExit :: rest)
    (ha : Added c (s.managers c.scheduler) (s.managers n) (s.net n c.scheduler)
      (s.net c.scheduler n) n) :
    ∃ s', step c s (.deliver n c.scheduler) = some s' ∧ Inv c s' ∧ work c s' < work c s := by
  have hr := hi.registry
  have hne : n ≠ c.scheduler := by
    rintro rfl
    exact hc.scheduler hn
  obtain ⟨hphase, hdone, hexit, -, hself⟩ :=
    hi.expecting hc hn rfl ha (by rw [hqueue]; exact List.cons_ne_nil _ _)
  obtain ⟨hpop, hother, hwait, hsub, hle⟩ := pop_waiting s hqueue
  obtain ⟨h, hh⟩ : ∃ h, h = s.managers c.scheduler := ⟨_, rfl⟩
  rw [← hh] at hr ha hphase hdone hexit
  have hself' : (s.pop n c.scheduler).net c.scheduler c.scheduler = [] := by
    rw [hother _ _ fun h => hne h.1.symm, hself]
  obtain ⟨hleaving, hinited, hnil⟩ : (s.managers n).phase = .stopping ∧
      (s.managers n).inited = true ∧ rest = [] := by
    cases ha.sent with
    | running k _ h2 _ =>
      rw [hqueue] at h2
      cases k <;> cases h2
    | leaving k h1 h2 h3 _ =>
      rw [hqueue] at h3
      cases k with
      | zero => exact ⟨h1, h2, (List.cons.inj h3).2⟩
      | succ k => cases h3
    | left _ _ h3 _ =>
      rw [hqueue] at h3
      cases h3
  have hrun : h.process c.flags c.scheduler n .readyToExit =
      some ({ h with activeNodes := h.activeNodes.erase n }, []) := by
    rw [Manager.process, if_pos (hr.isScheduler hc)]
  refine ⟨(s.pop n c.scheduler).after c.scheduler
    ({ h with activeNodes := h.activeNodes.erase n }, []), ?_, ?_⟩
  · rw [step, hqueue, List.head?_cons, Option.bind_some, ← hh, if_pos ⟨hphase, hdone⟩, hrun]
    rfl
  refine hi.of_scheduler hc (s.pop n c.scheduler) [] [] (upWork c (N := N) (K := K) .readyToExit)
    rfl (fun a b hb => hother a b fun h => hb h.2) hsub (fun _ _ => rfl) rfl (fun _ _ => rfl)
    ⟨hr.toAssigned.congr ⟨rfl, rfl, rfl, rfl, rfl, rfl⟩,
      fun k hk => hr.active k (Finset.mem_of_mem_erase hk), hr.alive, hr.inited,
      fun hle => hr.launched (hle.trans (Finset.card_erase_le)), hr.exit, hr.exit_inited, hr.done,
      fun hp => absurd hp hphase, hr.self⟩
    (fun k hk => ?_) ?_ (by rw [hh]; exact hi.gone) (by rw [hh]; exact hi.last)
    (fun k _ => hle k) hn hwait.le ?_
  · rw [List.append_nil]
    by_cases hkn : k = n
    · subst hkn
      rw [hpop, hnil]
      exact .added ⟨ha.full, ha.nodes, ha.table, ha.myNode, ha.id,
        .left hleaving hinited rfl (Finset.notMem_erase _ _), ha.coming, ha.inited,
        fun _ => Or.inr rfl, fun _ => Finset.notMem_erase _ _⟩
    · rw [hother k _ fun h => hkn h.1]
      have hplace := hi.place k hk
      rw [← hh] at hplace
      exact hplace.congr ⟨rfl, rfl, rfl, by simp [Finset.mem_erase, hkn], rfl, rfl⟩
  · rw [hself', if_neg fun hp => absurd (hexit.symm.trans
      (hr.exit.mpr (Or.inr hp.1))) Bool.false_ne_true]
    rfl
  · rw [hself, hself', ← hh]
    simp only [schedulerWork, upWork, List.append_nil, List.length_nil, List.map_nil, List.sum_nil,
      Nat.mul_zero]
    omega

/-- **The scheduler processes a message** of a node. -/
theorem Inv.deliver_up (hi : Inv c s) (hc : c.Valid) (hn : n ∈ c.ids)
    (hqueue : s.net n c.scheduler ≠ []) (hphase : (s.managers c.scheduler).phase ≠ .new) :
    ∃ s', step c s (.deliver n c.scheduler) = some s' ∧ Inv c s' ∧ work c s' < work c s := by
  have hplace := hi.place n hn
  cases hplace with
  | new _ hup => exact absurd hup hqueue
  | registering hm hup hdown hnew hnot hinited =>
    exact hi.deliver_register hc hn hup hdown hm hnew hnot hinited hphase
  | registered _ hup => exact absurd hup hqueue
  | added ha =>
    cases ha.sent with
    | running k _ h2 _ =>
      cases k with
      | zero => exact absurd h2 hqueue
      | succ k => exact hi.deliver_ready hc hn (h2.trans List.replicate_succ) ha
    | leaving k _ _ h3 _ =>
      cases k with
      | zero => exact hi.deliver_leave hc hn h3 ha
      | succ k => exact hi.deliver_ready hc hn (h3.trans (by rw [List.replicate_succ]; rfl)) ha
    | left _ _ h3 _ => exact absurd h3 hqueue

/-- **The scheduler stops** when no node is active, and tells all nodes to exit. -/
theorem Inv.stop_scheduler (hi : Inv c s) (hc : c.Valid)
    (hphase : (s.managers c.scheduler).phase = .running)
    (hinited : (s.managers c.scheduler).inited = true)
    (hactive : (s.managers c.scheduler).activeNodes = ∅) :
    ∃ s', step c s (.stop c.scheduler) = some s' ∧ Inv c s' ∧ work c s' < work c s := by
  have hr := hi.registry
  obtain ⟨n, hn⟩ := List.exists_mem_of_ne_nil _ hc.ne_nil
  obtain ⟨h, hh⟩ : ∃ h, h = s.managers c.scheduler := ⟨_, rfl⟩
  rw [← hh] at hr hphase hinited hactive
  have hexit : h.inExit = false := by
    by_contra hne
    have hstop := hr.exit.mp (by simpa using hne)
    rw [hphase] at hstop
    simp at hstop
  have hself : s.net c.scheduler c.scheduler = [] := by
    rw [hi.self, ← hh, hphase]
    rfl
  have hfull := hr.inited hinited
  have hstop : h.stop c.scheduler =
      some ({ h with phase := .stopping, inExit := true }, h.sendComp .exit) := by
    rw [Manager.stop, if_pos ⟨hphase, hinited⟩, if_pos (hr.isScheduler hc), if_pos hactive]
  refine ⟨s.after c.scheduler ({ h with phase := .stopping, inExit := true }, h.sendComp .exit),
    ?_, ?_⟩
  · rw [step, if_pos List.mem_cons_self, ← hh, hstop]
    rfl
  refine hi.of_scheduler hc s [.exit] [] 0 rfl (fun _ _ _ => rfl) (fun _ h => h)
    (fun k hk => (hr.sendComp hc hfull _ k).trans (if_pos hk))
    ((hr.sendComp hc hfull _ _).trans (if_neg hc.scheduler))
    (fun k hk => (hr.sendComp hc hfull _ k).trans (if_neg fun h => hk (List.mem_cons_of_mem _ h)))
    ⟨hr.toAssigned.congr ⟨rfl, rfl, rfl, rfl, rfl, rfl⟩,
      hr.active,
      hr.alive, hr.inited, hr.launched, by simp, fun _ => hinited,
      fun hover => absurd (hphase.symm.trans (hr.done hover)) (by simp),
      fun hp => (by cases hp), fun _ => hr.self (by rw [hphase]; simp)⟩
    (fun k hk => ?_) ?_ (by rw [hh]; exact hi.gone) (fun hp => by cases hp) (fun _ _ => le_rfl) hn
    le_rfl ?_
  · have hplace := hi.place k hk
    rw [← hh] at hplace
    cases hplace with
    | new _ _ _ _ _ hfirst => exact absurd (hfirst.symm.trans hinited) Bool.false_ne_true
    | registering _ _ _ _ _ hfirst => exact absurd (hfirst.symm.trans hinited) Bool.false_ne_true
    | registered _ _ _ _ _ hfirst => exact absurd (hfirst.symm.trans hinited) Bool.false_ne_true
    | added ha =>
      have hgone : k ∉ h.activeNodes := by
        rw [hactive]
        exact Finset.notMem_empty k
      obtain ⟨j, hdown, hover, hmore, hrunning⟩ := ha.coming
      have hlive : (s.managers k).done = false := by
        by_contra hne
        exact absurd (hexit.symm.trans (hover (by simpa using hne)).1) Bool.false_ne_true
      rw [if_neg fun h' => absurd (hexit.symm.trans h'.1) Bool.false_ne_true,
        List.append_nil] at hdown
      refine .added ⟨ha.full, ha.nodes, ha.table, ha.myNode, ha.id, ha.sent.congr Iff.rfl,
        ⟨j, ?_, fun hover => absurd (hlive.symm.trans hover) Bool.false_ne_true, hmore, hrunning⟩,
        ha.inited, ha.active, fun _ => hgone⟩
      rw [hdown, if_pos ⟨rfl, hlive⟩]
  · rw [hself, if_neg fun hp => by cases hp.1]
    rfl
  · rw [hself, ← hh]
    simp only [schedulerWork, hphase, downWork, List.append_nil, List.length_nil, List.map_cons,
      List.map_nil, List.sum_cons, List.sum_nil]
    omega

/-- The scheduler changes something that the places do not depend on. -/
theorem Inv.of_same_view (hi : Inv c s) (hc : c.Valid) {h' : Manager N K}
    (s₀ : Cluster N K) {out : List (N × Control N K)} (hmanagers : s₀.managers = s.managers)
    (hnet : ∀ a b, ¬ (a = c.scheduler ∧ b = c.scheduler) → s₀.net a b = s.net a b)
    (hsub : s₀.net c.scheduler c.scheduler ≠ [] → s.net c.scheduler c.scheduler ≠ [])
    (hout : ∀ p ∈ out, p.1 = c.scheduler) (hregistry : Registry c h')
    (hview : ∀ k, SameView (s.managers c.scheduler) h' k)
    (hleft : s₀.net c.scheduler c.scheduler ++ out.map Prod.snd =
      if h'.phase = .stopped ∧ h'.done = false then [.exit] else [])
    (hgone : ∀ k ∈ c.ids, Registered h' k → k ∈ h'.aliveNodes ∨ (s.managers k).done = true)
    (hlast : h'.phase = .stopped → ∀ k ∈ c.ids, (s.managers k).done = true)
    (hwork : schedulerWork c h' (s₀.net c.scheduler c.scheduler ++ out.map Prod.snd) <
      schedulerWork c (s.managers c.scheduler) (s.net c.scheduler c.scheduler)) :
    Inv c (s₀.after c.scheduler (h', out)) ∧
      work c (s₀.after c.scheduler (h', out)) < work c s := by
  obtain ⟨n, hn⟩ := List.exists_mem_of_ne_nil _ hc.ne_nil
  have hne : ∀ k ∈ c.ids, k ≠ c.scheduler := by
    rintro k hk rfl
    exact hc.scheduler hk
  have hnone : ∀ k ≠ c.scheduler, (out.filter fun p => p.1 = k).map Prod.snd = [] := by
    intro k hk
    rw [List.filter_eq_nil_iff.mpr fun p hp heq => hk (by
      rw [← hout p hp]
      exact (of_decide_eq_true heq).symm), List.map_nil]
  have hup : ∀ k ∈ c.ids, s₀.net k c.scheduler = s.net k c.scheduler :=
    fun k hk => hnet k _ fun h => hne k hk h.1
  refine hi.of_scheduler hc s₀ [] (out.map Prod.snd) 0 hmanagers
    (fun a b hb => hnet a b fun h => hb h.2) (fun a ha => ?_) (fun k hk => hnone k (hne k hk))
    (by rw [List.filter_eq_self.mpr fun p hp => by simpa using hout p hp])
    (fun k hk => hnone k fun h => hk (by rw [h]; exact List.mem_cons_self)) hregistry
    (fun k hk => ?_) hleft hgone hlast (fun k hk => by rw [waiting, waiting, hup k hk]) hn
    (by rw [waiting, waiting, hup n hn, Nat.add_zero]) (by simpa using hwork)
  · by_cases hs : a = c.scheduler
    · subst hs
      exact hsub ha
    · rwa [hnet a _ fun h => hs h.1] at ha
  · rw [List.append_nil, hup k hk]
    exact (hi.place k hk).congr (hview k)

/-- **The scheduler notices** that a node has exited. -/
theorem Inv.disconnect (hi : Inv c s) (hc : c.Valid) (hn : n ∈ c.ids)
    (hdone : (s.managers n).done = true)
    (halive : n ∈ (s.managers c.scheduler).aliveNodes) :
    ∃ s', step c s (.disconnect n) = some s' ∧ Inv c s' ∧ work c s' < work c s := by
  have hr := hi.registry
  have hexit : (s.managers c.scheduler).inExit = true := by
    have hplace := hi.place n hn
    cases hplace with
    | new hm =>
      rw [hm] at hdone
      cases hdone
    | registering hm =>
      rw [hm] at hdone
      cases hdone
    | registered hm =>
      rw [hm] at hdone
      cases hdone
    | added ha =>
      obtain ⟨j, -, hover, -⟩ := ha.coming
      exact (hover hdone).1
  have hne : c.scheduler ≠ n := by
    rintro rfl
    exact hc.scheduler hn
  obtain ⟨h, hh⟩ : ∃ h, h = s.managers c.scheduler := ⟨_, rfl⟩
  rw [← hh] at hr halive hexit
  have hrun : h.nodeDisconnected n = some { h with aliveNodes := h.aliveNodes.erase n } :=
    if_pos ⟨hexit, halive⟩
  refine ⟨s.after c.scheduler ({ h with aliveNodes := h.aliveNodes.erase n }, []), ?_, ?_⟩
  · rw [step, if_pos ⟨hn, hdone⟩, ← hh, hrun]
    rfl
  refine hi.of_same_view hc s rfl (fun _ _ _ => rfl) id (by simp)
    ⟨hr.toAssigned.congr ⟨rfl, rfl, rfl, rfl, rfl, rfl⟩,
      hr.active, fun k hk => hr.alive k (Finset.mem_of_mem_erase hk), hr.inited, hr.launched,
      hr.exit, hr.exit_inited, hr.done, fun hp => ?_,
      fun hp => ⟨(hr.self hp).1, Finset.mem_erase.mpr ⟨hne, (hr.self hp).2⟩⟩⟩
    (fun k => ?_) ?_ (fun k hk hreg => ?_) (by rw [hh]; exact hi.last) ?_
  · have hnew := congrArg Manager.inExit (hr.new hp)
    rw [hexit] at hnew
    cases hnew
  · rw [← hh]
    exact ⟨rfl, rfl, rfl, Iff.rfl, rfl, rfl⟩
  · rw [hi.self, ← hh]
    exact List.append_nil _
  · by_cases hkn : k = n
    · subst hkn
      exact Or.inr hdone
    · have hreg' : Registered (s.managers c.scheduler) k := by
        rw [← hh]
        exact hreg
      refine (hi.gone k hk hreg').imp_left fun hin => ?_
      rw [← hh] at hin
      exact Finset.mem_erase.mpr ⟨hkn, hin⟩
  · have hcard := Finset.card_erase_lt_of_mem halive
    rw [← hh]
    simp only [schedulerWork, List.map_nil, List.append_nil]
    omega

/-- **The scheduler stops itself** when the other nodes have exited. -/
theorem Inv.finish (hi : Inv c s) (hc : c.Valid)
    (hphase : (s.managers c.scheduler).phase = .stopping)
    (hcard : (s.managers c.scheduler).aliveNodes.card = 1) :
    ∃ s', step c s .finish = some s' ∧ Inv c s' ∧ work c s' < work c s := by
  have hr := hi.registry
  obtain ⟨h, hh⟩ : ∃ h, h = s.managers c.scheduler := ⟨_, rfl⟩
  rw [← hh] at hr hphase hcard
  have hlive : h.done = false := by
    by_contra hne
    have hstopped := hr.done (by simpa using hne)
    rw [hphase] at hstopped
    cases hstopped
  have hexit : h.inExit = true := hr.exit.mpr (Or.inl hphase)
  have hself : s.net c.scheduler c.scheduler = [] := by
    rw [hi.self, ← hh, hphase]
    rfl
  have honly : ∀ k ∈ c.ids, k ∉ h.aliveNodes := by
    intro k hk hin
    obtain ⟨x, hx⟩ := Finset.card_eq_one.mp hcard
    have hsch := (hr.self (by rw [hphase]; simp)).2
    rw [hx, Finset.mem_singleton] at hsch hin
    rw [hin, ← hsch] at hk
    exact hc.scheduler hk
  have hall : ∀ k ∈ c.ids, (s.managers k).done = true := by
    intro k hk
    have hreg := (hr.full_iff hc).mp (hr.inited (hr.exit_inited hexit)) k hk
    rw [hh] at hreg
    refine (hi.gone k hk hreg).resolve_left fun hin => ?_
    rw [← hh] at hin
    exact honly k hk hin
  have hrun : h.finish = some ({ h with phase := .stopped }, [(c.scheduler, .exit)]) := by
    rw [Manager.finish, if_pos ⟨hphase, hr.isScheduler hc, hcard⟩, hr.myNode]
    rfl
  refine ⟨s.after c.scheduler ({ h with phase := .stopped }, [(c.scheduler, .exit)]), ?_, ?_⟩
  · rw [step, ← hh, hrun]
    rfl
  refine hi.of_same_view hc s rfl (fun _ _ _ => rfl) id (by simp)
    ⟨hr.toAssigned.congr ⟨rfl, rfl, rfl, rfl, rfl, rfl⟩,
      hr.active, hr.alive, hr.inited, hr.launched, by simp [hexit], hr.exit_inited, fun _ => rfl,
      fun hp => (by cases hp), fun _ => hr.self (by rw [hphase]; simp)⟩
    (fun k => ?_) ?_ (by rw [hh]; exact hi.gone) (fun _ => hall) ?_
  · rw [← hh]
    exact ⟨rfl, rfl, rfl, Iff.rfl, rfl, rfl⟩
  · rw [hself, if_pos ⟨rfl, hlive⟩]
    rfl
  · rw [hself, ← hh]
    simp only [schedulerWork, hphase, List.nil_append, List.map_cons, List.map_nil,
      List.length_cons, List.length_nil]
    omega

/-- **The scheduler exits.** -/
theorem Inv.deliver_self (hi : Inv c s) (hc : c.Valid)
    (hqueue : s.net c.scheduler c.scheduler ≠ []) :
    ∃ s', step c s (.deliver c.scheduler c.scheduler) = some s' ∧ Inv c s' ∧
      work c s' < work c s := by
  have hr := hi.registry
  obtain ⟨h, hh⟩ : ∃ h, h = s.managers c.scheduler := ⟨_, rfl⟩
  have hstate : h.phase = .stopped ∧ h.done = false := by
    by_contra hne
    rw [hi.self, ← hh, if_neg hne] at hqueue
    exact hqueue rfl
  have hself : s.net c.scheduler c.scheduler = [.exit] := by
    rw [hi.self, ← hh, if_pos hstate]
  rw [← hh] at hr
  obtain ⟨hphase, hlive⟩ := hstate
  obtain ⟨hpop, hother, -, hsub, -⟩ := pop_waiting s hself
  refine ⟨(s.pop c.scheduler c.scheduler).after c.scheduler ({ h with done := true }, []), ?_, ?_⟩
  · rw [step, hself, List.head?_cons, Option.bind_some, ← hh,
      if_pos ⟨by rw [hphase]; simp, hlive⟩]
    rfl
  refine hi.of_same_view hc (s.pop c.scheduler c.scheduler) rfl hother (hsub _) (by simp)
    ⟨hr.toAssigned.congr ⟨rfl, rfl, rfl, rfl, rfl, rfl⟩,
      hr.active, hr.alive, hr.inited, hr.launched, hr.exit, hr.exit_inited, fun _ => hphase,
      fun hp => (by cases hphase.symm.trans hp), hr.self⟩
    (fun k => ?_) ?_ (by rw [hh]; exact hi.gone) (by rw [hh]; exact hi.last) ?_
  · rw [← hh]
    exact ⟨rfl, rfl, rfl, Iff.rfl, rfl, rfl⟩
  · rw [hpop, if_neg fun hp => by cases hp.2]
    rfl
  · rw [hpop, hself, ← hh]
    simp only [schedulerWork, List.map_nil, List.append_nil, List.length_nil, List.length_cons]
    omega

theorem inv_init (hc : c.Valid) : Inv c (init c) := by
  have hrole : (c.node c.scheduler).role = .scheduler := hc.role_scheduler
  have hassigned : Assigned c (c.manager c.scheduler) :=
    ⟨⟨.nil, by simp [Setup.manager], by simp [Setup.manager]⟩, ⟨.nil, rfl, rfl, .refl _, .nil⟩, rfl,
      rfl, .refl _, .refl _, by simp [Setup.manager]⟩
  refine ⟨⟨hassigned, by simp [init, Setup.manager], by simp [init, Setup.manager],
    by simp [init, Setup.manager], fun hle => ?_, by simp [init, Setup.manager],
    by simp [init, Setup.manager], by simp [init, Setup.manager], fun _ => rfl,
    fun hp => absurd rfl hp⟩,
    fun n hn => .new rfl rfl rfl ?_ (Finset.notMem_empty n) rfl, rfl,
    fun _ _ h => absurd rfl h, fun n hn hreg => ?_, fun hp => by cases hp⟩
  · exact absurd (List.length_eq_zero_iff.mp (Nat.le_zero.mp hle)) hc.ne_nil
  · simp [Registered, init, Setup.manager]
  · simp [Registered, init, Setup.manager] at hreg

/-- **Every step** keeps the invariant and leaves less work. -/
theorem Inv.step (hi : Inv c s) (hc : c.Valid) {a : Act N} (hs : step c s a = some s') :
    Inv c s' ∧ work c s' < work c s := by
  have hsame : (∃ t, Cluster.step c s a = some t ∧ Inv c t ∧ work c t < work c s) →
      Inv c s' ∧ work c s' < work c s := by
    rintro ⟨t, ht, hinv, hwork⟩
    cases hs.symm.trans ht
    exact ⟨hinv, hwork⟩
  refine hsame ?_
  cases a with
  | start n =>
    obtain ⟨⟨hn, hphase⟩, -⟩ := Option.ite_none_right_eq_some.mp hs
    rcases List.mem_cons.mp hn with rfl | hn
    · exact hi.start_scheduler hc hphase
    · exact hi.start_node hc hn hphase
  | deliver a b =>
    obtain ⟨ctrl, hctrl, hs⟩ := Option.bind_eq_some_iff.mp hs
    obtain ⟨⟨hphase, -⟩, -⟩ := Option.ite_none_right_eq_some.mp hs
    have hqueue : s.net a b ≠ [] := by
      intro hnil
      rw [hnil] at hctrl
      cases hctrl
    rcases hi.net a b hqueue with ⟨rfl, hb⟩ | ⟨ha, rfl⟩
    · rcases List.mem_cons.mp hb with rfl | hb
      · exact hi.deliver_self hc hqueue
      · exact hi.deliver_down hc hb hqueue
    · exact hi.deliver_up hc ha hqueue hphase
  | stop n =>
    obtain ⟨hn, hs⟩ := Option.ite_none_right_eq_some.mp hs
    obtain ⟨r, hr, -⟩ := Option.map_eq_some_iff.mp hs
    obtain ⟨⟨hphase, hinited⟩, hr⟩ := Option.ite_none_right_eq_some.mp hr
    rcases List.mem_cons.mp hn with rfl | hn
    · rw [if_pos (hi.registry.isScheduler hc)] at hr
      obtain ⟨hactive, -⟩ := Option.ite_none_right_eq_some.mp hr
      exact hi.stop_scheduler hc hphase hinited hactive
    · exact hi.stop_node hc hn hphase hinited
  | disconnect n =>
    obtain ⟨⟨hn, hdone⟩, hs⟩ := Option.ite_none_right_eq_some.mp hs
    obtain ⟨m, hm, -⟩ := Option.map_eq_some_iff.mp hs
    obtain ⟨⟨-, halive⟩, -⟩ := Option.ite_none_right_eq_some.mp hm
    exact hi.disconnect hc hn hdone halive
  | finish =>
    obtain ⟨r, hr, -⟩ := Option.map_eq_some_iff.mp hs
    obtain ⟨⟨hphase, -, hcard⟩, -⟩ := Option.ite_none_right_eq_some.mp hr
    exact hi.finish hc hphase hcard

/-- When the scheduler has told the nodes to run, they all know all nodes. -/
theorem Inv.added (hi : Inv c s) (hinited : (s.managers c.scheduler).inited = true)
    (hn : n ∈ c.ids) :
    Added c (s.managers c.scheduler) (s.managers n) (s.net n c.scheduler) (s.net c.scheduler n)
      n := by
  have hplace := hi.place n hn
  cases hplace with
  | new _ _ _ _ _ hnot => exact absurd (hnot.symm.trans hinited) Bool.false_ne_true
  | registering _ _ _ _ _ hnot => exact absurd (hnot.symm.trans hinited) Bool.false_ne_true
  | registered _ _ _ _ _ hnot => exact absurd (hnot.symm.trans hinited) Bool.false_ne_true
  | added ha => exact ha

/-- A node runs or exits only if the scheduler told it to. -/
theorem Inv.told (hi : Inv c s) (hn : n ∈ c.ids) :
    ((s.managers n).inited = true → (s.managers c.scheduler).inited = true) ∧
      ((s.managers n).done = true → (s.managers c.scheduler).inExit = true) := by
  have hplace := hi.place n hn
  cases hplace with
  | new hm =>
    rw [hm]
    exact ⟨fun h => (by cases h), fun h => (by cases h)⟩
  | registering hm =>
    rw [hm]
    exact ⟨fun h => (by cases h), fun h => (by cases h)⟩
  | registered hm =>
    rw [hm]
    exact ⟨fun h => (by cases h), fun h => (by cases h)⟩
  | added ha =>
    obtain ⟨j, -, hover, -⟩ := ha.coming
    exact ⟨ha.inited, fun h => (hover h).1⟩

/-- When the scheduler exits, the other nodes have finished. -/
theorem Inv.finished (hi : Inv c s) (hexit : (s.managers c.scheduler).inExit = true)
    (hn : n ∈ c.ids) :
    (s.managers n).inited = true ∧ (s.managers n).phase = .stopping := by
  have hinited := hi.registry.exit_inited hexit
  have ha := hi.added hinited hn
  have hgone := ha.exit hexit
  have hup := (ha.active hinited).resolve_left hgone
  cases ha.sent with
  | running k _ hqueue hready =>
    have hpos := hready.resolve_left hgone
    rw [hup] at hqueue
    exact absurd (congrArg List.length hqueue) (by simpa using hpos.ne)
  | leaving k hphase hinited => exact ⟨hinited, hphase⟩
  | left hphase hinited => exact ⟨hinited, hphase⟩

/-- When no step is possible, all nodes know all nodes, and nothing is on its way. -/
theorem Inv.settled (hi : Inv c s) (hc : c.Valid) (hstuck : ∀ a, Cluster.step c s a = none)
    (hn : n ∈ c.ids) :
    Added c (s.managers c.scheduler) (s.managers n) [] [] n := by
  have hno : ∀ a, ¬ ∃ t, Cluster.step c s a = some t ∧ Inv c t ∧ work c t < work c s := by
    rintro a ⟨t, ht, -⟩
    cases (hstuck a).symm.trans ht
  have hscheduler : (s.managers c.scheduler).phase ≠ .new :=
    fun hphase => hno _ (hi.start_scheduler hc hphase)
  have hup : ∀ k ∈ c.ids, s.net k c.scheduler = [] := fun k hk => by
    by_contra hqueue
    exact hno _ (hi.deliver_up hc hk hqueue hscheduler)
  have hdown : ∀ k ∈ c.ids, s.net c.scheduler k = [] := fun k hk => by
    by_contra hqueue
    exact hno _ (hi.deliver_down hc hk hqueue)
  have hregistered : ∀ k ∈ c.ids, Registered (s.managers c.scheduler) k := by
    intro k hk
    have hplace := hi.place k hk
    cases hplace with
    | new hm =>
      refine absurd (hi.start_node hc hk ?_) (hno _)
      rw [hm]
      rfl
    | registering _ hqueue =>
      rw [hup k hk] at hqueue
      cases hqueue
    | registered _ _ hreg => exact hreg
    | added ha => exact ha.registered hi.registry hc hk
  have hfull := (hi.registry.full_iff hc).mpr hregistered
  have hplace := hi.place n hn
  rw [hup n hn, hdown n hn] at hplace
  cases hplace with
  | new _ _ _ hnew => exact absurd (hregistered n hn) hnew
  | registering _ hqueue => cases hqueue
  | registered _ _ _ hqueue =>
    rw [if_pos hfull] at hqueue
    cases hqueue
  | added ha => exact ha

/-- **A run that cannot go on is over**: all nodes have exited. -/
theorem Inv.over (hi : Inv c s) (hc : c.Valid) (hstuck : ∀ a, Cluster.step c s a = none)
    (hn : n ∈ c.scheduler :: c.ids) : (s.managers n).done = true := by
  have hno : ∀ a, ¬ ∃ t, Cluster.step c s a = some t ∧ Inv c t ∧ work c t < work c s := by
    rintro a ⟨t, ht, -⟩
    cases (hstuck a).symm.trans ht
  have hr := hi.registry
  have hadded : ∀ k ∈ c.ids, Added c (s.managers c.scheduler) (s.managers k) [] [] k :=
    fun k hk => hi.settled hc hstuck hk
  have hinited : (s.managers c.scheduler).inited = true := by
    by_contra hnot
    refine hnot (hr.launched ?_)
    -- no node was told to run, so none has left, and all are active
    have hactive : ∀ k ∈ c.ids, k ∈ (s.managers c.scheduler).activeNodes := by
      intro k hk
      have ha := hadded k hk
      cases ha.sent with
      | running j _ hqueue hready =>
        refine hready.resolve_right fun hpos => hpos.ne ?_
        simpa using congrArg List.length hqueue
      | leaving j _ _ hqueue =>
        have hlen := congrArg List.length hqueue
        simp at hlen
      | left _ hrun => exact absurd (ha.inited hrun) hnot
    rw [← List.toFinset_card_of_nodup hc.nodup]
    exact Finset.card_le_card fun k hk => hactive k (List.mem_toFinset.mp hk)
  have hleft : ∀ k ∈ c.ids, k ∉ (s.managers c.scheduler).activeNodes := by
    intro k hk
    have ha := hadded k hk
    obtain ⟨j, hqueue, -, -, hrunning⟩ := ha.coming
    have hj : j = 0 := by
      have hlen := congrArg List.length hqueue
      rw [List.length_nil, List.length_append, List.length_replicate] at hlen
      omega
    have hrun : (s.managers k).inited = true :=
      (hrunning hinited).resolve_right (by rw [hj]; exact Nat.lt_irrefl 0)
    cases ha.sent with
    | running _ hphase => exact absurd (hi.stop_node hc hk hphase hrun) (hno _)
    | leaving i _ _ hqueue =>
      have hlen := congrArg List.length hqueue
      simp at hlen
    | left _ _ _ hgone => exact hgone
  have hactive : (s.managers c.scheduler).activeNodes = ∅ :=
    Finset.eq_empty_of_forall_notMem fun k hk => hleft k (hr.active k hk) hk
  have hstopped : (s.managers c.scheduler).phase = .stopped := by
    cases hphase : (s.managers c.scheduler).phase with
    | new => exact absurd (hi.start_scheduler hc hphase) (hno _)
    | running => exact absurd (hi.stop_scheduler hc hphase hinited hactive) (hno _)
    | stopped => rfl
    | stopping =>
      have hexit := hr.exit.mpr (Or.inl hphase)
      have hdone : ∀ k ∈ c.ids, (s.managers k).done = true := by
        intro k hk
        obtain ⟨j, hqueue, -⟩ := (hadded k hk).coming
        by_contra hlive
        rw [if_pos ⟨hexit, by simpa using hlive⟩] at hqueue
        have hlen := congrArg List.length hqueue
        simp at hlen
      have halone : ∀ k ∈ (s.managers c.scheduler).aliveNodes, k = c.scheduler := by
        intro k hk
        refine (List.mem_cons.mp (hr.alive k hk)).resolve_right fun hin => ?_
        exact hno _ (hi.disconnect hc hin (hdone k hin) hk)
      refine absurd (hi.finish hc hphase (Finset.card_eq_one.mpr ⟨c.scheduler, ?_⟩)) (hno _)
      refine Finset.eq_singleton_iff_unique_mem.mpr ⟨(hr.self ?_).2, halone⟩
      rw [hphase]
      simp
  rcases List.mem_cons.mp hn with rfl | hn
  · by_contra hlive
    refine hno _ (hi.deliver_self hc ?_)
    rw [hi.self, if_pos ⟨hstopped, by simpa using hlive⟩]
    simp
  · exact hi.last hstopped n hn

end Steps

/-! ## Runs -/

section Runs

variable {c} {s : Cluster N K}

theorem reach_inv_cluster (hc : c.Valid) (hr : Reach (step c) anyStep (init c) s) : Inv c s :=
  hr.invariant (inv_init hc) fun _ _ _ hi _ hs => (hi.step hc hs).1

/-- The ranks and the ranges of a server group, when all have registered. -/
theorem Registry.servers {h : Manager N K} (hr : Registry c h) (hc : c.Valid)
    (hfull : h.Full c.flags) :
    h.serverGroup.map Node.rank = List.range c.keyRanges.length ∧
      h.serverGroup.map Node.key = c.keyRanges := by
  have hmem : ∀ x ∈ h.serverGroup, c.keyRanges[x.rank]? = some x.key := by
    intro x hx
    obtain ⟨hx, hserver⟩ := List.mem_filter.mp (hr.table.serverGroup.mem_iff.mp hx)
    exact hr.keys x hx hserver
  have hperm : (h.serverGroup.map Node.rank).Perm (List.range h.nodeAssigner.serverRank) :=
    (hr.table.serverGroup.map Node.rank).trans hr.serverRanks
  -- the group is in the order of the ranges, and the ranges in the order of the ranks
  have hsorted : (h.serverGroup.map Node.rank).Pairwise (· < ·) := by
    refine List.pairwise_map.mpr (hr.table.ordered.imp_of_mem fun {a b} ha hb hlt => ?_)
    obtain ⟨hla, hga⟩ := List.getElem?_eq_some_iff.mp (hmem a ha)
    obtain ⟨hlb, hgb⟩ := List.getElem?_eq_some_iff.mp (hmem b hb)
    by_contra hle
    rcases Nat.lt_or_eq_of_le (not_lt.mp hle) with hrank | hrank
    · have hless := List.pairwise_iff_getElem.mp hc.increasing _ _ hlb hla hrank
      rw [hga, hgb] at hless
      exact lt_asymm hlt hless
    · have hsame := hmem b hb
      rw [hrank, hmem a ha] at hsame
      rw [Option.some.inj hsame] at hlt
      exact lt_irrefl _ hlt
  have heq : h.serverGroup.map Node.rank = List.range h.nodeAssigner.serverRank :=
    hperm.eq_of_pairwise (fun a b _ _ h1 h2 => absurd h1 (lt_asymm h2)) hsorted
      List.pairwise_lt_range
  have hlen : h.nodeAssigner.serverRank = c.keyRanges.length := by
    have hcount := hr.serverRanks.length_eq
    rw [List.length_map, ← List.countP_eq_length_filter, List.length_range,
      ← hr.table.numServers] at hcount
    refine le_antisymm ?_ (by rw [hc.length, ← hcount]; exact hfull.2)
    refine Nat.le_of_not_lt fun hlt => ?_
    have hin : c.keyRanges.length ∈ h.serverGroup.map Node.rank := by
      rw [heq]
      exact List.mem_range.mpr hlt
    obtain ⟨x, hx, hrank⟩ := List.mem_map.mp hin
    have hkey := hmem x hx
    rw [hrank, List.getElem?_eq_none le_rfl] at hkey
    cases hkey
  rw [hlen] at heq
  refine ⟨heq, List.map_injective_iff.mpr (Option.some_injective _) ?_⟩
  have hkeys : (h.serverGroup.map Node.key).map some =
      (h.serverGroup.map Node.rank).map fun i => c.keyRanges[i]? := by
    rw [List.map_map, List.map_map]
    exact List.map_congr_left fun x hx => (hmem x hx).symm
  rw [hkeys, heq]
  refine List.ext_getElem (by simp) fun i hi hj => ?_
  rw [List.length_map] at hj
  simp [List.getElem?_eq_getElem hj]

/-- A job with one server and one worker. -/
def pair : Setup ℕ ℕ :=
  { scheduler := 0, ids := [2, 1], role := fun n => [.scheduler, .worker].getD n .server
    keyRange := ⟨0, 10⟩, keyRanges := [⟨0, 10⟩], unset := ⟨0, 0⟩ }

theorem pair_valid : pair.Valid :=
  ⟨by decide, by decide, by decide, by decide, by decide, by decide, by decide⟩

/-- All nodes start, register and are told to run. -/
def pairStart : List (Act ℕ) :=
  [.start 2, .start 0, .start 1, .deliver 1 0, .deliver 2 0, .deliver 0 1, .deliver 0 2,
    .deliver 2 0, .deliver 1 0, .deliver 0 1]

/-- The worker stops first. -/
def pairStop : List (Act ℕ) :=
  [.stop 1, .deliver 0 2, .stop 2, .deliver 2 0, .deliver 1 0, .stop 0, .deliver 0 2,
    .disconnect 2, .deliver 0 1, .disconnect 1, .finish, .deliver 0 0]


/-- **When a node runs, all nodes know all nodes**: they agree on the ranks and on the order of the
servers, which have the ranges of the job in their order, and each node knows itself. -/
theorem ready_together (hc : c.Valid) (hr : Reach (step c) anyStep (init c) s) {n : N}
    (hn : n ∈ c.scheduler :: c.ids) (hrun : (s.managers n).inited = true) :
    ∃ nodes servers : List (Node N K),
      (∀ k ∈ c.scheduler :: c.ids, (s.managers k).nodes = nodes ∧
        (s.managers k).serverGroup = servers ∧ (s.managers k).myNode ∈ nodes ∧
        (s.managers k).myNode.id = k) ∧
      (nodes.map Node.id).Perm (c.scheduler :: c.ids) ∧ (∀ x ∈ nodes, x.role = c.role x.id) ∧
      servers.map Node.rank = List.range c.keyRanges.length ∧
      servers.map Node.key = c.keyRanges ∧
      ((nodes.filter Node.isWorker).map Node.rank).Perm (List.range c.flags.numWorkers) := by
  have hi := reach_inv_cluster hc hr
  have hreg := hi.registry
  have hinited : (s.managers c.scheduler).inited = true := by
    rcases List.mem_cons.mp hn with rfl | hn
    · exact hrun
    · exact (hi.told hn).1 hrun
  have hadded : ∀ k ∈ c.ids, Added c (s.managers c.scheduler) (s.managers k)
      (s.net k c.scheduler) (s.net c.scheduler k) k := fun k hk => hi.added hinited hk
  obtain ⟨h, hh⟩ : ∃ h, h = s.managers c.scheduler := ⟨_, rfl⟩
  rw [← hh] at hreg hinited hadded
  have hfull := hreg.inited hinited
  have hphase : h.phase ≠ .new := by
    intro hnew
    have hfirst := congrArg Manager.inited (hreg.new hnew)
    rw [hinited] at hfirst
    cases hfirst
  have hme := (hreg.self hphase).1
  obtain ⟨hranks, hkeys⟩ := hreg.servers hc hfull
  refine ⟨h.nodes, h.serverGroup, fun k hk => ?_, ?_, hreg.known.role, hranks, hkeys, ?_⟩
  · rcases List.mem_cons.mp hk with rfl | hk
    · rw [← hh, hreg.myNode]
      exact ⟨rfl, rfl, hme, rfl⟩
    · have ha := hadded k hk
      refine ⟨ha.nodes, ?_, ha.myNode, ha.id⟩
      have hperm : (s.managers k).serverGroup.Perm h.serverGroup := by
        refine ha.table.serverGroup.trans ?_
        rw [ha.nodes]
        exact hreg.table.serverGroup.symm
      exact hperm.eq_of_pairwise (fun a b _ _ h1 h2 => absurd h1 (lt_asymm h2))
        ha.table.ordered hreg.table.ordered
  · have hnodup : (h.nodes.map Node.id).Nodup :=
      List.pairwise_map.mpr (hreg.known.sorted.imp fun h => h.ne)
    refine (List.perm_ext_iff_of_nodup hnodup
      (List.nodup_cons.mpr ⟨hc.scheduler, hc.nodup⟩)).mpr fun k => ⟨fun hk => ?_, fun hk => ?_⟩
    · obtain ⟨x, hx, rfl⟩ := List.mem_map.mp hk
      exact hreg.known.mem x hx
    · rcases List.mem_cons.mp hk with rfl | hk
      · exact List.mem_map_of_mem hme
      · exact (hreg.full_iff hc).mp hfull k hk
  · have hcount := hreg.workerRanks.length_eq
    rw [List.length_map, ← List.countP_eq_length_filter, List.length_range,
      ← hreg.table.numWorkers] at hcount
    have hle : h.numWorkers ≤ c.flags.numWorkers := by
      obtain ⟨hnodup, hmem⟩ := hreg.known.comp_perm hc
      have hsub := hnodup.subperm fun n hn => ((hmem n).mp hn).1
      rw [hreg.table.numWorkers]
      exact (hreg.known.count .worker (by simp)).le.trans (hsub.countP_le _)
    rw [le_antisymm hfull.1 hle, hcount]
    exact hreg.workerRanks

theorem ready_together_pair : ∃ s, Reach (step pair) anyStep (init pair) s ∧
    ∃ nodes servers : List (Node ℕ ℕ),
      (∀ k ∈ pair.scheduler :: pair.ids, (s.managers k).nodes = nodes ∧
        (s.managers k).serverGroup = servers ∧ (s.managers k).myNode ∈ nodes ∧
        (s.managers k).myNode.id = k) ∧
      (nodes.map Node.id).Perm (pair.scheduler :: pair.ids) := by
  have hrun : (Lib.runs (fun s a => if anyStep s a then step pair s a else none) (init pair)
      pairStart).any (fun s => (s.managers 1).inited) = true := by
    decide +kernel
  obtain ⟨s, hs, hinited⟩ := Reach.exists_of_runs hrun
  obtain ⟨nodes, servers, hall, hperm, -⟩ :=
    ready_together pair_valid hs (n := 1) (by decide) hinited
  exact ⟨s, hs, nodes, servers, hall, hperm⟩

/-- **Every run ends**: a message for a node that has started is processed, as no check fails, and
when a run cannot go on, all nodes have exited. -/
theorem runs_end (hc : c.Valid) {as : List (Act N)}
    (hrun : Lib.runs (step c) (init c) as = some s) :
    as.length ≤ work c (init c) ∧
      (∀ a b, s.net a b ≠ [] → (s.managers b).phase ≠ .new →
        ∃ s', step c s (.deliver a b) = some s') ∧
      ((∀ a, step c s a = none) → ∀ n ∈ c.scheduler :: c.ids, (s.managers n).done = true) := by
  obtain ⟨hi, hle⟩ := Lib.length_le_of_runs (work c) (Inv c)
    (fun t a _ t' ht hs => ht.step hc hs) (inv_init hc) hrun
  refine ⟨by omega, fun a b hqueue hphase => ?_, fun hstuck n hn => hi.over hc hstuck hn⟩
  rcases hi.net a b hqueue with ⟨rfl, hb⟩ | ⟨ha, rfl⟩
  · rcases List.mem_cons.mp hb with rfl | hb
    · exact (hi.deliver_self hc hqueue).imp fun _ h => h.1
    · exact (hi.deliver_down hc hb hqueue).imp fun _ h => h.1
  · exact (hi.deliver_up hc ha hqueue hphase).imp fun _ h => h.1

theorem runs_end_pair : ∃ s, Lib.runs (step pair) (init pair) pairStart = some s ∧
    pairStart.length ≤ work pair (init pair) ∧
    ((∀ a, step pair s a = none) → ∀ n ∈ pair.scheduler :: pair.ids,
      (s.managers n).done = true) := by
  have hrun : (Lib.runs (step pair) (init pair) pairStart).isSome = true := by
    decide +kernel
  obtain ⟨s, hs⟩ := Option.isSome_iff_exists.mp hrun
  obtain ⟨hlen, -, hover⟩ := runs_end pair_valid hs
  exact ⟨s, hs, hlen, hover⟩

end Runs

end Cluster

end Difacto.System
