import Difacto.System.Slice
import Mathlib.Data.Finset.Card
import Mathlib.Data.List.Perm.Basic
import Mathlib.Data.List.Sort

/-!
# The manager of a node

`Manager` of `ps-lite/src/system/manager.cc`, with the `NodeAssigner` of the scheduler and the
server group that `Executor::AddNode` keeps for every customer. The control messages: a node
registers at the scheduler, the scheduler gives it a rank and a range of keys and tells all nodes
about all nodes when the last one has registered, a node that knows all of them is ready to run,
and all of them exit together.

What `EvenDivide` returns is in the assigner. A failed `CHECK` is `none`. Nodes that die and
timeouts are not modelled, nor are the replies, which are thrown away.

## Main definitions

* `Node`, `Control`, `Manager` — a node, a control message and the state of a manager.
* `NodeAssigner.assign`, `Manager.addNode`, `Manager.process` — `Assign`, `AddNode` and `Process`.
* `Manager.addGroupNode` — `RemoteNode::AddGroupNode`.

## Main results

* `Manager.Table` — what `AddNode` keeps: the nodes are sorted and counted, and the servers are in
  the order of their ranges.
* `Manager.addNodes_spec` — what a node knows and sends after `ADD_NODE`.
-/

namespace Difacto.System

/-- The roles of nodes that register, and of the scheduler. -/
inductive Role
  | server
  | worker
  | scheduler
  deriving DecidableEq

/-- `Node` -/
structure Node (N K : Type) where
  id : N
  role : Role
  rank : ℕ
  key : Range K
  deriving DecidableEq

namespace Node

variable {N K : Type}

def isServer (n : Node N K) : Bool := n.role = .server

def isWorker (n : Node N K) : Bool := n.role = .worker

/-- The nodes of `kCompGroup`. -/
def isComp (n : Node N K) : Bool := n.isWorker || n.isServer

end Node

/-- `Control` -/
inductive Control (N K : Type)
  | registerNode (node : Node N K)
  | addNode (nodes : List (Node N K))
  | readyToRun
  | readyToExit
  | exit
  deriving DecidableEq

/-- `NodeAssigner`: the ranges into which `EvenDivide` divides `key_range_`, and the next ranks. -/
structure NodeAssigner (K : Type) where
  keyRanges : List (Range K)
  keyRange : Range K
  serverRank : ℕ := 0
  workerRank : ℕ := 0

/-- `Assign` -/
def NodeAssigner.assign {N K : Type} (a : NodeAssigner K) (node : Node N K) :
    Option (Node N K × NodeAssigner K) :=
  match node.role with
  | .server => a.keyRanges[a.serverRank]?.map fun kr =>
    ({ node with rank := a.serverRank, key := kr }, { a with serverRank := a.serverRank + 1 })
  | .worker => some ({ node with rank := a.workerRank, key := a.keyRange },
    { a with workerRank := a.workerRank + 1 })
  | .scheduler => some ({ node with rank := 0, key := a.keyRange }, a)

/-- How far a program is: before `Init`, in `Run`, and in `Stop`, where the scheduler waits for the
other nodes before it stops itself. -/
inductive Lifetime
  | new
  | running
  | stopping
  | stopped
  deriving DecidableEq

/-- `FLAGS_num_workers` and `FLAGS_num_servers`. -/
structure Flags where
  numWorkers : ℕ
  numServers : ℕ

/-- `Manager`, with the program counter of its thread. -/
structure Manager (N K : Type) where
  /-- `van_.my_node()` -/
  myNode : Node N K
  /-- `nodes_`, in the order of the map -/
  nodes : List (Node N K) := []
  numWorkers : ℕ := 0
  numServers : ℕ := 0
  /-- `kServerGroup` of the executor of a customer -/
  serverGroup : List (Node N K) := []
  activeNodes : Finset N := ∅
  aliveNodes : Finset N := ∅
  inited : Bool := false
  inExit : Bool := false
  done : Bool := false
  nodeAssigner : NodeAssigner K
  phase : Lifetime := .new

namespace Manager

variable {N K : Type} [LinearOrder N] [LinearOrder K]

/-- `IsScheduler` -/
def isScheduler (m : Manager N K) : Bool := m.myNode.role = .scheduler

/-- `nodes_[node.id()] = node` -/
def insertNode (node : Node N K) : List (Node N K) → List (Node N K)
  | [] => [node]
  | n :: ns =>
    if node.id < n.id then node :: n :: ns
    else if node.id = n.id then node :: ns
    else n :: insertNode node ns

/-- `InLeft` of the ranges. -/
def inLeft (a b : Range K) : Bool :=
  a.begin_ ≤ b.begin_ || (a.begin_ = b.begin_ && a.end_ ≤ b.end_)

/-- `AddGroupNode` -/
def addGroupNode (node : Node N K) : List (Node N K) → List (Node N K)
  | [] => [node]
  | n :: ns => if inLeft node.key n.key then node :: n :: ns else n :: addGroupNode node ns

/-- What `Executor::AddNode` does to the server group: a node that is known is removed first. -/
def addServer (node : Node N K) (group : List (Node N K)) : List (Node N K) :=
  let group := group.filter fun n => n.id ≠ node.id
  if node.isServer then addGroupNode node group else group

/-- `SendTask` to `kCompGroup`. -/
def sendComp (m : Manager N K) (ctrl : Control N K) : List (N × Control N K) :=
  (m.nodes.filter Node.isComp).map fun n => (n.id, ctrl)

/-- What `AddNode` does to the tables of nodes. -/
def join (m : Manager N K) (node : Node N K) : Manager N K :=
  let known := m.nodes.any fun n => n.id = node.id
  { m with
    myNode := if !known && node.id = m.myNode.id then node else m.myNode
    numWorkers := if !known && node.isWorker then m.numWorkers + 1 else m.numWorkers
    numServers := if !known && node.isServer then m.numServers + 1 else m.numServers
    nodes := insertNode node m.nodes
    aliveNodes := insert node.id m.aliveNodes
    serverGroup := addServer node m.serverGroup }

/-- As many nodes are known as the flags say. -/
def Full (flags : Flags) (m : Manager N K) : Prop :=
  flags.numWorkers ≤ m.numWorkers ∧ flags.numServers ≤ m.numServers

instance decidableFull (flags : Flags) (m : Manager N K) : Decidable (m.Full flags) :=
  inferInstanceAs (Decidable (_ ∧ _))

/-- `AddNode`, with what is sent; `scheduler` is `van_.scheduler()`. -/
def addNode (flags : Flags) (scheduler : N) (m : Manager N K) (node : Node N K) :
    Option (Manager N K × List (N × Control N K)) :=
  let m := m.join node
  if m.Full flags then
    if m.inited then none
    else if m.isScheduler then some (m, m.sendComp (.addNode m.nodes))
    else some (m, [(scheduler, .readyToRun)])
  else some (m, [])

/-- The loop of `Process` for `ADD_NODE`. -/
def addNodes (flags : Flags) (scheduler : N) (m : Manager N K) (nodes : List (Node N K)) :
    Option (Manager N K × List (N × Control N K)) :=
  nodes.foldlM (fun r node => (addNode flags scheduler r.1 node).map fun r' => (r'.1, r.2 ++ r'.2))
    (m, [])

/-- `Process` of a request, with what is sent. -/
def process (flags : Flags) (scheduler : N) (m : Manager N K) (sender : N) :
    Control N K → Option (Manager N K × List (N × Control N K))
  | .registerNode node =>
    if m.isScheduler then
      (m.nodeAssigner.assign node).bind fun r =>
        addNode flags scheduler { m with nodeAssigner := r.2 } r.1
    else none
  | .addNode nodes => addNodes flags scheduler m nodes
  | .readyToRun =>
    if m.isScheduler then
      let m := { m with activeNodes := insert sender m.activeNodes }
      if flags.numWorkers + flags.numServers ≤ m.activeNodes.card then
        some ({ m with inited := true }, m.sendComp .readyToRun)
      else some (m, [])
    else some ({ m with inited := true }, [])
  | .readyToExit =>
    if m.isScheduler then some ({ m with activeNodes := m.activeNodes.erase sender }, [])
    else none
  | .exit => some ({ m with done := true }, [])

/-- `Init` -/
def init (flags : Flags) (scheduler : N) (m : Manager N K) :
    Option (Manager N K × List (N × Control N K)) :=
  if m.isScheduler then addNode flags scheduler { m with phase := .running } m.myNode
  else some ({ m with phase := .running }, [(scheduler, .registerNode m.myNode)])

/-- `Stop`, up to where it waits. The thread is here when `Run` is over, which waited for `inited_`;
the scheduler waits for `active_nodes_`. -/
def stop (scheduler : N) (m : Manager N K) : Option (Manager N K × List (N × Control N K)) :=
  if m.phase = .running ∧ m.inited then
    if m.isScheduler then
      if m.activeNodes = ∅ then
        some ({ m with phase := .stopping, inExit := true }, m.sendComp .exit)
      else none
    else some ({ m with phase := .stopping }, [(scheduler, .readyToExit)])
  else none

/-- `NodeDisconnected` at the scheduler, which is in exit. -/
def nodeDisconnected (m : Manager N K) (node : N) : Option (Manager N K) :=
  if m.inExit ∧ node ∈ m.aliveNodes then
    some { m with aliveNodes := m.aliveNodes.erase node }
  else none

/-- The end of `Stop` at the scheduler: the others have exited. -/
def finish (m : Manager N K) : Option (Manager N K × List (N × Control N K)) :=
  if m.phase = .stopping ∧ m.isScheduler ∧ m.aliveNodes.card = 1 then
    some ({ m with phase := .stopped }, [(m.myNode.id, .exit)])
  else none

/-! ## What is kept -/

/-- What `AddNode` keeps. -/
structure Table (m : Manager N K) : Prop where
  sorted : m.nodes.Pairwise fun a b => a.id < b.id
  numWorkers : m.numWorkers = m.nodes.countP Node.isWorker
  numServers : m.numServers = m.nodes.countP Node.isServer
  serverGroup : m.serverGroup.Perm (m.nodes.filter Node.isServer)
  ordered : m.serverGroup.Pairwise fun a b => a.key.begin_ < b.key.begin_

/-- A node that can be added: its id is new, and so is the place of its range if it is a server. -/
structure Fresh (nodes : List (Node N K)) (node : Node N K) : Prop where
  id : ∀ n ∈ nodes, n.id ≠ node.id
  key : node.isServer → ∀ n ∈ nodes, n.isServer → n.key.begin_ ≠ node.key.begin_

variable {m : Manager N K} {nodes : List (Node N K)} {node : Node N K}

omit [LinearOrder K] in
theorem insertNode_perm (h : ∀ n ∈ nodes, n.id ≠ node.id) :
    (insertNode node nodes).Perm (node :: nodes) := by
  induction nodes with
  | nil => exact .refl _
  | cons n ns ih =>
    rw [insertNode, if_neg (Ne.symm (h n List.mem_cons_self))]
    split
    · exact .refl _
    · exact ((ih fun k hk => h k (List.mem_cons_of_mem _ hk)).cons n).trans (.swap node n ns)

omit [LinearOrder K] in
theorem insertNode_sorted (h : ∀ n ∈ nodes, n.id ≠ node.id)
    (hsorted : nodes.Pairwise fun a b => a.id < b.id) :
    (insertNode node nodes).Pairwise fun a b => a.id < b.id := by
  induction nodes with
  | nil => exact List.pairwise_singleton _ _
  | cons n ns ih =>
    obtain ⟨hn, hns⟩ := List.pairwise_cons.mp hsorted
    have hne := h n List.mem_cons_self
    have hrest : ∀ k ∈ ns, k.id ≠ node.id := fun k hk => h k (List.mem_cons_of_mem _ hk)
    rw [insertNode, if_neg hne.symm]
    split
    · next hlt =>
      refine List.pairwise_cons.mpr ⟨fun k hk => ?_, hsorted⟩
      rcases List.mem_cons.mp hk with rfl | hk
      · exact hlt
      · exact hlt.trans (hn k hk)
    · next hge =>
      refine List.pairwise_cons.mpr ⟨fun k hk => ?_, ih hrest hns⟩
      rcases List.mem_cons.mp ((insertNode_perm hrest).mem_iff.mp hk) with rfl | hk
      · exact lt_of_le_of_ne (not_lt.mp hge) hne
      · exact hn k hk

omit [LinearOrder K] in
/-- A node with the largest id comes last. -/
theorem insertNode_last (h : ∀ n ∈ nodes, n.id < node.id) :
    insertNode node nodes = nodes ++ [node] := by
  induction nodes with
  | nil => rfl
  | cons n ns ih =>
    have hlt := h n List.mem_cons_self
    rw [insertNode, if_neg (not_lt.mpr hlt.le), if_neg hlt.ne',
      ih fun k hk => h k (List.mem_cons_of_mem _ hk), List.cons_append]

theorem inLeft_iff {a b : Range K} : inLeft a b = true ↔ a.begin_ ≤ b.begin_ := by
  rw [inLeft, Bool.or_eq_true, Bool.and_eq_true]
  simp only [decide_eq_true_eq]
  exact ⟨fun h => h.elim id fun h => h.1.le, Or.inl⟩

omit [LinearOrder N] in
theorem addGroupNode_perm (node : Node N K) (group : List (Node N K)) :
    (addGroupNode node group).Perm (node :: group) := by
  induction group with
  | nil => exact .refl _
  | cons n ns ih =>
    rw [addGroupNode]
    split
    · exact .refl _
    · exact (ih.cons n).trans (.swap node n ns)

omit [LinearOrder N] in
/-- **`AddGroupNode`** keeps the group in the order of the ranges. -/
theorem addGroupNode_ordered {group : List (Node N K)}
    (hne : ∀ n ∈ group, n.key.begin_ ≠ node.key.begin_)
    (hordered : group.Pairwise fun a b => a.key.begin_ < b.key.begin_) :
    (addGroupNode node group).Pairwise fun a b => a.key.begin_ < b.key.begin_ := by
  induction group with
  | nil => exact List.pairwise_singleton _ _
  | cons n ns ih =>
    obtain ⟨hn, hns⟩ := List.pairwise_cons.mp hordered
    have hrest : ∀ k ∈ ns, k.key.begin_ ≠ node.key.begin_ :=
      fun k hk => hne k (List.mem_cons_of_mem _ hk)
    rw [addGroupNode]
    split
    · next hleft =>
      have hlt := lt_of_le_of_ne (inLeft_iff.mp hleft) (hne n List.mem_cons_self).symm
      refine List.pairwise_cons.mpr ⟨fun k hk => ?_, hordered⟩
      rcases List.mem_cons.mp hk with rfl | hk
      · exact hlt
      · exact hlt.trans (hn k hk)
    · next hright =>
      refine List.pairwise_cons.mpr ⟨fun k hk => ?_, ih hrest hns⟩
      rcases List.mem_cons.mp ((addGroupNode_perm node ns).mem_iff.mp hk) with rfl | hk
      · exact not_le.mp (mt inLeft_iff.mpr hright)
      · exact hn k hk

omit [LinearOrder K] in
theorem not_known (h : ∀ n ∈ m.nodes, n.id ≠ node.id) :
    (m.nodes.any fun n => decide (n.id = node.id)) = false := by
  simpa using h

/-- **`AddNode`** keeps the tables. -/
theorem Table.join (ht : m.Table) (hfresh : Fresh m.nodes node) : (m.join node).Table := by
  have hperm := insertNode_perm hfresh.id
  have hgroup : m.serverGroup.filter (fun n => decide (n.id ≠ node.id)) = m.serverGroup := by
    refine List.filter_eq_self.mpr fun n hn => ?_
    have hmem := (List.mem_filter.mp (ht.serverGroup.mem_iff.mp hn)).1
    simpa using hfresh.id n hmem
  unfold Manager.join
  rw [not_known hfresh.id]
  refine ⟨insertNode_sorted hfresh.id ht.sorted, ?_, ?_, ?_, ?_⟩
  · simp only [Bool.not_false, Bool.true_and, hperm.countP_eq, List.countP_cons, ht.numWorkers]
    split <;> simp
  · simp only [Bool.not_false, Bool.true_and, hperm.countP_eq, List.countP_cons, ht.numServers]
    split <;> simp
  · show (addServer node m.serverGroup).Perm ((insertNode node m.nodes).filter Node.isServer)
    refine List.Perm.trans ?_ (hperm.filter Node.isServer).symm
    rw [addServer, hgroup]
    by_cases hserver : node.isServer = true
    · rw [if_pos hserver, List.filter_cons_of_pos hserver]
      exact (addGroupNode_perm node _).trans (ht.serverGroup.cons node)
    · rw [if_neg hserver, List.filter_cons_of_neg hserver]
      exact ht.serverGroup
  · show (addServer node m.serverGroup).Pairwise _
    rw [addServer, hgroup]
    split
    · next hserver =>
      refine addGroupNode_ordered (fun n hn => ?_) ht.ordered
      obtain ⟨hmem, hkind⟩ := List.mem_filter.mp (ht.serverGroup.mem_iff.mp hn)
      exact hfresh.key hserver n hmem hkind
    · exact ht.ordered

/-- Two managers with the same tables. -/
structure SameTable (m m' : Manager N K) : Prop where
  nodes : m'.nodes = m.nodes
  numWorkers : m'.numWorkers = m.numWorkers
  numServers : m'.numServers = m.numServers
  serverGroup : m'.serverGroup = m.serverGroup
  myNode : m'.myNode = m.myNode
  nodeAssigner : m'.nodeAssigner = m.nodeAssigner

theorem Table.congr {m' : Manager N K} (ht : m.Table) (h : m.SameTable m') : m'.Table := by
  obtain ⟨hsorted, hworkers, hservers, hgroup, hordered⟩ := ht
  refine ⟨?_, ?_, ?_, ?_, ?_⟩
  · rwa [h.nodes]
  · rwa [h.nodes, h.numWorkers]
  · rwa [h.nodes, h.numServers]
  · rwa [h.nodes, h.serverGroup]
  · rwa [h.serverGroup]

/-- What `AddNode` does not change. -/
structure Same (m m' : Manager N K) : Prop where
  id : m'.myNode.id = m.myNode.id
  role : m'.myNode.role = m.myNode.role
  activeNodes : m'.activeNodes = m.activeNodes
  inited : m'.inited = m.inited
  inExit : m'.inExit = m.inExit
  done : m'.done = m.done
  nodeAssigner : m'.nodeAssigner = m.nodeAssigner
  phase : m'.phase = m.phase

omit [LinearOrder N] [LinearOrder K] in
theorem Same.isScheduler {m' : Manager N K} (h : m.Same m') : m'.isScheduler = m.isScheduler := by
  rw [Manager.isScheduler, h.role, Manager.isScheduler]

omit [LinearOrder N] [LinearOrder K] in
theorem Same.trans {m' m'' : Manager N K} (h : m.Same m') (h' : m'.Same m'') : m.Same m'' :=
  ⟨h'.id.trans h.id, h'.role.trans h.role, h'.activeNodes.trans h.activeNodes,
    h'.inited.trans h.inited, h'.inExit.trans h.inExit, h'.done.trans h.done,
    h'.nodeAssigner.trans h.nodeAssigner, h'.phase.trans h.phase⟩

theorem join_same (m : Manager N K) (node : Node N K)
    (hrole : node.id = m.myNode.id → node.role = m.myNode.role) :
    m.Same (m.join node) := by
  unfold join
  refine ⟨?_, ?_, rfl, rfl, rfl, rfl, rfl, rfl⟩
  · show (if _ then node else m.myNode).id = m.myNode.id
    split
    · next h =>
      rw [Bool.and_eq_true, decide_eq_true_eq] at h
      exact h.2
    · rfl
  · show (if _ then node else m.myNode).role = m.myNode.role
    split
    · next h =>
      rw [Bool.and_eq_true, decide_eq_true_eq] at h
      exact hrole h.2
    · rfl

theorem addNode_eq (flags : Flags) (scheduler : N) (m : Manager N K) (node : Node N K)
    (hinited : m.inited = false)
    (hrole : node.id = m.myNode.id → node.role = m.myNode.role) :
    addNode flags scheduler m node = some (m.join node,
      if (m.join node).Full flags then
        if m.isScheduler then (m.join node).sendComp (.addNode (m.join node).nodes)
        else [(scheduler, .readyToRun)]
      else []) := by
  have hsame := join_same m node hrole
  unfold addNode
  simp only [hsame.inited, hinited, hsame.isScheduler, Bool.false_eq_true, if_false]
  split
  · split <;> rfl
  · rfl

/-- Nodes in the order in which a manager has them. -/
structure Listed (nodes : List (Node N K)) : Prop where
  sorted : nodes.Pairwise fun a b => a.id < b.id
  key : nodes.Pairwise fun a b => a.isServer → b.isServer → a.key.begin_ ≠ b.key.begin_

/-- What a manager has is listed. -/
theorem Table.listed (ht : m.Table) : Listed m.nodes := by
  refine ⟨ht.sorted, ?_⟩
  have hne : (m.nodes.filter Node.isServer).Pairwise fun a b => a.key.begin_ ≠ b.key.begin_ :=
    (ht.serverGroup.pairwise_iff fun h => h.symm).mp (ht.ordered.imp fun h => h.ne)
  exact List.pairwise_filter.mp hne

/-- **`ADD_NODE`** tells a node everything, and it is ready to run when these are all. -/
theorem addNodes_spec (flags : Flags) (scheduler : N) (ht : m.Table) (hnodes : m.nodes = [])
    (hinited : m.inited = false) (hscheduler : m.isScheduler = false) (hlisted : Listed nodes)
    (hrole : ∀ n ∈ nodes, n.id = m.myNode.id → n.role = m.myNode.role) :
    ∃ m' k, addNodes flags scheduler m nodes =
        some (m', List.replicate k (scheduler, .readyToRun)) ∧
      m'.nodes = nodes ∧ m'.Table ∧ m.Same m' ∧ k ≤ nodes.length ∧
      (m'.Full flags → nodes ≠ [] → 0 < k) ∧
      (∀ n ∈ nodes, n.id = m.myNode.id → m'.myNode = n) := by
  induction nodes using List.reverseRecOn with
  | nil =>
    exact ⟨m, 0, rfl, hnodes, ht, ⟨rfl, rfl, rfl, rfl, rfl, rfl, rfl, rfl⟩, le_rfl,
      fun _ h => absurd rfl h, by simp⟩
  | append_singleton nodes node ih =>
    obtain ⟨hsorted, -, hlast⟩ := List.pairwise_append.mp hlisted.sorted
    obtain ⟨hkeys, -, hkey⟩ := List.pairwise_append.mp hlisted.key
    obtain ⟨m', k, hrun, hnodes', ht', hsame, hk, -, hmine⟩ :=
      ih ⟨hsorted, hkeys⟩ fun n hn => hrole n (List.mem_append_left _ hn)
    have hlt : ∀ n ∈ m'.nodes, n.id < node.id := by
      rw [hnodes']
      exact fun n hn => hlast n hn node (List.mem_singleton.mpr rfl)
    have hfresh : Fresh m'.nodes node := by
      refine ⟨fun n hn => (hlt n hn).ne, fun hserver n hn hkind => ?_⟩
      rw [hnodes'] at hn
      exact hkey n hn node (List.mem_singleton.mpr rfl) hkind hserver
    have hrole' : node.id = m'.myNode.id → node.role = m'.myNode.role := by
      rw [hsame.id, hsame.role]
      exact hrole node (List.mem_append_right _ (List.mem_singleton.mpr rfl))
    have hjoin := join_same m' node hrole'
    have hadd := addNode_eq flags scheduler m' node (hsame.inited.trans hinited) hrole'
    rw [hsame.isScheduler, hscheduler] at hadd
    refine ⟨m'.join node, k + if (m'.join node).Full flags then 1 else 0, ?_, ?_, ht'.join hfresh,
      hsame.trans hjoin, ?_, fun hfull _ => by rw [if_pos hfull]; omega, ?_⟩
    · rw [addNodes] at hrun ⊢
      rw [List.foldlM_append, hrun]
      simp only [Option.bind_eq_bind, Option.bind_some, List.foldlM_cons, List.foldlM_nil, hadd,
        Option.map_some, Bool.false_eq_true, if_false, Option.pure_def]
      split
      · rw [List.replicate_succ']
      · simp
    · show insertNode node m'.nodes = _
      rw [insertNode_last hlt, hnodes']
    · rw [List.length_append, List.length_singleton]
      split <;> omega
    · intro n hn hid
      have hmy : (m'.join node).myNode = if node.id = m'.myNode.id then node else m'.myNode := by
        show (if _ then node else m'.myNode) = _
        rw [not_known hfresh.id]
        simp
      rw [hmy, hsame.id]
      rcases List.mem_append.mp hn with hn | hn
      · rw [← hnodes'] at hn
        rw [if_neg fun h => (hlt n hn).ne (hid.trans h.symm)]
        rw [hnodes'] at hn
        exact hmine n hn hid
      · rw [List.mem_singleton.mp hn] at hid ⊢
        rw [if_pos hid]

end Manager

end Difacto.System
