import Difacto.System.OrderedMatch
import Mathlib.Algebra.Order.BigOperators.Group.List
import Mathlib.Algebra.Order.Ring.Nat
import Mathlib.Data.List.Sort

/-!
# Pulling values

`KVPair` and the dynamic length branch of `KVCache::ProcessResponse` of
`ps-lite/src/kv/kv_cache.h`: the responses of the servers to one pull are collected, and put
together when all keys are matched. A failed `CHECK` is `none`.

## Main definitions

* `ServerGroup` — the key ranges of the servers, with the slice of each.
* `KVPair`, `KVPair.processResponse`, `KVPair.callback` — a pull that is under way.
* `KVPair.gathered` — what the responses of some servers make of a pull.

## Main results

* `ServerGroup.flatMap_slice` — the slices are the keys.
* `KVPair.processResponse_gathered` — one more response.
* `KVPair.callback_gathered` — what the callback sees.
-/

namespace Difacto.System

/-! ## The servers -/

/-- The key ranges of the servers, in the order of the server group. -/
structure ServerGroup where
  krs : List (Range UInt64)
  chain : krs.IsChain fun a b => a.end_ = b.begin_
  le : ∀ kr ∈ krs, kr.begin_ ≤ kr.end_

namespace ServerGroup

/-- The keys that server `j` gets. -/
def slice (g : ServerGroup) (keys : List UInt64) (j : ℕ) : List UInt64 :=
  (g.krs[j]?).elim [] fun kr => between keys kr.begin_ kr.end_

/-- The server that has a key. -/
def serverOf (g : ServerGroup) (k : UInt64) : ℕ := g.krs.findIdx fun kr => decide (kr.contains k)

/-- The servers that have at least one of the keys. -/
def holders (g : ServerGroup) (keys : List UInt64) : List ℕ :=
  (List.range g.krs.length).filter fun j => !(g.slice keys j).isEmpty

/-- Every key is in the range of a server. -/
def Covered (g : ServerGroup) (keys : List UInt64) : Prop :=
  ∀ k ∈ keys, ∃ kr ∈ g.krs, kr.contains k

variable {g : ServerGroup} {keys : List UInt64}

theorem mem_slice {j : ℕ} {k : UInt64} :
    k ∈ g.slice keys j ↔ k ∈ keys ∧ ∃ kr, g.krs[j]? = some kr ∧ kr.contains k := by
  rw [slice]
  cases g.krs[j]? with
  | none => simp
  | some kr =>
      rw [Option.elim_some, mem_between]
      simp [Range.contains]

theorem sublist_slice (j : ℕ) : (g.slice keys j).Sublist keys := by
  rw [slice]
  cases g.krs[j]? with
  | none => exact List.nil_sublist keys
  | some kr => exact List.filter_sublist

theorem mem_holders {j : ℕ} : j ∈ g.holders keys ↔ g.slice keys j ≠ [] := by
  rw [holders, List.mem_filter, List.mem_range, Bool.not_eq_true', List.isEmpty_eq_false_iff]
  refine and_iff_right_of_imp fun hne => ?_
  obtain ⟨k, hk⟩ := List.exists_mem_of_ne_nil _ hne
  obtain ⟨-, kr, hkr, -⟩ := mem_slice.mp hk
  exact (List.getElem?_eq_some_iff.mp hkr).1

theorem nodup_holders : (g.holders keys).Nodup := List.nodup_range.filter _

/-- The slices of two servers lie one after the other. -/
theorem lt_of_mem_slice {i j : ℕ} {x y : UInt64} (hij : i < j) (hx : x ∈ g.slice keys i)
    (hy : y ∈ g.slice keys j) : x < y := by
  obtain ⟨-, kr, hkr, -, hlt⟩ := mem_slice.mp hx
  obtain ⟨-, kr', hkr', hle, -⟩ := mem_slice.mp hy
  obtain ⟨hi, rfl⟩ := List.getElem?_eq_some_iff.mp hkr
  obtain ⟨hj, rfl⟩ := List.getElem?_eq_some_iff.mp hkr'
  have hsep := List.pairwise_iff_getElem.mp (pairwise_of_chain g.chain g.le) i j hi hj hij
  exact hlt.trans_le (hsep.trans hle)

/-- **The slices are the keys**, one after the other. -/
theorem flatMap_slice (hsorted : keys.Pairwise (· < ·)) (hcover : g.Covered keys) :
    (List.range g.krs.length).flatMap (g.slice keys) = keys := by
  have hpair : ((List.range g.krs.length).flatMap (g.slice keys)).Pairwise (· < ·) := by
    rw [List.pairwise_flatMap]
    refine ⟨fun j _ => hsorted.sublist (sublist_slice j), ?_⟩
    exact List.pairwise_lt_range.imp fun hij x hx y hy => lt_of_mem_slice hij hx hy
  have hperm : ((List.range g.krs.length).flatMap (g.slice keys)).Perm keys := by
    rw [List.perm_ext_iff_of_nodup (hpair.imp ne_of_lt) (hsorted.imp ne_of_lt)]
    intro k
    rw [List.mem_flatMap]
    constructor
    · rintro ⟨j, -, hk⟩
      exact (mem_slice.mp hk).1
    · intro hk
      obtain ⟨kr, hkr, hcontains⟩ := hcover k hk
      obtain ⟨j, hj⟩ := List.mem_iff_getElem?.mp hkr
      refine ⟨j, List.mem_range.mpr (List.getElem?_eq_some_iff.mp hj).1, ?_⟩
      exact mem_slice.mpr ⟨hk, kr, hj, hcontains⟩
  apply hperm.eq_of_pairwise _ hpair hsorted
  intro a b _ _ hab hba
  exact absurd (hab.trans hba) (lt_irrefl a)

/-- Servers without keys can be left out. -/
theorem flatMap_holders (hsorted : keys.Pairwise (· < ·)) (hcover : g.Covered keys) :
    (g.holders keys).flatMap (g.slice keys) = keys := by
  have hskip : ∀ js : List ℕ, (js.filter fun j => !(g.slice keys j).isEmpty).flatMap
      (g.slice keys) = js.flatMap (g.slice keys) := by
    intro js
    induction js with
    | nil => rfl
    | cons j js ih =>
        rw [List.filter_cons, List.flatMap_cons, ← ih]
        split
        · rw [List.flatMap_cons]
        · rename_i hempty
          rw [Bool.not_eq_true', Bool.not_eq_false, List.isEmpty_iff] at hempty
          rw [hempty, List.nil_append]
  rw [holders, hskip, flatMap_slice hsorted hcover]

/-- The server of a key has it in its slice, and no other server has. -/
theorem mem_slice_iff (hcover : g.Covered keys) {k : UInt64} (hk : k ∈ keys) {j : ℕ} :
    k ∈ g.slice keys j ↔ g.serverOf k = j := by
  obtain ⟨kr, hkr, hcontains⟩ := hcover k hk
  have hlt : g.serverOf k < g.krs.length :=
    List.findIdx_lt_length_of_exists ⟨kr, hkr, decide_eq_true hcontains⟩
  have hown : k ∈ g.slice keys (g.serverOf k) := by
    have hfound := List.findIdx_getElem (w := hlt)
    exact mem_slice.mpr ⟨hk, _, List.getElem?_eq_getElem hlt, of_decide_eq_true hfound⟩
  constructor
  · intro hj
    rcases lt_trichotomy (g.serverOf k) j with hlt | heq | hgt
    · exact absurd (lt_of_mem_slice hlt hown hj) (lt_irrefl k)
    · exact heq
    · exact absurd (lt_of_mem_slice hgt hj hown) (lt_irrefl k)
  · rintro rfl
    exact hown

end ServerGroup

/-! ## A pull -/

/-- What a server answers to a pull, as `HandlePull` makes it: the keys that were asked for,
their values one after the other, and the lengths of these. -/
structure PullReply (V : Type) where
  key : List UInt64
  val : List V
  size : List ℕ

/-- The answer of a server that has these values. -/
def PullReply.of {V : Type} (keys : List UInt64) (value : UInt64 → List V) : PullReply V where
  key := keys
  val := keys.flatMap value
  size := keys.map fun k => (value k).length

/-- A pull that is under way. -/
structure KVPair (V : Type) where
  key : List UInt64 := []
  /-- `val_vec` -/
  valVec : List V := []
  /-- `val_size`, `none` being `NULL` -/
  valSize : Option (List ℕ) := none
  /-- the first keys and the values of the responses -/
  recv : List (UInt64 × List V) := []
  /-- `matched_num` -/
  matchedNum : ℕ := 0

namespace KVPair

variable {V : Type}

/-- What `Pull` and `Pull_` store: the lengths are allocated. -/
def new (keys : List UInt64) : KVPair V :=
  { key := keys, valSize := some (List.replicate keys.length 0) }

/-- Match the keys of a response. -/
def receive (kv : KVPair V) (msg : PullReply V) : Option (KVPair V) :=
  match msg.key with
  | [] => some kv
  | k :: _ => do
    let valSize ← kv.valSize
    let (valSize, n) ← parallelOrderedMatch msg.key msg.size kv.key valSize
    if n = msg.size.length then
      return { kv with
        valSize := some valSize
        matchedNum := kv.matchedNum + n
        recv := kv.recv ++ [(k, msg.val)] }
    else none

/-- `ProcessResponse` for a pull with dynamic value length. -/
def processResponse (kv : KVPair V) (msg : PullReply V) : Option (KVPair V) := do
  let kv ← kv.receive msg
  if kv.matchedNum ≠ kv.key.length then return kv
  else
    return { kv with
      valVec := (kv.recv.insertionSort fun a b => a.1 ≤ b.1).flatMap Prod.snd
      recv := [] }

/-- The callback of `Pull_`, with its checks: the lengths and the values that the user's
callback sees. -/
def callback (kv : KVPair V) : Option (List ℕ × List V) := do
  let valSize ← kv.valSize
  if kv.valVec.length = (valSize.take kv.key.length).sum then return (valSize, kv.valVec)
  else none

/-! ## The responses of some servers -/

variable (g : ServerGroup) (keys : List UInt64) (value : ℕ → UInt64 → List V)

/-- The value that the server of a key has. -/
def returned (k : UInt64) : List V := value (g.serverOf k) k

/-- The number of keys that the servers `os` have. -/
def matchedBy (os : List ℕ) : ℕ := (os.map fun j => (g.slice keys j).length).sum

/-- What is stored for the response of server `j`. -/
def received (j : ℕ) : UInt64 × List V :=
  ((g.slice keys j).headD 0, (g.slice keys j).flatMap (value j))

/-- **What the responses of the servers `os`**, in this order, make of a pull. -/
def gathered (os : List ℕ) : KVPair V where
  key := keys
  valVec := if matchedBy g keys os = keys.length then keys.flatMap (returned g value) else []
  valSize := some (keys.map fun k =>
    if g.serverOf k ∈ os then (returned g value k).length else 0)
  recv := if matchedBy g keys os = keys.length then [] else os.map (received g keys value)
  matchedNum := matchedBy g keys os

/-- Different servers, each with at least one key. -/
structure Answered (os : List ℕ) : Prop where
  nodup : os.Nodup
  holder : ∀ j ∈ os, j ∈ g.holders keys

variable {g keys value} {os : List ℕ}

theorem matchedBy_holders (hsorted : keys.Pairwise (· < ·)) (hcover : g.Covered keys) :
    matchedBy g keys (g.holders keys) = keys.length := by
  have hlen := congrArg List.length (ServerGroup.flatMap_holders hsorted hcover)
  rw [List.length_flatMap] at hlen
  exact hlen

theorem Answered.perm (hos : Answered g keys os) (hall : ∀ j ∈ g.holders keys, j ∈ os) :
    os.Perm (g.holders keys) := by
  rw [List.perm_ext_iff_of_nodup hos.nodup ServerGroup.nodup_holders]
  exact fun j => ⟨hos.holder j, hall j⟩

/-- All keys are matched if and only if all servers with a key have answered. -/
theorem matchedBy_eq_iff (hsorted : keys.Pairwise (· < ·)) (hcover : g.Covered keys)
    (hos : Answered g keys os) :
    matchedBy g keys os = keys.length ↔ ∀ j ∈ g.holders keys, j ∈ os := by
  rw [← matchedBy_holders hsorted hcover]
  constructor
  · intro heq j hj
    by_contra hnot
    have hsub := (hos.nodup.cons hnot).subperm (List.cons_subset.mpr ⟨hj, hos.holder⟩)
    obtain ⟨os', hperm, hsublist⟩ := hsub
    have hle := (hsublist.map fun j => (g.slice keys j).length).sum_le_sum (by simp)
    have hsum := (hperm.map fun j => (g.slice keys j).length).sum_eq
    have hpos : 0 < (g.slice keys j).length :=
      List.length_pos_iff.mpr (ServerGroup.mem_holders.mp hj)
    rw [hsum, List.map_cons, List.sum_cons] at hle
    rw [matchedBy, matchedBy] at heq
    omega
  · intro hall
    exact ((hos.perm hall).map _).sum_eq

theorem Answered.append (hos : Answered g keys os) {j : ℕ} (hj : j ∈ g.holders keys)
    (hnew : j ∉ os) : Answered g keys (os ++ [j]) := by
  refine ⟨List.nodup_append_comm.mp (hos.nodup.cons hnew), fun i hi => ?_⟩
  rcases List.mem_append.mp hi with hi | hi
  · exact hos.holder i hi
  · obtain rfl := List.mem_singleton.mp hi
    exact hj

theorem fst_received_mem {j : ℕ} (hj : j ∈ g.holders keys) :
    (received g keys value j).1 ∈ g.slice keys j := by
  rw [received]
  cases hslice : g.slice keys j with
  | nil => exact absurd hslice (ServerGroup.mem_holders.mp hj)
  | cons k ks => exact List.mem_cons_self

theorem fst_received_lt {i j : ℕ} (hi : i ∈ g.holders keys) (hj : j ∈ g.holders keys)
    (hij : i < j) : (received g keys value i).1 < (received g keys value j).1 :=
  ServerGroup.lt_of_mem_slice hij (fst_received_mem hi) (fst_received_mem hj)

/-- Sorted by their first keys, the responses of all servers are in the order of the servers. -/
theorem insertionSort_received (hos : Answered g keys os) (hall : ∀ j ∈ g.holders keys, j ∈ os) :
    (os.map (received g keys value)).insertionSort (fun a b => a.1 ≤ b.1) =
      (g.holders keys).map (received g keys value) := by
  have : Std.Total fun a b : UInt64 × List V => a.1 ≤ b.1 := ⟨fun a b => le_total a.1 b.1⟩
  have : IsTrans (UInt64 × List V) fun a b => a.1 ≤ b.1 := ⟨fun _ _ _ => le_trans⟩
  have hperm := (List.perm_insertionSort (fun a b : UInt64 × List V => a.1 ≤ b.1)
    (os.map (received g keys value))).trans ((hos.perm hall).map _)
  apply hperm.eq_of_pairwise _ (List.pairwise_insertionSort _ _)
  · rw [List.pairwise_map]
    have hlt : (g.holders keys).Pairwise (· < ·) := List.pairwise_lt_range.filter _
    exact hlt.imp_of_mem fun hi hj hij => (fst_received_lt hi hj hij).le
  · intro a b ha hb hab hba
    obtain ⟨i, hi, rfl⟩ := List.mem_map.mp (hperm.subset ha)
    obtain ⟨j, hj, rfl⟩ := List.mem_map.mp hb
    rcases lt_trichotomy i j with hij | rfl | hij
    · exact absurd hba (not_le.mpr (fst_received_lt hi hj hij))
    · rfl
    · exact absurd hab (not_le.mpr (fst_received_lt hj hi hij))

/-- The values of all servers, in the order of the keys. -/
theorem flatMap_received (hsorted : keys.Pairwise (· < ·)) (hcover : g.Covered keys) :
    ((g.holders keys).map (received g keys value)).flatMap Prod.snd =
      keys.flatMap (returned g value) := by
  have hsplit : keys.flatMap (returned g value) =
      (g.holders keys).flatMap fun j => (g.slice keys j).flatMap (returned g value) := by
    rw [← List.flatMap_assoc, ServerGroup.flatMap_holders hsorted hcover]
  rw [hsplit, List.flatMap_map]
  apply List.flatMap_congr
  intro j _
  apply List.flatMap_congr
  intro k hk
  rw [returned, (ServerGroup.mem_slice_iff hcover (ServerGroup.mem_slice.mp hk).1).mp hk]

/-- The server of a key has a key. -/
theorem serverOf_mem_holders (hcover : g.Covered keys) {k : UInt64} (hk : k ∈ keys) :
    g.serverOf k ∈ g.holders keys := by
  rw [ServerGroup.mem_holders]
  exact List.ne_nil_of_mem ((ServerGroup.mem_slice_iff hcover hk).mpr rfl)

/-- Only the values of the servers that have answered are there. -/
theorem gathered_congr {value' : ℕ → UInt64 → List V} (hsorted : keys.Pairwise (· < ·))
    (hcover : g.Covered keys) (hos : Answered g keys os)
    (h : ∀ j ∈ os, value j = value' j) : gathered g keys value os = gathered g keys value' os := by
  have hsize : (keys.map fun k => if g.serverOf k ∈ os then (returned g value k).length else 0) =
      keys.map fun k => if g.serverOf k ∈ os then (returned g value' k).length else 0 := by
    apply List.map_congr_left
    intro k _
    by_cases hk : g.serverOf k ∈ os
    · rw [if_pos hk, if_pos hk, returned, returned, h _ hk]
    · rw [if_neg hk, if_neg hk]
  have hrecv : os.map (received g keys value) = os.map (received g keys value') := by
    apply List.map_congr_left
    intro j hj
    rw [received, received, h j hj]
  rw [gathered, gathered, hsize, hrecv]
  by_cases hdone : matchedBy g keys os = keys.length
  · have hall := (matchedBy_eq_iff hsorted hcover hos).mp hdone
    have hvals : keys.flatMap (returned g value) = keys.flatMap (returned g value') := by
      apply List.flatMap_congr
      intro k hk
      rw [returned, returned, h _ (hall _ (serverOf_mem_holders hcover hk))]
    rw [hvals]
  · rw [if_neg hdone, if_neg hdone, if_neg hdone]

/-- The pull that was just sent. -/
theorem gathered_nil (hne : keys ≠ []) : gathered g keys value [] = new keys := by
  have hpos : matchedBy g keys [] ≠ keys.length := by
    rw [matchedBy, List.map_nil, List.sum_nil]
    exact (List.length_pos_iff.mpr hne).ne
  rw [gathered, if_neg hpos, if_neg hpos, new]
  simp [matchedBy]

theorem matchedBy_append (j : ℕ) :
    matchedBy g keys (os ++ [j]) = matchedBy g keys os + (g.slice keys j).length := by
  rw [matchedBy, List.map_append, List.sum_append, List.map_singleton, List.sum_singleton]
  rfl

/-- A server that has not answered has keys that are not matched. -/
theorem matchedBy_ne (hsorted : keys.Pairwise (· < ·)) (hcover : g.Covered keys)
    (hos : Answered g keys os) {j : ℕ} (hj : j ∈ g.holders keys) (hnew : j ∉ os) :
    matchedBy g keys os ≠ keys.length :=
  fun heq => hnew ((matchedBy_eq_iff hsorted hcover hos).mp heq j hj)

/-- The keys of a response are matched. -/
theorem receive_gathered (hsorted : keys.Pairwise (· < ·)) (hcover : g.Covered keys) {j : ℕ}
    (hj : j ∈ g.holders keys) (hpending : matchedBy g keys os ≠ keys.length) :
    (gathered g keys value os).receive (.of (g.slice keys j) (value j)) =
      some { gathered g keys value (os ++ [j]) with
        valVec := []
        recv := (os ++ [j]).map (received g keys value) } := by
  have hne : g.slice keys j ≠ [] := ServerGroup.mem_holders.mp hj
  obtain ⟨a, b, hbetween⟩ : ∃ a b, g.slice keys j = between keys a b := by
    rw [ServerGroup.slice] at hne ⊢
    cases hkr : g.krs[j]? with
    | none => rw [hkr] at hne; exact absurd rfl hne
    | some kr => exact ⟨kr.begin_, kr.end_, rfl⟩
  have hsizes : (keys.map fun k => if k ∈ g.slice keys j then (value j k).length else
      if g.serverOf k ∈ os then (returned g value k).length else 0) =
      keys.map fun k => if g.serverOf k ∈ os ++ [j] then (returned g value k).length else 0 := by
    apply List.map_congr_left
    intro k hk
    by_cases hkj : g.serverOf k = j
    · rw [if_pos ((ServerGroup.mem_slice_iff hcover hk).mpr hkj), returned, hkj]
      simp
    · rw [if_neg (fun h => hkj ((ServerGroup.mem_slice_iff hcover hk).mp h))]
      simp [hkj]
  have hmatch := parallelOrderedMatch_eq hsorted hbetween hne (fun k => (value j k).length)
    (fun k => if g.serverOf k ∈ os then (returned g value k).length else 0)
  rw [hsizes] at hmatch
  cases hslice : g.slice keys j with
  | nil => exact absurd hslice hne
  | cons k ks =>
      have hhead : received g keys value j = (k, (k :: ks).flatMap (value j)) := by
        rw [received, hslice, List.headD_cons]
      rw [hslice] at hmatch
      simp only [receive, PullReply.of, gathered, if_neg hpending, hmatch, Option.bind_eq_bind,
        Option.bind_some, List.length_map, if_true, matchedBy_append, hslice, List.map_append,
        List.map_singleton, hhead]
      rfl

/-- **One more response.** -/
theorem processResponse_gathered (hsorted : keys.Pairwise (· < ·)) (hcover : g.Covered keys)
    (hos : Answered g keys os) {j : ℕ} (hj : j ∈ g.holders keys) (hnew : j ∉ os) :
    (gathered g keys value os).processResponse (.of (g.slice keys j) (value j)) =
      some (gathered g keys value (os ++ [j])) := by
  have hpending := matchedBy_ne hsorted hcover hos hj hnew
  have hos' : Answered g keys (os ++ [j]) := hos.append hj hnew
  rw [processResponse, receive_gathered hsorted hcover hj hpending, Option.bind_eq_bind,
    Option.bind_some]
  by_cases hdone : matchedBy g keys (os ++ [j]) = keys.length
  · have hall := (matchedBy_eq_iff hsorted hcover hos').mp hdone
    have hsort := @insertionSort_received V g keys value _ hos' hall
    simp only [gathered, hdone, if_true, ne_eq, not_true_eq_false, if_false, hsort,
      flatMap_received hsorted hcover]
    rfl
  · simp only [gathered, hdone, if_false, ne_eq, not_false_eq_true, if_true]
    rfl

/-- **The callback** sees the lengths and the values of all keys. -/
theorem callback_gathered (hsorted : keys.Pairwise (· < ·)) (hcover : g.Covered keys)
    (hos : Answered g keys os) (hall : ∀ j ∈ g.holders keys, j ∈ os) :
    (gathered g keys value os).callback =
      some (keys.map fun k => (returned g value k).length, keys.flatMap (returned g value)) := by
  have hsize : (keys.map fun k => if g.serverOf k ∈ os then (returned g value k).length else 0) =
      keys.map fun k => (returned g value k).length := by
    apply List.map_congr_left
    intro k hk
    exact if_pos (hall _ (serverOf_mem_holders hcover hk))
  have hmatched := (matchedBy_eq_iff hsorted hcover hos).mpr hall
  rw [callback, gathered, if_pos hmatched, hsize]
  simp [List.length_flatMap, List.take_of_length_le]

end KVPair

end Difacto.System
