import Difacto.Linear.Store

/-!
# Resuming the linear program

A checkpoint of a server of the linear program has the entries whose weight is not 0 and
nothing of the handle. A new server that loads it goes on as the original would without the
other entries and with its handle started anew.

## Main definitions

* `AsgdServer.forget` — what a checkpoint keeps of a server.
* `AsgdServer.Sim` — servers that no request can tell apart.

## Main results

* `AsgdServer.Sim.answer_eq` — similar servers answer alike.
* `AsgdServer.resume_restarts` — resuming.
-/

namespace Difacto.Linear

open Base Lib

namespace AsgdServer

section Simulation

variable {F : Type} [FloatLike F] {A : Algorithm F} {h : ISGDHandle F} {s t s' : AsgdServer A}

theorem entry_put (k k' : UInt64) (e : A.Entry) :
    (s.put k e).entry k' = if k' = k then e else s.entry k' := by
  split
  · rename_i hk
    subst hk
    simp [entry, put]
  · rename_i hk
    simp [entry, put, Finmap.lookup_insert_of_ne _ hk]

/-- The same handle and the same entries; the counters may differ. -/
structure Sim (s t : AsgdServer A) : Prop where
  state : s.state = t.state
  entry : ∀ k, s.entry k = t.entry k

theorem Sim.symm (hst : Sim s t) : Sim t s := ⟨hst.state.symm, fun k => (hst.entry k).symm⟩

theorem Sim.put (hst : Sim s t) (k : UInt64) (e : A.Entry) : Sim (s.put k e) (t.put k e) := by
  refine ⟨hst.state, fun k' => ?_⟩
  rw [entry_put, entry_put, hst.entry]

theorem Sim.start (hst : Sim s t) (push : Bool) :
    Sim { s with state := A.start h push s.state } { t with state := A.start h push t.state } :=
  ⟨by rw [hst.state], hst.entry⟩

theorem state_finish : (s.finish h).state = s.state := by
  rw [finish]
  split <;> rfl

theorem entry_finish (k : UInt64) : (s.finish h).entry k = s.entry k := by
  rw [finish]
  split <;> rfl

theorem Sim.finish (hst : Sim s t) : Sim (s.finish h) (t.finish h) := by
  refine ⟨?_, fun k => ?_⟩
  · rw [state_finish, state_finish, hst.state]
  · rw [entry_finish, entry_finish, hst.entry]

theorem Sim.pushKey (hst : Sim s t) {kb : UInt64 × List F} (hrun : pushKey h s kb = some s') :
    ∃ t', pushKey h t kb = some t' ∧ Sim s' t' := by
  simp only [AsgdServer.pushKey, Option.bind_eq_bind, Option.bind_eq_some_iff, Option.pure_def,
    Option.some.injEq] at hrun
  obtain ⟨⟨e, m⟩, hpush, rfl⟩ := hrun
  have hentry := A.push_entry h s.state kb.2 (s.entry kb.1) s.newW t.newW
  rw [hpush, hst.state, hst.entry, Option.map_some, eq_comm, Option.map_eq_some_iff] at hentry
  obtain ⟨⟨e', n⟩, hpush', rfl⟩ := hentry
  refine ⟨{ t.put kb.1 e' with newW := n }, ?_, hst.state, (hst.put kb.1 e').entry⟩
  simp [AsgdServer.pushKey, hpush']

theorem Sim.pullKeys (keys : List UInt64) : ∀ {s t : AsgdServer A} (vals : List F), Sim s t →
    Sim (keys.foldl pullKey (s, vals)).1 (keys.foldl pullKey (t, vals)).1 ∧
      (keys.foldl pullKey (s, vals)).2 = (keys.foldl pullKey (t, vals)).2 := by
  induction keys with
  | nil => exact fun _ hst => ⟨hst, rfl⟩
  | cons key keys ih =>
      intro s t vals hst
      rw [List.foldl_cons, List.foldl_cons, pullKey, pullKey, hst.entry key]
      exact ih _ (hst.put key _)

/-- A request gets the same response on both sides. -/
theorem Sim.handle (hst : Sim s t) {req : Request F} {r : Option (List F)}
    (hrun : s.handle h req = some (s', r)) : ∃ t', t.handle h req = some (t', r) ∧ Sim s' t' := by
  cases req with
  | push keys vals =>
      simp only [AsgdServer.handle, handlePush, Option.bind_eq_bind, Option.map_eq_some_iff,
        Option.bind_eq_some_iff, Option.pure_def, Option.some.injEq] at hrun
      obtain ⟨_, ⟨kbs, hkbs, s₁, hs₁, rfl⟩, heq⟩ := hrun
      cases heq
      have hturn : ∀ kb (s t s' : AsgdServer A), Sim s t → AsgdServer.pushKey h s kb = some s' →
          ∃ t', AsgdServer.pushKey h t kb = some t' ∧ Sim s' t' :=
        fun _ _ _ _ hst hrun => hst.pushKey hrun
      obtain ⟨t₁, ht₁, hst₁⟩ := foldlM_simulation hturn kbs _ _ s₁ (hst.start true) hs₁
      refine ⟨t₁.finish h, ?_, hst₁.finish⟩
      simp [AsgdServer.handle, handlePush, hkbs, ht₁]
  | pull keys =>
      cases hrun
      obtain ⟨hsim, hvals⟩ := Sim.pullKeys keys [] (hst.start (h := h) false)
      refine ⟨_, ?_, hsim.finish⟩
      simp only [AsgdServer.handle, handlePull, hvals]

theorem Sim.answer (hst : Sim s t) {reqs : List (Request F)} {rs : List (Option (List F))}
    (hrun : s.answer h reqs = some (s', rs)) : ∃ t', t.answer h reqs = some (t', rs) := by
  induction reqs generalizing s t rs with
  | nil =>
      cases hrun
      exact ⟨t, rfl⟩
  | cons req reqs ih =>
      simp only [AsgdServer.answer, Option.bind_eq_bind, Option.bind_eq_some_iff] at hrun
      obtain ⟨⟨s₁, r⟩, hs₁, ⟨s₂, rs'⟩, hrest, heq⟩ := hrun
      cases heq
      obtain ⟨t₁, ht₁, hst₁⟩ := hst.handle hs₁
      obtain ⟨t₂, ht₂⟩ := ih hst₁ hrest
      exact ⟨t₂, by simp [AsgdServer.answer, ht₁, ht₂]⟩

/-- **Similar servers answer alike**, and fail a `CHECK` alike. -/
theorem Sim.answer_eq (hst : Sim s t) (reqs : List (Request F)) :
    (s.answer h reqs).map Prod.snd = (t.answer h reqs).map Prod.snd := by
  cases hs : s.answer h reqs with
  | some r =>
      obtain ⟨s', rs⟩ := r
      obtain ⟨t', ht'⟩ := hst.answer hs
      simp [ht']
  | none =>
      cases ht : t.answer h reqs with
      | none => rfl
      | some r =>
          obtain ⟨s', hs'⟩ := hst.symm.answer ht
          rw [hs] at hs'
          cases hs'

/-! ## Loading what was saved -/

/-- The part of a server that a checkpoint keeps: the entries that are not `Empty()`, with
a handle that is started anew. -/
def forget (s : AsgdServer A) : AsgdServer A :=
  { s with
    state := A.init
    data :=
      { entries := s.data.entries.filter fun ke => empty ke.2 = false
        nodupKeys := by
          rw [← Multiset.nodup_keys]
          exact Multiset.nodup_of_le (Multiset.map_le_map (Multiset.filter_le _ _))
            (Multiset.nodup_keys.mpr s.data.nodupKeys) } }

theorem lookup_forget (k : UInt64) :
    s.forget.data.lookup k = (s.data.lookup k).filter fun e => !empty e := by
  ext e
  rw [Finmap.lookup_eq_some_iff, Option.filter_eq_some_iff, Finmap.lookup_eq_some_iff,
    Bool.not_eq_true']
  exact Multiset.mem_filter

/-- The state after one record. -/
def loadRecord (s : AsgdServer A) (ke : UInt64 × A.Entry) : AsgdServer A :=
  { s.put ke.1 ke.2 with newW := update (A.w ke.2) 0 s.newW }

/-- **A checkpoint is read record by record**, to its end. -/
theorem load_recordBytes (kes : List (UInt64 × A.Entry)) (s : AsgdServer A) :
    s.load (kes.flatMap recordBytes) = some
      { state := kes.foldl loadRecord s, ends := recordEnds recordBytes kes, rest := [] } := by
  refine readRecords_flatMap (by rfl) ?_ s
  intro ke _ s rest
  refine ⟨ke.1, A.save ke.2 ++ rest, ?_, ?_⟩
  · rw [recordBytes, List.append_assoc, Server.AsyncServer.readKey_append]
  · simp only [loadEntry, A.load_save, Option.bind_eq_bind, Option.bind_some]
    rfl

theorem state_loaded (kes : List (UInt64 × A.Entry)) :
    (kes.foldl loadRecord s).state = s.state := by
  induction kes generalizing s with
  | nil => rfl
  | cons ke kes ih => exact ih

theorem lookup_loadRecord_of_ne (s : AsgdServer A) (ke : UInt64 × A.Entry) (k : UInt64)
    (hk : k ≠ ke.1) : (s.loadRecord ke).data.lookup k = s.data.lookup k :=
  Finmap.lookup_insert_of_ne _ hk

/-- Keys without a record keep their entries. -/
theorem lookup_loaded_of_notMem {kes : List (UInt64 × A.Entry)} {k : UInt64}
    (hk : k ∉ kes.map Prod.fst) :
    (kes.foldl loadRecord s).data.lookup k = s.data.lookup k :=
  foldl_frame (fun s k => s.data.lookup k) lookup_loadRecord_of_ne hk s

/-- Keys with a record get its entry. -/
theorem lookup_loaded_of_mem {kes : List (UInt64 × A.Entry)} (hnodup : (kes.map Prod.fst).Nodup)
    {ke : UInt64 × A.Entry} (hke : ke ∈ kes) :
    (kes.foldl loadRecord s).data.lookup ke.1 = some ke.2 := by
  exact foldl_once (fun s k => s.data.lookup k) lookup_loadRecord_of_ne (fun _ e => some e)
    (fun s ke => Finmap.lookup_insert _) hnodup hke s

/-- What is loaded into an empty store. -/
theorem lookup_load_saved {order : List (UInt64 × A.Entry)} (ho : s.Enumerates order)
    (k : UInt64) :
    ((order.filter fun ke => !empty ke.2).foldl loadRecord (init : AsgdServer A)).data.lookup k =
      (s.data.lookup k).filter fun e => !empty e := by
  have hnodup : ((order.filter fun ke => !empty ke.2).map Prod.fst).Nodup :=
    List.Nodup.sublist (List.Sublist.map Prod.fst List.filter_sublist) ho.1
  by_cases hk : k ∈ (order.filter fun ke => !empty ke.2).map Prod.fst
  · obtain ⟨ke, hke, rfl⟩ := List.mem_map.mp hk
    obtain ⟨hmem, hne⟩ := List.mem_filter.mp hke
    rw [lookup_loaded_of_mem hnodup hke, (ho.2 ke.1 ke.2).mp hmem, Option.filter_some, if_pos hne]
  · rw [lookup_loaded_of_notMem hk]
    cases he : s.data.lookup k with
    | none => rfl
    | some e =>
        have hempty : ¬ (!empty e) = true := by
          intro hne
          exact hk (List.mem_map.mpr ⟨(k, e), List.mem_filter.mpr ⟨(ho.2 k e).mpr he, hne⟩, rfl⟩)
        rw [Option.filter_some, if_neg hempty]
        rfl

/-- A new server that loads a checkpoint. -/
theorem loadModel_saved {order : List (UInt64 × A.Entry)} (ho : s.Enumerates order) :
    ∃ s', (init : AsgdServer A).loadModel (saveModel order) = some s' ∧ Sim s' s.forget := by
  refine ⟨_, by rw [loadModel, saveModel, load_recordBytes]; rfl, ?_, fun k => ?_⟩
  · exact state_loaded _
  · have hlookup := lookup_load_saved ho k
    rw [entry, entry, lookup_forget, ← hlookup]

/-- Nothing that matters is forgotten if the forgotten entries are as new. -/
theorem entry_forget (hnew : ∀ k ∈ s.data, empty (s.entry k) = true → s.entry k = A.new)
    (k : UInt64) : s.forget.entry k = s.entry k := by
  rw [entry, lookup_forget]
  cases he : s.data.lookup k with
  | none => rw [entry, he, Option.filter_none]
  | some e =>
      have hentry : s.entry k = e := by rw [entry, he, Option.getD_some]
      rw [Option.filter_some, hentry]
      split
      · rfl
      · rename_i hempty
        rw [Bool.not_eq_true', Bool.not_eq_false] at hempty
        rw [Option.getD_none, ← hentry]
        exact (hnew k (Finmap.mem_iff.mpr ⟨e, he⟩) (hentry ▸ hempty)).symm

/-! ## What is lost -/

/-- The entries, in the order of a list of the keys. -/
theorem enumerates_of_keys {ks : List UInt64} (hnodup : ks.Nodup)
    (hks : ∀ k, k ∈ ks ↔ k ∈ s.data) :
    s.Enumerates (ks.map fun k => (k, s.entry k)) := by
  refine ⟨by simpa [Function.comp_def] using hnodup, fun k e => ?_⟩
  rw [List.mem_map]
  constructor
  · rintro ⟨k', hk', heq⟩
    cases heq
    obtain ⟨e, he⟩ := Finmap.mem_iff.mp ((hks k).mp hk')
    rw [entry, he, Option.getD_some]
  · intro he
    exact ⟨k, (hks k).mpr (Finmap.mem_iff.mpr ⟨e, he⟩), by rw [entry, he, Option.getD_some]⟩

/-- Handle `first`, save and load, and go on with `next` on both servers: the keys that were
saved, and the responses of the original and of the new server. -/
def resumed (A : Algorithm F) (h : ISGDHandle F) (keys : List UInt64)
    (first next : List (Request F)) :
    Option (Finset UInt64 × List (Option (List F)) × List (Option (List F))) := do
  let (s, _) ← (init : AsgdServer A).answer h first
  let s' ← (init : AsgdServer A).loadModel (saveModel (keys.map fun k => (k, s.entry k)))
  let (_, rs) ← s.answer h next
  let (_, rs') ← s'.answer h next
  return (s.data.keys, rs, rs')

/-- A server that was reached by some requests, a checkpoint of it and further requests that
a server with that checkpoint answers in another way. -/
def ResumesDifferently (A : Algorithm F) (h : ISGDHandle F) : Prop :=
  ∃ (first next : List (Request F)) (s s' t t' : AsgdServer A) (order : List (UInt64 × A.Entry))
    (rs₀ rs rs' : List (Option (List F))),
    (init : AsgdServer A).answer h first = some (s, rs₀) ∧ s.Enumerates order ∧
    (init : AsgdServer A).loadModel (saveModel order) = some s' ∧
    s.answer h next = some (t, rs) ∧ s'.answer h next = some (t', rs') ∧ rs ≠ rs'

theorem resumesDifferently_of_resumed [DecidableEq F] (keys : List UInt64)
    (first next : List (Request F)) (hnodup : keys.Nodup)
    (hrun : (resumed A h keys first next).any
      (fun r => decide (r.1 = keys.toFinset ∧ r.2.1 ≠ r.2.2)) = true) :
    ResumesDifferently A h := by
  obtain ⟨⟨ks, rs, rs'⟩, hres, htest⟩ := Option.any_eq_true _ _ |>.mp hrun
  obtain ⟨hks, hne⟩ := of_decide_eq_true htest
  dsimp only at hks hne
  simp only [resumed, Option.bind_eq_bind, Option.bind_eq_some_iff, Option.pure_def,
    Option.some.injEq, Prod.mk.injEq, Prod.exists] at hres
  obtain ⟨s, rs₀, hs, s', hs', t, _, ht, t', _, ht', hkeys, rfl, rfl⟩ := hres
  refine ⟨first, next, s, s', t, t', _, rs₀, _, _, hs, ?_, hs', ht, ht', hne⟩
  refine enumerates_of_keys hnodup fun k => ?_
  rw [← Finmap.mem_keys, hkeys, hks, List.mem_toFinset]

end Simulation

variable {F : Type} [FloatLike F] [FixedBytes F] [LawfulFixedBytes F] [FloatOfInt F]

/-- **Resuming.** For each of the algorithms, every server and every order in which its
entries are saved, a new server that loads the checkpoint answers every sequence of requests
as the original would with its `Empty()` entries forgotten and its handle started anew. If
the forgotten entries were as new, and for gradient descent if the handle was, it answers as
the original itself. -/
theorem resume_restarts (algo : Algo) (h : ISGDHandle F)
    (s : AsgdServer (createServer algo : Algorithm F)) (order : List (UInt64 × _))
    (ho : s.Enumerates order) : ∃ s' : AsgdServer (createServer algo : Algorithm F),
    init.loadModel (saveModel order) = some s' ∧
    (∀ reqs, (s'.answer h reqs).map Prod.snd = (s.forget.answer h reqs).map Prod.snd) ∧
    ((∀ k ∈ s.data, empty (s.entry k) = true → s.entry k = (createServer algo).new) →
      (algo = .sgd → s.state = (createServer algo).init) →
      ∀ reqs, (s'.answer h reqs).map Prod.snd = (s.answer h reqs).map Prod.snd) := by
  obtain ⟨s', hs', hsim⟩ := loadModel_saved ho
  refine ⟨s', hs', hsim.answer_eq, fun hnew hstate => ?_⟩
  have hinit : (createServer algo : Algorithm F).init = s.state := by
    cases algo with
    | sgd => exact (hstate rfl).symm
    | adagrad => rfl
    | ftrl => rfl
  have hsame : Sim s' s :=
    ⟨hsim.state.trans hinit, fun k => (hsim.entry k).trans (entry_forget hnew k)⟩
  exact hsame.answer_eq

/-- Unit rates, with the given L1 penalty. -/
def unitHandle (lambda1 : Binary32) (h : 0 ≤ lambda1) : ISGDHandle Binary32 :=
  { penalty := { lambda1, lambda2 := 0, lambda1_nonneg := h, lambda2_nonneg := by decide }
    alpha := 1, beta := 1, ns := 1 }

/-- **What is lost.** Gradient descent takes its first step again, and the accumulators of a
key with weight 0 are gone. -/
theorem linear_resume_differs :
    ResumesDifferently (createServer .sgd) (unitHandle 0 (by decide)) ∧
    ResumesDifferently (createServer .adagrad) (unitHandle 1 (by decide)) ∧
    ResumesDifferently (createServer .ftrl) (unitHandle 1 (by decide)) := by
  refine ⟨?_, ?_, ?_⟩
  · exact resumesDifferently_of_resumed [5] [.push [5] [1]] [.push [5] [1], .pull [5]]
      (by decide) (by decide +kernel)
  · exact resumesDifferently_of_resumed [5] [.push [5] [1]] [.push [5] [1 + 1], .pull [5]]
      (by decide) (by decide +kernel)
  · exact resumesDifferently_of_resumed [5] [.push [5] [1]] [.push [5] [1], .pull [5]]
      (by decide) (by decide +kernel)

/-- A key whose weight is not 0 goes on with FTRL. -/
theorem resume_restarts_ftrl : ∃ s s' : AsgdServer (createServer .ftrl : Algorithm Binary32),
    ∃ order, init.answer (unitHandle 1 (by decide)) [.push [5] [1 + 1]] = some (s, [none]) ∧
      s.Enumerates order ∧ init.loadModel (saveModel order) = some s' ∧
      ∀ reqs, (s'.answer (unitHandle 1 (by decide)) reqs).map Prod.snd =
        (s.answer (unitHandle 1 (by decide)) reqs).map Prod.snd := by
  have hrun : ((init : AsgdServer (createServer .ftrl : Algorithm Binary32)).answer
      (unitHandle 1 (by decide)) [.push [5] [1 + 1]]).any (fun r => decide
        (r.1.data.keys = {5} ∧ r.2 = [none] ∧ empty (r.1.entry 5) = false)) = true := by
    decide +kernel
  obtain ⟨⟨s, rs⟩, hs, htest⟩ := Option.any_eq_true _ _ |>.mp hrun
  obtain ⟨hkeys, hrs, hne⟩ := of_decide_eq_true htest
  dsimp only at hkeys hrs hne
  subst hrs
  have hmem : ∀ k, k ∈ [5] ↔ k ∈ s.data := by
    intro k
    rw [← Finmap.mem_keys, hkeys, Finset.mem_singleton, List.mem_singleton]
  have ho := enumerates_of_keys (List.nodup_singleton 5) hmem
  obtain ⟨s', hs', -, hsame⟩ := resume_restarts .ftrl (unitHandle 1 (by decide)) s _ ho
  refine ⟨s, s', _, hs, ho, hs', hsame (fun k hk hempty => ?_) (by simp)⟩
  rw [List.mem_singleton.mp ((hmem k).mpr hk), hne] at hempty
  cases hempty

end AsgdServer

end Difacto.Linear
