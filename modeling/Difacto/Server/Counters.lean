import Difacto.Server.Contents
import Mathlib.Algebra.BigOperators.Ring.Finset
import Mathlib.Tactic.Abel

/-!
# Sparsity counters

`new_w` and `new_V` are updated where a weight changes, where an entry grows and where a
record is loaded, and moved to the scheduler by `Report` and `LoadModel`. Together with
what was reported they always give the number of non-zero weights and the total length
of the embeddings.

## Main definitions

* `AsyncServer.total` — a quantity summed over the keys of a store.
* `AsyncServer.Started` — an empty store, or one that loaded a checkpoint.

## Main results

* `AsyncServer.counters_exact`.
-/

namespace Difacto.Server

open Base Lib

variable {F : Type} [FloatLike F]

namespace AsyncServer

variable {h : AdaGradHandle F} {s s' : AsyncServer F} {k : UInt64}

omit [FloatLike F] in
theorem keys_put (e : AdaGradEntry F) : (s.put k e).data.keys = insert k s.data.keys := by
  ext k'
  rw [Finset.mem_insert, Finmap.mem_keys, Finmap.mem_keys]
  exact Finmap.mem_insert

/-- A quantity summed over the keys. -/
def total (f : Param F → ℤ) (s : AsyncServer F) : ℤ := ∑ k ∈ s.data.keys, f (s.param k)

theorem param_of_notMem (hk : k ∉ s.data) : s.param k = Param.new := by
  rw [param, entry, Finmap.lookup_eq_none.mpr hk, Option.getD_none, ← Param.toEntry_new,
    Param.param_toEntry]

/-- Storing an entry changes the sum at its key, whether the key is new or not. -/
theorem total_put {f : Param F → ℤ} (hf : f Param.new = 0) (p : Param F) :
    (s.put k p.toEntry).total f = s.total f + (f p - f (s.param k)) := by
  have hrest : ∑ k' ∈ s.data.keys.erase k, f ((s.put k p.toEntry).param k') =
      ∑ k' ∈ s.data.keys.erase k, f (s.param k') := by
    refine Finset.sum_congr rfl fun k' hk' => ?_
    rw [param_put, if_neg (Finset.ne_of_mem_erase hk')]
  have hnew : (s.put k p.toEntry).total f = f p + ∑ k' ∈ s.data.keys.erase k, f (s.param k') := by
    rw [total, keys_put, ← Finset.add_sum_erase _ _ (Finset.mem_insert_self k _),
      Finset.erase_insert_eq_erase, param_put, if_pos rfl, hrest]
  have hold : s.total f = f (s.param k) + ∑ k' ∈ s.data.keys.erase k, f (s.param k') := by
    by_cases hk : k ∈ s.data
    · rw [total, Finset.add_sum_erase _ (fun k' => f (s.param k')) (Finmap.mem_keys.mpr hk)]
    · have hk' : k ∉ s.data.keys := fun hmem => hk (Finmap.mem_keys.mp hmem)
      rw [total, Finset.erase_eq_of_notMem hk', param_of_notMem hk, hf, zero_add]
  rw [hnew, hold]
  abel

theorem total_congr (f : Param F → ℤ) (hdata : s'.data = s.data) : s'.total f = s.total f := by
  simp only [total, param, entry, hdata]

/-- The number of coordinates. -/
def coords (p : Param F) : ℤ := p.emb.length

theorem nonzero_new : (Param.new : Param F).nonzero = 0 := by
  simp [Param.nonzero, Param.new, bne, FloatLike.zero_beq_zero]

theorem coords_new : coords (Param.new : Param F) = 0 := rfl

/-- What was reported and what was not add up. -/
structure Counted (s : AsyncServer F) : Prop where
  valid : s.Valid
  newW : (s.reports.map Prod.fst).sum + s.stat.newW = s.total Param.nonzero
  newV : (s.reports.map Prod.snd).sum + s.stat.newV = s.total coords

/-- Storing an entry keeps the balance if it is counted. -/
theorem Counted.stored (hs : s.Counted) {p : Param F} (hvalid : s'.Valid)
    (hdata : s'.data = (s.put k p.toEntry).data) (hreports : s'.reports = s.reports)
    (hW : s'.stat.newW = s.stat.newW + (p.nonzero - (s.param k).nonzero))
    (hV : s'.stat.newV = s.stat.newV + (p.emb.length - (s.param k).emb.length)) : s'.Counted := by
  refine ⟨hvalid, ?_, ?_⟩
  · rw [total_congr _ hdata, total_put nonzero_new, ← hs.newW, hreports, hW, add_assoc]
  · rw [total_congr _ hdata, total_put coords_new, ← hs.newV, hreports, hV, add_assoc]
    rfl

theorem Counted.pushKey (hs : s.Counted) {pushCount : Bool} {kb : UInt64 × List F}
    (hrun : pushKey h pushCount s kb = some s') : s'.Counted := by
  have hvalid := hs.valid.pushKey hrun
  rw [pushKey_eq hs.valid, Option.map_eq_some_iff] at hrun
  obtain ⟨r, hr, rfl⟩ := hrun
  have htracks := Param.tracks_push h _ _ hr
  exact hs.stored hvalid rfl rfl htracks.newW htracks.newV

theorem Counted.pullKey (hs : s.Counted) {vs vs' : List (List F)}
    (hrun : pullKey h (s, vs) k = some (s', vs')) : s'.Counted := by
  have hvalid := hs.valid.pullKey hrun
  rw [pullKey_eq hs.valid] at hrun
  cases hrun
  exact hs.stored hvalid rfl rfl (by simp [put]) (by simp [put])

/-- Reporting moves the counters. -/
theorem Counted.reported (hs : s.Counted) (hdata : s'.data = s.data)
    (hreports : s'.reports = s.reports ++ [(s.stat.newW, s.stat.newV)])
    (hW : s'.stat.newW = 0) (hV : s'.stat.newV = 0) : s'.Counted := by
  refine ⟨hs.valid.congr hdata, ?_, ?_⟩
  · rw [total_congr _ hdata, ← hs.newW, hreports, hW]
    simp
  · rw [total_congr _ hdata, ← hs.newV, hreports, hV]
    simp

theorem Counted.report (hs : s.Counted) : (s.report h).Counted := by
  rw [AsyncServer.report]
  split
  · exact hs.reported rfl rfl rfl rfl
  · exact ⟨hs.valid.congr rfl, hs.newW, hs.newV⟩

theorem Counted.handle (hs : s.Counted) {req : Request F} {r : Option (Response F)}
    (hrun : s.handle h req = some (s', r)) : s'.Counted :=
  handle_invariant (fun _ _ _ _ hs hrun => hs.pushKey hrun)
    (fun _ _ _ _ _ hs hrun => hs.pullKey hrun) (fun _ hs => hs.report) hs hrun

/-! ## The start of a server -/

/-- A process starts with its counters at zero. -/
def start (rand junk : ℕ → F) : AsyncServer F :=
  init { newW := 0, newV := 0, rand := rand, junk := junk }

theorem counted_start (rand junk : ℕ → F) : (start rand junk).Counted := by
  refine ⟨valid_init _, ?_, ?_⟩
  · simp [total, start, init]
  · simp [total, start, init]

/-- A record for a key that is not there yet is counted once. -/
theorem Counted.loadRecord (hs : s.Counted) {kp : UInt64 × Param F} (hk : kp.1 ∉ s.data)
    (hsize : kp.2.emb.length + 1 < 2 ^ 31) : (s.loadRecord kp).Counted := by
  have hp := param_of_notMem hk
  have hvalid : (s.put kp.1 { kp.2 with feaCnt := (s.entry kp.1).feaCnt }.toEntry).Valid :=
    hs.valid.put hsize
  refine hs.stored (hvalid.congr rfl) rfl rfl ?_ ?_
  · rw [hp, nonzero_new, sub_zero]
    rfl
  · rw [hp]
    simp [AsyncServer.loadRecord, Param.new]

theorem Counted.loaded (hs : s.Counted) {kps : List (UInt64 × Param F)}
    (hnodup : (kps.map Prod.fst).Nodup) (hnew : ∀ kp ∈ kps, kp.1 ∉ s.data)
    (hsize : ∀ kp ∈ kps, kp.2.emb.length + 1 < 2 ^ 31) :
    (kps.foldl AsyncServer.loadRecord s).Counted := by
  induction kps generalizing s with
  | nil => exact hs
  | cons kp kps ih =>
      rw [List.map_cons, List.nodup_cons] at hnodup
      refine ih (hs.loadRecord (hnew kp (by simp)) (hsize kp (by simp))) hnodup.2 ?_ ?_
      · intro kp' hkp' hmem
        rcases Finmap.mem_insert.mp hmem with heq | hold
        · exact hnodup.1 (heq ▸ List.mem_map_of_mem hkp')
        · exact hnew kp' (List.mem_cons_of_mem _ hkp') hold
      · exact fun kp' hkp' => hsize kp' (List.mem_cons_of_mem _ hkp')

variable [FixedBytes F]

/-- A server that begins: with an empty store, or with a checkpoint. -/
inductive Started (rand junk : ℕ → F) : AsyncServer F → Prop
  | empty : Started rand junk (start rand junk)
  | loaded {h₀ : AdaGradHandle F} {s₀ s : AsyncServer F} {bs : List UInt8}
      {order : List (UInt64 × AdaGradEntry F)} :
      Reachable h₀ s₀ → s₀.Enumerates order → saveModel order = some bs →
      (start rand junk).loadModel bs = some s → Started rand junk s

variable [LawfulFixedBytes F]

theorem Started.counted {rand junk : ℕ → F} (hs : Started rand junk s) : s.Counted := by
  cases hs with
  | empty => exact counted_start rand junk
  | loaded hr₀ ho hbs hload =>
      rw [loadModel, load_saved ho hr₀.valid hbs] at hload
      cases hload
      have hloaded := (counted_start rand junk).loaded (nodup_saved ho)
        (fun kp _ => Finmap.notMem_empty) (fun kp hkp => size_lt_of_mem_saved ho hr₀.valid hkp)
      exact hloaded.reported rfl rfl rfl rfl

/-- **The counters are exact**, after any requests. -/
theorem counters_exact {rand junk : ℕ → F} {s₀ : AsyncServer F} {reqs : List (Request F)}
    {rs : List (Option (Response F))} (hstart : Started rand junk s₀)
    (hrun : s₀.answer h reqs = some (s, rs)) :
    (s.reports.map Prod.fst).sum + s.stat.newW =
      ((s.data.keys.filter fun k => (s.entry k).w0.any (· != 0)).card : ℤ) ∧
    (s.reports.map Prod.snd).sum + s.stat.newV =
      ∑ k ∈ s.data.keys, (((s.entry k).size : ℤ) - 1) := by
  have hs := answer_invariant (fun _ _ _ _ hs hrun => hs.handle hrun) hstart.counted hrun
  refine ⟨?_, ?_⟩
  · rw [hs.newW, total, Finset.card_filter, Nat.cast_sum]
    refine Finset.sum_congr rfl fun k _ => ?_
    rw [hs.valid.entry_eq k, Param.w0_toEntry, Param.nonzero]
    simp
  · rw [hs.newV, total]
    refine Finset.sum_congr rfl fun k _ => ?_
    rw [hs.valid.entry_eq k, Param.size_toEntry, coords]
    simp

/-- Train two features, save, load, and train a third one. -/
def resumed : Option (AsyncServer Binary32 × List UInt8 × AsyncServer Binary32 ×
    AsyncServer Binary32 × List (Option (Response Binary32))) := do
  let h := sampleHandle 1 sampleDim_lt
  let (s₀, _) ← (init sampleStat).answer h
    [.push true [5] [one + one] none, .push false [7] [one] none]
  let bs ← saveModel ([5, 7].map fun k => (k, s₀.entry k))
  let s₁ ← (start sampleStat.rand sampleStat.junk).loadModel bs
  let (s, rs) ← s₁.answer h [.push false [8] [one] none, .push false [5] [one] none]
  return (s₀, bs, s₁, s, rs)

theorem counters_exact_resumed : ∃ (s₁ s : AsyncServer Binary32) (rs : _),
    Started sampleStat.rand sampleStat.junk s₁ ∧
    s₁.answer (sampleHandle 1 (by decide)) [.push false [8] [one] none, .push false [5] [one] none] =
      some (s, rs) ∧
    s.reports = [(1, 1), (1, 0), (1, 0)] ∧
    (s.data.keys.filter fun k => (s.entry k).w0.any (· != 0)).card = 3 := by
  have hrun : resumed.any (fun r => decide (r.1.data.keys = {5, 7} ∧
      r.2.2.2.1.reports = [(1, 1), (1, 0), (1, 0)] ∧ r.2.2.2.1.stat.newW = 0)) = true := by
    decide +kernel
  obtain ⟨⟨s₀, bs, s₁, s, rs⟩, hres, htest⟩ := Option.any_eq_true _ _ |>.mp hrun
  obtain ⟨hkeys, hreports, hnewW⟩ := of_decide_eq_true htest
  simp only [resumed, Option.bind_eq_bind, Option.bind_eq_some_iff, Option.pure_def,
    Option.some.injEq, Prod.mk.injEq, Prod.exists] at hres
  obtain ⟨t₀, _, hs₀, _, hbs, t₁, hs₁, t, _, hs, rfl, rfl, rfl, rfl, rfl⟩ := hres
  have hr : Reachable (sampleHandle 1 (by decide)) t₀ := (Reachable.init _ sampleStat).answer hs₀
  have ho : t₀.Enumerates ([5, 7].map fun k => (k, t₀.entry k)) := by
    refine enumerates_of_keys (by decide) fun k => ?_
    rw [← Finmap.mem_keys, hkeys]
    simp
  have hstart := Started.loaded hr ho hbs hs₁
  have hcount := (counters_exact hstart hs).1
  rw [hreports, hnewW] at hcount
  exact ⟨t₁, t, _, hstart, hs, hreports, Int.ofNat_inj.mp hcount.symm⟩

end AsyncServer

end Difacto.Server
