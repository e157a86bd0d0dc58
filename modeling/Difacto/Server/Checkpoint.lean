import Difacto.Server.Contents
import Difacto.Base.Localizer

/-!
# Checkpoints and their three readers

The format that `KVStoreSparseST::Save` writes is read by `KVStoreSparseST::Load`, and
on its own by `Dump::run` of `difacto/dump.cc` and `PushWorker::push` of
`difacto/push.cc`, which write one line of text for each record. A stream of lines is
the list of buffers passed to `fo->Write`.

## Main definitions

* `Dump.run`, `PushWorker.push` — the two programs.
* `modelLine` — the line for a feature with the given weights.

## Main results

* `AsyncServer.checkpoint_round_trip` — the three readers agree on what was saved.
-/

namespace Difacto.Server

open Base Lib

variable {F : Type} [FloatLike F]

/-- The id that is written for a key. -/
def featureId (needInverse : Bool) (key : UInt64) : UInt64 :=
  if needInverse then reverseBytes key else key

/-- `write_buffer.append("\t" + std::to_string(x))`. -/
def appendWeight (buf : String) (x : F) : String := buf ++ ("\t" ++ FloatLike.toStr x)

/-- The loop over `age.w[i]`. -/
def appendWeights (age : AdaGradEntry F) (buf : String) : Option String :=
  (List.range age.size).foldlM (fun buf i => (age.w.elem i).map (appendWeight buf)) buf

section Readers

variable [FixedBytes F]

/-- The loop of both programs: each record is loaded into a new entry, `junk` being
what its arrays hold before they are read. -/
def dumpLoop (line : UInt64 → AdaGradEntry F → Option String) (junk : ℕ → F)
    (bs : List UInt8) : Option (Loaded (List String)) :=
  readRecords AsyncServer.readKey (fun key lines bs => do
    let (age, bs) ← AdaGradEntry.new.loadFields junk bs
    let l ← line key age
    return (lines ++ [l], bs)) [] bs

namespace Dump

/-- The buffer for one record. -/
def writeBuffer (needInverse : Bool) (key : UInt64) (age : AdaGradEntry F) : Option String := do
  let buf := toString (featureId needInverse key).toNat
  let buf ← if age.size = 1 then age.w0.map (appendWeight buf) else appendWeights age buf
  return buf ++ "\n"

/-- `Dump::run`. -/
def run (needInverse : Bool) (junk : ℕ → F) (bs : List UInt8) : Option (Loaded (List String)) :=
  dumpLoop (writeBuffer needInverse) junk bs

end Dump

namespace PushWorker

/-- The buffer for one record. -/
def writeBuffer (needInverse : Bool) (key : UInt64) (age : AdaGradEntry F) : Option String :=
  let featureId := toString (featureId needInverse key).toNat
  if age.size = 1 then
    age.w0.map fun w => featureId ++ "\t" ++ FloatLike.toStr w ++ "\n"
  else
    (appendWeights age ("" ++ featureId)).map fun buf => buf ++ "\n"

/-- `PushWorker::push`. -/
def push (needInverse : Bool) (junk : ℕ → F) (bs : List UInt8) : Option (Loaded (List String)) :=
  dumpLoop (writeBuffer needInverse) junk bs

end PushWorker

end Readers

/-- The line of a feature: its id and its weights. -/
def modelLine (id : UInt64) (ws : List F) : String :=
  ws.foldl appendWeight (toString id.toNat) ++ "\n"

/-- The weights of an entry. -/
def AdaGradEntry.weights (e : AdaGradEntry F) : Option (List F) :=
  if e.size = 1 then e.w0.map ([·]) else e.w.front e.size

namespace Param

variable (p : Param F)

theorem weights_toEntry : p.toEntry.weights = some p.weights :=
  toEntry_cases (motive := fun e p => e.weights = some p.weights)
    (by intros; rfl)
    (by
      intros
      simp [AdaGradEntry.weights, heapEntry, Slot.front, weights, List.take_of_length_le])
    p

/-- The loop from any of the weights on. -/
theorem foldlM_elem (ys : List F) : ∀ (xs : List F) (buf : String),
    (List.range' xs.length ys.length).foldlM
        (fun buf i => ((Slot.heap (xs ++ ys)).elem i).map (appendWeight buf)) buf =
      some (ys.foldl appendWeight buf) := by
  induction ys with
  | nil => intro xs buf; rfl
  | cons y ys ih =>
      intro xs buf
      have hrest := ih (xs ++ [y]) (appendWeight buf y)
      rw [List.length_append, List.length_singleton, List.append_assoc,
        List.singleton_append] at hrest
      rw [List.length_cons, List.range'_succ, List.foldlM_cons, Slot.elem_append _ _ _ rfl]
      exact hrest

theorem appendWeights_toEntry (hemb : p.emb ≠ []) (buf : String) :
    appendWeights p.toEntry buf = some (p.weights.foldl appendWeight buf) := by
  obtain ⟨v, vs, hv⟩ := List.exists_cons_of_ne_nil hemb
  have hentry : p.toEntry = heapEntry p.feaCnt p.weights p.sqcGrads := by
    simp [toEntry, hv]
  rw [appendWeights, hentry, List.range_eq_range']
  exact foldlM_elem p.weights [] buf

/-- Both programs write the same line. -/
theorem dump_writeBuffer (needInverse : Bool) (k : UInt64) :
    Dump.writeBuffer needInverse k p.toEntry =
      some (modelLine (featureId needInverse k) p.weights) := by
  by_cases hemb : p.emb = []
  · simp [Dump.writeBuffer, hemb, modelLine, weights]
  · simp [Dump.writeBuffer, hemb, appendWeights_toEntry p hemb, modelLine]

theorem push_writeBuffer (needInverse : Bool) (k : UInt64) :
    PushWorker.writeBuffer needInverse k p.toEntry =
      some (modelLine (featureId needInverse k) p.weights) := by
  by_cases hemb : p.emb = []
  · simp [PushWorker.writeBuffer, hemb, modelLine, weights, appendWeight, String.append_assoc]
  · simp [PushWorker.writeBuffer, hemb, appendWeights_toEntry p hemb, modelLine]

end Param

namespace AsyncServer

variable {h : AdaGradHandle F} {s : AsyncServer F} {order : List (UInt64 × AdaGradEntry F)}

/-- The entries that are saved, in the order in which they are met. -/
def kept (order : List (UInt64 × AdaGradEntry F)) : List (UInt64 × AdaGradEntry F) :=
  order.filter fun ke => ke.2.empty == some false

/-- The saved entries are those of the records. -/
theorem kept_eq (ho : s.Enumerates order) (hs : s.Valid) :
    kept order = (saved order).map fun kp => (kp.1, kp.2.toEntry) := by
  have hempty : ∀ p : Param F, (p.toEntry.empty == some false) = !p.empty := by
    intro p
    rw [Param.empty_toEntry]
    cases p.empty <;> rfl
  conv_lhs => rw [kept, ← ho.order_eq hs, List.filter_map]
  simp only [saved, Function.comp_def, hempty]

theorem filter_toEntry (p : Param F) :
    ((some p.toEntry).filter fun e => e.empty == some false) =
      if p.empty then none else some p.toEntry := by
  rw [Option.filter_some, Param.empty_toEntry]
  cases p.empty <;> rfl

/-- What is loaded into an empty store. -/
theorem lookup_load_saved (ho : s.Enumerates order) (hs : s.Valid) (stat : Stat F)
    (k : UInt64) : ((saved order).foldl loadRecord (init stat)).data.lookup k =
      ((s.data.lookup k).filter fun e => e.empty == some false).map fun e =>
        { e with feaCnt := 0 } := by
  cases he : s.data.lookup k with
  | none =>
      have hk : k ∉ s.data := by rwa [← Finmap.lookup_eq_none]
      rw [lookup_loaded_of_notMem (notMem_saved ho fun hmem => absurd hmem hk)]
      rfl
  | some e =>
      have hentry : e = (s.param k).toEntry := by rw [← entry_of_lookup he, hs.entry_eq]
      cases hempty : (s.param k).empty with
      | true =>
          rw [lookup_loaded_of_notMem (notMem_saved ho fun _ => hempty), hentry, filter_toEntry,
            hempty]
          rfl
      | false =>
          have hkp : (k, s.param k) ∈ saved order :=
            (mem_saved ho).mpr ⟨Finmap.mem_iff.mpr ⟨e, he⟩, rfl, hempty⟩
          rw [lookup_loaded_of_mem (nodup_saved ho) hkp, hentry, Param.toEntry_setCnt,
            filter_toEntry, hempty]
          rfl

variable [FixedBytes F] [LawfulFixedBytes F]

/-- A program with the loop above goes through the records one by one. -/
theorem dumpLoop_recordBytes {line : UInt64 → AdaGradEntry F → Option String} {needInverse : Bool}
    (hline : ∀ k (p : Param F), line k p.toEntry =
      some (modelLine (featureId needInverse k) p.weights))
    (junk : ℕ → F) {kps : List (UInt64 × Param F)}
    (hsize : ∀ kp ∈ kps, kp.2.emb.length + 1 < 2 ^ 31) :
    dumpLoop line junk (kps.flatMap recordBytes) = some
      { state := kps.map fun kp => modelLine (featureId needInverse kp.1) kp.2.weights,
        ends := recordEnds recordBytes kps, rest := [] } := by
  have hfold : ∀ lines : List String,
      kps.foldl (fun lines kp =>
          lines ++ [modelLine (featureId needInverse kp.1) kp.2.weights]) lines =
        lines ++ kps.map fun kp => modelLine (featureId needInverse kp.1) kp.2.weights := by
    intro lines
    clear hsize
    induction kps generalizing lines with
    | nil => simp
    | cons kp kps ih => simp [ih]
  rw [← List.nil_append (kps.map _), ← hfold []]
  refine readRecords_flatMap (by rfl) ?_ []
  intro kp hkp lines rest
  refine ⟨kp.1, kp.2.bytes ++ rest, ?_, ?_⟩
  · rw [recordBytes, List.append_assoc, readKey_append]
  · rw [Param.loadFields_bytes _ _ _ _ (hsize kp hkp)]
    simp only [Option.bind_eq_bind, Option.bind_some, hline]
    rfl

/-- **Round trip.** For every reachable server and every order in which its entries are
met: an empty store that loads the checkpoint has exactly the entries that are not
`Empty()`, which differ from the saved ones in the count of the feature only; the three
readers stop at the boundaries at which the records were written and read the whole
file; and both programs write, for each saved key in turn, the line with its `size`
weights. -/
theorem checkpoint_round_trip (hr : Reachable h s) (ho : s.Enumerates order) (stat : Stat F)
    (junk junk' : ℕ → F) (needInverse : Bool) : ∃ bs ends s' lines,
    saveModel order = some bs ∧
    ends = recordEnds (fun ke => (saveEntry ke).getD []) (kept order) ∧
    (init stat).load bs = some { state := s', ends := ends, rest := [] } ∧
    (∀ k, s'.data.lookup k = ((s.data.lookup k).filter fun e => e.empty == some false).map
      fun e => { e with feaCnt := 0 }) ∧
    Dump.run needInverse junk bs = some { state := lines, ends := ends, rest := [] } ∧
    PushWorker.push needInverse junk' bs = some { state := lines, ends := ends, rest := [] } ∧
    List.Forall₂ (fun ke line => ∃ ws, ke.2.weights = some ws ∧ ws.length = ke.2.size ∧
      line = modelLine (featureId needInverse ke.1) ws) (kept order) lines := by
  have hs := hr.valid
  have hsize : ∀ kp ∈ saved order, kp.2.emb.length + 1 < 2 ^ 31 :=
    fun kp hkp => size_lt_of_mem_saved ho hs hkp
  have hdump : Dump.run needInverse junk ((saved order).flatMap recordBytes) = _ :=
    dumpLoop_recordBytes (fun k p => p.dump_writeBuffer needInverse k) junk hsize
  have hpush : PushWorker.push needInverse junk' ((saved order).flatMap recordBytes) = _ :=
    dumpLoop_recordBytes (fun k p => p.push_writeBuffer needInverse k) junk' hsize
  have hends : recordEnds recordBytes (saved order) =
      recordEnds (fun ke => (saveEntry ke).getD []) (kept order) := by
    rw [kept_eq ho hs, recordEnds_map]
    intro kp hkp
    rw [saveEntry_toEntry, ((mem_saved ho).mp hkp).2.2]
    rfl
  have hlines : List.Forall₂ (fun ke line => ∃ ws, ke.2.weights = some ws ∧
      ws.length = ke.2.size ∧ line = modelLine (featureId needInverse ke.1) ws) (kept order)
      ((saved order).map fun kp => modelLine (featureId needInverse kp.1) kp.2.weights) := by
    rw [kept_eq ho hs, List.forall₂_map_left_iff, List.forall₂_map_right_iff, List.forall₂_same]
    intro kp _
    exact ⟨kp.2.weights, kp.2.weights_toEntry, by simp, rfl⟩
  exact ⟨_, _, _, _, saveModel_eq ho hs, hends, load_recordBytes hsize _,
    lookup_load_saved ho hs stat, hdump, hpush, hlines⟩

/-- A feature with an embedding, one without, and one that was only asked for. -/
def threeFeatures : List (Request Binary32) :=
  [.push true [5] [one + one] none, .push false [7] [one] none, .pull [9] true]

theorem checkpoint_round_trip_threeFeatures : ∃ (s : AsyncServer Binary32) (order : _)
    (bs : List UInt8) (lines : List String),
    Reachable (sampleHandle 1 (by decide)) s ∧ s.Enumerates order ∧
    (kept order).map (fun ke => (ke.1, ke.2.size)) = [(5, 2), (7, 1)] ∧ order.length = 3 ∧
    saveModel order = some bs ∧ lines.length = 2 ∧
    (Dump.run false sampleStat.junk bs).map Loaded.state = some lines := by
  have hrun : ((init sampleStat).answer (sampleHandle 1 (by decide)) threeFeatures).any (fun r =>
      decide (r.1.data.keys = {5, 7, 9} ∧ (r.1.entry 5).size = 2 ∧ (r.1.entry 7).size = 1 ∧
        (r.1.entry 5).empty = some false ∧ (r.1.entry 7).empty = some false ∧
        (r.1.entry 9).empty = some true)) = true := by
    decide +kernel
  obtain ⟨⟨s, rs⟩, hs, htest⟩ := Option.any_eq_true _ _ |>.mp hrun
  obtain ⟨hkeys, h5, h7, h5', h7', h9'⟩ := of_decide_eq_true htest
  have hr : Reachable (sampleHandle 1 (by decide)) s := (Reachable.init _ sampleStat).answer hs
  have ho : s.Enumerates ([5, 7, 9].map fun k => (k, s.entry k)) := by
    refine enumerates_of_keys (by decide) fun k => ?_
    rw [← Finmap.mem_keys, hkeys]
    simp
  have hkept : (kept ([5, 7, 9].map fun k => (k, s.entry k))).map (fun ke => (ke.1, ke.2.size)) =
      [(5, 2), (7, 1)] := by
    simp [kept, h5', h7', h9', h5, h7]
  obtain ⟨bs, ends, s', lines, hbs, -, -, -, hdump, -, hlines⟩ :=
    checkpoint_round_trip hr ho sampleStat sampleStat.junk sampleStat.junk false
  refine ⟨s, _, bs, lines, hr, ho, hkept, rfl, hbs, ?_, by rw [hdump]; rfl⟩
  rw [← hlines.length_eq, ← List.length_map, hkept]
  rfl

end AsyncServer

end Difacto.Server
