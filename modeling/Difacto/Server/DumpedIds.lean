import Difacto.Base.RemapExact
import Difacto.Lib.Decimal
import Difacto.Server.Checkpoint

/-!
# The ids in a dumped model

When `max_key` is not set the keys of a model are the reversed feature ids of the training data
(`base/localizer.h`), and with `need_inverse` the two programs that export a checkpoint
(`difacto/dump.cc`, `difacto/push.cc`) reverse the keys again. A key gets a weight only by a push,
and only keys of training data are pushed; the entries that pulls create are empty and not saved.

## Main definitions

* `AsyncServer.Trained` — the states of servers, with the feature ids of their training data.
* `printedId` — the first field of a line.

## Main results

* `Localizer.mem_uniq` — the keys of a minibatch.
* `AsyncServer.dumped_ids` — the ids in the lines that the two programs write.
-/

namespace Difacto.Base.Localizer

variable {F : Type}

/-- **The keys of a minibatch** are its reversed ids. -/
theorem mem_uniq {lc : Localizer} {sort : StdSort lessKey} {c : CountType}
    {blk : InputBlock UInt64 F} {pair : List (UInt64 × ℕ)} {uniq : List UInt64}
    {frq : List c.Count} (hblk : blk.Valid) (hfirst : blk.off 0 = 0)
    (hrun : lc.countUniqIndex sort maxIndex c blk = some (pair, uniq, frq)) (k : UInt64) :
    k ∈ uniq ↔ ∃ id ∈ blk.ids, reverseBytes id = k := by
  by_cases hnone : blk.off blk.size = 0
  · have hids : blk.ids = [] := List.length_eq_zero_iff.mp ((length_ids hblk).trans hnone)
    by_cases hsize : blk.size = 0
    · rw [countUniqIndex, if_pos hsize] at hrun
      cases hrun
      simp [hids]
    · rw [countUniqIndex_noEntry lc sort c hblk hsize hnone] at hrun
      cases hrun
  · have hpos : 0 < blk.off blk.size := Nat.pos_of_ne_zero hnone
    by_cases hlt : blk.off blk.size < 2 ^ 32 - 1
    · obtain ⟨pair', uniq', hrun', -, -, hmem, -⟩ :=
        countUniqIndex_eq lc sort (by decide : maxIndex ≠ 0) c hblk hfirst hpos hlt
      rw [hrun] at hrun'
      cases hrun'
      exact hmem k
    · rw [countUniqIndex, if_neg (size_ne_zero hfirst hpos), if_pos hlt] at hrun
      cases hrun

end Difacto.Base.Localizer

namespace Difacto.Server

open Base Lib

variable {F : Type} [FloatLike F]

/-! ## The first field of a line -/

/-- The characters in front of the first tab. -/
def printedId (line : String) : List Char := line.toList.takeWhile fun ch => ch ≠ '\t'

theorem foldl_appendWeight (ws : List F) (buf : String) :
    ∃ rest, ws.foldl appendWeight buf = buf ++ rest := by
  induction ws generalizing buf with
  | nil => exact ⟨"", by simp⟩
  | cons w ws ih =>
      obtain ⟨rest, hrest⟩ := ih (appendWeight buf w)
      exact ⟨"\t" ++ FloatLike.toStr w ++ rest, by
        rw [List.foldl_cons, hrest, appendWeight, String.append_assoc]⟩

/-- A line begins with the decimal digits of the id. -/
theorem printedId_modelLine (id : UInt64) {ws : List F} (hws : ws ≠ []) :
    printedId (modelLine id ws) = (toString id.toNat).toList := by
  obtain ⟨w, ws, rfl⟩ := List.exists_cons_of_ne_nil hws
  obtain ⟨rest, hrest⟩ := foldl_appendWeight ws (appendWeight (toString id.toNat) w)
  have htab : ∀ ch ∈ (toString id.toNat).toList, decide (ch ≠ '\t') = true := by
    intro ch hch
    have hdigit := isDigit_of_mem_toString hch
    refine decide_eq_true fun h => ?_
    rw [h] at hdigit
    revert hdigit
    decide
  rw [printedId, modelLine, List.foldl_cons, hrest, appendWeight]
  simp only [String.toList_append, List.append_assoc]
  rw [List.takeWhile_append_of_pos htab]
  simp

namespace AsyncServer

variable {h : AdaGradHandle F} {s s' : AsyncServer F} {ids : Set UInt64} {k : UInt64}

/-! ## The keys that get a weight -/

/-- Whatever has a weight is a reversed id. -/
def Named (ids : Set UInt64) (s : AsyncServer F) : Prop :=
  ∀ k, (s.param k).empty = false → ∃ id ∈ ids, reverseBytes id = k

theorem Named.mono {ids' : Set UInt64} (hn : s.Named ids) (hsub : ids ⊆ ids') : s.Named ids' := by
  intro k hk
  obtain ⟨id, hid, hkey⟩ := hn k hk
  exact ⟨id, hsub hid, hkey⟩

theorem named_init (stat : Stat F) : (init stat).Named ids := by
  intro k hk
  rw [param_init] at hk
  simp [Param.empty, Param.new, FloatLike.zero_beq_zero] at hk

theorem Named.congr (hn : s.Named ids) (hparam : ∀ k, s'.param k = s.param k) : s'.Named ids := by
  intro k hk
  exact hn k (hparam k ▸ hk)

omit [FloatLike F] in
/-- The keys that a push visits are those of its message. -/
theorem mem_of_blobs {keys : List UInt64} {vals : List F} {sizes : Option (List ℕ)}
    {kbs : List (UInt64 × List F)} (hkbs : blobs keys vals sizes = some kbs)
    {kb : UInt64 × List F} (hkb : kb ∈ kbs) : kb.1 ∈ keys := by
  simp only [blobs] at hkbs
  split at hkbs
  · cases hkbs
    cases hkb
  · split at hkbs
    · split at hkbs
      · cases hkbs
        exact (List.of_mem_zip (List.mem_of_mem_filter hkb)).1
      · cases hkbs
    · split at hkbs
      · cases hkbs
        exact (List.of_mem_zip hkb).1
      · cases hkbs

/-- One key of a push leaves the others as they are. -/
theorem Valid.param_pushKey (hs : s.Valid) {pushCount : Bool} {kb : UInt64 × List F}
    (hrun : AsyncServer.pushKey h pushCount s kb = some s') (hk : k ≠ kb.1) :
    s'.param k = s.param k := by
  rw [pushKey_eq hs, Option.map_eq_some_iff] at hrun
  obtain ⟨r, -, rfl⟩ := hrun
  have hput : (s.put kb.1 r.1.toEntry).param k = s.param k := by rw [param_put, if_neg hk]
  rw [← hput]
  exact param_congr rfl k

/-- One key of a pull leaves all of them as they are. -/
theorem Valid.param_pullKey (hs : s.Valid) {vs vs' : List (List F)} {k' : UInt64}
    (hrun : AsyncServer.pullKey h (s, vs) k' = some (s', vs')) : s'.param k = s.param k := by
  rw [pullKey_eq hs] at hrun
  cases hrun
  rw [param_put]
  split
  · next hk => rw [hk]
  · rfl

/-- A push gives weights to its keys only. -/
theorem Named.push (hn : s.Named ids) (hs : s.Valid) {pushCount : Bool} {keys : List UInt64}
    {vals : List F} {sizes : Option (List ℕ)} {r : Option (Response F)}
    (hkeys : ∀ k ∈ keys, ∃ id ∈ ids, reverseBytes id = k)
    (hrun : s.handle h (.push pushCount keys vals sizes) = some (s', r)) : s'.Named ids := by
  simp only [handle, handlePush, Option.bind_eq_bind, Option.map_eq_some_iff,
    Option.bind_eq_some_iff, Option.pure_def, Option.some.injEq] at hrun
  obtain ⟨_, ⟨kbs, hkbs, t, ht, rfl⟩, heq⟩ := hrun
  cases heq
  have hstep : ∀ s, ∀ kb ∈ kbs, ∀ s', s.Valid ∧ s.Named ids →
      pushKey h pushCount s kb = some s' → s'.Valid ∧ s'.Named ids := by
    intro s kb hkb s' hinv hpush
    refine ⟨hinv.1.pushKey hpush, fun k hk => ?_⟩
    by_cases hkey : k = kb.1
    · exact hkey ▸ hkeys kb.1 (mem_of_blobs hkbs hkb)
    · rw [hinv.1.param_pushKey hpush hkey] at hk
      exact hinv.2 k hk
  exact (foldlM_invariant_mem hstep s t ⟨hs, hn⟩ ht).2.congr fun k => param_congr data_report k

/-- A pull gives no weights. -/
theorem Named.pull (hn : s.Named ids) (hs : s.Valid) {keys : List UInt64} {dyn : Bool}
    {r : Option (Response F)} (hrun : s.handle h (.pull keys dyn) = some (s', r)) :
    s'.Named ids := by
  simp only [handle, handlePull, Option.bind_eq_bind, Option.map_eq_some_iff,
    Option.bind_eq_some_iff] at hrun
  obtain ⟨_, ⟨⟨t, vs⟩, ht, hend⟩, heq⟩ := hrun
  have hstep : ∀ (sv : AsyncServer F × List (List F)) k sv', sv.1.Valid ∧ sv.1.Named ids →
      pullKey h sv k = some sv' → sv'.1.Valid ∧ sv'.1.Named ids := by
    intro sv k sv' hinv hpull
    have hrun : pullKey h (sv.1, sv.2) k = some (sv'.1, sv'.2) := hpull
    exact ⟨hinv.1.pullKey hrun, hinv.2.congr fun k => hinv.1.param_pullKey hrun⟩
  have ht' : t.Named ids := (foldlM_invariant hstep keys (s, []) (t, vs) ⟨hs, hn⟩ ht).2
  split at hend
  · cases hend
    cases heq
    exact ht'.congr fun k => param_congr data_report k
  · cases hend

variable [FixedBytes F] [LawfulFixedBytes F]

/-- A checkpoint gives weights to the keys that have one in it. -/
theorem Named.load {s₀ : AsyncServer F} {ids₀ : Set UInt64}
    {order : List (UInt64 × AdaGradEntry F)} {bs : List UInt8} (hn : s.Named ids)
    (hn₀ : s₀.Named ids₀) (hs₀ : s₀.Valid) (ho : s₀.Enumerates order)
    (hbs : saveModel order = some bs) (hrun : s.loadModel bs = some s') :
    s'.Named (ids ∪ ids₀) := by
  rw [loadModel, load_saved ho hs₀ hbs] at hrun
  cases hrun
  intro k hk
  by_cases hmem : k ∈ (saved order).map Prod.fst
  · obtain ⟨kp, hkp, rfl⟩ := List.mem_map.mp hmem
    obtain ⟨-, hparam, hne⟩ := (mem_saved ho).mp hkp
    obtain ⟨id, hid, hkey⟩ := hn₀ kp.1 (hparam ▸ hne)
    exact ⟨id, .inr hid, hkey⟩
  · have hlookup := lookup_loaded_of_notMem (s := s) hmem
    have hparam : ((saved order).foldl loadRecord s).param k = s.param k := by
      rw [param, param, entry, entry, hlookup]
    obtain ⟨id, hid, hkey⟩ := hn k (by rw [← hparam]; exact hk)
    exact ⟨id, .inl hid, hkey⟩

/-! ## The printed ids -/

/-- The states of servers, with the feature ids of the training data. The keys of a push are some of
those that `CountUniqIndex` returns for a minibatch of it, while pulls may ask for any keys; a
checkpoint brings along what its server was trained on. -/
inductive Trained : Set UInt64 → AdaGradHandle F → AsyncServer F → Prop
  | init (h : AdaGradHandle F) (stat : Stat F) : Trained ∅ h (init stat)
  | push {ids : Set UInt64} {h : AdaGradHandle F} {s s' : AsyncServer F} {lc : Localizer}
      {sort : StdSort lessKey} {c : CountType} {blk : InputBlock UInt64 F}
      {pair : List (UInt64 × ℕ)} {uniq : List UInt64} {frq : List c.Count} {pushCount : Bool}
      {keys : List UInt64} {vals : List F} {sizes : Option (List ℕ)}
      {r : Option (Response F)} :
      Trained ids h s → blk.Valid → blk.off 0 = 0 →
      lc.countUniqIndex sort maxIndex c blk = some (pair, uniq, frq) → keys ⊆ uniq →
      s.handle h (.push pushCount keys vals sizes) = some (s', r) →
      Trained (ids ∪ {id | id ∈ blk.ids}) h s'
  | pull {ids : Set UInt64} {h : AdaGradHandle F} {s s' : AsyncServer F} {keys : List UInt64}
      {dyn : Bool} {r : Option (Response F)} :
      Trained ids h s → s.handle h (.pull keys dyn) = some (s', r) → Trained ids h s'
  | load {ids ids₀ : Set UInt64} {h h₀ : AdaGradHandle F} {s s' s₀ : AsyncServer F}
      {bs : List UInt8} {order : List (UInt64 × AdaGradEntry F)} :
      Trained ids h s → Trained ids₀ h₀ s₀ → s₀.Enumerates order →
      saveModel order = some bs → s.loadModel bs = some s' → Trained (ids ∪ ids₀) h s'

omit [LawfulFixedBytes F] in
theorem Trained.reachable (ht : Trained ids h s) : Reachable h s := by
  induction ht with
  | init h stat => exact .init h stat
  | push _ _ _ _ _ hrun ih => exact .handle ih hrun
  | pull _ hrun ih => exact .handle ih hrun
  | load _ _ ho hbs hload ih ih₀ => exact .load ih ih₀ ho hbs hload

/-- **Weights have reversed ids of the training data as keys.** -/
theorem Trained.named (ht : Trained ids h s) : s.Named ids := by
  induction ht with
  | init h stat => exact named_init stat
  | push ht hblk hfirst hcount hsub hrun ih =>
      refine (ih.mono Set.subset_union_left).push ht.reachable.valid (fun k hk => ?_) hrun
      obtain ⟨id, hid, hkey⟩ := (Localizer.mem_uniq hblk hfirst hcount k).mp (hsub hk)
      exact ⟨id, .inr hid, hkey⟩
  | pull ht hrun ih => exact ih.pull ht.reachable.valid hrun
  | load _ ht₀ ho hbs hload ih ih₀ => exact ih.load ih₀ ht₀.reachable.valid ho hbs hload

/-- **Dumped ids are the original ids.** When `max_key` is not set, the key of a feature id is the
reversed id, reversing is its own inverse and exchanges the sixteen groups of four bits, and the
two programs print with `need_inverse`, for every saved key in turn, the feature id of the training
data that it is the key of; no id is printed twice. -/
theorem dumped_ids {order : List (UInt64 × AdaGradEntry F)} (ht : Trained ids h s)
    (ho : s.Enumerates order) (junk junk' : ℕ → F) :
    (∀ id, localKey maxIndex id = reverseBytes id) ∧
    Function.Bijective reverseBytes ∧
    (∀ x, reverseBytes (reverseBytes x) = x) ∧
    (∀ x i, i < 16 → nibble (reverseBytes x) i = nibble x (15 - i)) ∧
    ∃ bs ends lines, saveModel order = some bs ∧
      Dump.run true junk bs = some { state := lines, ends := ends, rest := [] } ∧
      PushWorker.push true junk' bs = some { state := lines, ends := ends, rest := [] } ∧
      List.Forall₂ (fun ke line => ∃ id ∈ ids, localKey maxIndex id = ke.1 ∧
        printedId line = (toString id.toNat).toList) (kept order) lines ∧
      (lines.map printedId).Nodup := by
  refine ⟨fun id => if_neg (lt_irrefl maxIndex), reverseBytes_bijective, reverseBytes_reverseBytes,
    fun x i hi => nibble_reverseBytes x hi, ?_⟩
  have hs := ht.reachable.valid
  have hsize : ∀ kp ∈ saved order, kp.2.emb.length + 1 < 2 ^ 31 :=
    fun kp hkp => size_lt_of_mem_saved ho hs hkp
  have hdump : Dump.run true junk ((saved order).flatMap recordBytes) = _ :=
    dumpLoop_recordBytes (fun k p => p.dump_writeBuffer true k) junk hsize
  have hpush : PushWorker.push true junk' ((saved order).flatMap recordBytes) = _ :=
    dumpLoop_recordBytes (fun k p => p.push_writeBuffer true k) junk' hsize
  have hprinted : ∀ kp : UInt64 × Param F,
      printedId (modelLine (featureId true kp.1) kp.2.weights) =
        (toString (reverseBytes kp.1).toNat).toList :=
    fun kp => printedId_modelLine _ (List.cons_ne_nil _ _)
  refine ⟨_, _, _, saveModel_eq ho hs, hdump, hpush, ?_, ?_⟩
  · rw [kept_eq ho hs, List.forall₂_map_left_iff, List.forall₂_map_right_iff, List.forall₂_same]
    intro kp hkp
    obtain ⟨-, hparam, hne⟩ := (mem_saved ho).mp hkp
    obtain ⟨id, hid, hkey⟩ := ht.named kp.1 (hparam ▸ hne)
    refine ⟨id, hid, (if_neg (lt_irrefl maxIndex)).trans hkey, ?_⟩
    rw [hprinted, ← hkey, reverseBytes_reverseBytes]
  · have hinj : Function.Injective fun k : UInt64 => (toString (reverseBytes k).toNat).toList :=
      fun k k' h => reverseBytes_bijective.1
        (UInt64.toNat_inj.mp (toString_nat_inj (String.toList_inj.mp h)))
    have hnodup := (nodup_saved ho).map hinj
    simpa only [List.map_map, Function.comp_def, hprinted] using hnodup

/-- A minibatch with one feature. -/
def oneFeature : InputBlock UInt64 Binary32 :=
  { size := 1, offset := [0, 1], label := [0], weight := none, index := [5], value := none }

theorem oneFeature_valid : oneFeature.Valid where
  length_offset := rfl
  off_le := by decide
  length_label := rfl
  length_index := by decide
  length_value := by rintro v ⟨⟩

theorem dumped_ids_oneFeature : ∃ (ids : Set UInt64) (s : AsyncServer Binary32) (order : _)
    (bs : List UInt8) (lines : List String), Trained ids (sampleHandle 1 (by decide)) s ∧
    s.Enumerates order ∧ saveModel order = some bs ∧
    (Dump.run true sampleStat.junk bs).map Loaded.state = some lines ∧
    lines.map printedId = [['5']] := by
  obtain ⟨pair, uniq, hcount, -, -, hmem, -⟩ :=
    Localizer.countUniqIndex_eq (Localizer.mk 2 two_pos) (.merge lessKey_strictWeak)
      (by decide : maxIndex ≠ 0) .float oneFeature_valid rfl (by decide) (by decide)
  have hrun : ((init sampleStat).handle (sampleHandle 1 (by decide))
      (.push false [reverseBytes 5] [one] none)).any (fun r =>
        decide (r.1.data.keys = {reverseBytes 5} ∧
          (r.1.entry (reverseBytes 5)).empty = some false)) = true := by
    decide +kernel
  obtain ⟨⟨s, r⟩, hs, htest⟩ := Option.any_eq_true _ _ |>.mp hrun
  obtain ⟨hkeys, hne⟩ := of_decide_eq_true htest
  have ht : Trained (∅ ∪ {id | id ∈ oneFeature.ids}) (sampleHandle 1 (by decide)) s :=
    .push (.init _ sampleStat) oneFeature_valid rfl hcount (by
      simpa using (hmem (reverseBytes 5)).mpr ⟨5, by decide, by decide⟩) hs
  have ho : s.Enumerates ([reverseBytes 5].map fun k => (k, s.entry k)) := by
    refine enumerates_of_keys (by decide) fun k => ?_
    rw [← Finmap.mem_keys, hkeys]
    simp
  have hkept : kept ([reverseBytes 5].map fun k => (k, s.entry k)) =
      [(reverseBytes 5, s.entry (reverseBytes 5))] := by
    simp [kept, hne]
  obtain ⟨-, -, -, -, bs, ends, lines, hbs, hdump, -, hlines, -⟩ :=
    dumped_ids ht ho sampleStat.junk sampleStat.junk
  refine ⟨_, s, _, bs, lines, ht, ho, hbs, by rw [hdump]; rfl, ?_⟩
  rw [hkept] at hlines
  obtain ⟨line, rest, ⟨id, hid, -, hline⟩, hrest, rfl⟩ := List.forall₂_cons_left_iff.mp hlines
  have hfive : id = 5 := by simpa [oneFeature, InputBlock.ids] using hid
  rw [List.forall₂_nil_left_iff.mp hrest, List.map_singleton, hline, hfive]
  decide

end AsyncServer

end Difacto.Server
