import Difacto.Server.Checkpoint

/-!
# Resuming from a checkpoint

A checkpoint leaves out the count of a feature and every entry that is `Empty()`. A
store that loads it goes on as the original would after forgetting these; when nothing
that matters is forgotten, it goes on as the original.

Both follow from one simulation: servers whose entries agree, up to counts of features
that have their whole embedding, answer the same requests alike.

## Main definitions

* `Param.Agree`, `AsyncServer.Sim` — the simulation.
* `AsyncServer.forget` — what a checkpoint keeps of a server.

## Main results

* `AsyncServer.Sim.answer_eq` — similar servers answer alike.
* `AsyncServer.resume_forgets` — resuming.
-/

namespace Difacto.Server

open Base Lib

variable {F : Type} [FloatLike F]

namespace Param

variable {h : AdaGradHandle F} {p q : Param F} {st st' : Stat F}

/-- Contents that no request can tell apart: the count is not looked at any more when
the embedding is whole. -/
structure Agree (h : AdaGradHandle F) (p q : Param F) : Prop where
  w : p.w = q.w
  cg : p.cg = q.cg
  z : p.z = q.z
  emb : p.emb = q.emb
  feaCnt : p.feaCnt = q.feaCnt ∨ h.V.dim ≤ p.emb.length

omit [FloatLike F] in
theorem Agree.refl (p : Param F) : Agree h p p := ⟨rfl, rfl, rfl, rfl, .inl rfl⟩

omit [FloatLike F] in
theorem Agree.symm (hpq : Agree h p q) : Agree h q p where
  w := hpq.w.symm
  cg := hpq.cg.symm
  z := hpq.z.symm
  emb := hpq.emb.symm
  feaCnt := by
    rcases hpq.feaCnt with heq | hle
    · exact .inl heq.symm
    · exact .inr (hpq.emb ▸ hle)

omit [FloatLike F] in
theorem Agree.setCnt {n m : UInt32} (hpq : Agree h p q) (hnm : p.feaCnt = q.feaCnt → n = m) :
    Agree h { p with feaCnt := n } { q with feaCnt := m } where
  w := hpq.w
  cg := hpq.cg
  z := hpq.z
  emb := hpq.emb
  feaCnt := hpq.feaCnt.imp_left hnm

theorem Agree.wants (hpq : Agree h p q) : p.wants h = q.wants h := by
  rcases hpq.feaCnt with heq | hle
  · simp only [Param.wants, heq, hpq.emb, hpq.w]
  · have hp : ¬ p.emb.length < h.V.dim := by omega
    have hq : ¬ q.emb.length < h.V.dim := by rwa [← hpq.emb]
    simp [Param.wants, hp, hq]

/-- Results that go on alike. -/
def AgreeWith (h : AdaGradHandle F) (r r' : Param F × Stat F) : Prop :=
  Agree h r.1 r'.1 ∧ r.2.rand = r'.2.rand

theorem Agree.resize (hpq : Agree h p q) (hst : st.rand = st'.rand) :
    AgreeWith h (p.resize h st) (q.resize h st') := by
  cases hw : p.wants h with
  | false =>
      have hw' : q.wants h = false := hpq.wants ▸ hw
      simp only [Param.resize, hw, hw']
      exact ⟨hpq, hst⟩
  | true =>
      have hw' : q.wants h = true := hpq.wants ▸ hw
      have hlt := (lt_of_wants h p hw).2
      simp only [Param.resize, hw, hw', if_true]
      refine ⟨⟨hpq.w, hpq.cg, hpq.z, ?_, ?_⟩, ?_⟩
      · simp [grow, drawn, hpq.emb, hst]
      · rcases hpq.feaCnt with heq | hle
        · exact .inl heq
        · omega
      · simp [grow, Stat.skip, hpq.emb, hst]

theorem Agree.ftrl (hpq : Agree h p q) (g : F) : Agree h (p.ftrl h g) (q.ftrl h g) := by
  refine ⟨?_, ?_, ?_, hpq.emb, hpq.feaCnt⟩
  · simp [Param.ftrl, hpq.w, hpq.cg, hpq.z]
  · simp [Param.ftrl, hpq.w, hpq.cg]
  · simp [Param.ftrl, hpq.w, hpq.cg, hpq.z]

theorem Agree.updateW (hpq : Agree h p q) (hst : st.rand = st'.rand) (g : F) :
    AgreeWith h (p.updateW h st g) (q.updateW h st' g) := by
  have hf := hpq.ftrl g
  simp only [Param.updateW, hpq.w, hf.w]
  split
  · exact hf.resize hst
  · split
    · exact ⟨hf, hst⟩
    · exact ⟨hf, hst⟩

theorem Agree.updateV (hpq : Agree h p q) (gs : List F) :
    Agree h (p.updateV h gs) (q.updateV h gs) := by
  refine ⟨hpq.w, hpq.cg, hpq.z, ?_, ?_⟩
  · simp [Param.updateV, hpq.emb]
  · rw [length_emb_updateV]
    exact hpq.feaCnt

/-- One push on both sides. -/
theorem Agree.push (hpq : Agree h p q) (hst : st.rand = st'.rand) {pushCount : Bool}
    {recv : List F} {r : Param F × Stat F} (hr : p.push h st pushCount recv = some r) :
    ∃ r', q.push h st' pushCount recv = some r' ∧ AgreeWith h r r' := by
  cases recv with
  | nil => cases hr
  | cons g gs =>
      cases pushCount with
      | true =>
          simp only [Param.push, if_true, Option.some.injEq] at hr
          refine ⟨_, rfl, ?_⟩
          rw [← hr]
          exact (hpq.setCnt fun heq => by rw [heq]).resize hst
      | false =>
          simp only [Param.push, Bool.false_eq_true, if_false] at hr ⊢
          rw [← hpq.emb]
          split at hr
          · rename_i hle
            rw [Option.some.injEq] at hr
            have hu := hpq.updateW hst g
            rw [if_pos hle]
            refine ⟨_, rfl, ?_⟩
            rw [← hr]
            exact ⟨hu.1.updateV gs, hu.2⟩
          · cases hr

theorem Agree.pull (hpq : Agree h p q) : p.pull h = q.pull h := by
  simp only [Param.pull, weights, hpq.emb, hpq.w]

end Param

namespace AsyncServer

variable {h : AdaGradHandle F} {s s' t t' : AsyncServer F}

/-- Servers whose entries agree, with the same random values to come. -/
structure Sim (h : AdaGradHandle F) (s t : AsyncServer F) : Prop where
  left : s.Valid
  right : t.Valid
  rand : s.stat.rand = t.stat.rand
  agree : ∀ k, Param.Agree h (s.param k) (t.param k)

theorem Sim.symm (hst : Sim h s t) : Sim h t s :=
  ⟨hst.right, hst.left, hst.rand.symm, fun k => (hst.agree k).symm⟩

/-- Storing entries that agree. -/
theorem Sim.stored (hst : Sim h s t) {k : UInt64} {p q : Param F} (hpq : Param.Agree h p q)
    (hs' : s'.Valid) (ht' : t'.Valid) (hsdata : s'.data = (s.put k p.toEntry).data)
    (htdata : t'.data = (t.put k q.toEntry).data) (hrand : s'.stat.rand = t'.stat.rand) :
    Sim h s' t' := by
  refine ⟨hs', ht', hrand, fun k' => ?_⟩
  rw [param_congr hsdata, param_congr htdata, param_put, param_put]
  split
  · exact hpq
  · exact hst.agree k'

theorem Sim.pushKey (hst : Sim h s t) {pushCount : Bool} {kb : UInt64 × List F}
    (hrun : pushKey h pushCount s kb = some s') :
    ∃ t', pushKey h pushCount t kb = some t' ∧ Sim h s' t' := by
  have hs' := hst.left.pushKey hrun
  rw [pushKey_eq hst.left, Option.map_eq_some_iff] at hrun
  obtain ⟨r, hr, rfl⟩ := hrun
  obtain ⟨r', hr', hagree⟩ := (hst.agree kb.1).push hst.rand hr
  have hrun' : AsyncServer.pushKey h pushCount t kb =
      some { t.put kb.1 r'.1.toEntry with stat := r'.2 } := by
    rw [pushKey_eq hst.right, hr', Option.map_some]
  exact ⟨_, hrun', hst.stored hagree.1 hs' (hst.right.pushKey hrun') rfl rfl hagree.2⟩

theorem Sim.pullKey (hst : Sim h s t) {k : UInt64} {vs : List (List F)}
    {sv : AsyncServer F × List (List F)} (hrun : pullKey h (s, vs) k = some sv) :
    ∃ t', pullKey h (t, vs) k = some (t', sv.2) ∧ Sim h sv.1 t' := by
  rw [pullKey_eq hst.left, Option.some.injEq] at hrun
  subst hrun
  have hagree := hst.agree k
  refine ⟨t.put k (t.param k).toEntry, ?_, ?_⟩
  · rw [pullKey_eq hst.right, hagree.pull]
  · exact hst.stored hagree (hst.left.put (hst.left.size_lt k))
      (hst.right.put (hst.right.size_lt k)) rfl rfl hst.rand

omit [FloatLike F] in
theorem rand_report : (s.report h).stat.rand = s.stat.rand := by
  rw [report]
  split <;> rfl

theorem Sim.report (hst : Sim h s t) : Sim h (s.report h) (t.report h) where
  left := hst.left.congr data_report
  right := hst.right.congr data_report
  rand := by rw [rand_report, rand_report, hst.rand]
  agree k := by
    rw [param_congr data_report, param_congr data_report]
    exact hst.agree k

/-- A request gets the same response on both sides. -/
theorem Sim.handle (hst : Sim h s t) {req : Request F} {r : Option (Response F)}
    (hrun : s.handle h req = some (s', r)) :
    ∃ t', t.handle h req = some (t', r) ∧ Sim h s' t' := by
  cases req with
  | push pushCount keys vals sizes =>
      simp only [AsyncServer.handle, handlePush, Option.bind_eq_bind, Option.map_eq_some_iff,
        Option.bind_eq_some_iff, Option.pure_def, Option.some.injEq] at hrun
      obtain ⟨_, ⟨kbs, hkbs, s₁, hs₁, rfl⟩, heq⟩ := hrun
      cases heq
      have hturn : ∀ kb (s t s' : AsyncServer F), Sim h s t →
          AsyncServer.pushKey h pushCount s kb = some s' →
            ∃ t', AsyncServer.pushKey h pushCount t kb = some t' ∧ Sim h s' t' :=
        fun _ _ _ _ hst hrun => hst.pushKey hrun
      obtain ⟨t₁, ht₁, hst₁⟩ := foldlM_simulation hturn kbs s t s₁ hst hs₁
      refine ⟨t₁.report h, ?_, hst₁.report⟩
      simp [AsyncServer.handle, handlePush, hkbs, ht₁]
  | pull keys dyn =>
      simp only [AsyncServer.handle, handlePull, Option.bind_eq_bind, Option.map_eq_some_iff,
        Option.bind_eq_some_iff] at hrun
      obtain ⟨_, ⟨⟨s₁, vs⟩, hs₁, hend⟩, heq⟩ := hrun
      have hturn : ∀ k (sv tv sv' : AsyncServer F × List (List F)),
          (Sim h sv.1 tv.1 ∧ sv.2 = tv.2) → AsyncServer.pullKey h sv k = some sv' →
            ∃ tv', AsyncServer.pullKey h tv k = some tv' ∧ Sim h sv'.1 tv'.1 ∧ sv'.2 = tv'.2 := by
        rintro k ⟨s, vs⟩ ⟨t, ws⟩ sv' ⟨hsim, rfl⟩ hrun
        obtain ⟨t', ht', hst'⟩ := hsim.pullKey hrun
        exact ⟨(t', sv'.2), ht', hst', rfl⟩
      obtain ⟨⟨t₁, ws⟩, ht₁, hst₁, hws⟩ := foldlM_simulation hturn keys (s, []) (t, []) (s₁, vs)
        ⟨hst, rfl⟩ hs₁
      dsimp only at hst₁ hws hend
      subst hws
      split at hend
      · rename_i hlen
        cases hend
        cases heq
        refine ⟨t₁.report h, ?_, hst₁.report⟩
        simp [AsyncServer.handle, handlePull, ht₁, hlen]
      · cases hend

theorem Sim.answer (hst : Sim h s t) {reqs : List (Request F)} {rs : List (Option (Response F))}
    (hrun : s.answer h reqs = some (s', rs)) : ∃ t', t.answer h reqs = some (t', rs) := by
  induction reqs generalizing s t rs with
  | nil =>
      cases hrun
      exact ⟨t, rfl⟩
  | cons req reqs ih =>
      simp only [AsyncServer.answer, Option.bind_eq_bind, Option.bind_eq_some_iff] at hrun
      obtain ⟨⟨s₁, r⟩, hs₁, ⟨s₂, rs'⟩, hrest, heq⟩ := hrun
      cases heq
      obtain ⟨t₁, ht₁, hst₁⟩ := hst.handle hs₁
      obtain ⟨t₂, ht₂⟩ := ih hst₁ hrest
      exact ⟨t₂, by simp [AsyncServer.answer, ht₁, ht₂]⟩

/-- **Similar servers answer alike**, and fail a `CHECK` alike. -/
theorem Sim.answer_eq (hst : Sim h s t) (reqs : List (Request F)) :
    (s.answer h reqs).map Prod.snd = (t.answer h reqs).map Prod.snd := by
  cases hs : s.answer h reqs with
  | some r =>
      obtain ⟨s', rs⟩ := r
      obtain ⟨t', ht'⟩ := hst.answer hs
      simp [ht']
  | none =>
      cases ht : t.answer h reqs with
      | none => rfl
      | some r =>
          obtain ⟨s', hs'⟩ := hst.symm.answer ht
          rw [hs] at hs'
          cases hs'

/-! ## Loading what was saved -/

/-- The part of a server that a checkpoint keeps: entries that are not `Empty()`, without
their counts. -/
def forget (s : AsyncServer F) : AsyncServer F :=
  { s with
    data :=
      { entries := (s.data.entries.filter fun ke => ke.2.empty = some false).map fun ke =>
          ⟨ke.1, { ke.2 with feaCnt := 0 }⟩
        nodupKeys := by
          rw [← Multiset.nodup_keys, Multiset.keys, Multiset.map_map]
          exact Multiset.nodup_of_le (Multiset.map_le_map (Multiset.filter_le _ _))
            (Multiset.nodup_keys.mpr s.data.nodupKeys) } }

theorem lookup_forget (k : UInt64) : s.forget.data.lookup k =
    ((s.data.lookup k).filter fun e => e.empty == some false).map fun e =>
      { e with feaCnt := 0 } := by
  ext e
  rw [Finmap.lookup_eq_some_iff]
  simp only [forget, Multiset.mem_map, Multiset.mem_filter, Option.map_eq_some_iff,
    Option.filter_eq_some_iff, Finmap.lookup_eq_some_iff, beq_iff_eq]
  constructor
  · rintro ⟨⟨k', e'⟩, ⟨hmem, hne⟩, heq⟩
    cases heq
    exact ⟨e', ⟨hmem, hne⟩, rfl⟩
  · rintro ⟨e', ⟨hmem, hne⟩, rfl⟩
    exact ⟨⟨k, e'⟩, ⟨hmem, hne⟩, rfl⟩

/-- An entry of which a checkpoint keeps all that matters: one that is saved needs no
count any more, and one that is not saved is as a new one. -/
def Kept (h : AdaGradHandle F) (e : AdaGradEntry F) : Prop :=
  if e.empty = some false then e.feaCnt = 0 ∨ h.V.dim + 1 ≤ e.size else e = .new

theorem param_of_lookup {k : UInt64} {p : Param F} (hk : s.data.lookup k = some p.toEntry) :
    s.param k = p := by
  rw [param, entry_of_lookup hk, Param.param_toEntry]

/-- The entries that were loaded agree with those that were saved if enough was kept. -/
theorem agree_of_kept (hs : s.Valid) (hkept : ∀ k ∈ s.data, Kept h (s.entry k))
    (hdata : s'.data = s.forget.data) (k : UInt64) :
    Param.Agree h (s'.param k) (s.param k) := by
  have hlookup : s'.data.lookup k = _ := hdata ▸ lookup_forget (s := s) k
  cases he : s.data.lookup k with
  | none =>
      rw [he] at hlookup
      have heq : s'.param k = s.param k := by
        rw [param, param, entry, entry, hlookup, he]
        rfl
      rw [heq]
      exact .refl _
  | some e =>
      have hentry : e = (s.param k).toEntry := by rw [← entry_of_lookup he, hs.entry_eq]
      have hk := hkept k (Finmap.mem_iff.mpr ⟨e, he⟩)
      rw [he, hentry, filter_toEntry] at hlookup
      rw [Kept, hs.entry_eq, Param.empty_toEntry] at hk
      cases hempty : (s.param k).empty with
      | false =>
          rw [hempty, if_pos rfl, Param.feaCnt_toEntry, Param.size_toEntry] at hk
          have hp : s'.param k = { s.param k with feaCnt := 0 } := by
            refine param_of_lookup ?_
            rw [hlookup, hempty, (s.param k).toEntry_setCnt 0]
            rfl
          rw [hp]
          refine ⟨rfl, rfl, rfl, rfl, ?_⟩
          rcases hk with hcnt | hsize
          · exact .inl hcnt.symm
          · exact .inr (Nat.le_of_succ_le_succ hsize)
      | true =>
          rw [hempty, if_neg (by simp)] at hk
          have hp : s.param k = Param.new := by
            rw [← (s.param k).param_toEntry, hk, ← Param.toEntry_new, Param.param_toEntry]
          have hp' : s'.param k = Param.new := by
            rw [param, entry, hlookup, hempty]
            exact (Param.new : Param F).param_toEntry
          rw [hp, hp']
          exact .refl _

section Load

variable [FixedBytes F] [LawfulFixedBytes F] {order : List (UInt64 × AdaGradEntry F)}

/-- **Resuming.** For every reachable server and every order in which its entries are
saved, a fresh server that loads the checkpoint and sees the same random values answers
every sequence of requests as the original would with its `Empty()` entries and all
counts forgotten. If the forgotten entries were as new and every saved entry had no
count or its whole embedding, it answers as the original itself. -/
theorem resume_forgets (hr : Reachable h s) (ho : s.Enumerates order) (stat : Stat F)
    (hrand : stat.rand = s.stat.rand) : ∃ bs s', saveModel order = some bs ∧
    (init stat).loadModel bs = some s' ∧
    (∀ reqs, (s'.answer h reqs).map Prod.snd = (s.forget.answer h reqs).map Prod.snd) ∧
    ((∀ k ∈ s.data, Kept h (s.entry k)) →
      ∀ reqs, (s'.answer h reqs).map Prod.snd = (s.answer h reqs).map Prod.snd) := by
  have hs := hr.valid
  have hbs := saveModel_eq ho hs
  obtain ⟨s', hs', hdata, hrand'⟩ : ∃ s' : AsyncServer F,
      (init stat).loadModel ((saved order).flatMap recordBytes) = some s' ∧
        s'.data = s.forget.data ∧ s'.stat.rand = s.stat.rand := by
    rw [loadModel, load_saved ho hs hbs]
    refine ⟨_, rfl, Finmap.ext_lookup fun k => ?_, ?_⟩
    · rw [lookup_forget]
      exact lookup_load_saved ho hs stat k
    · rw [← hrand]
      exact rand_loaded (saved order)
  have hvalid : s'.Valid := ((Reachable.init h stat).load hr ho hbs hs').valid
  refine ⟨_, s', hbs, hs', fun reqs => ?_, fun hkept reqs => ?_⟩
  · refine Sim.answer_eq ⟨hvalid, hvalid.congr hdata.symm, hrand', fun k => ?_⟩ reqs
    rw [param_congr hdata]
    exact .refl _
  · exact Sim.answer_eq ⟨hvalid, hs, hrand', agree_of_kept hs hkept hdata⟩ reqs

/-- A server without loss: a feature with its embedding, one that was never counted and
one that was only asked for. -/
theorem resume_forgets_threeFeatures : ∃ (s s' : AsyncServer Binary32) (order : _)
    (bs : List UInt8), Reachable (sampleHandle 1 (by decide)) s ∧ s.Enumerates order ∧
    order.length = 3 ∧ saveModel order = some bs ∧ (init s.stat).loadModel bs = some s' ∧
    ∀ reqs, (s'.answer (sampleHandle 1 (by decide)) reqs).map Prod.snd =
      (s.answer (sampleHandle 1 (by decide)) reqs).map Prod.snd := by
  have hrun : ((init sampleStat).answer (sampleHandle 1 (by decide)) threeFeatures).any (fun r =>
      decide (r.1.data.keys = {5, 7, 9} ∧ (r.1.entry 5).size = 2 ∧ (r.1.entry 7).feaCnt = 0 ∧
        (r.1.entry 5).empty = some false ∧ (r.1.entry 7).empty = some false ∧
        r.1.entry 9 = .new)) = true := by
    decide +kernel
  obtain ⟨⟨s, rs⟩, hs, htest⟩ := Option.any_eq_true _ _ |>.mp hrun
  obtain ⟨hkeys, h5, h7, h5', h7', h9⟩ := of_decide_eq_true htest
  have hr : Reachable (sampleHandle 1 (by decide)) s := (Reachable.init _ sampleStat).answer hs
  have ho : s.Enumerates ([5, 7, 9].map fun k => (k, s.entry k)) := by
    refine enumerates_of_keys (by decide) fun k => ?_
    rw [← Finmap.mem_keys, hkeys]
    simp
  have hkept : ∀ k ∈ s.data, Kept (sampleHandle 1 (by decide)) (s.entry k) := by
    intro k hk
    rw [← Finmap.mem_keys, hkeys, Finset.mem_insert, Finset.mem_insert,
      Finset.mem_singleton] at hk
    rcases hk with rfl | rfl | rfl
    · rw [Kept, if_pos h5']
      exact .inr (by rw [h5]; decide)
    · rw [Kept, if_pos h7']
      exact .inl h7
    · rw [Kept, h9, if_neg (by decide)]
  obtain ⟨bs, s', hbs, hs', -, hall⟩ := resume_forgets hr ho s.stat rfl
  exact ⟨s, s', _, bs, hr, ho, rfl, hbs, hs', hall hkept⟩

/-- Count a feature, save and load, and go on with both stores. -/
def countLost (again : List (Request Binary32)) :
    Option (AsyncServer Binary32 × List (Option (Response Binary32)) × List UInt8 ×
      AsyncServer Binary32 × (AsyncServer Binary32 × List (Option (Response Binary32))) ×
      (AsyncServer Binary32 × List (Option (Response Binary32)))) := do
  let h := sampleHandle 1 sampleDim_lt
  let (s, rs) ← (init sampleStat).answer h [.push true [5] [one] none]
  let bs ← saveModel ([5].map fun k => (k, s.entry k))
  let s' ← (init s.stat).loadModel bs
  let r ← s.answer h again
  let r' ← s'.answer h again
  return (s, rs, bs, s', r, r')

/-- **A count is lost.** A feature that was seen once gets its embedding when it is seen
again, but not after a checkpoint in between. -/
theorem resume_differs : ∃ (s s' t t' : AsyncServer Binary32) (order : _) (bs : List UInt8)
    (r r' : Response Binary32),
    (init sampleStat).answer (sampleHandle 1 (by decide)) [.push true [5] [one] none] =
      some (s, [none]) ∧
    s.Enumerates order ∧ saveModel order = some bs ∧ (init s.stat).loadModel bs = some s' ∧
    s.answer (sampleHandle 1 (by decide)) [.push true [5] [one] none, .pull [5] true] =
      some (t, [none, some r]) ∧
    s'.answer (sampleHandle 1 (by decide)) [.push true [5] [one] none, .pull [5] true] =
      some (t', [none, some r']) ∧
    r.sizes = [2] ∧ r'.sizes = [1] := by
  have hrun : (countLost [.push true [5] [one] none, .pull [5] true]).any (fun c =>
      decide (c.1.data.keys = {5} ∧ c.2.1 = [none] ∧
        c.2.2.2.2.1.2 = [none, some { vals := [0, one], sizes := [2] }] ∧
        c.2.2.2.2.2.2 = [none, some { vals := [0], sizes := [1] }])) = true := by
    decide +kernel
  obtain ⟨⟨s, rs, bs, s', ⟨t, ts⟩, ⟨t', ts'⟩⟩, hlost, htest⟩ := Option.any_eq_true _ _ |>.mp hrun
  obtain ⟨hkeys, hrs, hts, hts'⟩ := of_decide_eq_true htest
  simp only [countLost, Option.bind_eq_bind, Option.bind_eq_some_iff, Option.pure_def,
    Option.some.injEq, Prod.mk.injEq, Prod.exists] at hlost
  obtain ⟨s₁, _, hs, _, hbs, s₂, hs', t₁, _, ht, t₂, _, ht', rfl, rfl, rfl, rfl, ⟨rfl, rfl⟩,
    rfl, rfl⟩ := hlost
  dsimp only at hkeys hrs hts hts'
  subst hrs hts hts'
  have ho : s₁.Enumerates ([5].map fun k => (k, s₁.entry k)) := by
    refine enumerates_of_keys (by decide) fun k => ?_
    rw [← Finmap.mem_keys, hkeys]
    simp
  exact ⟨s₁, s₂, t₁, t₂, _, _, _, _, hs, ho, hbs, hs', ht, ht', rfl, rfl⟩

end Load

end AsyncServer

end Difacto.Server
