import Difacto.Server.Store
import Difacto.Lib.Reach

/-!
# The contents of a server

What a request and a checkpoint do to a server, said once on the contents of its
entries. A server is valid when every entry stands for a `Param` whose size fits an
`int`; every reachable server is valid. On a valid server the loops of `HandlePush`,
`HandlePull`, `Save` and `Load` do what the functions on `Param` say.

## Main definitions

* `AsyncServer.param`, `AsyncServer.Valid` — the contents of an entry, and that it has some.
* `Param.Tracks` — how a push moves the size of an entry and the counters.
* `AsyncServer.saved` — the records of a checkpoint, with `AsyncServer.recordBytes`.

## Main results

* `AsyncServer.handle_invariant` — what every key of a request preserves, requests preserve.
* `AsyncServer.saveModel_eq`, `AsyncServer.load_recordBytes` — checkpoints, record by record.
* `AsyncServer.Reachable.valid`.
-/

namespace Difacto.Server

open Base Lib

variable {F : Type} [FloatLike F]

namespace Param

variable (h : AdaGradHandle F) (p : Param F) (st : Stat F)

/-- Whether the weight counts as `new_w`. -/
def nonzero : ℤ := if p.w != 0 then 1 else 0

/-- How a push may move the size of the entry, and what it counts. -/
structure Tracks (r : Param F × Stat F) : Prop where
  size : r.1.emb.length = p.emb.length ∨ p.emb.length < h.V.dim ∧ r.1.emb.length = h.V.dim
  newV : r.2.newV = st.newV + (r.1.emb.length - p.emb.length)
  newW : r.2.newW = st.newW + (r.1.nonzero - p.nonzero)

theorem nonzero_congr {p q : Param F} (hw : (q.w == 0) = (p.w == 0)) :
    q.nonzero = p.nonzero := by
  simp [nonzero, bne, hw]

theorem tracks_resize : p.Tracks h st (p.resize h st) := by
  have hw : (p.resize h st).1.nonzero = p.nonzero := nonzero_congr (by rw [w_resize])
  rcases resize_cases h p st with ⟨-, hres⟩ | ⟨hwants, hres⟩
  · exact ⟨.inl (by rw [hres]), by simp [hres], by simp [hres]⟩
  · have hlt := (lt_of_wants h p hwants).2
    have hlen := length_emb_grow h p st hwants
    refine ⟨.inr ⟨hlt, by rw [hres, hlen]⟩, ?_, ?_⟩
    · rw [hres, hlen]
      simp only [grow]
      omega
    · rw [hw, hres]
      simp [grow, Stat.skip]

/-- The weight is counted when it becomes non-zero, and no longer when it becomes zero. -/
theorem tracks_updateW (g : F) : p.Tracks h st (p.updateW h st g) := by
  rcases updateW_cases h p st g with ⟨hp, hq, hu⟩ | ⟨hp, hq, hu⟩ | ⟨hq, hu⟩
  · have hres := tracks_resize h (p.ftrl h g) { st with newW := st.newW + 1 }
    have hpz : p.nonzero = 0 := by simp [nonzero, bne, hp]
    have hqz : (p.ftrl h g).nonzero = 1 := by simp [nonzero, bne, hq]
    rw [hu]
    refine ⟨hres.size, hres.newV, ?_⟩
    rw [hres.newW, hpz, hqz]
    simp only
    omega
  · have hpz : p.nonzero = 1 := by simp [nonzero, bne, hp]
    have hqz : (p.ftrl h g).nonzero = 0 := by simp [nonzero, bne, hq]
    rw [hu]
    refine ⟨.inl rfl, by simp, ?_⟩
    rw [hpz, hqz]
    simp only
    omega
  · rw [hu]
    exact ⟨.inl rfl, by simp, by simp [nonzero_congr hq]⟩

/-- **What a push does** to the size of the entry and to the counters. -/
theorem tracks_push {pushCount : Bool} {recv : List F} {r : Param F × Stat F}
    (hpush : p.push h st pushCount recv = some r) : p.Tracks h st r := by
  cases recv with
  | nil => cases hpush
  | cons g gs =>
      cases pushCount with
      | true =>
          simp only [push, if_true, Option.some.injEq] at hpush
          have hres := tracks_resize h { p with feaCnt := p.feaCnt + FloatLike.toUnsigned g } st
          rw [hpush] at hres
          exact ⟨hres.size, hres.newV, hres.newW⟩
      | false =>
          simp only [push, Bool.false_eq_true, if_false] at hpush
          split at hpush
          · rw [Option.some.injEq] at hpush
            have hu := tracks_updateW h p st g
            subst hpush
            refine ⟨?_, ?_, hu.newW⟩
            · rw [length_emb_updateV]
              exact hu.size
            · rw [length_emb_updateV]
              exact hu.newV
          · cases hpush

end Param

namespace AsyncServer

/-- The contents of `data_[key]`. -/
def param (s : AsyncServer F) (key : UInt64) : Param F := (s.entry key).param

/-- Every entry has contents. -/
structure Valid (s : AsyncServer F) : Prop where
  entry_eq : ∀ k, s.entry k = (s.param k).toEntry
  size_lt : ∀ k, (s.param k).emb.length + 1 < 2 ^ 31

variable {h : AdaGradHandle F} {s s' : AsyncServer F} {k k' : UInt64}

theorem entry_put (e : AdaGradEntry F) :
    (s.put k e).entry k' = if k' = k then e else s.entry k' := by
  by_cases hk : k' = k
  · subst hk
    simp [entry, put]
  · simp [entry, put, hk, Finmap.lookup_insert_of_ne _ hk]

theorem param_put (p : Param F) :
    (s.put k p.toEntry).param k' = if k' = k then p else s.param k' := by
  rw [param, entry_put]
  split
  · exact p.param_toEntry
  · rfl

theorem entry_of_lookup {e : AdaGradEntry F} (he : s.data.lookup k = some e) :
    s.entry k = e := by
  simp [entry, he]

theorem entry_congr (hdata : s'.data = s.data) (k : UInt64) : s'.entry k = s.entry k := by
  rw [entry, entry, hdata]

theorem param_congr (hdata : s'.data = s.data) (k : UInt64) : s'.param k = s.param k := by
  rw [param, param, entry_congr hdata]

/-- Only the entries matter. -/
theorem Valid.congr (hs : s.Valid) (hdata : s'.data = s.data) : s'.Valid := by
  refine ⟨fun k => ?_, fun k => ?_⟩
  · rw [entry_congr hdata, param_congr hdata, hs.entry_eq]
  · rw [param_congr hdata]
    exact hs.size_lt k

theorem Valid.put (hs : s.Valid) {p : Param F} (hp : p.emb.length + 1 < 2 ^ 31) :
    (s.put k p.toEntry).Valid := by
  refine ⟨fun k' => ?_, fun k' => ?_⟩
  · rw [entry_put, param_put]
    split
    · rfl
    · exact hs.entry_eq k'
  · rw [param_put]
    split
    · exact hp
    · exact hs.size_lt k'

theorem param_init (stat : Stat F) (k : UInt64) : (init stat).param k = Param.new := by
  rw [param, entry, init, Finmap.lookup_empty, Option.getD_none, ← Param.toEntry_new,
    Param.param_toEntry]

theorem valid_init (stat : Stat F) : (init stat).Valid := by
  refine ⟨fun k => ?_, fun k => ?_⟩
  · rw [param_init]
    rfl
  · rw [param_init]
    simp [Param.new]

/-! ## Requests -/

theorem pushKey_eq (hs : s.Valid) (pushCount : Bool) (kb : UInt64 × List F) :
    pushKey h pushCount s kb = ((s.param kb.1).push h s.stat pushCount kb.2).map fun r =>
      { s.put kb.1 r.1.toEntry with stat := r.2 } := by
  rw [pushKey, hs.entry_eq, Param.push_toEntry]
  cases (s.param kb.1).push h s.stat pushCount kb.2 <;> rfl

theorem pullKey_eq (hs : s.Valid) (vs : List (List F)) :
    pullKey h (s, vs) k =
      some (s.put k (s.param k).toEntry, vs ++ [(s.param k).pull h]) := by
  simp [pullKey, hs.entry_eq, Param.pull_toEntry]

/-- **The invariant rule for requests**: it is enough to look at one key of a push, at
one key of a pull and at `Report`. -/
theorem handle_invariant {P : AsyncServer F → Prop}
    (hpush : ∀ s s' pushCount kb, P s → pushKey h pushCount s kb = some s' → P s')
    (hpull : ∀ s s' k vs vs', P s → pullKey h (s, vs) k = some (s', vs') → P s')
    (hreport : ∀ s, P s → P (s.report h)) {req : Request F} {r : Option (Response F)}
    (hs : P s) (hrun : s.handle h req = some (s', r)) : P s' := by
  cases req with
  | push pushCount keys vals sizes =>
      simp only [handle, handlePush, Option.bind_eq_bind, Option.map_eq_some_iff,
        Option.bind_eq_some_iff, Option.pure_def, Option.some.injEq] at hrun
      obtain ⟨_, ⟨kbs, -, t, ht, rfl⟩, heq⟩ := hrun
      cases heq
      exact hreport t (foldlM_invariant (fun s a s' => hpush s s' pushCount a) kbs s t hs ht)
  | pull keys dyn =>
      simp only [handle, handlePull, Option.bind_eq_bind, Option.map_eq_some_iff,
        Option.bind_eq_some_iff] at hrun
      obtain ⟨_, ⟨⟨t, vs⟩, ht, hend⟩, heq⟩ := hrun
      have hturn : ∀ (sv : AsyncServer F × List (List F)) k sv', P sv.1 →
          pullKey h sv k = some sv' → P sv'.1 := fun sv k sv' => hpull sv.1 sv'.1 k sv.2 sv'.2
      have hP : P t := foldlM_invariant hturn keys (s, []) (t, vs) hs ht
      split at hend
      · cases hend
        cases heq
        exact hreport t hP
      · cases hend

/-- What every request preserves, a sequence of requests preserves. -/
theorem answer_invariant {P : AsyncServer F → Prop}
    (hstep : ∀ s s' req r, P s → s.handle h req = some (s', r) → P s') {reqs : List (Request F)}
    {rs : List (Option (Response F))} (hs : P s) (hrun : s.answer h reqs = some (s', rs)) :
    P s' := by
  induction reqs generalizing s rs with
  | nil =>
      cases hrun
      exact hs
  | cons req reqs ih =>
      simp only [answer, Option.bind_eq_bind, Option.bind_eq_some_iff] at hrun
      obtain ⟨⟨t, r⟩, ht, ⟨s'', rs'⟩, hrest, heq⟩ := hrun
      cases heq
      exact ih (hstep s t req r hs ht) hrest

/-- One more request. -/
theorem answer_snoc {t t' : AsyncServer F} {reqs : List (Request F)} {req : Request F}
    {rs : List (Option (Response F))} {r : Option (Response F)}
    (hrun : s.answer h reqs = some (t, rs)) (hlast : t.handle h req = some (t', r)) :
    s.answer h (reqs ++ [req]) = some (t', rs ++ [r]) := by
  induction reqs generalizing s rs with
  | nil =>
      cases hrun
      simp [answer, hlast]
  | cons req' reqs ih =>
      simp only [answer, Option.bind_eq_bind, Option.bind_eq_some_iff] at hrun
      obtain ⟨⟨u, r'⟩, hu, ⟨t'', rs'⟩, hrest, heq⟩ := hrun
      cases heq
      simp [answer, hu, ih hrest]

theorem Valid.pushKey (hs : s.Valid) {pushCount : Bool} {kb : UInt64 × List F}
    (hrun : pushKey h pushCount s kb = some s') : s'.Valid := by
  rw [pushKey_eq hs, Option.map_eq_some_iff] at hrun
  obtain ⟨r, hr, rfl⟩ := hrun
  have hsize := hs.size_lt kb.1
  have hdim := h.V.dim_lt
  have hlt : r.1.emb.length + 1 < 2 ^ 31 := by
    rcases (Param.tracks_push h _ _ hr).size with hlen | ⟨-, hlen⟩ <;> omega
  exact (hs.put hlt).congr rfl

theorem Valid.pullKey (hs : s.Valid) {vs vs' : List (List F)}
    (hrun : pullKey h (s, vs) k = some (s', vs')) : s'.Valid := by
  rw [pullKey_eq hs] at hrun
  cases hrun
  exact hs.put (hs.size_lt k)

omit [FloatLike F] in
theorem data_report : (s.report h).data = s.data := by
  rw [report]
  split <;> rfl

theorem Valid.handle (hs : s.Valid) {req : Request F} {r : Option (Response F)}
    (hrun : s.handle h req = some (s', r)) : s'.Valid :=
  handle_invariant (fun _ _ _ _ hs hrun => hs.pushKey hrun)
    (fun _ _ _ _ _ hs hrun => hs.pullKey hrun) (fun _ hs => hs.congr data_report) hs hrun

/-! ## Checkpoints -/

/-- The records of a checkpoint, when the entries are met in this order. -/
def saved (order : List (UInt64 × AdaGradEntry F)) : List (UInt64 × Param F) :=
  (order.map fun ke => (ke.1, ke.2.param)).filter fun kp => !kp.2.empty

section Orders

variable {order : List (UInt64 × AdaGradEntry F)}

/-- The entries, in the order of a list of the keys. -/
theorem enumerates_of_keys {ks : List UInt64} (hnodup : ks.Nodup) (hks : ∀ k, k ∈ ks ↔ k ∈ s.data) :
    s.Enumerates (ks.map fun k => (k, s.entry k)) := by
  refine ⟨by simpa [Function.comp_def] using hnodup, fun k e => ?_⟩
  rw [List.mem_map]
  constructor
  · intro hmem
    obtain ⟨k', hk', heq⟩ := hmem
    cases heq
    obtain ⟨e, he⟩ := Finmap.mem_iff.mp ((hks k).mp hk')
    rw [entry_of_lookup he, he]
  · intro he
    exact ⟨k, (hks k).mpr (Finmap.mem_iff.mpr ⟨e, he⟩), by rw [entry_of_lookup he]⟩

theorem Enumerates.entry_eq (ho : s.Enumerates order) {ke : UInt64 × AdaGradEntry F}
    (hke : ke ∈ order) : ke.2 = s.entry ke.1 :=
  (entry_of_lookup ((ho.2 ke.1 ke.2).mp hke)).symm

/-- The entries met are those of the contents. -/
theorem Enumerates.order_eq (ho : s.Enumerates order) (hs : s.Valid) :
    (order.map fun ke => (ke.1, ke.2.param)).map (fun kp => (kp.1, kp.2.toEntry)) = order := by
  rw [List.map_map]
  conv_rhs => rw [← List.map_id order]
  refine List.map_congr_left fun ke hke => ?_
  have hentry : ke.2.param.toEntry = ke.2 := by
    rw [ho.entry_eq hke]
    exact (hs.entry_eq ke.1).symm
  simp [hentry]

theorem mem_saved (ho : s.Enumerates order) {kp : UInt64 × Param F} :
    kp ∈ saved order ↔ kp.1 ∈ s.data ∧ kp.2 = s.param kp.1 ∧ kp.2.empty = false := by
  rw [saved, List.mem_filter, List.mem_map, Bool.not_eq_true', ← and_assoc]
  refine and_congr_left fun _ => ?_
  constructor
  · intro hmem
    obtain ⟨ke, hke, rfl⟩ := hmem
    refine ⟨?_, by rw [param, ← ho.entry_eq hke]⟩
    rw [← Finmap.lookup_isSome, (ho.2 ke.1 ke.2).mp hke]
    rfl
  · rintro ⟨hk, hp⟩
    obtain ⟨e, he⟩ := Finmap.mem_iff.mp hk
    refine ⟨(kp.1, e), (ho.2 kp.1 e).mpr he, ?_⟩
    rw [← entry_of_lookup he]
    exact Prod.ext rfl hp.symm

theorem notMem_saved (ho : s.Enumerates order) (hk : k ∈ s.data → (s.param k).empty = true) :
    k ∉ (saved order).map Prod.fst := by
  intro hmem
  obtain ⟨kp, hkp, rfl⟩ := List.mem_map.mp hmem
  obtain ⟨hdata, hp, hne⟩ := (mem_saved ho).mp hkp
  rw [hp, hk hdata] at hne
  cases hne

theorem nodup_saved (ho : s.Enumerates order) : ((saved order).map Prod.fst).Nodup := by
  have hkeys : (order.map fun ke => (ke.1, ke.2.param)).map Prod.fst = order.map Prod.fst := by
    rw [List.map_map]
    rfl
  refine List.Nodup.sublist (List.Sublist.map Prod.fst List.filter_sublist) ?_
  rw [hkeys]
  exact ho.1

end Orders

/-- The state after one record: the count of the feature stays. -/
def loadRecord (s : AsyncServer F) (kp : UInt64 × Param F) : AsyncServer F :=
  { s.put kp.1 { kp.2 with feaCnt := (s.entry kp.1).feaCnt }.toEntry with
    stat := { s.stat with
      newW := s.stat.newW + kp.2.nonzero
      newV := s.stat.newV + kp.2.emb.length } }

theorem lookup_loadRecord_of_ne (s : AsyncServer F) (kp : UInt64 × Param F) (k : UInt64)
    (hk : k ≠ kp.1) : (s.loadRecord kp).data.lookup k = s.data.lookup k :=
  Finmap.lookup_insert_of_ne _ hk

/-- Keys without a record keep their entries. -/
theorem lookup_loaded_of_notMem {kps : List (UInt64 × Param F)} (hk : k ∉ kps.map Prod.fst) :
    (kps.foldl loadRecord s).data.lookup k = s.data.lookup k :=
  foldl_frame (fun s k => s.data.lookup k) lookup_loadRecord_of_ne hk s

/-- Keys with a record get its contents. -/
theorem lookup_loaded_of_mem {kps : List (UInt64 × Param F)} (hnodup : (kps.map Prod.fst).Nodup)
    {kp : UInt64 × Param F} (hkp : kp ∈ kps) :
    (kps.foldl loadRecord s).data.lookup kp.1 =
      some { kp.2 with feaCnt := (s.entry kp.1).feaCnt }.toEntry := by
  exact foldl_once (fun s k => s.data.lookup k) lookup_loadRecord_of_ne
    (fun e p => some { p with feaCnt := (e.getD .new).feaCnt }.toEntry)
    (fun s kp => Finmap.lookup_insert _) hnodup hkp s

theorem rand_loaded (kps : List (UInt64 × Param F)) :
    (kps.foldl loadRecord s).stat.rand = s.stat.rand := by
  induction kps generalizing s with
  | nil => rfl
  | cons kp kps ih => exact ih

theorem Valid.loaded (hs : s.Valid) {kps : List (UInt64 × Param F)}
    (hsize : ∀ kp ∈ kps, kp.2.emb.length + 1 < 2 ^ 31) : (kps.foldl loadRecord s).Valid := by
  induction kps generalizing s with
  | nil => exact hs
  | cons kp kps ih =>
      have hput : (s.put kp.1 { kp.2 with feaCnt := (s.entry kp.1).feaCnt }.toEntry).Valid :=
        hs.put (hsize kp (by simp))
      exact ih (hput.congr rfl) fun kp' hkp' => hsize kp' (List.mem_cons_of_mem _ hkp')

variable [FixedBytes F]

/-- The record of one key. -/
def recordBytes (kp : UInt64 × Param F) : List UInt8 := leBytes 8 kp.1.toNat ++ kp.2.bytes

theorem saveEntry_toEntry (k : UInt64) (p : Param F) :
    saveEntry (k, p.toEntry) = some (if p.empty then [] else recordBytes (k, p)) := by
  simp only [saveEntry, Param.empty_toEntry, Option.bind_eq_bind, Option.bind_some,
    Param.save_toEntry]
  cases p.empty <;> rfl

/-- What is written is one record after the other. -/
theorem saveModel_toEntry (kps : List (UInt64 × Param F)) :
    saveModel (kps.map fun kp => (kp.1, kp.2.toEntry)) =
      some ((kps.filter fun kp => !kp.2.empty).flatMap recordBytes) := by
  have hmap : (kps.map fun kp => (kp.1, kp.2.toEntry)).mapM saveEntry =
      some (kps.map fun kp => if kp.2.empty then [] else recordBytes kp) := by
    induction kps with
    | nil => rfl
    | cons kp kps ih => simp [List.mapM_cons, saveEntry_toEntry, ih]
  have hflat : (kps.map fun kp => if kp.2.empty then [] else recordBytes kp).flatten =
      (kps.filter fun kp => !kp.2.empty).flatMap recordBytes := by
    clear hmap
    induction kps with
    | nil => rfl
    | cons kp kps ih => cases hkp : kp.2.empty <;> simp [hkp, ih]
  simp [saveModel, hmap, hflat]

theorem saveModel_eq {order : List (UInt64 × AdaGradEntry F)} (ho : s.Enumerates order)
    (hs : s.Valid) :
    saveModel order = some ((saved order).flatMap recordBytes) := by
  have hsave := saveModel_toEntry (order.map fun ke => (ke.1, ke.2.param))
  rwa [ho.order_eq hs] at hsave

theorem readKey_append (k : UInt64) (bs : List UInt8) :
    readKey (leBytes 8 k.toNat ++ bs) = some (k, bs) := by
  have hlt : k.toNat < 256 ^ 8 := k.toNat_lt
  have hlen : ¬ (leBytes 8 k.toNat ++ bs).length < 8 := by
    rw [List.length_append, length_leBytes]
    omega
  rw [readKey, if_neg hlen, List.take_left' (length_leBytes 8 _),
    List.drop_left' (length_leBytes 8 _), ofLeBytes_leBytes hlt, UInt64.ofNat_toNat]

variable [LawfulFixedBytes F]

theorem loadEntry_bytes (s : AsyncServer F) (k : UInt64) (p : Param F) (rest : List UInt8)
    (hsize : p.emb.length + 1 < 2 ^ 31) :
    loadEntry k s (p.bytes ++ rest) = some (s.loadRecord (k, p), rest) := by
  simp only [loadEntry, Param.loadFields_bytes _ _ _ _ hsize, Option.bind_eq_bind,
    Option.bind_some, Param.w0_toEntry, Param.size_toEntry, loadRecord]
  have hnewV : (if p.emb.length + 1 = 1 then s.stat.newV
      else s.stat.newV + (((p.emb.length + 1 : ℕ) : ℤ) - 1)) = s.stat.newV + p.emb.length := by
    split <;> omega
  have hnewW : (if (p.w != 0) = true then s.stat.newW + 1 else s.stat.newW) =
      s.stat.newW + p.nonzero := by
    rw [Param.nonzero]
    split <;> omega
  rw [hnewV, hnewW]
  rfl

/-- **A checkpoint is read record by record**, to its end. -/
theorem load_recordBytes {kps : List (UInt64 × Param F)}
    (hsize : ∀ kp ∈ kps, kp.2.emb.length + 1 < 2 ^ 31) (s : AsyncServer F) :
    s.load (kps.flatMap recordBytes) = some
      { state := kps.foldl loadRecord s, ends := recordEnds recordBytes kps, rest := [] } := by
  refine readRecords_flatMap (by rfl) ?_ s
  intro kp hkp s rest
  refine ⟨kp.1, kp.2.bytes ++ rest, ?_, loadEntry_bytes s kp.1 kp.2 rest (hsize kp hkp)⟩
  rw [recordBytes, List.append_assoc, readKey_append]

section Saved

variable {s₀ : AsyncServer F} {order : List (UInt64 × AdaGradEntry F)} {bs : List UInt8}

omit [FixedBytes F] [LawfulFixedBytes F] in
theorem size_lt_of_mem_saved (ho : s₀.Enumerates order) (hs₀ : s₀.Valid)
    {kp : UInt64 × Param F} (hkp : kp ∈ saved order) : kp.2.emb.length + 1 < 2 ^ 31 := by
  rw [((mem_saved ho).mp hkp).2.1]
  exact hs₀.size_lt kp.1

/-- Loading what a valid server saved. -/
theorem load_saved (ho : s₀.Enumerates order) (hs₀ : s₀.Valid)
    (hbs : saveModel order = some bs) (s : AsyncServer F) :
    s.load bs = some { state := (saved order).foldl loadRecord s,
                       ends := recordEnds recordBytes (saved order), rest := [] } := by
  rw [saveModel_eq ho hs₀, Option.some.injEq] at hbs
  rw [← hbs]
  exact load_recordBytes (fun kp hkp => size_lt_of_mem_saved ho hs₀ hkp) s

/-- **Reachable servers are valid**, also those that loaded what another one saved. -/
theorem Reachable.valid (hr : Reachable h s) : s.Valid := by
  induction hr with
  | init h stat => exact valid_init stat
  | handle _ hrun ih => exact ih.handle hrun
  | load _ _ ho hbs hload ih ih₀ =>
      rw [loadModel, load_saved ho ih₀ hbs] at hload
      cases hload
      exact (ih.loaded fun kp hkp => size_lt_of_mem_saved ho ih₀ hkp).congr rfl

end Saved

omit [LawfulFixedBytes F] in
theorem Reachable.answer {reqs : List (Request F)} {rs : List (Option (Response F))}
    (hr : Reachable h s) (hrun : s.answer h reqs = some (s', rs)) : Reachable h s' :=
  answer_invariant (fun _ _ _ _ hs hstep => hs.handle hstep) hr hrun

end AsyncServer

end Difacto.Server
