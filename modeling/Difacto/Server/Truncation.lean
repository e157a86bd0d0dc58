import Difacto.Server.Checkpoint

/-!
# Checkpoints that are cut off

What `KVStoreSparseST::Load` of `ps-lite/src/kv/kv_store_sparse_st.h` with
`AdaGradEntry::Load` of `difacto/async_sgd.h` makes of the beginning of a checkpoint. A key that
cannot be read ends the loop. The three reads of an entry are not checked: a short one leaves
what was there before. The only step that reports an error is `new float[size]`, for a negative
size. (`FTRLEntry::Load` of `linear/async_sgd.h` checks its reads.)

## Main definitions

* `AsyncServer.ReportsError` — `Load` reports an error.
* `AsyncServer.Boundary` — a record of the checkpoint ends here.

## Main results

* `AsyncServer.not_reportsError_part` — no error for a part of a record.
* `AsyncServer.truncated_iff` — which beginnings of a checkpoint are treated right.
-/

namespace Difacto.Server

open Base Lib

variable {F : Type} [FloatLike F] [FixedBytes F]

/-- The size that `Read(&size, sizeof(size))` leaves in an entry, as an unsigned number. -/
def AdaGradEntry.sizeRead (e : AdaGradEntry F) (bs : List UInt8) : ℕ :=
  ofLeBytes (readInto 4 (leBytes 4 e.size) bs).1

/-- The bytes of an entry of this size, without the size. -/
def entryWidth (F : Type) [FixedBytes F] (size : ℕ) : ℕ :=
  if size = 1 then 2 * FixedBytes.width F + 2 * FixedBytes.width F
  else FixedBytes.width F * size + FixedBytes.width F * (size + 1)

namespace AsyncServer

/-- `Load` reports an error: a record that it comes to has a negative size. -/
inductive ReportsError : AsyncServer F → List UInt8 → Prop
  | size {s : AsyncServer F} {bs bs' : List UInt8} {k : UInt64} :
      readKey bs = some (k, bs') → 2 ^ 31 ≤ (s.entry k).sizeRead bs' → ReportsError s bs
  | later {s s' : AsyncServer F} {bs bs' rest : List UInt8} {k : UInt64} :
      readKey bs = some (k, bs') → loadEntry k s bs' = some (s', rest) →
      ReportsError s' rest → ReportsError s bs

/-- The first `i` entries that are saved take `n` bytes. -/
def EndsAt (order : List (UInt64 × AdaGradEntry F)) (i n : ℕ) : Prop :=
  i ≤ (kept order).length ∧
    n = (((kept order).take i).flatMap fun ke => (saveEntry ke).getD []).length

/-- A record ends after `n` bytes. -/
def Boundary (order : List (UInt64 × AdaGradEntry F)) (n : ℕ) : Prop := ∃ i, EndsAt order i n

/-- An empty store completes loading with exactly these entries, their features not counted. -/
def LoadsExactly (stat : Stat F) (bs : List UInt8) (kes : List (UInt64 × AdaGradEntry F)) : Prop :=
  ∃ l, (init stat).load bs = some l ∧ l.rest = [] ∧
    ∀ k e, l.state.data.lookup k = some e ↔ ∃ e', (k, e') ∈ kes ∧ e = { e' with feaCnt := 0 }

end AsyncServer

/-! ## Parts of an entry -/

section Part

variable [LawfulFixedBytes F]

omit [FloatLike F] [LawfulFixedBytes F] in
theorem Slot.rest_readRep {old w : Slot F} {bs rest : List UInt8}
    (h : old.readRep bs = some (w, rest)) : rest = bs.drop (2 * FixedBytes.width F) := by
  simp only [Slot.readRep] at h
  split at h
  · cases h
    rfl
  · cases h

omit [FloatLike F] [LawfulFixedBytes F] in
/-- What is left after an entry. -/
theorem AdaGradEntry.rest_loadFields {junk : ℕ → F} {e e' : AdaGradEntry F}
    {bs rest : List UInt8} (h : e.loadFields junk bs = some (e', rest)) :
    rest = bs.drop (4 + entryWidth F (e.sizeRead bs)) := by
  by_cases hone : e.sizeRead bs = 1
  · simp only [loadFields, Option.bind_eq_bind] at h
    rw [sizeRead] at hone
    rw [if_pos hone, Option.bind_eq_some_iff] at h
    obtain ⟨⟨w, bs₁⟩, hw, h⟩ := h
    rw [Option.bind_eq_some_iff] at h
    obtain ⟨⟨cg, bs₂⟩, hcg, h⟩ := h
    cases h
    rw [Slot.rest_readRep hcg, Slot.rest_readRep hw, readInto, List.drop_drop, List.drop_drop,
      sizeRead, hone, entryWidth, if_pos rfl]
  · simp only [loadFields] at h
    rw [sizeRead] at hone
    rw [if_neg hone] at h
    split at h
    · cases h
      rw [Slot.readArray, Slot.readArray, readInto, readInto, readInto, List.drop_drop,
        List.drop_drop, sizeRead, entryWidth, if_neg hone, Nat.add_assoc]
      rfl
    · cases h

theorem Param.length_bytes (p : Param F) :
    p.bytes.length = 4 + entryWidth F (p.emb.length + 1) := by
  obtain ⟨n, w, cg, z, emb⟩ := p
  cases emb with
  | nil =>
      simp only [Param.bytes, entryWidth, List.length_append, length_leBytes, length_toBytes,
        List.length_nil, if_pos]
      omega
  | cons v vs =>
      have hsize : ¬ (v :: vs).length + 1 = 1 := by
        rw [List.length_cons]
        omega
      rw [Param.bytes, entryWidth, if_neg hsize]
      simp only [List.length_append, length_leBytes, length_toBytesArray, Param.length_weights,
        Param.length_sqcGrads]

omit [LawfulFixedBytes F] in
/-- The size of an entry is read from its first four bytes. -/
theorem AdaGradEntry.sizeRead_take (e : AdaGradEntry F) (p : Param F) {m : ℕ} (hm : 4 ≤ m)
    (hsize : p.emb.length + 1 < 2 ^ 31) : e.sizeRead (p.bytes.take m) = p.emb.length + 1 := by
  have hlt : p.emb.length + 1 < 256 ^ 4 := hsize.trans (by decide)
  have hsplit : p.bytes.take m = leBytes 4 (p.emb.length + 1) ++ (p.bytes.drop 4).take (m - 4) := by
    rw [show m = 4 + (m - 4) by omega, List.take_add, Param.bytes]
    rw [List.take_left' (length_leBytes 4 _), Nat.add_sub_cancel_left]
  rw [sizeRead, hsplit, readInto_append (length_leBytes 4 _) (length_leBytes 4 _).le,
    ofLeBytes_leBytes hlt]

omit [FloatLike F] [FixedBytes F] [LawfulFixedBytes F] in
/-- A size that is read only in part keeps the upper byte of the old one. -/
theorem AdaGradEntry.sizeRead_lt (e : AdaGradEntry F) {bs : List UInt8} (hbs : bs.length < 4)
    (hsize : e.size < 2 ^ 31) : e.sizeRead bs < 2 ^ 31 := by
  have hbyte : ∀ b : UInt8, b.toNat < 256 := fun b => b.toNat_lt
  have hnum : ∀ x : ℕ, (UInt8.ofNat x).toNat = x % 256 := fun x => by simp
  match bs, hbs with
  | [], _ =>
      simp only [sizeRead, readInto, leBytes, ofLeBytes, List.take_nil, List.length_nil,
        Nat.min_zero, List.drop_zero, List.nil_append, hnum]
      omega
  | [a], _ =>
      have ha := hbyte a
      simp [sizeRead, readInto, leBytes, ofLeBytes]
      omega
  | [a, b], _ =>
      have ha := hbyte a
      have hb := hbyte b
      simp [sizeRead, readInto, leBytes, ofLeBytes]
      omega
  | [a, b, c], _ =>
      have ha := hbyte a
      have hb := hbyte b
      have hc := hbyte c
      simp [sizeRead, readInto, leBytes, ofLeBytes]
      omega

end Part

namespace AsyncServer

variable {h : AdaGradHandle F} {s s' t : AsyncServer F} {k : UInt64} {bs rest part : List UInt8}
  {order : List (UInt64 × AdaGradEntry F)}

/-! ## Errors -/

theorem loadEntry_of_size (hsize : 2 ^ 31 ≤ (s.entry k).sizeRead bs) : loadEntry k s bs = none := by
  have hfields : (s.entry k).loadFields s.stat.junk bs = none := by
    rw [AdaGradEntry.sizeRead] at hsize
    simp only [AdaGradEntry.loadFields]
    rw [if_neg (by omega), if_neg (by omega)]
  rw [loadEntry, hfields]
  rfl

/-- What is left after a record. -/
theorem rest_loadEntry (hload : loadEntry k s bs = some (s', rest)) :
    rest = bs.drop (4 + entryWidth F ((s.entry k).sizeRead bs)) := by
  simp only [loadEntry, Option.bind_eq_bind, Option.bind_eq_some_iff] at hload
  obtain ⟨⟨e, bs'⟩, hfields, w, -, hend⟩ := hload
  cases hend
  exact AdaGradEntry.rest_loadFields hfields

omit [FixedBytes F] in
theorem length_readKey {bs' : List UInt8} (hkey : readKey bs = some (k, bs')) :
    bs'.length + 8 = bs.length := by
  rw [readKey] at hkey
  split at hkey
  · cases hkey
  · cases hkey
    rw [List.length_drop]
    omega

/-- An error ends `Load`. -/
theorem ReportsError.load_eq (herr : ReportsError s bs) : s.load bs = none := by
  have hloop : ∀ fuel, bs.length < fuel → recordLoop readKey loadEntry fuel s bs = none := by
    induction herr with
    | size hkey hsize =>
        intro fuel hfuel
        obtain ⟨fuel, rfl⟩ := Nat.exists_eq_succ_of_ne_zero (Nat.ne_zero_of_lt hfuel)
        simp only [recordLoop, hkey, loadEntry_of_size hsize]
    | later hkey hload _ ih =>
        intro fuel hfuel
        obtain ⟨fuel, rfl⟩ := Nat.exists_eq_succ_of_ne_zero (Nat.ne_zero_of_lt hfuel)
        have hlen := length_readKey hkey
        have hrest := rest_loadEntry hload
        have hfuel' := ih fuel (by rw [hrest, List.length_drop]; omega)
        simp only [recordLoop, hkey, hload, hfuel', Option.map_none]
  exact hloop _ (Nat.lt_succ_self _)

theorem reportsError_nil : ¬ ReportsError s [] := by
  intro herr
  cases herr with
  | size hkey => cases hkey
  | later hkey => cases hkey

variable [LawfulFixedBytes F]

/-- An error comes after the records that are whole. -/
theorem ReportsError.after {kps : List (UInt64 × Param F)}
    (hsize : ∀ kp ∈ kps, kp.2.emb.length + 1 < 2 ^ 31)
    (herr : ReportsError s (kps.flatMap recordBytes ++ part)) :
    ReportsError (kps.foldl loadRecord s) part := by
  induction kps generalizing s with
  | nil => exact herr
  | cons kp kps ih =>
      have hkp := hsize kp (by simp)
      have hstream : (kp :: kps).flatMap recordBytes ++ part =
          leBytes 8 kp.1.toNat ++ (kp.2.bytes ++ (kps.flatMap recordBytes ++ part)) := by
        rw [List.flatMap_cons, recordBytes]
        simp only [List.append_assoc]
      have hread := readKey_append kp.1 (kp.2.bytes ++ (kps.flatMap recordBytes ++ part))
      rw [hstream] at herr
      cases herr with
      | size hkey hbad =>
          rw [hread] at hkey
          cases hkey
          have hnone := loadEntry_of_size hbad
          rw [loadEntry_bytes s kp.1 kp.2 _ hkp] at hnone
          cases hnone
      | later hkey hload herr =>
          rw [hread] at hkey
          cases hkey
          rw [loadEntry_bytes s kp.1 kp.2 _ hkp] at hload
          cases hload
          exact ih (fun kp' hkp' => hsize kp' (List.mem_cons_of_mem _ hkp')) herr

omit [LawfulFixedBytes F] in
/-- The size that is read from a part of an entry is not negative: the old one was not, and
neither is the new one. -/
theorem sizeRead_part (hs : s.Valid) (p : Param F) (hp : p.emb.length + 1 < 2 ^ 31) (m : ℕ) :
    (s.entry k).sizeRead (p.bytes.take m) < 2 ^ 31 := by
  by_cases hm : 4 ≤ m
  · rw [AdaGradEntry.sizeRead_take _ _ hm hp]
    exact hp
  · refine AdaGradEntry.sizeRead_lt _ ?_ ?_
    · rw [List.length_take]
      omega
    · rw [hs.entry_eq, Param.size_toEntry]
      exact hs.size_lt k

/-- Nothing is left after a part of an entry. -/
theorem rest_part (p : Param F) (hp : p.emb.length + 1 < 2 ^ 31) {m : ℕ}
    (hload : loadEntry k s (p.bytes.take m) = some (s', rest)) : rest = [] := by
  rw [rest_loadEntry hload]
  refine List.drop_eq_nil_of_le ?_
  by_cases hm : 4 ≤ m
  · rw [AdaGradEntry.sizeRead_take _ _ hm hp, ← Param.length_bytes, List.length_take]
    exact min_le_right _ _
  · rw [List.length_take]
    omega

/-- **No error** for a part of a record: a part of the key ends the loop, a part of the entry is
loaded as if the rest of it were there. -/
theorem not_reportsError_part (hs : s.Valid) {kp : UInt64 × Param F}
    (hkp : kp.2.emb.length + 1 < 2 ^ 31) (m : ℕ) :
    ¬ ReportsError s ((recordBytes kp).take m) := by
  intro herr
  by_cases hm : m < 8
  · have hnone : readKey ((recordBytes kp).take m) = none := by
      rw [readKey, if_pos]
      rw [List.length_take]
      omega
    cases herr with
    | size hkey => rw [hnone] at hkey; cases hkey
    | later hkey => rw [hnone] at hkey; cases hkey
  · have hsplit : (recordBytes kp).take m = leBytes 8 kp.1.toNat ++ kp.2.bytes.take (m - 8) := by
      rw [recordBytes, List.take_append, length_leBytes, List.take_of_length_le]
      rw [length_leBytes]
      omega
    rw [hsplit] at herr
    cases herr with
    | size hkey hbad =>
        rw [readKey_append] at hkey
        cases hkey
        exact absurd (sizeRead_part hs kp.2 hkp (m - 8)) (Nat.not_lt.mpr hbad)
    | later hkey hload herr =>
        rw [readKey_append] at hkey
        cases hkey
        rw [rest_part kp.2 hkp hload] at herr
        exact reportsError_nil herr

/-! ## Beginnings of a checkpoint -/

/-- Loading the first records. -/
theorem loadsExactly_records (stat : Stat F) {kps : List (UInt64 × Param F)}
    (hnodup : (kps.map Prod.fst).Nodup) (hsize : ∀ kp ∈ kps, kp.2.emb.length + 1 < 2 ^ 31) :
    LoadsExactly stat (kps.flatMap recordBytes) (kps.map fun kp => (kp.1, kp.2.toEntry)) := by
  refine ⟨_, load_recordBytes hsize _, rfl, fun k e => ?_⟩
  constructor
  · intro he
    by_cases hk : k ∈ kps.map Prod.fst
    · obtain ⟨kp, hkp, rfl⟩ := List.mem_map.mp hk
      rw [lookup_loaded_of_mem hnodup hkp, Option.some.injEq] at he
      refine ⟨kp.2.toEntry, List.mem_map.mpr ⟨kp, hkp, rfl⟩, ?_⟩
      rw [← he, Param.toEntry_setCnt]
      rfl
    · rw [lookup_loaded_of_notMem hk] at he
      cases he
  · rintro ⟨e', hmem, rfl⟩
    obtain ⟨kp, hkp, heq⟩ := List.mem_map.mp hmem
    cases heq
    rw [lookup_loaded_of_mem hnodup hkp, Param.toEntry_setCnt]
    rfl

omit [FixedBytes F] [LawfulFixedBytes F] in
/-- The first saved entries, as records. -/
theorem take_kept (ho : s.Enumerates order) (hs : s.Valid) (i : ℕ) :
    (kept order).take i = ((saved order).take i).map fun kp => (kp.1, kp.2.toEntry) := by
  rw [kept_eq ho hs, List.map_take]

omit [LawfulFixedBytes F] in
theorem flatMap_take_kept (ho : s.Enumerates order) (hs : s.Valid) (i : ℕ) :
    (((kept order).take i).flatMap fun ke => (saveEntry ke).getD []) =
      ((saved order).take i).flatMap recordBytes := by
  rw [take_kept ho hs, List.flatMap_map]
  refine List.flatMap_congr fun kp hkp => ?_
  rw [saveEntry_toEntry, ((mem_saved ho).mp (List.mem_of_mem_take hkp)).2.2]
  rfl

/-- A prefix that ends at a boundary loads the records it contains. -/
theorem EndsAt.loadsExactly (ho : s.Enumerates order) (hs : s.Valid) (stat : Stat F) {i n : ℕ}
    (hend : EndsAt order i n) :
    LoadsExactly stat (((saved order).flatMap recordBytes).take n) ((kept order).take i) := by
  have hsplit : (saved order).flatMap recordBytes =
      ((saved order).take i).flatMap recordBytes ++ ((saved order).drop i).flatMap recordBytes := by
    rw [← List.flatMap_append, List.take_append_drop]
  rw [hend.2, flatMap_take_kept ho hs, hsplit, List.take_left', take_kept ho hs]
  · refine loadsExactly_records stat ?_ fun kp hkp => ?_
    · exact (nodup_saved ho).sublist ((List.take_sublist _ _).map _)
    · exact size_lt_of_mem_saved ho hs (List.mem_of_mem_take hkp)
  · rfl

/-- No beginning of a checkpoint makes `Load` report an error. -/
theorem not_reportsError_take (ho : s.Enumerates order) (hs : s.Valid) (ht : t.Valid) (n : ℕ) :
    ¬ ReportsError t (((saved order).flatMap recordBytes).take n) := by
  intro herr
  have hsize : ∀ kp ∈ saved order, kp.2.emb.length + 1 < 2 ^ 31 :=
    fun kp hkp => size_lt_of_mem_saved ho hs hkp
  have htake : ((saved order).flatMap recordBytes).take n =
      ((saved order).flatMap recordBytes).take (min n ((saved order).flatMap recordBytes).length) :=
    (List.take_eq_take_min ..)
  rw [htake] at herr
  obtain ⟨i, part, -, hcut, -, hpart⟩ := take_flatMap_cases recordBytes (saved order)
    (min n ((saved order).flatMap recordBytes).length) (min_le_right _ _)
  have hfirst : ∀ kp ∈ (saved order).take i, kp.2.emb.length + 1 < 2 ^ 31 :=
    fun kp hkp => hsize kp (List.mem_of_mem_take hkp)
  rw [hcut] at herr
  have hlast := herr.after hfirst
  rcases hpart with rfl | ⟨kp, hkp, m, -, rfl⟩
  · exact reportsError_nil hlast
  · exact not_reportsError_part (ht.loaded hfirst) (hsize kp (List.mem_of_getElem? hkp)) m hlast

/-- **Checkpoints that are cut off.** For every reachable server, every order in which its
entries are met and every prefix of what it saves: the prefix loads exactly the records it
contains if it ends where a record ends, and an error is reported if it does not, if and only if
it does end where a record ends. -/
theorem truncated_iff (hr : Reachable h s) (ho : s.Enumerates order)
    (hbs : saveModel order = some bs) (stat : Stat F) (n : ℕ) :
    ((∀ i, EndsAt order i n → LoadsExactly stat (bs.take n) ((kept order).take i)) ∧
      (¬ Boundary order n → ReportsError (init stat) (bs.take n))) ↔ Boundary order n := by
  have hs := hr.valid
  rw [saveModel_eq ho hs, Option.some.injEq] at hbs
  subst hbs
  constructor
  · intro hright
    by_contra hcut
    exact not_reportsError_take ho hs (valid_init stat) n (hright.2 hcut)
  · intro hend
    exact ⟨fun i hi => hi.loadsExactly ho hs stat, fun hcut => absurd hend hcut⟩

theorem truncated_threeFeatures : ∃ (s : AsyncServer Binary32) (order : _) (bs : List UInt8) (n : ℕ),
    Reachable (sampleHandle 1 (by decide)) s ∧ s.Enumerates order ∧ saveModel order = some bs ∧
    0 < n ∧ n < bs.length ∧ ((kept order).take 1).map Prod.fst = [5] ∧
    LoadsExactly sampleStat (bs.take n) ((kept order).take 1) := by
  have hrun : ((init sampleStat).answer (sampleHandle 1 (by decide)) threeFeatures).any (fun r =>
      decide (r.1.data.keys = {5, 7, 9} ∧
        ((saveEntry (5, r.1.entry 5)).getD []).length = 32 ∧
        (saveModel ([5, 7, 9].map fun k => (k, r.1.entry k))).map List.length = some 60 ∧
        (r.1.entry 5).empty = some false ∧ (r.1.entry 7).empty = some false ∧
        (r.1.entry 9).empty = some true)) = true := by
    decide +kernel
  obtain ⟨⟨s, rs⟩, hs, htest⟩ := Option.any_eq_true _ _ |>.mp hrun
  obtain ⟨hkeys, hlen, hsave, h5, h7, h9⟩ := of_decide_eq_true htest
  have hr : Reachable (sampleHandle 1 (by decide)) s := (Reachable.init _ sampleStat).answer hs
  have ho : s.Enumerates ([5, 7, 9].map fun k => (k, s.entry k)) := by
    refine enumerates_of_keys (by decide) fun k => ?_
    rw [← Finmap.mem_keys, hkeys]
    simp
  have hkept : kept ([5, 7, 9].map fun k => (k, s.entry k)) = [(5, s.entry 5), (7, s.entry 7)] := by
    simp [kept, h5, h7, h9]
  obtain ⟨bs, hbs, hbytes⟩ := Option.map_eq_some_iff.mp hsave
  have hend : EndsAt ([5, 7, 9].map fun k => (k, s.entry k)) 1 32 := by
    rw [EndsAt, hkept]
    exact ⟨by simp, by simp [hlen]⟩
  refine ⟨s, _, bs, 32, hr, ho, hbs, by decide, by omega, by rw [hkept]; rfl, ?_⟩
  exact ((truncated_iff hr ho hbs sampleStat 32).mpr ⟨1, hend⟩).1 1 hend

/-- A record of which only the key is left is loaded: the feature gets a weight that the server
never had. -/
theorem cut_after_key : ∃ (s : AsyncServer Binary32) (order : _) (bs : List UInt8) (n : ℕ),
    Reachable (sampleHandle 1 (by decide)) s ∧ s.Enumerates order ∧ saveModel order = some bs ∧
    n < bs.length ∧ ¬ Boundary order n ∧ ¬ ReportsError (init sampleStat) (bs.take n) ∧
    ∃ l e, (init sampleStat).load (bs.take n) = some l ∧ l.state.data.lookup 7 = some e ∧
      ∀ e', s.data.lookup 7 = some e' → e ≠ { e' with feaCnt := 0 } := by
  have hrun : ((init sampleStat).answer (sampleHandle 1 (by decide))
      [.push false [7] [one] none]).any (fun r => decide (r.1.data.keys = {7} ∧
        ((saveEntry (7, r.1.entry 7)).getD []).length = 28 ∧
        (saveModel ([7].map fun k => (k, r.1.entry k))).map
          (fun bs => (bs.length, bs.take 8)) = some (28, leBytes 8 7) ∧
        (r.1.entry 7).empty = some false ∧ (r.1.entry 7).w0 ≠ some 0)) = true := by
    decide +kernel
  have hload : ((init sampleStat).load (leBytes 8 7)).any (fun l => decide
      ((l.state.data.lookup 7).map AdaGradEntry.w0 = some (some (0 : Binary32)))) = true := by
    decide +kernel
  obtain ⟨⟨s, rs⟩, hs, htest⟩ := Option.any_eq_true _ _ |>.mp hrun
  obtain ⟨hkeys, hlen, hsave, h7, hw⟩ := of_decide_eq_true htest
  obtain ⟨l, hl, hl7⟩ := Option.any_eq_true _ _ |>.mp hload
  obtain ⟨e, he, he0⟩ := Option.map_eq_some_iff.mp (of_decide_eq_true hl7)
  have hr : Reachable (sampleHandle 1 (by decide)) s := (Reachable.init _ sampleStat).answer hs
  have ho : s.Enumerates ([7].map fun k => (k, s.entry k)) := by
    refine enumerates_of_keys (by decide) fun k => ?_
    rw [← Finmap.mem_keys, hkeys]
    simp
  have hkept : kept ([7].map fun k => (k, s.entry k)) = [(7, s.entry 7)] := by
    simp [kept, h7]
  obtain ⟨bs, hbs, hbytes⟩ := Option.map_eq_some_iff.mp hsave
  obtain ⟨hsize, hkey⟩ := Prod.mk.inj hbytes
  have hcut : ¬ Boundary ([7].map fun k => (k, s.entry k)) 8 := by
    rintro ⟨i, hi, hn⟩
    rw [hkept] at hi hn
    rcases Nat.le_one_iff_eq_zero_or_eq_one.mp hi with rfl | rfl
    · simp at hn
    · simp [hlen] at hn
  refine ⟨s, _, bs, 8, hr, ho, hbs, by omega, hcut, ?_, l, e, by rw [hkey, hl], he, ?_⟩
  · intro herr
    have hnone := herr.load_eq
    rw [hkey, hl] at hnone
    cases hnone
  · intro e' he' heq
    refine hw ?_
    rw [entry_of_lookup he', ← he0, heq]
    rfl

end AsyncServer

end Difacto.Server
