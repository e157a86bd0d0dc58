import Difacto.Base.PoolInvariant

/-!
# What `Get` hands out

`Get` (`base/workload_pool.h`) takes one of the candidates that its loops meet: the first one, or
with shuffling any one of them.

## Main definitions

* `Assigns` — one part goes to a worker, and nothing else in the pool changes.

## Main results

* `get_exact` — what `Get` hands out, and what it leaves as it is.
-/

namespace Difacto.Base.WorkloadPool

variable {npart : ℕ} {p : WorkloadPool} {f id : String} {k : ℕ} {t : Task} {order : List String}

/-- Part `k` of file `f` is returned in `wl'`, and `p` has become `p'`. -/
structure Assigns (npart : ℕ) (id : String) (now : ℚ) (f : String) (k : ℕ) (p : WorkloadPool)
    (wl : Workload) (p' : WorkloadPool) (wl' : Workload) : Prop where
  readable : p.Readable id f k
  wl_eq : wl' = { wl with file := [{ filename := f, n := npart, k := k }] }
  /-- the part is assigned, to `id` -/
  track : ∀ g j, p'.trackAt g j = if g = f ∧ j = k then some .assigned else p.trackAt g j
  assigned : p'.assigned =
    p.assigned ++ [{ filename := f, node := id, n := npart, k := k, start := now }]
  /-- the files that are left, their nodes and what was done of them -/
  task : ∀ g, (p'.task.lookup g).map (fun t => (t.node, t.track.length, t.done)) =
    (p.task.lookup g).map fun t => (t.node, t.track.length, t.done)
  rest : (p'.numFinished, p'.inited, p'.shuffle, p'.time) =
    (p.numFinished, p.inited, p.shuffle, p.time)

theorem Sound.assigns (hs : Sound npart p) (h : p.Readable id f k) (now : ℚ) (wl : Workload) :
    Assigns npart id now f k p wl (p.assign id now f k { wl with file := [] }).1
      (p.assign id now f k { wl with file := [] }).2 := by
  obtain ⟨t, ht, hcap, hk⟩ := h
  have hlen := hs.track_length ht
  rw [assign_eq ht]
  refine ⟨⟨t, ht, hcap, hk⟩, ?_, trackAt_handOut ht hk id now, ?_, ?_, rfl⟩
  · simp [handedEntry, Assigned.get, hlen]
  · simp [WorkloadPool.handOut, handedEntry, hlen]
  · intro g
    by_cases hg : g = f
    · subst hg
      simp [WorkloadPool.handOut, ht]
    · simp [WorkloadPool.handOut, hg, Finmap.lookup_insert_of_ne]

/-- A candidate is there to be chosen if some part can be given. -/
theorem Sound.exists_chosen (hs : Sound npart p) (horder : p.Enumerates order) (rnd : ℕ)
    (h : ∃ f k, p.Readable id f k) : ∃ f k, p.Readable id f k ∧
      (candidates id (p.entries order))[p.chosen id order rnd]? = some (f, k) := by
  obtain ⟨f, k, hfk⟩ := h
  have hne : candidates id (p.entries order) ≠ [] :=
    List.ne_nil_of_mem ((hs.mem_candidates_iff horder).mpr hfk)
  have hget := List.getElem?_eq_getElem (chosen_lt rnd hne)
  exact ⟨_, _, (hs.mem_candidates_iff horder).mp (List.mem_of_getElem? hget), hget⟩

/-- The draw that makes `Get` take a certain candidate. -/
theorem Sound.exists_draw (hs : Sound npart p) (horder : p.Enumerates order)
    (hsh : p.shuffle = true) (h : p.Readable id f k) :
    ∃ rnd < countAvail id (p.entries order),
      (candidates id (p.entries order))[p.chosen id order rnd]? = some (f, k) := by
  obtain ⟨rnd, hlt, hget⟩ := List.mem_iff_getElem.mp ((hs.mem_candidates_iff horder).mpr h)
  refine ⟨rnd, by rwa [countAvail_eq_length], ?_⟩
  rw [chosen, if_pos hsh, Nat.mod_eq_of_lt hlt, List.getElem?_eq_getElem hlt, hget]

/-- **Work assignment is exact.** `Get` returns a part if there is one that is available and that
the worker may read; it is assigned to the worker, with the number of parts of its file, and
nothing else in the pool changes. Otherwise the workload is empty and the pool stays as it is.
With shuffling, every such part is returned for some value of `rand()`, smaller than their
number. -/
theorem get_exact (hs : Sound npart p) (horder : p.Enumerates order) (id : String) (now : ℚ)
    (wl : Workload) :
    (∀ rnd, (p.get id order rnd now wl).2.file ≠ [] ↔ ∃ f k, p.Readable id f k) ∧
    (∀ rnd, (∃ f k, p.Readable id f k) → ∃ f k,
      Assigns npart id now f k p wl (p.get id order rnd now wl).1 (p.get id order rnd now wl).2) ∧
    (∀ rnd, (¬∃ f k, p.Readable id f k) →
      p.get id order rnd now wl = (p, { wl with file := [] })) ∧
    (p.shuffle = true → ∀ f k, p.Readable id f k → ∃ rnd < countAvail id (p.entries order),
      Assigns npart id now f k p wl (p.get id order rnd now wl).1
        (p.get id order rnd now wl).2) := by
  have htaken : ∀ rnd f k, (candidates id (p.entries order))[p.chosen id order rnd]? =
      some (f, k) → p.Readable id f k → Assigns npart id now f k p wl
        (p.get id order rnd now wl).1 (p.get id order rnd now wl).2 := by
    intro rnd f k hget hfk
    rw [get_eq, hget]
    exact hs.assigns hfk now wl
  have hsome : ∀ rnd, (∃ f k, p.Readable id f k) → ∃ f k, Assigns npart id now f k p wl
      (p.get id order rnd now wl).1 (p.get id order rnd now wl).2 := by
    intro rnd h
    obtain ⟨f, k, hfk, hget⟩ := hs.exists_chosen horder rnd h
    exact ⟨f, k, htaken rnd f k hget hfk⟩
  have hnone : ∀ rnd, (¬∃ f k, p.Readable id f k) →
      p.get id order rnd now wl = (p, { wl with file := [] }) := by
    intro rnd h
    have hnil : candidates id (p.entries order) = [] := by
      refine List.eq_nil_iff_forall_not_mem.mpr fun fk hfk => h ?_
      exact ⟨fk.1, fk.2, (hs.mem_candidates_iff horder).mp hfk⟩
    rw [get_eq, hnil]
    rfl
  refine ⟨fun rnd => ⟨fun hne => ?_, fun h => ?_⟩, hsome, hnone, ?_⟩
  · by_contra h
    rw [hnone rnd h] at hne
    exact hne rfl
  · obtain ⟨f, k, hfk⟩ := hsome rnd h
    rw [hfk.wl_eq]
    exact List.cons_ne_nil _ _
  · intro hsh f k hfk
    obtain ⟨rnd, hlt, hget⟩ := hs.exists_draw horder hsh hfk
    exact ⟨rnd, hlt, htaken rnd f k hget hfk⟩

/-- A pool with two parts of one file, with shuffling. -/
def shuffled : WorkloadPool :=
  { task := Finmap.singleton "f" { track := [.available, .available] }, inited := true,
    shuffle := true }

theorem get_exact_shuffled :
    (get "A" ["f"] 1 0 shuffled { type := .train, dataPass := 0 }).2.file ≠ [] := by
  have hadd : add [{ filename := "f" }] 2 "" (clear { shuffle := true }) = some shuffled := rfl
  have horder : Enumerates ["f"] shuffled := ⟨by decide, by decide⟩
  have hpart : shuffled.Readable "A" "f" 1 :=
    ⟨{ track := [.available, .available] }, rfl, .inl rfl, rfl⟩
  have hs : Sound 2 shuffled := (sound_clear 2 _).add (by decide) hadd
  exact ((get_exact hs horder "A" 0 _).1 1).mpr ⟨"f", 1, hpart⟩

end Difacto.Base.WorkloadPool
