import Difacto.Base.WorkloadPool
import Mathlib.Algebra.Order.BigOperators.Group.List
import Mathlib.Algebra.Order.Ring.Nat

/-!
# What the pool's operations keep

`Sound npart p` is the invariant of a pool whose files all have `npart` parts: the
tracks have that length, `done` counts the done parts and stays below `npart`, and
the entries of `assigned_` are exactly the assigned parts, one entry each. Every
operation but `ClearRemain` keeps it, at any point of a run and in any order.

`Released sel m p p'` says once what the loop of `Set` and `RemoveStraggler` does to
the tasks; the results about runs are derived from it and never unfold the loop. In the same
way `get_eq` says what `Get` does in terms of the `candidates`, the parts that its loops meet.
-/

namespace Difacto.Base.WorkloadPool

variable {npart : ℕ} {p p' : WorkloadPool} {f g id : String} {k j : ℕ} {t t' : Task}
  {m : Track} {sel : Assigned → Bool} {a : Assigned}

/-- The invariant of a pool whose files are split into `npart` parts. -/
structure Sound (npart : ℕ) (p : WorkloadPool) : Prop where
  track_length : ∀ {f t}, p.task.lookup f = some t → t.track.length = npart
  done_eq : ∀ {f t}, p.task.lookup f = some t → t.done = t.track.count .done
  done_lt : ∀ {f t}, p.task.lookup f = some t → t.done < npart
  entries_count : ∀ f k, p.assigned.countP (Assigned.names f k) =
    if p.trackAt f k = some .assigned then 1 else 0

@[simp] theorem names_iff : a.names f k = true ↔ a.filename = f ∧ a.k = k := by
  simp [Assigned.names]

theorem trackAt_of_lookup (h : p.task.lookup f = some t) (k : ℕ) :
    p.trackAt f k = t.track[k]? := by
  simp [trackAt, h]

theorem trackAt_of_absent (h : p.task.lookup f = none) (k : ℕ) : p.trackAt f k = none := by
  simp [trackAt, h]

theorem lookup_of_trackAt {c : Track} (h : p.trackAt f k = some c) :
    ∃ t, p.task.lookup f = some t ∧ t.track[k]? = some c := by
  simpa [trackAt, Option.bind_eq_some_iff] using h

/-- The soundness of a pool depends on its tasks and its entries only. -/
theorem Sound.congr (h : Sound npart p) (htask : p'.task = p.task)
    (hassigned : p'.assigned = p.assigned) : Sound npart p' := by
  obtain ⟨h₁, h₂, h₃, h₄⟩ := h
  refine ⟨?_, ?_, ?_, ?_⟩ <;> simpa [trackAt, htask, hassigned] using by assumption

theorem sound_clear (npart : ℕ) (p : WorkloadPool) : Sound npart p.clear where
  track_length := by simp [clear]
  done_eq := by simp [clear]
  done_lt := by simp [clear]
  entries_count := by simp [clear, trackAt]

/-- Every entry names an assigned part of a file in the pool. -/
theorem Sound.trackAt_of_mem (h : Sound npart p) (ha : a ∈ p.assigned) :
    p.trackAt a.filename a.k = some .assigned := by
  by_contra hne
  have hcount := h.entries_count a.filename a.k
  rw [if_neg hne, List.countP_eq_zero] at hcount
  exact hcount a ha (by simp)

/-! ## Adding files -/

@[simp] theorem track_insertNode (id : String) (t : Task) :
    (t.insertNode id).track = t.track := by
  unfold Task.insertNode; split <;> rfl

@[simp] theorem done_insertNode (id : String) (t : Task) :
    (t.insertNode id).done = t.done := by
  unfold Task.insertNode; split <;> rfl

@[simp] theorem node_resize (npart : ℕ) (t : Task) : (t.resize npart).node = t.node := by
  unfold Task.resize; split <;> rfl

@[simp] theorem done_resize (npart : ℕ) (t : Task) : (t.resize npart).done = t.done := by
  unfold Task.resize; split <;> rfl

theorem node_insertNode (id : String) (t : Task) :
    (t.insertNode id).node = if id = "" then t.node else insert id t.node := by
  unfold Task.insertNode; split <;> rfl

/-- The task `Add` leaves for the file `f`. -/
def addedTask (npart : ℕ) (id f : String) (p : WorkloadPool) : Task :=
  (((p.task.lookup f).getD {}).resize npart).insertNode id

/-- A new file has all its parts available. -/
theorem track_addedTask_of_absent (h : p.task.lookup f = none) (id : String) :
    (addedTask npart id f p).track = List.replicate npart .available := by
  simp [addedTask, h, Task.resize]

/-- A file already in the pool keeps its parts. -/
theorem Sound.track_addedTask (hs : Sound npart p) (h : p.task.lookup f = some t)
    (id : String) : (addedTask npart id f p).track = t.track := by
  have hlen := hs.track_length h
  by_cases hnil : t.track = []
  · have hzero : npart = 0 := by rw [← hlen, hnil, List.length_nil]
    simp [addedTask, h, Task.resize, hnil, hzero]
  · simp [addedTask, h, Task.resize, hnil]

theorem done_addedTask (npart : ℕ) (id f : String) (p : WorkloadPool) :
    (addedTask npart id f p).done = ((p.task.lookup f).getD {}).done := by
  simp [addedTask]

theorem Sound.length_addedTask (hs : Sound npart p) (id f : String) :
    (addedTask npart id f p).track.length = npart := by
  cases h : p.task.lookup f with
  | none => simp [track_addedTask_of_absent h]
  | some t => rw [hs.track_addedTask h, hs.track_length h]

/-- `Add` never fails on a pool with the same number of parts per file. -/
theorem Sound.addFile_eq (hs : Sound npart p) (id f : String) :
    addFile npart id p f =
      some { p with task := p.task.insert f (addedTask npart id f p) } := by
  have hlen := hs.length_addedTask id f
  simp only [addedTask, track_insertNode] at hlen
  simp [addFile, addedTask, hlen]

/-- Adding a file never changes which parts are assigned. -/
theorem Sound.trackAt_addFile (hs : Sound npart p) (id f g : String) (k : ℕ) :
    trackAt { p with task := p.task.insert f (addedTask npart id f p) } g k =
      if g = f ∧ p.task.lookup f = none then (List.replicate npart Track.available)[k]?
      else p.trackAt g k := by
  by_cases hg : g = f
  · subst hg
    cases h : p.task.lookup g with
    | none => simp [trackAt, track_addedTask_of_absent h]
    | some t => simp [trackAt, h, hs.track_addedTask h]
  · simp [trackAt, hg, Finmap.lookup_insert_of_ne]

theorem Sound.addFile (hs : Sound npart p) (hpos : 0 < npart) (id f : String) :
    Sound npart { p with task := p.task.insert f (addedTask npart id f p) } := by
  have hlookup : ∀ {g t'}, (p.task.insert f (addedTask npart id f p)).lookup g = some t' →
      (g = f ∧ t' = addedTask npart id f p) ∨ p.task.lookup g = some t' := by
    intro g t' h
    by_cases hg : g = f
    · subst hg
      rw [Finmap.lookup_insert, Option.some.injEq] at h
      exact .inl ⟨rfl, h.symm⟩
    · rw [Finmap.lookup_insert_of_ne _ hg] at h
      exact .inr h
  have hdone : (addedTask npart id f p).done = (addedTask npart id f p).track.count .done ∧
      (addedTask npart id f p).done < npart := by
    cases h : p.task.lookup f with
    | none =>
        rw [track_addedTask_of_absent h, done_addedTask, h]
        simp [List.count_replicate, hpos]
    | some t =>
        rw [hs.track_addedTask h, done_addedTask, h]
        exact ⟨hs.done_eq h, hs.done_lt h⟩
  refine ⟨?_, ?_, ?_, ?_⟩
  · intro g t' h
    rcases hlookup h with ⟨-, rfl⟩ | h
    · exact hs.length_addedTask id f
    · exact hs.track_length h
  · intro g t' h
    rcases hlookup h with ⟨-, rfl⟩ | h
    · exact hdone.1
    · exact hs.done_eq h
  · intro g t' h
    rcases hlookup h with ⟨-, rfl⟩ | h
    · exact hdone.2
    · exact hs.done_lt h
  · intro g k
    rw [hs.trackAt_addFile, hs.entries_count g k]
    by_cases hg : g = f ∧ p.task.lookup f = none
    · obtain ⟨rfl, habs⟩ := hg
      simp [trackAt_of_absent habs, habs, List.getElem?_replicate]
    · rw [if_neg hg]

/-- **The loop of `Add`.** On a sound pool it never fails, and a property that each turn
keeps holds after it; `added` are the files so far. -/
theorem Sound.add_induct {P : Finset String → WorkloadPool → Prop} (hpos : 0 < npart)
    (id : String) (hstep : ∀ added p f, Sound npart p → P added p →
      P (insert f added) { p with task := p.task.insert f (addedTask npart id f p) })
    (hs : Sound npart p) (files : List Workload.File) (added : Finset String)
    (hP : P added { p with inited := true }) :
    ∃ p', p.add files npart id = some p' ∧ Sound npart p' ∧ p'.inited = true ∧
      P (added ∪ (files.map (·.filename)).toFinset) p' := by
  have hfold : ∀ (fs : List String) (added : Finset String) (p : WorkloadPool), Sound npart p →
      P added p → ∃ p', fs.foldlM (WorkloadPool.addFile npart id) p = some p' ∧
        Sound npart p' ∧ p'.inited = p.inited ∧ P (added ∪ fs.toFinset) p' := by
    intro fs
    induction fs with
    | nil =>
        intro added p hs hP
        exact ⟨p, rfl, hs, rfl, by simpa using hP⟩
    | cons f fs ih =>
        intro added p hs hP
        obtain ⟨p', hfold, hs', hinit, hP'⟩ :=
          ih _ _ (hs.addFile hpos id f) (hstep added p f hs hP)
        refine ⟨p', ?_, hs', hinit, ?_⟩
        · rw [List.foldlM_cons, hs.addFile_eq]
          exact hfold
        · rw [List.toFinset_cons, Finset.union_insert, ← Finset.insert_union]
          exact hP'
  exact hfold _ _ _ (hs.congr rfl rfl) hP

theorem Sound.add (hs : Sound npart p) (hpos : 0 < npart) {files : List Workload.File}
    (hp : p.add files npart id = some p') : Sound npart p' := by
  obtain ⟨q, hq, hsound, -⟩ := hs.add_induct (P := fun _ _ => True) hpos id
    (fun _ _ _ _ _ => trivial) files ∅ trivial
  rw [hq, Option.some.injEq] at hp
  exact hp ▸ hsound

/-! ## Releasing entries -/

/-- The task `Mark` would leave for a part that is assigned. -/
def markedTask (k : ℕ) (m : Track) (t : Task) : Task :=
  { t with track := t.track.set k m, done := if m = .done then t.done + 1 else t.done }

/-- The pool `Mark` would leave for an assigned part of the task `t`: the part takes the new
state, and a file whose last part is done leaves the pool. -/
def marked (p : WorkloadPool) (f : String) (k : ℕ) (m : Track) (t : Task) : WorkloadPool :=
  { p with
    numFinished := if m = .done then p.numFinished + 1 else p.numFinished
    task := if (markedTask k m t).done = t.track.length then p.task.erase f
      else p.task.insert f (markedTask k m t) }

theorem mark_eq (h : p.task.lookup f = some t) (hk : t.track[k]? = some .assigned) (m : Track) :
    p.mark f k m = some (p.marked f k m t) := by
  obtain ⟨hlt, hget⟩ := List.getElem?_eq_some_iff.mp hk
  by_cases hm : m = .done <;> simp [mark, marked, h, hlt, hget, hm, markedTask]

theorem getElem?_markedTask (hk : t.track[k]? = some .assigned) (m : Track) (j : ℕ) :
    (markedTask k m t).track[j]? = if k = j then some m else t.track[j]? := by
  obtain ⟨hlt, -⟩ := List.getElem?_eq_some_iff.mp hk
  by_cases hj : k = j
  · subst hj
    simp [markedTask, hlt]
  · simp [markedTask, hj]

/-- The number of done parts after an assigned part is marked. -/
theorem count_done_set (hk : t.track[k]? = some .assigned) (hm : m ≠ .assigned) :
    (t.track.set k m).count .done = t.track.count .done + if m = .done then 1 else 0 := by
  obtain ⟨hlt, hget⟩ := List.getElem?_eq_some_iff.mp hk
  rw [List.count_set hlt, hget]
  cases m <;> simp_all

theorem done_markedTask (hk : t.track[k]? = some .assigned) (hm : m ≠ .assigned)
    (hdone : t.done = t.track.count .done) :
    (markedTask k m t).done = (t.track.set k m).count .done := by
  rw [count_done_set hk hm, ← hdone]
  by_cases h : m = .done <;> simp [markedTask, h]

/-- What the loop of `Set` and `RemoveStraggler` does to the tasks, given the entries
it went through: the released parts take the state `m`, nothing else changes, and a
file leaves the pool exactly when its last part was released as done. -/
structure Released (npart : ℕ) (sel : Assigned → Bool) (m : Track) (entries : List Assigned)
    (p p' : WorkloadPool) : Prop where
  lookup_some : ∀ {g t'}, p'.task.lookup g = some t' → ∃ t, p.task.lookup g = some t ∧
    t'.node = t.node ∧ ∀ j, t'.track[j]? =
      if ∃ a ∈ entries, sel a = true ∧ a.filename = g ∧ a.k = j then some m else t.track[j]?
  lookup_none : ∀ {g}, p'.task.lookup g = none → p.task.lookup g = none ∨
    (m = .done ∧ ∀ j < npart, p.trackAt g j = some .done ∨
      ∃ a ∈ entries, sel a = true ∧ a.filename = g ∧ a.k = j)
  absent : ∀ {g}, p.task.lookup g = none → p'.task.lookup g = none
  numFinished : p'.numFinished = p.numFinished + if m = .done then entries.countP sel else 0
  inited : p'.inited = p.inited
  shuffle : p'.shuffle = p.shuffle

theorem lookup_ite_erase (p : WorkloadPool) (f g : String) (t' : Task) (c : Prop) [Decidable c] :
    (if c then p.task.erase f else p.task.insert f t').lookup g =
      if g = f then (if c then none else some t') else p.task.lookup g := by
  by_cases hg : g = f
  · subst hg
    by_cases hc : c <;> simp [hc]
  · by_cases hc : c
    · simp [hc, hg, Finmap.lookup_erase_ne hg]
    · simp [hc, hg, Finmap.lookup_insert_of_ne _ hg]

/-- The tasks after `Mark`: the marked file is either gone or holds the new track. -/
theorem lookup_marked (p : WorkloadPool) (f g : String) (k : ℕ) (m : Track) (t : Task) :
    (p.marked f k m t).task.lookup g =
      if g = f then
        if (markedTask k m t).done = t.track.length then none else some (markedTask k m t)
      else p.task.lookup g :=
  lookup_ite_erase p f g _ _

/-- When the last part is marked done, every other part is done already. -/
theorem done_of_marked (hk : t.track[k]? = some .assigned)
    (hfull : (t.track.set k m).count .done = t.track.length) :
    m = .done ∧ ∀ j < t.track.length, j ≠ k → t.track[j]? = some .done := by
  obtain ⟨hlt, -⟩ := List.getElem?_eq_some_iff.mp hk
  have hall : ∀ c ∈ t.track.set k m, Track.done = c := by
    rw [← List.count_eq_length, hfull, List.length_set]
  have hset : ∀ j c, (t.track.set k m)[j]? = some c → c = Track.done :=
    fun j c h => (hall c (List.mem_of_getElem? h)).symm
  refine ⟨hset k m (by simp [hlt]), ?_⟩
  intro j hj hne
  have hget : t.track[j]? = some t.track[j] := List.getElem?_eq_getElem hj
  rw [hget, hset j t.track[j] (by rw [List.getElem?_set_ne (Ne.symm hne), hget])]

/-- `Mark` releases the part it names, and no other. -/
theorem released_marked (ht : p.task.lookup a.filename = some t)
    (hk : t.track[a.k]? = some .assigned)
    (hfull : (markedTask a.k m t).done = t.track.length →
      m = .done ∧ ∀ j < npart, j ≠ a.k → t.track[j]? = some .done) :
    Released npart (fun _ => true) m [a] p (p.marked a.filename a.k m t) := by
  refine ⟨?_, ?_, ?_, ?_, rfl, rfl⟩
  · intro g t' h
    simp only [lookup_marked] at h
    split_ifs at h with hg hc
    · cases h
      subst hg
      refine ⟨t, ht, rfl, fun j => ?_⟩
      simp [getElem?_markedTask hk]
    · refine ⟨t', h, rfl, fun j => ?_⟩
      simp [Ne.symm hg]
  · intro g h
    simp only [lookup_marked] at h
    split_ifs at h with hg hc
    · subst hg
      obtain ⟨hmd, hrest⟩ := hfull hc
      refine .inr ⟨hmd, fun j hj => ?_⟩
      by_cases hjk : j = a.k
      · exact .inr ⟨a, by simp, rfl, rfl, hjk.symm⟩
      · exact .inl (by rw [trackAt_of_lookup ht]; exact hrest j hj hjk)
    · exact .inl h
  · intro g h
    have hg : g ≠ a.filename := by rintro rfl; rw [ht] at h; cases h
    simpa [lookup_marked, hg] using h
  · by_cases h : m = .done <;> simp [marked, h]

/-- Only the part that `Mark` names stops being assigned. -/
theorem trackAt_marked_assigned_iff (ht : p.task.lookup f = some t) (hlen : t.track.length = npart)
    (hk : t.track[k]? = some .assigned) (hm : m ≠ .assigned)
    (hfull : (markedTask k m t).done = t.track.length →
      m = .done ∧ ∀ j < npart, j ≠ k → t.track[j]? = some .done) (g : String) (j : ℕ) :
    (p.marked f k m t).trackAt g j = some .assigned ↔
      ¬ (f = g ∧ k = j) ∧ p.trackAt g j = some .assigned := by
  by_cases hg : g = f
  · subst hg
    have hold : p.trackAt g j = t.track[j]? := trackAt_of_lookup ht j
    by_cases hc : (markedTask k m t).done = t.track.length
    · -- the file is gone, so every other part was done before
      have hnone : (p.marked g k m t).trackAt g j = none := by simp [trackAt, lookup_marked, hc]
      rw [hnone, hold]
      refine iff_of_false (by simp) ?_
      rintro ⟨hne, hassigned⟩
      have hj : j ≠ k := fun h => hne ⟨rfl, h.symm⟩
      obtain ⟨hlt, -⟩ := List.getElem?_eq_some_iff.mp hassigned
      rw [(hfull hc).2 j (hlen ▸ hlt) hj] at hassigned
      cases hassigned
    · have hnew : (p.marked g k m t).trackAt g j = (markedTask k m t).track[j]? := by
        simp [trackAt, lookup_marked, hc]
      rw [hnew, hold, getElem?_markedTask hk]
      by_cases hj : k = j
      · simp [hj, hm]
      · simp [hj]
  · have hsame : (p.marked f k m t).trackAt g j = p.trackAt g j := by
      simp [trackAt, lookup_marked, hg]
    simp [hsame, Ne.symm hg]

/-- One turn of the loop: releasing an entry keeps the pool sound. -/
theorem Sound.mark {l₁ l₂ : List Assigned}
    (hs : Sound npart { p with assigned := l₁ ++ a :: l₂ }) (hm : m ≠ .assigned) :
    ∃ p', p.mark a.filename a.k m = some p' ∧ Sound npart { p' with assigned := l₁ ++ l₂ } ∧
      Released npart (fun _ => true) m [a] p p' := by
  obtain ⟨t, ht, hk⟩ := lookup_of_trackAt (hs.trackAt_of_mem (a := a) (by simp))
  change p.task.lookup a.filename = some t at ht
  have hlen : t.track.length = npart := hs.track_length ht
  have hdone := done_markedTask hk hm (hs.done_eq ht)
  have hfull : (markedTask a.k m t).done = t.track.length →
      m = .done ∧ ∀ j < npart, j ≠ a.k → t.track[j]? = some .done := by
    intro h
    rw [hdone] at h
    exact hlen ▸ done_of_marked hk h
  have hcount : ∀ g j, (l₁ ++ a :: l₂).countP (Assigned.names g j) =
      if p.trackAt g j = some .assigned then 1 else 0 := hs.entries_count
  refine ⟨_, mark_eq (p := p) ht hk m, ⟨?_, ?_, ?_, ?_⟩, released_marked ht hk hfull⟩
  · intro g t' h
    change (p.marked a.filename a.k m t).task.lookup g = some t' at h
    rw [lookup_marked] at h
    split_ifs at h with hg hc
    · cases h
      simpa [markedTask] using hlen
    · exact hs.track_length h
  · intro g t' h
    change (p.marked a.filename a.k m t).task.lookup g = some t' at h
    rw [lookup_marked] at h
    split_ifs at h with hg hc
    · cases h
      exact hdone
    · exact hs.done_eq h
  · intro g t' h
    change (p.marked a.filename a.k m t).task.lookup g = some t' at h
    rw [lookup_marked] at h
    split_ifs at h with hg hc
    · cases h
      have hle : (t.track.set a.k m).count .done ≤ (t.track.set a.k m).length :=
        List.count_le_length
      rw [List.length_set] at hle
      omega
    · exact hs.done_lt h
  · intro g j
    change (l₁ ++ l₂).countP (Assigned.names g j) =
      if (p.marked a.filename a.k m t).trackAt g j = some .assigned then 1 else 0
    have hassigned := trackAt_marked_assigned_iff ht hlen hk hm hfull g j
    have hcons := hcount g j
    rw [List.countP_append, List.countP_cons] at hcons
    rw [List.countP_append]
    by_cases hname : a.filename = g ∧ a.k = j
    · -- the entry that is gone was the only one for this part
      have hold : p.trackAt g j = some .assigned := by
        rw [← hname.1, ← hname.2, trackAt_of_lookup ht, hk]
      rw [if_pos (names_iff.mpr hname), if_pos hold] at hcons
      rw [if_neg fun h => (hassigned.mp h).1 hname]
      omega
    · rw [if_neg (mt names_iff.mp hname)] at hcons
      rw [Nat.add_zero] at hcons
      rw [hcons]
      exact if_congr (hassigned.trans (and_iff_right hname)).symm rfl rfl

/-- An entry that is not selected stays and changes nothing. -/
theorem Released.skip {rest : List Assigned} (ha : sel a = false)
    (h : Released npart sel m rest p p') : Released npart sel m (a :: rest) p p' := by
  have hmem : ∀ g j, (∃ b ∈ a :: rest, sel b = true ∧ b.filename = g ∧ b.k = j) ↔
      ∃ b ∈ rest, sel b = true ∧ b.filename = g ∧ b.k = j := by
    intro g j
    simp [ha]
  refine ⟨?_, ?_, h.absent, ?_, h.inited, h.shuffle⟩
  · intro g t' hl
    simpa only [hmem] using h.lookup_some hl
  · intro g hl
    simpa only [hmem] using h.lookup_none hl
  · simpa [ha] using h.numFinished

/-- Releasing one entry and then the rest releases them all. -/
theorem Released.cons {q : WorkloadPool} {rest : List Assigned} (ha : sel a = true)
    (h₁ : Released npart (fun _ => true) m [a] p q)
    (h₂ : Released npart sel m rest q p') : Released npart sel m (a :: rest) p p' := by
  refine ⟨?_, ?_, fun h => h₂.absent (h₁.absent h), ?_, h₂.inited.trans h₁.inited,
    h₂.shuffle.trans h₁.shuffle⟩
  · intro g t' hl
    obtain ⟨u, hu, hnode, htrack⟩ := h₂.lookup_some hl
    obtain ⟨t, ht, hnode', htrack'⟩ := h₁.lookup_some hu
    refine ⟨t, ht, hnode.trans hnode', fun j => ?_⟩
    rw [htrack j, htrack' j]
    by_cases hrest : ∃ b ∈ rest, sel b = true ∧ b.filename = g ∧ b.k = j
    · have hall : ∃ b ∈ a :: rest, sel b = true ∧ b.filename = g ∧ b.k = j := by
        obtain ⟨b, hb, h⟩ := hrest
        exact ⟨b, List.mem_cons_of_mem _ hb, h⟩
      rw [if_pos hrest, if_pos hall]
    · rw [if_neg hrest]
      refine if_congr ?_ rfl rfl
      constructor
      · rintro ⟨b, hb, -, h⟩
        rw [List.mem_singleton] at hb
        subst hb
        exact ⟨b, by simp, ha, h⟩
      · rintro ⟨b, hb, hsel, h⟩
        rcases List.mem_cons.mp hb with rfl | hb
        · exact ⟨b, by simp, rfl, h⟩
        · exact absurd ⟨b, hb, hsel, h⟩ hrest
  · intro g hl
    rcases h₂.lookup_none hl with hq | ⟨hm, hall⟩
    · rcases h₁.lookup_none hq with hp | ⟨hm, hall⟩
      · exact .inl hp
      · refine .inr ⟨hm, fun j hj => (hall j hj).imp_right ?_⟩
        rintro ⟨b, hb, -, h⟩
        rw [List.mem_singleton] at hb
        subst hb
        exact ⟨b, by simp, ha, h⟩
    · refine .inr ⟨hm, fun j hj => ?_⟩
      rcases hall j hj with hdone | ⟨b, hb, h⟩
      · obtain ⟨u, hu, huj⟩ := lookup_of_trackAt hdone
        obtain ⟨t, ht, -, htrack⟩ := h₁.lookup_some hu
        rw [htrack j] at huj
        split_ifs at huj with hname
        · obtain ⟨b, hb, -, h⟩ := hname
          rw [List.mem_singleton] at hb
          subst hb
          exact .inr ⟨b, by simp, ha, h⟩
        · exact .inl (by rw [trackAt_of_lookup ht, huj])
      · exact .inr ⟨b, List.mem_cons_of_mem _ hb, h⟩
  · rw [h₂.numFinished, h₁.numFinished]
    by_cases hm : m = .done
    · simp only [hm, if_true, List.countP_cons, List.countP_nil, ha]
      omega
    · simp [hm]

/-- The loop releases every selected entry and keeps the pool sound. -/
theorem Sound.releaseGo (sel : Assigned → Bool) (hm : m ≠ .assigned) (rest : List Assigned) :
    ∀ (kept : List Assigned) (p : WorkloadPool),
      Sound npart { p with assigned := kept ++ rest } →
      ∃ p', releaseGo sel m kept rest p = some p' ∧ Sound npart p' ∧
        p'.assigned = kept ++ rest.filter (fun a => !sel a) ∧
        Released npart sel m rest p p' := by
  induction rest with
  | nil =>
      intro kept p hs
      refine ⟨_, rfl, by simpa using hs, by simp, ?_⟩
      exact ⟨fun h => ⟨_, h, rfl, by simp⟩, fun h => .inl h, fun h => h, by simp, rfl, rfl⟩
  | cons a rest ih =>
      intro kept p hs
      by_cases ha : sel a = true
      · obtain ⟨q, hmark, hsq, hrq⟩ := hs.mark hm
        obtain ⟨p', hgo, hsp', hassigned, hrel⟩ := ih kept q hsq
        refine ⟨p', ?_, hsp', by simpa [ha] using hassigned, hrq.cons ha hrel⟩
        simp [WorkloadPool.releaseGo, ha, hmark, hgo]
      · rw [Bool.not_eq_true] at ha
        obtain ⟨p', hgo, hsp', hassigned, hrel⟩ := ih (kept ++ [a]) p (by simpa using hs)
        refine ⟨p', ?_, hsp', by simpa [ha] using hassigned, hrel.skip ha⟩
        simp [WorkloadPool.releaseGo, ha, hgo]

theorem Sound.release (hs : Sound npart p) (hm : m ≠ .assigned) (sel : Assigned → Bool) :
    ∃ p', p.release sel m = some p' ∧ Sound npart p' ∧
      p'.assigned = p.assigned.filter (fun a => !sel a) ∧
      Released npart sel m p.assigned p p' := by
  simpa [WorkloadPool.release] using Sound.releaseGo sel hm p.assigned [] p hs

/-- `Finish(id)` releases the entries of `id` as done. -/
theorem Sound.finish (hs : Sound npart p) (id : String) (now : ℚ) :
    ∃ p', p.finish id now = some p' ∧ Sound npart p' ∧
      p'.assigned = p.assigned.filter (fun a => !decide (a.node = id)) ∧
      Released npart (fun a => a.node = id) .done p.assigned p p' := by
  obtain ⟨q, hq, hsq, hassigned, hrel⟩ :=
    hs.release (m := .done) (by decide) (fun a => a.node = id)
  refine ⟨{ q with time := q.time ++
    (p.assigned.filter fun a => a.node = id).map (now - ·.start) }, ?_, hsq.congr rfl rfl,
    hassigned, ?_⟩
  · simp [WorkloadPool.finish, set, hq]
  · exact ⟨hrel.lookup_some, hrel.lookup_none, hrel.absent, hrel.numFinished, hrel.inited,
      hrel.shuffle⟩

/-- `Reset(id)` releases the entries of `id` as available. -/
theorem Sound.reset (hs : Sound npart p) (id : String) :
    ∃ p', p.reset id = some p' ∧ Sound npart p' ∧
      p'.assigned = p.assigned.filter (fun a => !decide (a.node = id)) ∧
      Released npart (fun a => a.node = id) .available p.assigned p p' := by
  simpa [WorkloadPool.reset, set] using
    hs.release (m := .available) (by decide) (fun a => a.node = id)

/-- `RemoveStraggler` releases the entries it judges slow as available. -/
theorem Sound.removeStragglerBy (hs : Sound npart p) (slow : Assigned → Bool) :
    ∃ p', p.removeStragglerBy slow = some p' ∧ Sound npart p' ∧
      p'.assigned = p.assigned.filter (fun a => !slow a) ∧
      Released npart slow .available p.assigned p p' :=
  hs.release (by decide) slow

/-! ## The entries an operation leaves

These hold for any pool, sound or not. -/

/-- The entries left by the loop of `Set` and `RemoveStraggler`. -/
theorem assigned_releaseGo {rest : List Assigned} :
    ∀ {kept : List Assigned} {p : WorkloadPool}, releaseGo sel m kept rest p = some p' →
      p'.assigned = kept ++ rest.filter (fun a => !sel a) := by
  induction rest with
  | nil =>
      intro kept p h
      simp only [releaseGo, Option.some.injEq] at h
      simp [← h]
  | cons a rest ih =>
      intro kept p h
      by_cases ha : sel a = true
      · simp only [releaseGo, ha, if_true, Option.bind_eq_some_iff] at h
        obtain ⟨q, -, hq⟩ := h
        simpa [ha] using ih hq
      · simp only [releaseGo, ha, Bool.false_eq_true, if_false] at h
        simpa [ha] using ih h

theorem assigned_finish {now : ℚ} (h : p.finish id now = some p') :
    p'.assigned = p.assigned.filter fun a => !decide (a.node = id) := by
  simp only [finish, set, if_true, Option.map_eq_some_iff] at h
  obtain ⟨q, hq, rfl⟩ := h
  simpa using assigned_releaseGo hq

theorem assigned_reset (h : p.reset id = some p') :
    p'.assigned = p.assigned.filter fun a => !decide (a.node = id) := by
  simp only [reset, set, Bool.false_eq_true, if_false] at h
  simpa using assigned_releaseGo h

theorem assigned_removeStragglerBy {slow : Assigned → Bool}
    (h : p.removeStragglerBy slow = some p') :
    p'.assigned = p.assigned.filter fun a => !slow a := by
  simpa using assigned_releaseGo h

theorem assigned_add {files : List Workload.File} 
    (h : p.add files npart id = some p') : p'.assigned = p.assigned := by
  have hfold : ∀ (fs : List String) (q q' : WorkloadPool),
      fs.foldlM (addFile npart id) q = some q' → q'.assigned = q.assigned := by
    intro fs
    induction fs with
    | nil =>
        intro q q' hq
        simp only [List.foldlM_nil, Option.pure_def, Option.some.injEq] at hq
        rw [hq]
    | cons f fs ih =>
        intro q q' hq
        simp only [List.foldlM_cons, Option.bind_eq_bind, Option.bind_eq_some_iff] at hq
        obtain ⟨r, hr, hq⟩ := hq
        simp only [addFile] at hr
        split at hr
        · simp only [Option.some.injEq] at hr
          rw [ih r q' hq, ← hr]
        · cases hr
  exact hfold _ { p with inited := true } _ h

/-! ## Handing out parts

The two loops of `GetOne` against one list, the parts that they meet: the first loop is its
length, the second one its entry at `pick`. -/

/-- Part `k` of file `f` is available, and `id` is one of the nodes that may read the file. -/
def Readable (p : WorkloadPool) (id f : String) (k : ℕ) : Prop :=
  ∃ t, p.task.lookup f = some t ∧ t.capable id ∧ t.track[k]? = some .available

/-- The numbers of the available parts, counted from `k` on. -/
def openParts : ℕ → List Track → List ℕ
  | _, [] => []
  | k, c :: cs => if c = .available then k :: openParts (k + 1) cs else openParts (k + 1) cs

/-- The parts that the loops of `GetOne` do not `continue` over. -/
def candidates (id : String) (es : List (String × Task)) : List (String × ℕ) :=
  es.flatMap fun e => if e.2.offered id then (openParts 0 e.2.track).map fun k => (e.1, k) else []

@[simp] theorem length_openParts (k : ℕ) (cs : List Track) :
    (openParts k cs).length = cs.count .available := by
  induction cs generalizing k with
  | nil => rfl
  | cons c cs ih => by_cases hc : c = .available <;> simp [openParts, hc, ih]

theorem mem_openParts {cs : List Track} {j : ℕ} :
    j ∈ openParts k cs ↔ k ≤ j ∧ cs[j - k]? = some .available := by
  induction cs generalizing k with
  | nil => simp [openParts]
  | cons c cs ih =>
      have hrest : j ∈ openParts (k + 1) cs ↔ k + 1 ≤ j ∧ (c :: cs)[j - k]? = some .available := by
        rw [ih]
        refine and_congr_right fun hle => ?_
        have hsub : j - k = j - (k + 1) + 1 := by omega
        rw [hsub, List.getElem?_cons_succ]
      rcases Nat.lt_trichotomy j k with hlt | rfl | hgt
      · have hle : ¬k ≤ j := by omega
        have hle' : ¬k + 1 ≤ j := by omega
        by_cases hc : c = .available <;> simp [openParts, hc, hrest, hle, hle', hlt.ne]
      · by_cases hc : c = .available <;> simp [openParts, hc, hrest]
      · have hle : k + 1 ≤ j ↔ k ≤ j := by omega
        by_cases hc : c = .available <;> simp [openParts, hc, hrest, hle, hgt.ne']

/-- The inner loop stops at the entry that it has to skip to, if there are so many. -/
theorem scanTrack_eq (cs : List Track) (k i : ℕ) :
    scanTrack cs k i = ((openParts k cs)[i]?.map Sum.inr).getD
      (.inl (i - (openParts k cs).length)) := by
  induction cs generalizing k i with
  | nil => simp [scanTrack, openParts]
  | cons c cs ih =>
      by_cases hc : c = .available
      · cases i with
        | zero => simp [scanTrack, openParts, hc]
        | succ i => simp [scanTrack, openParts, hc, ih]
      · simp [scanTrack, openParts, hc, ih]

/-- The second loop stops at the candidate that it was told to take. -/
theorem scan_eq (id : String) (es : List (String × Task)) (i : ℕ) :
    scan id es i = (candidates id es)[i]? := by
  induction es generalizing i with
  | nil => rfl
  | cons e es ih =>
      obtain ⟨f, t⟩ := e
      by_cases hoff : t.offered id = true
      · have hcons : candidates id ((f, t) :: es) =
            ((openParts 0 t.track).map fun k => (f, k)) ++ candidates id es := by
          simp [candidates, hoff]
        rw [scan, if_pos hoff, scanTrack_eq, hcons, List.getElem?_append]
        cases hget : (openParts 0 t.track)[i]? with
        | none =>
            have hi : ¬i < (openParts 0 t.track).length := by
              simpa using List.getElem?_eq_none_iff.mp hget
            simp only [List.length_map, if_neg hi, Option.map_none, Option.getD_none, ih]
        | some j =>
            have hi : i < (openParts 0 t.track).length := (List.getElem?_eq_some_iff.mp hget).1
            simp only [List.length_map, if_pos hi, List.getElem?_map, hget, Option.map_some,
              Option.getD_some]
      · have hcons : candidates id ((f, t) :: es) = candidates id es := by
          simp [candidates, hoff]
        rw [scan, if_neg hoff, ih, hcons]

/-- How many parts the two loops of `GetOne` count over a list of files. -/
def availTotal (id : String) (es : List (String × Task)) : ℕ :=
  (es.map fun e => if e.2.offered id then e.2.track.count .available else 0).sum

theorem countAvail_eq (id : String) (es : List (String × Task)) :
    countAvail id es = availTotal id es := by
  have hfold : ∀ (es : List (String × Task)) (n : ℕ),
      es.foldl (fun n e => if e.2.offered id then n + e.2.track.count .available else n) n =
        n + availTotal id es := by
    intro es
    induction es with
    | nil => simp [availTotal]
    | cons e es ih =>
        intro n
        rw [List.foldl_cons, ih]
        simp only [availTotal, List.map_cons, List.sum_cons]
        by_cases hoff : e.2.offered id = true
        · simp only [hoff, if_true, Nat.add_assoc]
        · simp [hoff]
  simpa [countAvail] using hfold es 0

theorem length_candidates (id : String) (es : List (String × Task)) :
    (candidates id es).length = availTotal id es := by
  rw [availTotal, candidates, List.length_flatMap]
  congr 1
  refine List.map_congr_left fun e _ => ?_
  by_cases hoff : e.2.offered id = true <;> simp [hoff]

/-- The first loop counts the candidates. -/
theorem countAvail_eq_length (id : String) (es : List (String × Task)) :
    countAvail id es = (candidates id es).length := by
  rw [countAvail_eq, length_candidates]

theorem capable_of_offered (h : t.offered id = true) : t.capable id := by
  simp only [Task.offered, Bool.and_eq_true, decide_eq_true_eq] at h
  exact h.1

/-- A candidate is an available part of a file that `id` may be offered. -/
theorem mem_candidates {es : List (String × Task)} : (f, k) ∈ candidates id es ↔
    ∃ t, (f, t) ∈ es ∧ t.offered id = true ∧ t.track[k]? = some .available := by
  rw [candidates, List.mem_flatMap]
  constructor
  · rintro ⟨⟨g, t⟩, hmem, hk⟩
    by_cases hoff : t.offered id = true
    · rw [if_pos hoff, List.mem_map] at hk
      obtain ⟨j, hj, heq⟩ := hk
      cases heq
      exact ⟨t, hmem, hoff, by simpa using (mem_openParts.mp hj).2⟩
    · rw [if_neg hoff] at hk
      cases hk
  · rintro ⟨t, hmem, hoff, hk⟩
    refine ⟨(f, t), hmem, ?_⟩
    rw [if_pos hoff, List.mem_map]
    exact ⟨k, mem_openParts.mpr ⟨Nat.zero_le k, by simpa using hk⟩, rfl⟩

/-- The number of the candidate that `Get` takes: the first one without shuffling. -/
def chosen (id : String) (order : List String) (rnd : ℕ) (p : WorkloadPool) : ℕ :=
  if p.shuffle then rnd % (candidates id (p.entries order)).length else 0

theorem chosen_lt {order : List String} (rnd : ℕ) (h : candidates id (p.entries order) ≠ []) :
    p.chosen id order rnd < (candidates id (p.entries order)).length := by
  have hpos : 0 < (candidates id (p.entries order)).length := List.length_pos_iff.mpr h
  unfold chosen
  split
  · exact Nat.mod_lt _ hpos
  · exact hpos

/-- What `pick` leaves to the second loop. -/
theorem pick_bind_scan (id : String) (order : List String) (rnd : ℕ) (p : WorkloadPool) :
    ((p.pick id order rnd).bind fun i => scan id (p.entries order) i) =
      (candidates id (p.entries order))[p.chosen id order rnd]? := by
  rw [pick, countAvail_eq_length, chosen]
  by_cases hsh : p.shuffle = true
  · rw [if_pos hsh, if_pos hsh]
    by_cases hnil : candidates id (p.entries order) = []
    · simp [hnil]
    · have hlen : (candidates id (p.entries order)).length ≠ 0 := by simpa using hnil
      simp only [if_neg hlen, Option.bind_some, scan_eq]
  · rw [if_neg hsh, if_neg hsh, Option.bind_some, scan_eq]

/-- `Get` takes one candidate, and does nothing if there is none. -/
theorem get_eq (id : String) (order : List String) (rnd : ℕ) (now : ℚ) (p : WorkloadPool)
    (wl : Workload) : p.get id order rnd now wl =
      match (candidates id (p.entries order))[p.chosen id order rnd]? with
      | none => (p, { wl with file := [] })
      | some (f, k) => p.assign id now f k { wl with file := [] } := by
  have hget : p.get id order rnd now wl = getOne id order rnd now p { wl with file := [] } := by
    simp [get, numFilePerWl]
  rw [hget, getOne, ← pick_bind_scan]
  cases p.pick id order rnd with
  | none => rfl
  | some i =>
      cases hscan : scan id (p.entries order) i with
      | none => simp [hscan]
      | some fk => simp [hscan]

theorem mem_entries {order : List String} :
    (f, t) ∈ p.entries order ↔ f ∈ order ∧ p.task.lookup f = some t := by
  simp only [entries, List.mem_filterMap, Option.map_eq_some_iff, Prod.mk.injEq]
  constructor
  · rintro ⟨g, hg, u, hu, rfl, rfl⟩
    exact ⟨hg, hu⟩
  · rintro ⟨hf, ht⟩
    exact ⟨f, hf, t, ht, rfl, rfl⟩

/-- The entry that hands part `k` of file `f` to `id`. -/
def handedEntry (id : String) (now : ℚ) (f : String) (k : ℕ) (t : Task) : Assigned :=
  { filename := f, node := id, n := t.track.length, k := k, start := now }

/-- The pool after part `k` of file `f` went to `id`. -/
def handOut (id : String) (now : ℚ) (f : String) (k : ℕ) (t : Task) (p : WorkloadPool) :
    WorkloadPool :=
  { p with
    assigned := p.assigned ++ [handedEntry id now f k t]
    task := p.task.insert f { t with track := t.track.set k .assigned } }

theorem assign_eq (h : p.task.lookup f = some t) (id : String) (now : ℚ) (k : ℕ)
    (wl : Workload) : p.assign id now f k wl =
      (p.handOut id now f k t,
        { wl with file := wl.file ++ [(handedEntry id now f k t).get] }) := by
  simp [assign, h, handOut, handedEntry]

/-- What `Get` does: it hands out one available part of a file `id` may read, or it
changes nothing and there is no such part among the files it visits. -/
theorem get_cases (id : String) (order : List String) (rnd : ℕ) (now : ℚ) (p : WorkloadPool)
    (wl : Workload) :
    (p.get id order rnd now wl = (p, { wl with file := [] }) ∧
      availTotal id (p.entries order) = 0) ∨
    ∃ f k t, p.task.lookup f = some t ∧ t.capable id ∧ t.track[k]? = some .available ∧
      p.get id order rnd now wl = (p.handOut id now f k t,
        { wl with file := [(handedEntry id now f k t).get] }) := by
  rw [get_eq]
  cases hget : (candidates id (p.entries order))[p.chosen id order rnd]? with
  | none =>
      refine .inl ⟨rfl, ?_⟩
      by_contra hne
      rw [← length_candidates] at hne
      have hlt := chosen_lt rnd (List.length_pos_iff.mp (Nat.pos_of_ne_zero hne))
      rw [List.getElem?_eq_getElem hlt] at hget
      cases hget
  | some fk =>
      obtain ⟨f, k⟩ := fk
      obtain ⟨t, hmem, hoff, htrack⟩ := mem_candidates.mp (List.mem_of_getElem? hget)
      have ht := (mem_entries.mp hmem).2
      exact .inr ⟨f, k, t, ht, capable_of_offered hoff, htrack, assign_eq ht ..⟩

/-- A file that is left is not done, so it is offered to all that may read it. -/
theorem Sound.offered (hs : Sound npart p) (ht : p.task.lookup f = some t) (hcap : t.capable id) :
    t.offered id = true := by
  have hdone : t.done ≠ t.track.length := by
    rw [hs.track_length ht]
    exact Nat.ne_of_lt (hs.done_lt ht)
  simp [Task.offered, hcap, hdone]

/-- In a pool whose accounting is right, the candidates are the parts that `id` may be given. -/
theorem Sound.mem_candidates_iff (hs : Sound npart p) {order : List String}
    (horder : p.Enumerates order) :
    (f, k) ∈ candidates id (p.entries order) ↔ p.Readable id f k := by
  rw [mem_candidates]
  constructor
  · rintro ⟨t, hmem, hoff, hk⟩
    exact ⟨t, (mem_entries.mp hmem).2, capable_of_offered hoff, hk⟩
  · rintro ⟨t, ht, hcap, hk⟩
    have hf : f ∈ order := by
      rw [← List.mem_toFinset, horder.2, Finmap.mem_keys]
      exact Finmap.mem_of_lookup_eq_some ht
    exact ⟨t, mem_entries.mpr ⟨hf, ht⟩, hs.offered ht hcap, hk⟩

/-- When nothing was counted, no file `id` may read has an available part. -/
theorem Sound.not_available (hs : Sound npart p) {order : List String}
    (horder : p.Enumerates order) (h : availTotal id (p.entries order) = 0)
    (ht : p.task.lookup f = some t) (hcap : t.capable id) :
    t.track[k]? ≠ some .available := by
  intro hk
  have hfk : (f, k) ∈ candidates id (p.entries order) :=
    (hs.mem_candidates_iff horder).mpr ⟨t, ht, hcap, hk⟩
  rw [← length_candidates, List.length_eq_zero_iff] at h
  rw [h] at hfk
  cases hfk

theorem trackAt_handOut (ht : p.task.lookup f = some t) (hk : t.track[k]? = some .available)
    (id : String) (now : ℚ) (g : String) (j : ℕ) :
    (p.handOut id now f k t).trackAt g j =
      if g = f ∧ j = k then some .assigned else p.trackAt g j := by
  obtain ⟨hlt, -⟩ := List.getElem?_eq_some_iff.mp hk
  by_cases hg : g = f
  · subst hg
    by_cases hj : j = k
    · subst hj
      simp [trackAt, handOut, hlt]
    · simp [trackAt, handOut, ht, hj, List.getElem?_set_ne (Ne.symm hj)]
  · simp [trackAt, handOut, hg, Finmap.lookup_insert_of_ne]

theorem Sound.handOut (hs : Sound npart p) (ht : p.task.lookup f = some t)
    (hk : t.track[k]? = some .available) (id : String) (now : ℚ) :
    Sound npart (p.handOut id now f k t) := by
  obtain ⟨hlt, hget⟩ := List.getElem?_eq_some_iff.mp hk
  have hlookup : ∀ {g t'}, (p.handOut id now f k t).task.lookup g = some t' →
      t' = { t with track := t.track.set k .assigned } ∨ p.task.lookup g = some t' := by
    intro g t' h
    by_cases hg : g = f
    · subst hg
      rw [WorkloadPool.handOut, Finmap.lookup_insert, Option.some.injEq] at h
      exact .inl h.symm
    · rw [WorkloadPool.handOut, Finmap.lookup_insert_of_ne _ hg] at h
      exact .inr h
  have hcount : (t.track.set k .assigned).count .done = t.track.count .done := by
    rw [List.count_set hlt, hget]
    simp
  refine ⟨?_, ?_, ?_, ?_⟩
  · intro g t' h
    rcases hlookup h with rfl | h
    · simpa using hs.track_length ht
    · exact hs.track_length h
  · intro g t' h
    rcases hlookup h with rfl | h
    · exact (hs.done_eq ht).trans hcount.symm
    · exact hs.done_eq h
  · intro g t' h
    rcases hlookup h with rfl | h
    · exact hs.done_lt (t := t) ht
    · exact hs.done_lt h
  · intro g j
    rw [trackAt_handOut ht hk]
    have hold := hs.entries_count g j
    have hentries : (p.handOut id now f k t).assigned.countP (Assigned.names g j) =
        p.assigned.countP (Assigned.names g j) + if f = g ∧ k = j then 1 else 0 := by
      simp [WorkloadPool.handOut, handedEntry, Assigned.names, List.countP_cons]
    rw [hentries, hold]
    by_cases h : f = g ∧ k = j
    · obtain ⟨rfl, rfl⟩ := h
      simp [trackAt_of_lookup ht, hk]
    · have h' : ¬ (g = f ∧ j = k) := fun e => h ⟨e.1.symm, e.2.symm⟩
      simp [h, h']

end Difacto.Base.WorkloadPool
