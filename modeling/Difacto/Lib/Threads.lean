import Difacto.Lib.Arrays
import Difacto.Lib.Reach

/-!
# Threads that add to one array

Threads share an array, and each has a list of elements that it adds to. An addition takes
two steps, a read of the element and a store of the sum, and the steps of the threads come
in any order. Where no two threads add to the same element, every run that ends leaves what
the threads leave when they take their turns one after the other.

## Main definitions

* `Pool`, `Pool.step` — the threads and their array, and one step of one thread.
* `Apart` — additions to different elements.

## Main results

* `Pool.mem_of_done` — the array at the end of a run.
* `Pool.exists_done` — every run comes to an end.
-/

namespace Difacto.Lib

variable {T : Type*}

/-- A thread. -/
structure Thread (T : Type*) where
  /-- what it has added -/
  added : List (ℕ × T)
  /-- what it has read of the element it is adding to -/
  read : Option T
  /-- what it has still to add -/
  todo : List (ℕ × T)

/-- A thread that has not begun. -/
def Thread.start (cs : List (ℕ × T)) : Thread T := { added := [], read := none, todo := cs }

/-- All that a thread adds. -/
def Thread.program (th : Thread T) : List (ℕ × T) := th.added ++ th.todo

/-- Additions to different elements. -/
def Apart (cs ds : List (ℕ × T)) : Prop := ∀ c ∈ cs, ∀ d ∈ ds, c.1 ≠ d.1

/-- Threads and the array that they share. -/
structure Pool (T : Type*) where
  mem : List T
  threads : List (Thread T)

namespace Pool

/-- The threads before their first steps. -/
def start (ys : List T) (ps : List (List (ℕ × T))) : Pool T :=
  { mem := ys, threads := ps.map .start }

/-- No thread has anything left to add. -/
def Done (s : Pool T) : Prop := ∀ th ∈ s.threads, th.todo = []

section Step

variable [Zero T] [Add T]

/-- The next step of thread `t`: it reads an element, or stores what it has read with its
own part added. -/
def step (s : Pool T) (t : ℕ) : Option (Pool T) :=
  match s.threads[t]? with
  | none => none
  | some th =>
    match th.todo, th.read with
    | [], _ => none
    | c :: _, none =>
      some { s with threads := s.threads.set t { th with read := some (s.mem.getD c.1 0) } }
    | c :: rest, some u =>
      some { mem := s.mem.set c.1 (u + c.2)
             threads := s.threads.set t { added := th.added ++ [c], read := none, todo := rest } }

/-- **What a step does**, with the stepping thread between the others. -/
theorem step_cases {s s' : Pool T} {t : ℕ} (h : step s t = some s') :
    ∃ before th after c rest, s.threads = before ++ th :: after ∧ th.todo = c :: rest ∧
      (th.read = none ∧ s' = { s with threads := before ++
          { th with read := some (s.mem.getD c.1 0) } :: after } ∨
        ∃ u, th.read = some u ∧ s' =
          { mem := s.mem.set c.1 (u + c.2)
            threads := before ++ { added := th.added ++ [c], read := none, todo := rest } ::
              after }) := by
  simp only [step] at h
  split at h
  · cases h
  · next th hth =>
    obtain ⟨hlt, rfl⟩ := List.getElem?_eq_some_iff.mp hth
    have hset : ∀ th', s.threads.set t th' =
        s.threads.take t ++ th' :: s.threads.drop (t + 1) := fun th' =>
      List.set_eq_take_append_cons_drop.trans (if_pos hlt)
    have hsplit : s.threads = s.threads.take t ++ s.threads[t] :: s.threads.drop (t + 1) := by
      rw [List.getElem_cons_drop, List.take_append_drop]
    split at h
    · cases h
    · next c rest htodo hread =>
      rw [hset] at h
      exact ⟨_, _, _, c, rest, hsplit, htodo, .inl ⟨hread, (Option.some.inj h).symm⟩⟩
    · next c rest u htodo hread =>
      rw [hset] at h
      exact ⟨_, _, _, c, rest, hsplit, htodo, .inr ⟨u, hread, (Option.some.inj h).symm⟩⟩

/-- A thread with something left to add has a step. -/
theorem exists_step {s : Pool T} (h : ¬ s.Done) : ∃ t s', step s t = some s' := by
  simp only [Done, not_forall] at h
  obtain ⟨th, hth, htodo⟩ := h
  obtain ⟨t, ht⟩ := List.getElem?_of_mem hth
  obtain ⟨c, rest, hcons⟩ := List.exists_cons_of_ne_nil htodo
  cases hread : th.read with
  | none => exact ⟨t, Option.ne_none_iff_exists'.mp (by simp [step, ht, hcons, hread])⟩
  | some u => exact ⟨t, Option.ne_none_iff_exists'.mp (by simp [step, ht, hcons, hread])⟩

end Step

/-- The steps that a thread has left. -/
def left (th : Thread T) : ℕ := 2 * th.todo.length - if th.read.isSome then 1 else 0

section Ends

variable [Zero T] [Add T]

theorem left_step {s s' : Pool T} {t : ℕ} (h : step s t = some s') :
    (s'.threads.map left).sum + 1 = (s.threads.map left).sum := by
  obtain ⟨before, th, after, c, rest, hs, htodo, hcase⟩ := step_cases h
  obtain ⟨hread, rfl⟩ | ⟨u, hread, rfl⟩ := hcase
  · simp [hs, left, htodo, hread]
    omega
  · simp [hs, left, htodo, hread]
    omega

/-- **Every run comes to an end**, whatever steps are taken. -/
theorem exists_done (s : Pool T) : ∃ s', Reach step anyStep s s' ∧ s'.Done := by
  induction hn : (s.threads.map left).sum using Nat.strong_induction_on generalizing s with
  | _ n ih =>
    by_cases hdone : s.Done
    · exact ⟨s, .refl, hdone⟩
    · obtain ⟨t, s₁, hstep⟩ := exists_step hdone
      have hleft := left_step hstep
      obtain ⟨s', hrun, hend⟩ := ih _ (by omega) s₁ rfl
      exact ⟨s', .head trivial hstep hrun, hend⟩

end Ends

/-! ## Threads that keep apart -/

section Scatter

variable [Zero T] [Add T]

theorem scatter_snoc (ys : List T) (cs : List (ℕ × T)) (c : ℕ × T) :
    scatter ys (cs ++ [c]) = addAt (scatter ys cs) c.1 c.2 := by
  simp [scatter]

theorem addAt_comm (ys : List T) {i j : ℕ} (hij : i ≠ j) (u v : T) :
    addAt (addAt ys i u) j v = addAt (addAt ys j v) i u := by
  simp only [addAt, List.getD_eq_getElem?_getD, List.getElem?_set_ne hij,
    List.getElem?_set_ne hij.symm]
  exact List.set_comm _ _ hij

/-- An addition to an element that the additions after it leave alone. -/
theorem addAt_scatter (ys : List T) {cs : List (ℕ × T)} {i : ℕ} (h : ∀ c ∈ cs, c.1 ≠ i) (v : T) :
    addAt (scatter ys cs) i v = scatter (addAt ys i v) cs := by
  induction cs generalizing ys with
  | nil => rfl
  | cons c cs ih =>
      obtain ⟨hc, hcs⟩ := List.forall_mem_cons.mp h
      rw [scatter, List.foldl_cons, scatter, List.foldl_cons, addAt_comm _ hc.symm]
      exact ih _ hcs

theorem addAt_foldl_scatter (ys : List T) {ps : List (List (ℕ × T))} {i : ℕ}
    (h : ∀ cs ∈ ps, ∀ c ∈ cs, c.1 ≠ i) (v : T) :
    addAt (ps.foldl scatter ys) i v = ps.foldl scatter (addAt ys i v) := by
  induction ps generalizing ys with
  | nil => rfl
  | cons cs ps ih =>
      obtain ⟨hcs, hps⟩ := List.forall_mem_cons.mp h
      rw [List.foldl_cons, ih _ hps, addAt_scatter _ hcs, List.foldl_cons]

theorem getD_addAt_of_ne (ys : List T) {i j : ℕ} (h : i ≠ j) (v : T) :
    (addAt ys i v).getD j 0 = ys.getD j 0 := by
  rw [addAt, List.getD_eq_getElem?_getD, List.getElem?_set_ne h, List.getD_eq_getElem?_getD]

end Scatter

section Inv

variable [Zero T] [Add T] {ys : List T} {ps : List (List (ℕ × T))} {s s' : Pool T} {t : ℕ}

/-- In every state of a run: the array holds what the threads have added, as if they had
taken turns, and what a thread has read is still there. -/
structure Inv (ys : List T) (ps : List (List (ℕ × T))) (s : Pool T) : Prop where
  programs : s.threads.map Thread.program = ps
  mem_eq : s.mem = (s.threads.map Thread.added).foldl scatter ys
  read_eq : ∀ th ∈ s.threads, ∀ u ∈ th.read, ∃ c rest, th.todo = c :: rest ∧ u = s.mem.getD c.1 0

omit [Zero T] [Add T] in
theorem program_start (ps : List (List (ℕ × T))) :
    (ps.map Thread.start).map Thread.program = ps := by
  simp [Thread.start, Thread.program, Function.comp_def]

theorem inv_start (ys : List T) (ps : List (List (ℕ × T))) : Inv ys ps (start ys ps) where
  programs := program_start ps
  mem_eq := by
    induction ps with
    | nil => rfl
    | cons p ps ih => exact ih
  read_eq th hth u hu := by
    obtain ⟨p, -, rfl⟩ := List.mem_map.mp hth
    cases hu

variable {before after : List (Thread T)} {th : Thread T} {c : ℕ × T} {rest : List (ℕ × T)}

/-- A read changes nothing in the array. -/
theorem Inv.load (h : Inv ys ps s) (hthreads : s.threads = before ++ th :: after)
    (htodo : th.todo = c :: rest) : Inv ys ps { s with threads :=
      before ++ { th with read := some (s.mem.getD c.1 0) } :: after } := by
  have hprogs := h.programs
  rw [hthreads] at hprogs
  simp only [List.map_append, List.map_cons] at hprogs
  refine ⟨?_, ?_, fun th' hth' u hu => ?_⟩
  · simpa only [List.map_append, List.map_cons, Thread.program] using hprogs
  · rw [h.mem_eq, hthreads]
    simp only [List.map_append, List.map_cons]
  · simp only [List.mem_append, List.mem_cons] at hth'
    obtain hin | rfl | hin := hth'
    · exact h.read_eq th' (by simp [hthreads, hin]) u hu
    · exact ⟨c, rest, htodo, (Option.mem_some.mp hu).symm⟩
    · exact h.read_eq th' (by simp [hthreads, hin]) u hu

omit [Zero T] [Add T] in
/-- The other threads neither have added to the element of this one nor will. -/
theorem other_ne (hapart : (s.threads.map Thread.program).Pairwise Apart)
    (hthreads : s.threads = before ++ th :: after) (htodo : th.todo = c :: rest) :
    ∀ th' ∈ before ++ after, ∀ d ∈ th'.program, d.1 ≠ c.1 := by
  have hc : c ∈ th.program := by simp [Thread.program, htodo]
  rw [hthreads, List.map_append, List.map_cons, List.pairwise_append, List.pairwise_cons] at hapart
  obtain ⟨-, ⟨hafter, -⟩, hbefore⟩ := hapart
  intro th' hth' d hd
  obtain hin | hin := List.mem_append.mp hth'
  · exact hbefore _ (List.mem_map_of_mem hin) _ (List.mem_cons_self ..) d hd c hc
  · exact (hafter _ (List.mem_map_of_mem hin) c hc d hd).symm

/-- A store adds to what is in the array: nobody has changed the element since it was read. -/
theorem Inv.store (h : Inv ys ps s) (hapart : ps.Pairwise Apart)
    (hthreads : s.threads = before ++ th :: after) (htodo : th.todo = c :: rest) {u : T}
    (hread : th.read = some u) : Inv ys ps
      { mem := s.mem.set c.1 (u + c.2)
        threads :=
          before ++ { added := th.added ++ [c], read := none, todo := rest } :: after } := by
  have hother := other_ne (h.programs ▸ hapart) hthreads htodo
  have hprogs := h.programs
  rw [hthreads] at hprogs
  simp only [List.map_append, List.map_cons] at hprogs
  have hu : u = s.mem.getD c.1 0 := by
    obtain ⟨c', rest', htodo', hu⟩ := h.read_eq th (by simp [hthreads]) u hread
    rw [htodo, List.cons.injEq] at htodo'
    rw [hu, htodo'.1]
  have hstore : s.mem.set c.1 (u + c.2) = addAt s.mem c.1 c.2 := by rw [hu, addAt]
  rw [hstore]
  refine ⟨?_, ?_, fun th' hth' v hv => ?_⟩
  · simpa [Thread.program, htodo] using hprogs
  · have hleft : ∀ cs ∈ after.map Thread.added, ∀ d ∈ cs, d.1 ≠ c.1 := by
      intro cs hcs d hd
      obtain ⟨th', hth', rfl⟩ := List.mem_map.mp hcs
      exact hother th' (List.mem_append_right _ hth') d (List.mem_append_left _ hd)
    rw [h.mem_eq, hthreads]
    simp only [List.map_append, List.map_cons, List.foldl_append, List.foldl_cons, scatter_snoc]
    rw [addAt_foldl_scatter _ hleft]
  · have hkeep : ∀ th' ∈ before ++ after, v ∈ th'.read →
        ∃ d rest, th'.todo = d :: rest ∧ v = (addAt s.mem c.1 c.2).getD d.1 0 := by
      intro th' hth' hv
      have hmem : th' ∈ s.threads := by
        simp only [hthreads, List.mem_append, List.mem_cons] at hth' ⊢
        tauto
      obtain ⟨d, rest', htodo', hv'⟩ := h.read_eq th' hmem v hv
      have hne : d.1 ≠ c.1 := hother th' hth' d (by simp [Thread.program, htodo'])
      exact ⟨d, rest', htodo', by rw [hv', getD_addAt_of_ne _ hne.symm]⟩
    simp only [List.mem_append, List.mem_cons] at hth'
    obtain hin | rfl | hin := hth'
    · exact hkeep th' (List.mem_append_left _ hin) hv
    · cases hv
    · exact hkeep th' (List.mem_append_right _ hin) hv

/-- **One step keeps the invariant**, if the threads keep apart. -/
theorem Inv.step (h : Inv ys ps s) (hapart : ps.Pairwise Apart) (hs : Pool.step s t = some s') :
    Inv ys ps s' := by
  obtain ⟨before, th, after, c, rest, hthreads, htodo, hcase⟩ := step_cases hs
  obtain ⟨-, rfl⟩ | ⟨u, hread, rfl⟩ := hcase
  · exact h.load hthreads htodo
  · exact h.store hapart hthreads htodo hread

/-- **The end of a run** of threads that keep apart is that of the threads in turn. -/
theorem mem_of_done (hapart : ps.Pairwise Apart) (hrun : Reach step anyStep (start ys ps) s)
    (hdone : s.Done) : s.mem = ps.foldl scatter ys := by
  have hinv : Inv ys ps s :=
    hrun.invariant (inv_start ys ps) fun _ _ _ h _ hs => h.step hapart hs
  have hadded : s.threads.map Thread.added = s.threads.map Thread.program := by
    refine List.map_congr_left fun th hth => ?_
    rw [Thread.program, hdone th hth, List.append_nil]
  rw [hinv.mem_eq, hadded, hinv.programs]

end Inv

end Pool

end Difacto.Lib
