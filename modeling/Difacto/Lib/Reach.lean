import Mathlib.Logic.Relation

/-!
# Runs of a labelled transition system

A system is a partial step function `step : σ → α → Option σ`: the label carries
every choice the environment makes, and `none` means the label is not enabled (or
the program aborts there). `Reach step ok s₀` is the set of states that runs from
`s₀` visit when each step taken also meets the side condition `ok`; with `ok`
always true these are all the reachable states.

## Main definitions

* `Reach step ok s₀ s` — some run from `s₀` whose steps all meet `ok` ends in `s`.
* `runs step s as` — execute a list of labels.
* `Reach.invariant` — the invariant rule; `Reach.of_runs` — a computed run is a run.
* `length_le_of_runs` — the rule for the length of a run.
* `foldlM_invariant`, `foldlM_simulation` — the rules for a loop over a list.
* `getElem?_snoc` — a history to which a step appends.
-/

namespace Difacto.Lib

universe u v

variable {σ : Type u} {α : Type v}

/-- The states that runs from `s₀` visit, each step meeting `ok` in the state it
leaves. -/
inductive Reach (step : σ → α → Option σ) (ok : σ → α → Prop) (s₀ : σ) : σ → Prop
  /-- The empty run. -/
  | refl : Reach step ok s₀ s₀
  /-- One more step at the end of a run. -/
  | tail {s s' : σ} {a : α} :
      Reach step ok s₀ s → ok s a → step s a = some s' → Reach step ok s₀ s'

/-- No side condition: every enabled step may be taken. -/
def anyStep : σ → α → Prop := fun _ _ => True

instance (s : σ) (a : α) : Decidable (anyStep s a) := inferInstanceAs (Decidable True)

/-- Execute a list of labels, stopping with `none` at the first that is not
enabled. -/
def runs (step : σ → α → Option σ) : σ → List α → Option σ
  | s, [] => some s
  | s, a :: as => (step s a).bind fun s' => runs step s' as

namespace Reach

variable {step : σ → α → Option σ} {ok : σ → α → Prop} {s₀ s s' : σ}

/-- **Induction along a run.** A predicate that holds at the start and is kept by
every step meeting `ok` holds in every state reached. -/
theorem invariant {Inv : σ → Prop} (hr : Reach step ok s₀ s) (h0 : Inv s₀)
    (hstep : ∀ s a s', Inv s → ok s a → step s a = some s' → Inv s') : Inv s := by
  induction hr with
  | refl => exact h0
  | tail _ hok hs ih => exact hstep _ _ _ ih hok hs

/-- Weakening the side condition keeps the reached states. -/
theorem mono {ok' : σ → α → Prop} (hr : Reach step ok s₀ s)
    (h : ∀ s a, ok s a → ok' s a) : Reach step ok' s₀ s := by
  induction hr with
  | refl => exact .refl
  | tail _ hok hs ih => exact .tail ih (h _ _ hok) hs

theorem trans (h₁ : Reach step ok s₀ s) (h₂ : Reach step ok s s') :
    Reach step ok s₀ s' := by
  induction h₂ with
  | refl => exact h₁
  | tail _ hok hs ih => exact .tail ih hok hs

theorem head {a : α} {s₁ : σ} (hok : ok s₀ a) (hs : step s₀ a = some s₁)
    (h : Reach step ok s₁ s) : Reach step ok s₀ s :=
  trans (.tail .refl hok hs) h

/-- A computed run of the steps guarded by a decidable `ok` is a run. -/
theorem of_runs [∀ s a, Decidable (ok s a)] {as : List α}
    (h : runs (fun s a => if ok s a then step s a else none) s₀ as = some s) :
    Reach step ok s₀ s := by
  induction as generalizing s₀ with
  | nil =>
      simp only [runs, Option.some.injEq] at h
      exact h ▸ .refl
  | cons a as ih =>
      simp only [runs, Option.bind_eq_some_iff] at h
      obtain ⟨s₁, hs₁, hrest⟩ := h
      by_cases hok : ok s₀ a
      · rw [if_pos hok] at hs₁
        exact head hok hs₁ (ih hrest)
      · rw [if_neg hok] at hs₁
        cases hs₁

/-- A computed run whose last state passes a test reaches a state that passes it. -/
theorem exists_of_runs [∀ s a, Decidable (ok s a)] {as : List α} {test : σ → Bool}
    (h : (runs (fun s a => if ok s a then step s a else none) s₀ as).any test = true) :
    ∃ s, Reach step ok s₀ s ∧ test s = true := by
  obtain ⟨s, hs, htest⟩ := Option.any_eq_true _ _ |>.mp h
  exact ⟨s, of_runs hs, htest⟩

end Reach

/-- **Runs end.** When every step keeps `Inv` and makes `work` smaller, a run has at most as many
steps as there is work in the beginning. -/
theorem length_le_of_runs {step : σ → α → Option σ} (work : σ → Nat) (Inv : σ → Prop) {as : List α}
    (hstep : ∀ s, ∀ a ∈ as, ∀ s', Inv s → step s a = some s' → Inv s' ∧ work s' < work s)
    {s s' : σ} (hs : Inv s) (hrun : runs step s as = some s') :
    Inv s' ∧ as.length + work s' ≤ work s := by
  induction as generalizing s with
  | nil =>
      simp only [runs, Option.some.injEq] at hrun
      subst hrun
      exact ⟨hs, by simp⟩
  | cons a as ih =>
      simp only [runs, Option.bind_eq_some_iff] at hrun
      obtain ⟨t, ht, hrun⟩ := hrun
      obtain ⟨hinv, hlt⟩ := hstep s a List.mem_cons_self t hs ht
      obtain ⟨hinv', hle⟩ := ih (fun s b hb => hstep s b (List.mem_cons_of_mem a hb)) hinv hrun
      exact ⟨hinv', by rw [List.length_cons]; omega⟩

/-- What every turn of a loop over `as` preserves, the loop preserves. -/
theorem foldlM_invariant_mem {f : σ → α → Option σ} {P : σ → Prop} {as : List α}
    (hstep : ∀ s, ∀ a ∈ as, ∀ s', P s → f s a = some s' → P s') :
    ∀ s s', P s → as.foldlM f s = some s' → P s' := by
  induction as with
  | nil =>
      intro s s' hs hrun
      simp only [List.foldlM_nil, Option.pure_def, Option.some.injEq] at hrun
      rwa [← hrun]
  | cons a as ih =>
      intro s s' hs hrun
      simp only [List.foldlM_cons, Option.bind_eq_bind, Option.bind_eq_some_iff] at hrun
      obtain ⟨t, ht, hrun⟩ := hrun
      exact ih (fun s b hb => hstep s b (List.mem_cons_of_mem a hb)) t s'
        (hstep s a List.mem_cons_self t hs ht) hrun

/-- What every turn of a loop preserves, the loop preserves. -/
theorem foldlM_invariant {f : σ → α → Option σ} {P : σ → Prop}
    (hstep : ∀ s a s', P s → f s a = some s' → P s') (as : List α) :
    ∀ s s', P s → as.foldlM f s = some s' → P s' :=
  foldlM_invariant_mem fun s a _ => hstep s a

/-- **Forward simulation of loops**: if every turn of one is matched by a turn of the
other, so is the whole loop. -/
theorem foldlM_simulation {τ : Type*} {R : σ → τ → Prop} {f : σ → α → Option σ}
    {g : τ → α → Option τ}
    (hstep : ∀ a s t s', R s t → f s a = some s' → ∃ t', g t a = some t' ∧ R s' t')
    (as : List α) :
    ∀ s t s', R s t → as.foldlM f s = some s' → ∃ t', as.foldlM g t = some t' ∧ R s' t' := by
  induction as with
  | nil =>
      intro s t s' hst hrun
      simp only [List.foldlM_nil, Option.pure_def, Option.some.injEq] at hrun
      exact ⟨t, rfl, hrun ▸ hst⟩
  | cons a as ih =>
      intro s t s' hst hrun
      simp only [List.foldlM_cons, Option.bind_eq_bind, Option.bind_eq_some_iff] at hrun
      obtain ⟨s₁, hs₁, hrun⟩ := hrun
      obtain ⟨t₁, ht₁, hst₁⟩ := hstep a s t s₁ hst hs₁
      obtain ⟨t', ht', hst'⟩ := ih s₁ t₁ s' hst₁ hrun
      refine ⟨t', ?_, hst'⟩
      simp only [List.foldlM_cons, Option.bind_eq_bind, ht₁, Option.bind_some, ht']

/-- What a history has after one more element. -/
theorem getElem?_snoc {l : List α} {x y : α} {i : Nat} :
    (l ++ [x])[i]? = some y ↔ l[i]? = some y ∨ i = l.length ∧ y = x := by
  rcases Nat.lt_trichotomy i l.length with hlt | heq | hgt
  · rw [List.getElem?_append_left hlt]
    simp [Nat.ne_of_lt hlt]
  · subst heq
    simp [eq_comm]
  · rw [List.getElem?_append_right (Nat.le_of_lt hgt), List.getElem?_eq_none (Nat.le_of_lt hgt),
      List.getElem?_eq_none (by simp; omega)]
    simp [Nat.ne_of_gt hgt]

end Difacto.Lib
