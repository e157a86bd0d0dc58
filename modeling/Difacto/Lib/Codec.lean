import Mathlib.Data.List.Infix

/-!
# Readers of encoded values

A reader takes bytes from the front of a stream, with a check in each step that so many bytes
are left. `Codes` relates it to a writer: the reader takes up exactly the bytes that were
written, in front of any others, and fails where they are cut off. It is closed under
sequencing, so a format is covered by one step for each of its fields.

The stream may compute its positions modulo some number; they have to stay below it.

## Main definitions

* `Cursor` — what is left of a stream, and how much of it has been read.
* `Codes` — reading is the inverse of writing, and finds every cut.
* `repeatM` — a counted loop.

## Main results

* `Codes.bind`, `Codes.repeatM` — sequences and repetitions.
-/

namespace Difacto.Lib

universe u v

/-- What a reader sees of the state of a stream. -/
structure Cursor (σ : Type u) where
  /-- the bytes that are left -/
  rest : σ → List UInt8
  /-- the number of bytes that have been read -/
  pos : σ → ℕ

/-- The reader `m` takes up exactly the bytes `w`, as `a`. From a proper beginning of them it
fails with `e`, if positions below `bound` are computed exactly. -/
structure Codes {σ ε α : Type u} (c : Cursor σ) (bound : ℕ) (e : ε) (m : StateT σ (Except ε) α)
    (w : List UInt8) (a : α) : Prop where
  read : ∀ s r, c.rest s = w ++ r →
    ∃ s', m.run s = .ok (a, s') ∧ c.rest s' = r ∧ c.pos s' = c.pos s + w.length
  cut : ∀ s, c.rest s <+: w → c.rest s ≠ w → c.pos s + w.length < bound → m.run s = .error e

/-- `n` steps of a loop, from the state `a`. -/
def repeatM {m : Type u → Type v} [Monad m] {α : Type u} (step : α → m α) : ℕ → α → m α
  | 0, a => pure a
  | n + 1, a => step a >>= repeatM step n

namespace Codes

variable {σ ε α β : Type u} {c : Cursor σ} {bound : ℕ} {e : ε} {m : StateT σ (Except ε) α}
  {w w' : List UInt8} {a : α}

/-- No bytes are a value that needs no reading. -/
theorem pure (a : α) : Codes c bound e (pure a) [] a where
  read s _ hr := ⟨s, rfl, hr, rfl⟩
  cut _ hs hne _ := absurd (List.prefix_nil.mp hs) hne

/-- One field after another. -/
theorem bind {f : α → StateT σ (Except ε) β} {b : β} (hm : Codes c bound e m w a)
    (hf : Codes c bound e (f a) w' b) : Codes c bound e (m >>= f) (w ++ w') b where
  read s r hr := by
    rw [List.append_assoc] at hr
    obtain ⟨s₁, hrun₁, hrest₁, hpos₁⟩ := hm.read s _ hr
    obtain ⟨s₂, hrun₂, hrest₂, hpos₂⟩ := hf.read s₁ r hrest₁
    refine ⟨s₂, ?_, hrest₂, ?_⟩
    · rw [StateT.run_bind, hrun₁]
      exact hrun₂
    · rw [hpos₂, hpos₁, List.length_append, Nat.add_assoc]
  cut s hs hne hlt := by
    rw [List.length_append] at hlt
    -- The cut is behind the whole first field, or inside of it.
    by_cases hw : w <+: c.rest s
    · obtain ⟨r, hr⟩ := hw
      obtain ⟨s₁, hrun₁, hrest₁, hpos₁⟩ := hm.read s r hr.symm
      rw [← hr] at hs hne
      rw [StateT.run_bind, hrun₁]
      refine hf.cut s₁ ?_ ?_ (by omega)
      · rw [hrest₁]
        exact (List.prefix_append_right_inj w).mp hs
      · rw [hrest₁]
        exact fun h => hne (congrArg (w ++ ·) h)
    · have hpre : c.rest s <+: w :=
        (List.prefix_or_prefix_of_prefix hs (List.prefix_append w w')).resolve_right hw
      rw [StateT.run_bind, hm.cut s hpre (fun h => hw (h ▸ List.prefix_rfl)) (by omega)]
      rfl

/-- A value that is computed from a field. -/
theorem map (f : α → β) (hm : Codes c bound e m w a) :
    Codes c bound e (do return f (← m)) w (f a) := by
  have hbind := Codes.bind (f := fun x => Pure.pure (f x)) hm (pure (f a))
  rwa [List.append_nil] at hbind

/-- A list whose length is known, with one step of the loop for each entry. -/
theorem repeatM {ρ : Type v} {step : α → StateT σ (Except ε) α} {enc : ρ → List UInt8}
    {put : α → ρ → α} {xs : List ρ}
    (hstep : ∀ x ∈ xs, ∀ a, Codes c bound e (step a) (enc x) (put a x)) (a : α) :
    Codes c bound e (repeatM step xs.length a) (xs.flatMap enc) (xs.foldl put a) := by
  induction xs generalizing a with
  | nil => exact pure a
  | cons x xs ih =>
      exact (hstep x (by simp) a).bind (ih (fun y hy => hstep y (List.mem_cons_of_mem x hy)) _)

end Codes

end Difacto.Lib
