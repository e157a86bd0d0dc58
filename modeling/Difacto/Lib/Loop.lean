import Mathlib.Logic.Relation
import Mathlib.Order.Basic

/-!
# Loops that may fail

A loop `while (!stop) body;` whose body may fail, with a bound on the number of its turns. If
every turn decreases a measure, a bound above the measure of the first state is no bound.

## Main definitions

* `whileLoop` — the loop; `Turn` — one turn of it.

## Main results

* `whileLoop_eq_ok`, `whileLoop_eq_error` — how a loop ends after some turns.
* `whileLoop_ne_late` — it does not end because of the bound.
-/

namespace Difacto.Lib

open Relation

universe u v

variable {σ : Type u} {ε : Type v}

/-- `while (!stop) body;`. It fails with `late` when it takes more turns than the bound. -/
def whileLoop (stop : σ → Bool) (body : σ → Except ε σ) (late : ε) : ℕ → σ → Except ε σ
  | 0, _ => .error late
  | fuel + 1, s => if stop s then .ok s else (body s).bind (whileLoop stop body late fuel)

/-- One turn of a loop. -/
def Turn (stop : σ → Bool) (body : σ → Except ε σ) (s s' : σ) : Prop :=
  stop s = false ∧ body s = .ok s'

variable {stop : σ → Bool} {body : σ → Except ε σ} {late e : ε} {μ : σ → ℕ} {fuel : ℕ} {s s' : σ}

theorem whileLoop_of_turn (h : Turn stop body s s') :
    whileLoop stop body late (fuel + 1) s = whileLoop stop body late fuel s' := by
  rw [whileLoop, h.1, if_neg Bool.false_ne_true, h.2]
  rfl

/-- After some turns the loop goes on with a bound that is still large enough. -/
theorem whileLoop_of_turns (hμ : ∀ s s', Turn stop body s s' → μ s' < μ s)
    (h : ReflTransGen (Turn stop body) s s') (hfuel : μ s < fuel) :
    ∃ fuel', μ s' < fuel' ∧
      whileLoop stop body late fuel s = whileLoop stop body late fuel' s' := by
  induction h using ReflTransGen.head_induction_on generalizing fuel with
  | refl => exact ⟨fuel, hfuel, rfl⟩
  | head hturn _ ih =>
      obtain ⟨fuel, rfl⟩ := Nat.exists_eq_add_of_lt (Nat.zero_lt_of_lt hfuel)
      have hlt := hμ _ _ hturn
      rw [Nat.zero_add] at hfuel ⊢
      rw [whileLoop_of_turn hturn]
      exact ih (by omega)

/-- The loop returns. -/
theorem whileLoop_eq_ok (hμ : ∀ s s', Turn stop body s s' → μ s' < μ s)
    (h : ReflTransGen (Turn stop body) s s') (hstop : stop s' = true) (hfuel : μ s < fuel) :
    whileLoop stop body late fuel s = .ok s' := by
  obtain ⟨fuel', hlt, heq⟩ := whileLoop_of_turns hμ h hfuel
  obtain ⟨fuel', rfl⟩ := Nat.exists_eq_add_of_lt (Nat.zero_lt_of_lt hlt)
  rw [heq, whileLoop, if_pos hstop]

/-- The body fails. -/
theorem whileLoop_eq_error (hμ : ∀ s s', Turn stop body s s' → μ s' < μ s)
    (h : ReflTransGen (Turn stop body) s s') (hstop : stop s' = false)
    (hbody : body s' = .error e) (hfuel : μ s < fuel) :
    whileLoop stop body late fuel s = .error e := by
  obtain ⟨fuel', hlt, heq⟩ := whileLoop_of_turns hμ h hfuel
  obtain ⟨fuel', rfl⟩ := Nat.exists_eq_add_of_lt (Nat.zero_lt_of_lt hlt)
  rw [heq, whileLoop, hstop, if_neg Bool.false_ne_true, hbody]
  rfl

theorem exists_of_bind_eq_ok {α β : Type u} {m : Except ε α} {f : α → Except ε β} {b : β}
    (h : m.bind f = .ok b) : ∃ a, m = .ok a ∧ f a = .ok b := by
  cases m with
  | error e => cases h
  | ok a => exact ⟨a, rfl, h⟩

theorem exists_of_map_eq_ok {α β : Type u} {m : Except ε α} {f : α → β} {b : β}
    (h : m.map f = .ok b) : ∃ a, m = .ok a ∧ f a = b := by
  cases m with
  | error e => cases h
  | ok a =>
      cases h
      exact ⟨a, rfl, rfl⟩

/-- Two computations in sequence fail only like one of them. -/
theorem bind_ne_error {α β : Type u} {m : Except ε α} {f : α → Except ε β} (hm : m ≠ .error e)
    (hf : ∀ a, f a ≠ .error e) : (m >>= f) ≠ .error e := by
  cases m with
  | error e' => exact fun h => hm (by cases h; rfl)
  | ok a => exact hf a

/-- The bound is not what ends the loop. -/
theorem whileLoop_ne_late (hμ : ∀ s s', Turn stop body s s' → μ s' < μ s)
    (hbody : ∀ s, body s ≠ .error late) (hfuel : μ s < fuel) :
    whileLoop stop body late fuel s ≠ .error late := by
  induction fuel generalizing s with
  | zero => exact absurd hfuel (Nat.not_lt_zero _)
  | succ fuel ih =>
      rw [whileLoop]
      cases hstop : stop s with
      | true => exact fun h => by cases h
      | false =>
          rw [if_neg Bool.false_ne_true]
          cases hs : body s with
          | error e =>
              intro h
              exact hbody s (hs.trans h)
          | ok s' =>
              have hlt := hμ s s' ⟨hstop, hs⟩
              exact ih (by omega)

end Difacto.Lib
