import Difacto.Linear.Handle
import Difacto.Server.Handle
import Mathlib.Algebra.Order.Field.Basic
import Mathlib.Tactic.Ring
import Mathlib.Tactic.Positivity

/-!
# The two FTRL implementations

`AdaGradHandle::UpdateW` of `difacto/async_sgd.h` and `FTRLHandle::Push` of
`linear/async_sgd.h` do the same steps in exact arithmetic, with opposite signs of `z`.

Exact arithmetic is an ordered field; its square root may be any function with values
that are not negative.

## Main definitions

* `Exact.Num` — exact numbers.
* `SameSettings` — the two programs are set up alike.
* `Agree` — an entry of each program for the same key.

## Main results

* `ftrl_agrees` — the entries agree after every sequence of gradients.
-/

namespace Difacto.Linear

open Base Server

section Exact

/-- An ordered field with the further operations of `FloatLike`. -/
structure Exact (R : Type) [Field R] [LinearOrder R] where
  sqrt : R → R
  sqrt_nonneg : ∀ x, 0 ≤ sqrt x
  toUnsigned : R → UInt32
  toStr : R → String

variable {R : Type} [Field R] [LinearOrder R]

/-- The numbers of an exact arithmetic. -/
def Exact.Num (_ : Exact R) : Type := R

instance (A : Exact R) : FloatLike A.Num where
  zero := (0 : R)
  one := (1 : R)
  add := fun x y : R => x + y
  sub := fun x y : R => x - y
  mul := fun x y : R => x * y
  div := fun x y : R => x / y
  neg := fun x : R => -x
  beq := fun x y : R => decide (x = y)
  le := fun x y : R => x ≤ y
  lt := fun x y : R => x < y
  decidableLE := fun x y : R => inferInstanceAs (Decidable (x ≤ y))
  decidableLT := fun x y : R => inferInstanceAs (Decidable (x < y))
  sqrt := A.sqrt
  toUnsigned := A.toUnsigned
  toStr := A.toStr
  zero_beq_zero := decide_eq_true rfl

namespace Exact

variable {A : Exact R} (x y : A.Num)

theorem add_zero_mul : x + 0 * y = x := by
  have h : ∀ x y : R, x + 0 * y = x := fun x y => by ring
  exact h x y

theorem add_zero_eq : x + 0 = x := by
  have h : ∀ x : R, x + 0 = x := fun x => by ring
  exact h x

theorem neg_sub_eq : -x - y = -(x + y) := by
  have h : ∀ x y : R, -x - y = -(x + y) := fun x y => by ring
  exact h x y

theorem neg_zero_eq : -(0 : A.Num) = 0 := by
  have h : -(0 : R) = 0 := by ring
  exact h

variable [IsStrictOrderedRing R]

theorem div_sqrt_pos {a b : A.Num} (ha : 0 < a) (hb : 0 < b) :
    0 < (b + FloatLike.sqrt x) / a := by
  have h : ∀ a b c : R, 0 < a → 0 < b → 0 ≤ c → 0 < (b + c) / a := fun a b c ha hb hc => by
    positivity
  exact h a b (A.sqrt x) ha hb (A.sqrt_nonneg x)

end Exact

end Exact

variable {F : Type} [FloatLike F]

/-- The two programs are set up alike, without an embedding and an L2 penalty. -/
structure SameSettings (h : Server.AdaGradHandle F) (h' : ISGDHandle F) : Prop where
  alpha : h.alpha = h'.alpha
  beta : h.beta = h'.beta
  lambda1 : h.lambdaL1 = h'.penalty.lambda1
  lambda2 : h.lambdaL2 = 0
  lambda2' : h'.penalty.lambda2 = 0
  dim : h.V.dim = 0

/-- The entries of a key in the two programs: `z` has opposite signs. -/
structure Agree (p : Param F) (v : FTRLEntry F) : Prop where
  w : p.w = v.w
  cg : p.cg = v.sqCumGrad
  z : p.z = -v.z
  emb : p.emb = []

variable {R : Type} [Field R] [LinearOrder R] {A : Exact R} {h : Server.AdaGradHandle A.Num}
  {h' : ISGDHandle A.Num} {p : Param A.Num} {v : FTRLEntry A.Num}

/-- The entry after one gradient. -/
def FTRLEntry.next (h' : ISGDHandle F) (g : F) (v : FTRLEntry F) : FTRLEntry F :=
  let sqCumGrad := FloatLike.sqrt (v.sqCumGrad * v.sqCumGrad + g * g)
  let z := v.z + (g - (sqCumGrad - v.sqCumGrad) / h'.alpha * v.w)
  { w := if -z ≤ h'.penalty.lambda1 ∧ -h'.penalty.lambda1 ≤ -z then 0
      else (if 0 < -z then -z - h'.penalty.lambda1 else -z + h'.penalty.lambda1) /
        ((h'.beta + sqCumGrad) / h'.alpha + h'.penalty.lambda2)
    z := z
    sqCumGrad := sqCumGrad }

/-- The check of `Solve` passes. -/
theorem push_eq [IsStrictOrderedRing R] (halpha : 0 < h'.alpha) (hbeta : 0 < h'.beta)
    (g : A.Num) (v : FTRLEntry A.Num) (newW : ℤ) :
    FTRLHandle.push h' [g] v newW =
      some (v.next h' g, update (v.next h' g).w v.w newW) := by
  have heta := Exact.div_sqrt_pos (v.sqCumGrad * v.sqCumGrad + g * g) halpha hbeta
  simp only [FTRLHandle.push, List.head?_cons, L1L2.solve, heta, if_true, Option.bind_eq_bind,
    Option.bind_some]
  rfl

/-- **One step** of the two programs. -/
theorem Agree.ftrl (hs : SameSettings h h') (hpv : Agree p v) (g : A.Num) :
    Agree (p.ftrl h g) (v.next h' g) := by
  have hcg : (p.ftrl h g).cg = (v.next h' g).sqCumGrad := by
    simp only [Param.ftrl, FTRLEntry.next, hs.lambda2, Exact.add_zero_mul, hpv.cg]
  have hz : (p.ftrl h g).z = -(v.next h' g).z := by
    simp only [Param.ftrl, FTRLEntry.next, hs.lambda2, hs.alpha, Exact.add_zero_mul, hpv.cg, hpv.w,
      hpv.z, Exact.neg_sub_eq]
  have hw : (p.ftrl h g).w = h.shrink (p.ftrl h g).z (p.ftrl h g).cg := rfl
  refine ⟨?_, hcg, hz, hpv.emb⟩
  rw [hw, hz, hcg]
  simp only [Server.AdaGradHandle.shrink, FTRLEntry.next, hs.lambda1, hs.lambda2', hs.alpha,
    hs.beta, Exact.add_zero_eq]

/-- `UpdateW` counts like `Update`, and allocates nothing. -/
theorem updateW_eq (hs : SameSettings h h') (hpv : Agree p v) (st : Stat A.Num) (g : A.Num) :
    p.updateW h st g =
      (p.ftrl h g, { st with newW := update (v.next h' g).w v.w st.newW }) := by
  have hnext := hpv.ftrl hs g
  have hresize : ∀ st', (p.ftrl h g).resize h st' = (p.ftrl h g, st') := by
    intro st'
    have hwants : (p.ftrl h g).wants h = false := by
      simp [Param.wants, hs.dim]
    rw [Param.resize, hwants]
    rfl
  simp only [Param.updateW, hresize, update, ← hnext.w, ← hpv.w]
  split
  · rfl
  · split
    · rfl
    · rfl

/-- The two folds, from entries that agree. -/
theorem Agree.foldlM [IsStrictOrderedRing R] (hs : SameSettings h h') (halpha : 0 < h.alpha)
    (hbeta : 0 < h.beta) (gs : List A.Num) (hpv : Agree p v) (st : Stat A.Num) (newW : ℤ) :
    ∃ p' st' v' newW',
      gs.foldlM (fun vs g => h.updateW vs.1 vs.2 g) (p.toEntry, st) = some (p'.toEntry, st') ∧
      gs.foldlM (fun vn g => FTRLHandle.push h' [g] vn.1 vn.2) (v, newW) = some (v', newW') ∧
      Agree p' v' ∧ st'.newW - st.newW = newW' - newW := by
  induction gs generalizing p v st newW with
  | nil => exact ⟨p, st, v, newW, rfl, rfl, hpv, by omega⟩
  | cons g gs ih =>
      have hpush := push_eq (hs.alpha ▸ halpha) (hs.beta ▸ hbeta) g v newW
      have hupd : h.updateW p.toEntry st g = some ((p.ftrl h g).toEntry,
          { st with newW := update (v.next h' g).w v.w st.newW }) := by
        rw [Param.updateW_toEntry, updateW_eq hs hpv]
      obtain ⟨p', st', v', newW', hp', hv', hagree, hnew⟩ := ih (hpv.ftrl hs g)
        { st with newW := update (v.next h' g).w v.w st.newW }
        (update (v.next h' g).w v.w newW)
      have hchange : update (v.next h' g).w v.w st.newW - st.newW =
          update (v.next h' g).w v.w newW - newW := by
        simp only [update]
        split
        · omega
        · split <;> omega
      refine ⟨p', st', v', newW', ?_, ?_, hagree, ?_⟩
      · rw [List.foldlM_cons, hupd]
        exact hp'
      · rw [List.foldlM_cons, hpush]
        exact hv'
      · simp only at hnew
        omega

/-- **The two implementations agree.** After every sequence of gradients for a fresh key the
two programs have the same weight and the same cumulative gradient, `z` with opposite signs,
and `new_w` has changed by the same amount. -/
theorem ftrl_agrees {R : Type} [Field R] [LinearOrder R] [IsStrictOrderedRing R] (A : Exact R)
    (h : Server.AdaGradHandle A.Num) (h' : ISGDHandle A.Num) (hs : SameSettings h h')
    (halpha : 0 < h.alpha) (hbeta : 0 < h.beta) (st : Stat A.Num) (newW : ℤ)
    (gs : List A.Num) : ∃ e st' v newW',
    gs.foldlM (fun vs g => h.updateW vs.1 vs.2 g) (Server.AdaGradEntry.new, st) = some (e, st') ∧
    gs.foldlM (fun vn g => FTRLHandle.push h' [g] vn.1 vn.2) (FTRLEntry.new, newW) =
      some (v, newW') ∧
    e.w0 = some v.w ∧ e.sqcGrad0 = some v.sqCumGrad ∧ e.z0 = some (-v.z) ∧
    st'.newW - st.newW = newW' - newW := by
  have hfresh : Agree (Param.new : Param A.Num) FTRLEntry.new :=
    ⟨rfl, rfl, Exact.neg_zero_eq.symm, rfl⟩
  obtain ⟨p, st', v, newW', hp, hv, hagree, hnew⟩ :=
    hfresh.foldlM hs halpha hbeta gs st newW
  rw [Param.toEntry_new] at hp
  refine ⟨p.toEntry, st', v, newW', hp, hv, ?_, ?_, ?_, hnew⟩
  · rw [Param.w0_toEntry, hagree.w]
  · rw [Param.sqcGrad0_toEntry, hagree.cg]
  · rw [Param.z0_toEntry, hagree.z]

/-- Rational numbers; the root is exact for squares. -/
def rationals : Exact ℚ where
  sqrt x := (Nat.sqrt x.num.toNat : ℚ) / (Nat.sqrt x.den : ℚ)
  sqrt_nonneg x := by positivity
  toUnsigned x := UInt32.ofNat x.floor.toNat
  toStr x := toString x

/-- A setting of difacto, with unit rates and penalty. -/
def unitSettings : Server.AdaGradHandle rationals.Num :=
  { lambdaL1 := 1, lambdaL2 := 0, alpha := 1, beta := 1
    V := { dim := 0, thr := 0, lambdaL2 := 0, alpha := 1, beta := 1, vMin := 0, vMax := 0,
           dim_lt := by decide }
    l1Shrk := false, ns := 1 }

/-- The same setting of the linear program. -/
def unitSettings' : ISGDHandle rationals.Num :=
  { penalty :=
      { lambda1 := 1, lambda2 := 0
        lambda1_nonneg := by decide +kernel
        lambda2_nonneg := by decide +kernel }
    alpha := 1, beta := 1, ns := 1 }

instance : DecidableEq rationals.Num := inferInstanceAs (DecidableEq ℚ)

/-- Gradients whose cumulative gradients are `3` and `5`. -/
def twoGrads : List rationals.Num := [(3 : ℚ), (4 : ℚ)]

theorem ftrl_agrees_twoGrads : ∃ e st' v,
    twoGrads.foldlM (fun vs g => unitSettings.updateW vs.1 vs.2 g)
      (Server.AdaGradEntry.new, { newW := 0, newV := 0, rand := 0, junk := 0 }) = some (e, st') ∧
    twoGrads.foldlM (fun vn g => FTRLHandle.push unitSettings' [g] vn.1 vn.2)
      (FTRLEntry.new, 0) = some (v, 1) ∧
    v = { w := (-7 / 6 : ℚ), z := (8 : ℚ), sqCumGrad := (5 : ℚ) } ∧
    e.w0 = some v.w ∧ e.sqcGrad0 = some v.sqCumGrad ∧ e.z0 = some (-v.z) ∧ st'.newW = 1 := by
  have hlinear : twoGrads.foldlM (fun vn g => FTRLHandle.push unitSettings' [g] vn.1 vn.2)
      (FTRLEntry.new, 0) =
        some ({ w := (-7 / 6 : ℚ), z := (8 : ℚ), sqCumGrad := (5 : ℚ) }, 1) := by
    decide +kernel
  obtain ⟨e, st', v, newW', he, hv, hw, hcg, hz, hnew⟩ := ftrl_agrees rationals unitSettings
    unitSettings' ⟨rfl, rfl, rfl, rfl, rfl, rfl⟩ (by decide +kernel) (by decide +kernel)
    { newW := 0, newV := 0, rand := 0, junk := 0 } 0 twoGrads
  rw [hlinear] at hv
  cases hv
  refine ⟨e, st', _, he, hlinear, rfl, hw, hcg, hz, ?_⟩
  simp only at hnew
  omega

end Difacto.Linear
