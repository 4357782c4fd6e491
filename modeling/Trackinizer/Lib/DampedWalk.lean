import Mathlib.LinearAlgebra.FiniteDimensional.Basic
import Mathlib.LinearAlgebra.Matrix.Stochastic
import Mathlib.Tactic.Linarith
import Mathlib.Tactic.Ring

/-! A random walk over finitely many places which follows its transitions with a fixed chance and
else jumps to a place chosen uniformly: one step is a contraction of the distributions. -/

namespace DampedWalk

open Finset Matrix

variable {α K : Type} [Fintype α] [Field K] [LinearOrder K] [IsStrictOrderedRing K]
  {P : Matrix α α K} {d : K} {u v w p : α → K}

section Gap

/-- How far two vectors are apart in `L1`. -/
def gap (v w : α → K) : K :=
  ∑ a, |v a - w a|

omit [IsStrictOrderedRing K] in
theorem gap_comm (v w : α → K) : gap v w = gap w v := by
  unfold gap
  apply sum_congr rfl
  intro a _
  rw [abs_sub_comm]

theorem gap_triangle (u v w : α → K) : gap v w ≤ gap v u + gap u w := by
  unfold gap
  rw [← sum_add_distrib]
  apply sum_le_sum
  intro a _
  exact abs_sub_le (v a) (u a) (w a)

theorem eq_of_gap_le (h : gap v w ≤ 0) : v = w := by
  have hnonneg : ∀ a ∈ univ, 0 ≤ |v a - w a| := fun a _ => abs_nonneg _
  have hzero : ∑ a, |v a - w a| = 0 := le_antisymm h (sum_nonneg hnonneg)
  funext a
  have ha := (sum_eq_zero_iff_of_nonneg hnonneg).mp hzero a (mem_univ a)
  exact sub_eq_zero.mp (abs_eq_zero.mp ha)

end Gap

/-- The transitions followed with the chance `d`, and a jump to any place otherwise. -/
def damped (d : K) (P : Matrix α α K) : Matrix α α K :=
  fun a b => (1 - d) / Fintype.card α + d * P a b

theorem vecMul_damped (v : α → K) (b : α) :
    (v ᵥ* damped d P) b = (1 - d) / Fintype.card α * ∑ a, v a + d * (v ᵥ* P) b := by
  simp only [vecMul, dotProduct, damped]
  rw [mul_sum, mul_sum, ← sum_add_distrib]
  apply sum_congr rfl
  intro a _
  ring

variable [DecidableEq α]

section Stochastic

theorem sum_vecMul (hP : P ∈ rowStochastic K α) (v : α → K) :
    ∑ b, (v ᵥ* P) b = ∑ a, v a := by
  simp only [vecMul, dotProduct]
  rw [sum_comm]
  apply sum_congr rfl
  intro a _
  rw [← mul_sum, sum_row_of_mem_rowStochastic hP, mul_one]

theorem abs_vecMul_le (hP : P ∈ rowStochastic K α) (v : α → K) (b : α) :
    |(v ᵥ* P) b| ≤ ((fun a => |v a|) ᵥ* P) b := by
  simp only [vecMul, dotProduct]
  refine (abs_sum_le_sum_abs _ _).trans (sum_le_sum fun a _ => ?_)
  rw [abs_mul, abs_of_nonneg (nonneg_of_mem_rowStochastic hP)]

theorem sum_abs_vecMul_le (hP : P ∈ rowStochastic K α) (v : α → K) :
    ∑ b, |(v ᵥ* P) b| ≤ ∑ a, |v a| := by
  calc
    ∑ b, |(v ᵥ* P) b| ≤ ∑ b, ((fun a => |v a|) ᵥ* P) b :=
      sum_le_sum fun b _ => abs_vecMul_le hP v b
    _ = ∑ a, |v a| := sum_vecMul hP _

end Stochastic

theorem damped_mem [Nonempty α] (hP : P ∈ rowStochastic K α) (h0 : 0 ≤ d) (h1 : d ≤ 1) :
    damped d P ∈ rowStochastic K α := by
  have hcard : (0 : K) < Fintype.card α := by exact_mod_cast Fintype.card_pos
  rw [mem_rowStochastic_iff_sum]
  constructor
  · intro a b
    have hjump : 0 ≤ (1 - d) / Fintype.card α := div_nonneg (by linarith) hcard.le
    have hmove : 0 ≤ d * P a b := mul_nonneg h0 (nonneg_of_mem_rowStochastic hP)
    exact add_nonneg hjump hmove
  · intro a
    simp only [damped]
    rw [sum_add_distrib, ← mul_sum, sum_row_of_mem_rowStochastic hP, sum_const, card_univ,
      nsmul_eq_mul, mul_div_cancel₀ _ hcard.ne']
    ring

/-- One step brings two distributions closer by the chance of following a transition. -/
theorem gap_vecMul_damped_le (hP : P ∈ rowStochastic K α) (h0 : 0 ≤ d)
    (hsum : ∑ a, v a = ∑ a, w a) :
    gap (v ᵥ* damped d P) (w ᵥ* damped d P) ≤ d * gap v w := by
  have hstep : ∀ b, |(v ᵥ* damped d P) b - (w ᵥ* damped d P) b| =
      d * |((fun a => v a - w a) ᵥ* P) b| := by
    intro b
    have hsub : ((fun a => v a - w a) ᵥ* P) b = (v ᵥ* P) b - (w ᵥ* P) b := by
      simp only [vecMul, dotProduct, sub_mul, sum_sub_distrib]
    rw [vecMul_damped, vecMul_damped, hsum, hsub, ← abs_of_nonneg h0, ← abs_mul,
      abs_of_nonneg h0]
    congr 1
    ring
  unfold gap
  simp only [hstep]
  rw [← mul_sum]
  exact mul_le_mul_of_nonneg_left (sum_abs_vecMul_le hP _) h0

/-- A distribution that a step of the walk leaves as it is. -/
structure Stationary (P : Matrix α α K) (p : α → K) : Prop where
  nonneg : ∀ a, 0 ≤ p a
  sum_one : ∑ a, p a = 1
  fixed : p ᵥ* P = p

theorem fixed_unique (hP : P ∈ rowStochastic K α) (h0 : 0 ≤ d) (h1 : d < 1)
    (hsum : ∑ a, v a = ∑ a, w a) (hv : v ᵥ* damped d P = v) (hw : w ᵥ* damped d P = w) :
    v = w := by
  have hle := gap_vecMul_damped_le hP h0 hsum
  rw [hv, hw] at hle
  have hscaled : (1 - d) * gap v w ≤ (1 - d) * 0 := by linarith
  exact eq_of_gap_le (le_of_mul_le_mul_left hscaled (by linarith))

/-- Where the jumps alone come from: the linear equation of the fixed points of sum one. -/
theorem exists_fixed (hP : P ∈ rowStochastic K α) (h0 : 0 ≤ d) (h1 : d < 1) (base : α → K) :
    ∃ p, ∀ b, p b = base b + d * (p ᵥ* P) b := by
  let f : (α → K) →ₗ[K] (α → K) := LinearMap.id - d • P.vecMulLinear
  have hf : ∀ v b, f v b = v b - d * (v ᵥ* P) b := fun v b => rfl
  have hker : ∀ v, f v = 0 → v = 0 := by
    intro v hv
    have hfixed : ∀ b, v b = d * (v ᵥ* P) b := by
      intro b
      have hb := congrFun hv b
      rw [hf, Pi.zero_apply] at hb
      linarith
    have hsum : ∑ b, |v b| = d * ∑ b, |(v ᵥ* P) b| := by
      rw [mul_sum]
      apply sum_congr rfl
      intro b _
      conv_lhs => rw [hfixed b]
      rw [abs_mul, abs_of_nonneg h0]
    have hle := mul_le_mul_of_nonneg_left (sum_abs_vecMul_le hP v) h0
    have hscaled : (1 - d) * ∑ b, |v b| ≤ (1 - d) * 0 := by linarith
    have hgap : gap v 0 ≤ 0 := by
      simp only [gap, Pi.zero_apply, sub_zero]
      exact le_of_mul_le_mul_left hscaled (by linarith)
    exact eq_of_gap_le hgap
  have hinj : Function.Injective f := (injective_iff_map_eq_zero f).mpr hker
  obtain ⟨p, hp⟩ := LinearMap.injective_iff_surjective.mp hinj base
  refine ⟨p, fun b => ?_⟩
  have hb := congrFun hp b
  rw [hf] at hb
  linarith

theorem exists_stationary [Nonempty α] (hP : P ∈ rowStochastic K α) (h0 : 0 ≤ d) (h1 : d < 1) :
    ∃ p, Stationary (damped d P) p := by
  have hcard : (0 : K) < Fintype.card α := by exact_mod_cast Fintype.card_pos
  have hjump : 0 ≤ (1 - d) / (Fintype.card α : K) := div_nonneg (by linarith) hcard.le
  have htotal : ∑ _a : α, (1 - d) / (Fintype.card α : K) = 1 - d := by
    rw [sum_const, card_univ, nsmul_eq_mul, mul_div_cancel₀ _ hcard.ne']
  obtain ⟨p, hp⟩ := exists_fixed hP h0 h1 fun _ => (1 - d) / (Fintype.card α : K)
  have hsum : ∑ a, p a = 1 := by
    have hstep : ∑ a, p a = (1 - d) + d * ∑ a, p a := by
      calc
        ∑ a, p a = ∑ a, ((1 - d) / (Fintype.card α : K) + d * (p ᵥ* P) a) :=
          sum_congr rfl fun a _ => hp a
        _ = (1 - d) + d * ∑ a, p a := by
          rw [sum_add_distrib, htotal, ← mul_sum, sum_vecMul hP]
    have hscaled : (1 - d) * ∑ a, p a = (1 - d) * 1 := by linarith
    exact mul_left_cancel₀ (by linarith) hscaled
  -- The mass of the absolute values is no more than one, so no value is negative.
  have habs : ∑ a, |p a| ≤ 1 := by
    have hstep : ∑ a, |p a| ≤ (1 - d) + d * ∑ a, |p a| := by
      calc
        ∑ a, |p a| ≤ ∑ a, ((1 - d) / (Fintype.card α : K) + d * |(p ᵥ* P) a|) := by
          apply sum_le_sum
          intro a _
          conv_lhs => rw [hp a]
          refine (abs_add_le _ _).trans ?_
          rw [abs_of_nonneg hjump, abs_mul, abs_of_nonneg h0]
        _ = (1 - d) + d * ∑ a, |(p ᵥ* P) a| := by rw [sum_add_distrib, htotal, ← mul_sum]
        _ ≤ (1 - d) + d * ∑ a, |p a| := by
          have hle := mul_le_mul_of_nonneg_left (sum_abs_vecMul_le hP p) h0
          linarith
    have hscaled : (1 - d) * ∑ a, |p a| ≤ (1 - d) * 1 := by linarith
    exact le_of_mul_le_mul_left hscaled (by linarith)
  have hgaps : ∀ a ∈ univ, 0 ≤ |p a| - p a := fun a _ => sub_nonneg.mpr (le_abs_self (p a))
  have hzero : ∑ a, (|p a| - p a) = 0 := by
    apply le_antisymm
    · rw [sum_sub_distrib, hsum]
      linarith
    · exact sum_nonneg hgaps
  refine ⟨p, fun a => ?_, hsum, ?_⟩
  · have ha := (sum_eq_zero_iff_of_nonneg hgaps).mp hzero a (mem_univ a)
    exact abs_eq_self.mp (by linarith)
  · funext b
    rw [vecMul_damped, hsum, mul_one]
    exact (hp b).symm

/-- How far a step ends from the stationary distribution, by how far it went. -/
theorem gap_stationary_le (hP : P ∈ rowStochastic K α) (h0 : 0 ≤ d)
    (hp : Stationary (damped d P) p) (hv : ∑ a, v a = 1) :
    (1 - d) * gap (v ᵥ* damped d P) p ≤ d * gap (v ᵥ* damped d P) v := by
  have hstep : gap (v ᵥ* damped d P) p ≤ d * gap v p := by
    have hle := gap_vecMul_damped_le hP h0 (hv.trans hp.sum_one.symm)
    rwa [hp.fixed] at hle
  have htriangle : gap v p ≤ gap (v ᵥ* damped d P) v + gap (v ᵥ* damped d P) p := by
    have hle := gap_triangle (v ᵥ* damped d P) v p
    rwa [gap_comm v (v ᵥ* damped d P)] at hle
  have hscaled := mul_le_mul_of_nonneg_left htriangle h0
  linarith

end DampedWalk
