import Mathlib.Analysis.Convex.Combination
import Mathlib.Topology.Order.OrderClosed
import Mathlib.Topology.Algebra.Order.Field
import Mathlib.Topology.Instances.Real.Lemmas

/-! Triangles in the plane by the signs of their edges. A rule for the points on edges, which looks at the
direction of the edge only, gives every point of a region that triangles cover to exactly one of them. -/

namespace Sharko.Library.Plane

open Filter Topology

variable {a b c p : ℝ × ℝ}

def side (a b p : ℝ × ℝ) : ℝ := (b.1 - a.1) * (p.2 - a.2) - (b.2 - a.2) * (p.1 - a.1)

theorem side_swap (a b c : ℝ × ℝ) : side a c b = -side a b c := by
  unfold side
  ring

theorem side_rotate (a b c : ℝ × ℝ) : side b c a = side a b c := by
  unfold side
  ring

theorem side_add (a b c p : ℝ × ℝ) : side b c p + side c a p + side a b p = side a b c := by
  unfold side
  ring

theorem side_combination {s t : ℝ} (sum : s + t = 1) (a b p q : ℝ × ℝ) :
    side a b (s • p + t • q) = s * side a b p + t * side a b q := by
  obtain rfl : t = 1 - s := by linarith
  simp only [side,Prod.fst_add,Prod.snd_add,Prod.smul_fst,Prod.smul_snd,smul_eq_mul]
  ring

theorem convex_left (a b : ℝ × ℝ) : Convex ℝ {p | 0 ≤ side a b p} := by
  intro p hp q hq s t hs ht sum
  show 0 ≤ side a b (s • p + t • q)
  rw [side_combination sum]
  exact add_nonneg (mul_nonneg hs hp) (mul_nonneg ht hq)

theorem convex_line (a b : ℝ × ℝ) : Convex ℝ {p | side a b p = 0} := by
  intro p hp q hq s t hs ht sum
  have hp : side a b p = 0 := hp
  have hq : side a b q = 0 := hq
  show side a b (s • p + t • q) = 0
  rw [side_combination sum,hp,hq,mul_zero,mul_zero,add_zero]

@[simp] theorem side_self_left (a b : ℝ × ℝ) : side a b a = 0 := by simp [side]

@[simp] theorem side_self_right (a b : ℝ × ℝ) : side a b b = 0 := by
  unfold side
  ring

theorem segment_subset_line (a b : ℝ × ℝ) : segment ℝ a b ⊆ {p | side a b p = 0} :=
  (convex_line a b).segment_subset (side_self_left a b) (side_self_right a b)

def triangle (a b c : ℝ × ℝ) : Set (ℝ × ℝ) := convexHull ℝ {a,b,c}

theorem triangle_swap (a b c : ℝ × ℝ) : triangle a c b = triangle a b c := by
  unfold triangle
  rw [Set.pair_comm]

theorem triangle_subset {s : Set (ℝ × ℝ)} (convex : Convex ℝ s) (ha : a ∈ s) (hb : b ∈ s) (hc : c ∈ s) :
    triangle a b c ⊆ s := by
  refine convexHull_min ?_ convex
  rintro p (rfl | rfl | rfl)
  · exact ha
  · exact hb
  · exact hc

theorem combination_mem_triangle {α β γ : ℝ} (hα : 0 ≤ α) (hβ : 0 ≤ β) (hγ : 0 ≤ γ) (sum : α + β + γ = 1) :
    α • a + β • b + γ • c ∈ triangle a b c := by
  have member : ∑ i : Fin 3,![α,β,γ] i • ![a,b,c] i ∈ triangle a b c := by
    refine (convex_convexHull ℝ _).sum_mem ?_ ?_ ?_
    · intro i _
      fin_cases i
      · exact hα
      · exact hβ
      · exact hγ
    · rw [Fin.sum_univ_three]
      exact sum
    · intro i _
      refine subset_convexHull ℝ _ ?_
      fin_cases i <;> simp
  rw [Fin.sum_univ_three] at member
  exact member

theorem mem_triangle_iff (ccw : 0 < side a b c) :
    p ∈ triangle a b c ↔ 0 ≤ side b c p ∧ 0 ≤ side c a p ∧ 0 ≤ side a b p := by
  constructor
  · intro member
    have area₁ : 0 ≤ side b c a := by
      rw [side_rotate]
      exact ccw.le
    have area₂ : 0 ≤ side c a b := by
      rw [side_rotate,side_rotate]
      exact ccw.le
    exact ⟨triangle_subset (convex_left b c) area₁ (side_self_left b c).ge (side_self_right b c).ge member,
      triangle_subset (convex_left c a) (side_self_right c a).ge area₂ (side_self_left c a).ge member,
      triangle_subset (convex_left a b) (side_self_left a b).ge (side_self_right a b).ge ccw.le member⟩
  · rintro ⟨h₀,h₁,h₂⟩
    have weights : side b c p / side a b c + side c a p / side a b c + side a b p / side a b c = 1 := by
      rw [← add_div,← add_div,side_add,div_self ccw.ne']
    have point : p = (side b c p / side a b c) • a + (side c a p / side a b c) • b +
        (side a b p / side a b c) • c := by
      have x : p.1 * side a b c = side b c p * a.1 + side c a p * b.1 + side a b p * c.1 := by
        unfold side
        ring
      have y : p.2 * side a b c = side b c p * a.2 + side c a p * b.2 + side a b p * c.2 := by
        unfold side
        ring
      refine Prod.ext ?_ ?_
      · simp only [Prod.fst_add,Prod.smul_fst,smul_eq_mul]
        field_simp
        exact x
      · simp only [Prod.snd_add,Prod.smul_snd,smul_eq_mul]
        field_simp
        exact y
    rw [point]
    exact combination_mem_triangle (div_nonneg h₀ ccw.le) (div_nonneg h₁ ccw.le) (div_nonneg h₂ ccw.le)
      weights

theorem flat_triangle_subset (flat : side a b c = 0) : triangle a b c ⊆ {p | side a b p = 0} :=
  triangle_subset (convex_line a b) (side_self_left a b) (side_self_right a b) flat

def nudge (p : ℝ × ℝ) (ε : ℝ) : ℝ × ℝ := (p.1 - ε,p.2 - ε ^ 2)

theorem side_nudge (a b p : ℝ × ℝ) (ε : ℝ) :
    side a b (nudge p ε) = side a b p + (b.2 - a.2) * ε + -(b.1 - a.1) * ε ^ 2 := by
  unfold side nudge
  ring

theorem tendsto_nudge (p : ℝ × ℝ) : Tendsto (nudge p) (𝓝[>] 0) (𝓝 p) := by
  have continuous : Continuous (nudge p) := by
    unfold nudge
    fun_prop
  have := continuous.tendsto 0
  simp only [nudge,sub_zero,ne_eq,OfNat.ofNat_ne_zero,not_false_eq_true,zero_pow] at this
  exact this.mono_left nhdsWithin_le_nhds

def Owning (a b : ℝ × ℝ) : Prop := 0 < b.2 - a.2 ∨ b.2 - a.2 = 0 ∧ b.1 - a.1 < 0

def Left (a b p : ℝ × ℝ) : Prop := 0 < side a b p ∨ side a b p = 0 ∧ Owning a b

theorem owning_or (distinct : a ≠ b) : Owning a b ∨ Owning b a := by
  rcases lt_trichotomy (b.2 - a.2) 0 with down | level | up
  · exact Or.inr (Or.inl (by linarith))
  · rcases lt_trichotomy (b.1 - a.1) 0 with left | same | right
    · exact Or.inl (Or.inr ⟨level,left⟩)
    · exact absurd (Prod.ext (sub_eq_zero.mp same).symm (sub_eq_zero.mp level).symm) distinct
    · exact Or.inr (Or.inr ⟨by linarith,by linarith⟩)
  · exact Or.inl (Or.inl up)

theorem eventually_pos {x y z : ℝ} (first : 0 < x ∨ x = 0 ∧ (0 < y ∨ y = 0 ∧ 0 < z)) :
    ∀ᶠ ε in 𝓝[>] (0 : ℝ),0 < x + y * ε + z * ε ^ 2 := by
  rcases first with positive | ⟨rfl,positive | ⟨rfl,positive⟩⟩
  · have continuous : Continuous fun ε : ℝ => x + y * ε + z * ε ^ 2 := by fun_prop
    have limit := continuous.tendsto 0
    rw [show x + y * 0 + z * 0 ^ 2 = x by ring] at limit
    exact nhdsWithin_le_nhds (limit.eventually_const_lt positive)
  · have continuous : Continuous fun ε : ℝ => y + z * ε := by fun_prop
    have limit := continuous.tendsto 0
    rw [mul_zero,add_zero] at limit
    filter_upwards [nhdsWithin_le_nhds (limit.eventually_const_lt positive),self_mem_nhdsWithin]
      with ε factor pos
    have : 0 < ε * (y + z * ε) := mul_pos pos factor
    linarith
  · filter_upwards [self_mem_nhdsWithin] with ε pos
    have : 0 < z * ε ^ 2 := mul_pos positive (pow_pos pos 2)
    linarith

theorem Left.nudge (left : Left a b p) : ∀ᶠ ε in 𝓝[>] (0 : ℝ),0 < side a b (nudge p ε) := by
  simp only [side_nudge]
  refine eventually_pos ?_
  rcases left with positive | ⟨zero,up | ⟨level,left⟩⟩
  · exact Or.inl positive
  · exact Or.inr ⟨zero,Or.inl up⟩
  · exact Or.inr ⟨zero,Or.inr ⟨level,by linarith⟩⟩

theorem not_left_nudge (distinct : a ≠ b) (right : ¬ Left a b p) :
    ∀ᶠ ε in 𝓝[>] (0 : ℝ),side a b (Plane.nudge p ε) < 0 := by
  have back : Left b a p := by
    have turned : side b a p = -side a b p := by
      unfold side
      ring
    rcases lt_trichotomy (side a b p) 0 with negative | zero | positive
    · exact Or.inl (by linarith)
    · refine Or.inr ⟨by linarith,?_⟩
      exact (owning_or distinct).resolve_left fun own => right (Or.inr ⟨zero,own⟩)
    · exact absurd (Or.inl positive) right
  filter_upwards [back.nudge] with ε positive
  have turned : side b a (Plane.nudge p ε) = -side a b (Plane.nudge p ε) := by
    unfold side
    ring
  linarith

theorem nudge_off_segment (a b p : ℝ × ℝ) : ∀ᶠ ε in 𝓝[>] (0 : ℝ),nudge p ε ∉ segment ℝ a b := by
  by_cases distinct : a = b
  · subst distinct
    rw [segment_same]
    by_cases here : p.1 = a.1
    · filter_upwards [self_mem_nhdsWithin] with ε pos equal
      have moved : p.1 - ε = a.1 := congrArg Prod.fst equal
      have pos : 0 < ε := pos
      linarith
    · have away : ∀ᶠ q in 𝓝 p,q ≠ a := by
        refine isOpen_ne.mem_nhds fun equal => here ?_
        rw [equal]
      exact (tendsto_nudge p).eventually away
  · by_cases left : Left a b p
    · filter_upwards [left.nudge] with ε positive member
      exact positive.ne' (segment_subset_line a b member)
    · filter_upwards [not_left_nudge distinct left] with ε negative member
      exact negative.ne (segment_subset_line a b member)

def Covers (a b c p : ℝ × ℝ) : Prop := 0 < side a b c ∧ Left b c p ∧ Left c a p ∧ Left a b p

theorem Left.nonneg (left : Left a b p) : 0 ≤ side a b p := by
  rcases left with positive | ⟨zero,-⟩
  · exact positive.le
  · exact zero.ge

theorem Covers.mem (covers : Covers a b c p) : p ∈ triangle a b c :=
  (mem_triangle_iff covers.1).mpr ⟨covers.2.1.nonneg,covers.2.2.1.nonneg,covers.2.2.2.nonneg⟩

theorem not_covers_swap (ccw : 0 ≤ side a b c) : ¬ Covers a c b p := by
  rintro ⟨cw,-⟩
  rw [side_swap] at cw
  linarith

theorem nudge_mem_of_ccw (ccw : 0 < side a b c) :
    ∀ᶠ ε in 𝓝[>] (0 : ℝ),nudge p ε ∈ triangle a b c ↔ Covers a b c p := by
  have bc : b ≠ c := by
    rintro rfl
    simp at ccw
  have ca : c ≠ a := by
    rintro rfl
    simp at ccw
  have ab : a ≠ b := by
    rintro rfl
    simp [side] at ccw
  by_cases h₀ : Left b c p
  · by_cases h₁ : Left c a p
    · by_cases h₂ : Left a b p
      · filter_upwards [h₀.nudge,h₁.nudge,h₂.nudge] with ε e₀ e₁ e₂
        exact iff_of_true ((mem_triangle_iff ccw).mpr ⟨e₀.le,e₁.le,e₂.le⟩) ⟨ccw,h₀,h₁,h₂⟩
      · filter_upwards [not_left_nudge ab h₂] with ε e₂
        exact iff_of_false (fun mem => e₂.not_ge ((mem_triangle_iff ccw).mp mem).2.2)
          fun covers => h₂ covers.2.2.2
    · filter_upwards [not_left_nudge ca h₁] with ε e₁
      exact iff_of_false (fun mem => e₁.not_ge ((mem_triangle_iff ccw).mp mem).2.1)
        fun covers => h₁ covers.2.2.1
  · filter_upwards [not_left_nudge bc h₀] with ε e₀
    exact iff_of_false (fun mem => e₀.not_ge ((mem_triangle_iff ccw).mp mem).1)
      fun covers => h₀ covers.2.1

theorem nudge_off_flat (flat : side a b c = 0) (p : ℝ × ℝ) :
    ∀ᶠ ε in 𝓝[>] (0 : ℝ),nudge p ε ∉ triangle a b c := by
  by_cases ab : a = b
  · subst ab
    have thin : triangle a a c = segment ℝ a c := by
      rw [triangle,Set.insert_eq_of_mem (Set.mem_insert a {c}),convexHull_pair]
    rw [thin]
    exact nudge_off_segment a c p
  · by_cases left : Left a b p
    · filter_upwards [left.nudge] with ε positive member
      exact positive.ne' (flat_triangle_subset flat member)
    · filter_upwards [not_left_nudge ab left] with ε negative member
      exact negative.ne (flat_triangle_subset flat member)

theorem nudge_mem_iff (a b c p : ℝ × ℝ) : ∀ᶠ ε in 𝓝[>] (0 : ℝ),
    nudge p ε ∈ triangle a b c ↔ Covers a b c p ∨ Covers a c b p := by
  rcases lt_trichotomy (side a b c) 0 with cw | flat | ccw
  · have ccw : 0 < side a c b := by
      rw [side_swap]
      linarith
    have never : ¬ Covers a b c p := fun covers => covers.1.not_gt cw
    filter_upwards [nudge_mem_of_ccw (p := p) ccw] with ε inside
    rw [← triangle_swap,inside,or_iff_right never]
  · filter_upwards [nudge_off_flat flat p] with ε off
    refine iff_of_false off ?_
    rintro (covers | covers)
    · exact covers.1.ne' flat
    · exact not_covers_swap flat.ge covers
  · filter_upwards [nudge_mem_of_ccw (p := p) ccw] with ε inside
    rw [inside,or_iff_left (not_covers_swap ccw.le)]

def Planar {ι : Type*} (A B C : ι → ℝ × ℝ) : Prop :=
  ∀ p ∈ interior (⋃ i,triangle (A i) (B i) (C i)),
    (∀ i,p ∉ segment ℝ (A i) (B i) ∧ p ∉ segment ℝ (B i) (C i) ∧ p ∉ segment ℝ (C i) (A i)) →
      ∃! i,p ∈ triangle (A i) (B i) (C i)

theorem Planar.exists_unique_covers {ι : Type*} [Finite ι] {A B C : ι → ℝ × ℝ} (planar : Planar A B C)
    (inside : p ∈ interior (⋃ i,triangle (A i) (B i) (C i))) :
    ∃! i,Covers (A i) (B i) (C i) p ∨ Covers (A i) (C i) (B i) p := by
  have near : ∀ᶠ ε in 𝓝[>] (0 : ℝ),nudge p ε ∈ interior (⋃ i,triangle (A i) (B i) (C i)) :=
    (tendsto_nudge p).eventually (isOpen_interior.mem_nhds inside)
  have off : ∀ᶠ ε in 𝓝[>] (0 : ℝ),∀ i,nudge p ε ∉ segment ℝ (A i) (B i) ∧
      nudge p ε ∉ segment ℝ (B i) (C i) ∧ nudge p ε ∉ segment ℝ (C i) (A i) := by
    rw [eventually_all]
    intro i
    exact (nudge_off_segment _ _ p).and ((nudge_off_segment _ _ p).and (nudge_off_segment _ _ p))
  have same : ∀ᶠ ε in 𝓝[>] (0 : ℝ),∀ i,nudge p ε ∈ triangle (A i) (B i) (C i) ↔
      Covers (A i) (B i) (C i) p ∨ Covers (A i) (C i) (B i) p := by
    rw [eventually_all]
    exact fun i => nudge_mem_iff _ _ _ p
  obtain ⟨ε,nearby,offEdges,alike⟩ := (near.and (off.and same)).exists
  have once := planar _ nearby offEdges
  simp only [alike] at once
  exact once

end Sharko.Library.Plane
