import Mathlib
import Sharko.Library.Clipping

/-! Triangles and lines in clip space are cut off at the planes of the view volume, before the division by `w`. -/

namespace Sharko.Script.WebGl.Clipping

open Sharko.Library.Clipping Sharko.Library.Alternation

/-- A vertex in clip space; the number of varyings is that of the program. -/
structure Vertex (n : ℕ) where
  x : ℚ
  y : ℚ
  z : ℚ
  w : ℚ
  vars : Fin n → ℚ
  size : Option ℚ

variable {n : ℕ}

def epsW : ℚ := 1 / 1000000000

def div (a b : ℚ) : Option ℚ := if b = 0 then none else some (a / b)

def planes : List (Vertex n → ℚ) := [fun v => v.w - epsW,fun v => v.w + v.z,fun v => v.w - v.z]

def between (a b : Vertex n) (t : ℚ) : Vertex n where
  x := a.x + (b.x - a.x) * t
  y := a.y + (b.y - a.y) * t
  z := a.z + (b.z - a.z) * t
  w := a.w + (b.w - a.w) * t
  vars k := a.vars k + (b.vars k - a.vars k) * t
  size := a.size

def clipEdge (d : Vertex n → ℚ) (a b : Vertex n) : Option (List (Vertex n)) :=
  let kept := if 0 ≤ d a then [a] else []
  if decide (0 ≤ d a) = decide (0 ≤ d b) then some kept
  else (div (d a) (d a - d b)).map fun t => kept ++ [between a b t]

def clipPlane (d : Vertex n → ℚ) (cur : List (Vertex n)) : Option (List (Vertex n)) :=
  ((cur.zip (cur.rotate 1)).mapM fun e => clipEdge d e.1 e.2).map List.flatten

def clipPlanes : List (Vertex n → ℚ) → List (Vertex n) → Option (List (Vertex n))
  | [],cur => some cur
  | d :: ds,cur => if cur.length = 0 then some cur else (clipPlane d cur).bind (clipPlanes ds)

def clipPoly (poly : List (Vertex n)) : Option (List (Vertex n)) := clipPlanes planes poly

/-- The part between `t0` and `t1` of a line, if any, that is inside the planes. -/
def clipSpan (a b : Vertex n) : List (Vertex n → ℚ) → ℚ → ℚ → Option (Option (ℚ × ℚ))
  | [],t0,t1 => some (if t1 < t0 then none else some (t0,t1))
  | d :: ds,t0,t1 =>
    if d a < 0 ∧ d b < 0 then some none
    else if d a < 0 then (div (d a) (d a - d b)).bind fun t => clipSpan a b ds (if t0 < t then t else t0) t1
    else if d b < 0 then (div (d a) (d a - d b)).bind fun t => clipSpan a b ds t0 (if t < t1 then t else t1)
    else clipSpan a b ds t0 t1

def lineAt (a b : Vertex n) (t : ℚ) : Vertex n := if t = 0 then a else if t = 1 then b else between a b t

def clipLine (a b : Vertex n) : Option (Option (Vertex n × Vertex n)) :=
  (clipSpan a b planes 0 1).map (Option.map fun t => (lineAt a b t.1,lineAt a b t.2))

abbrev Point (n : ℕ) := Fin 4 ⊕ Fin n → ℚ

def Vertex.point (v : Vertex n) : Point n := Sum.elim ![v.x,v.y,v.z,v.w] v.vars

def coordinate (i : Fin 4 ⊕ Fin n) : Point n →ₗ[ℚ] ℚ := LinearMap.proj i

def borders (n : ℕ) : List (Point n →ᵃ[ℚ] ℚ) :=
  let z := (coordinate (n := n) (.inl 2)).toAffineMap
  let w := (coordinate (n := n) (.inl 3)).toAffineMap
  [w - AffineMap.const ℚ _ epsW,w + z,w - z]

def Visible (p : Point n) : Prop :=
  epsW ≤ p (.inl 3) ∧ 0 ≤ p (.inl 3) + p (.inl 2) ∧ 0 ≤ p (.inl 3) - p (.inl 2)

theorem point_between (a b : Vertex n) (t : ℚ) : (between a b t).point = AffineMap.lineMap a.point b.point t := by
  funext i
  rw [AffineMap.lineMap_apply]
  rcases i with i | k
  · fin_cases i <;> simp [Vertex.point,between,mul_comm,add_comm]
  · simp [Vertex.point,between,mul_comm,add_comm]

/-- A function of vertices is an affine function of their points. -/
def Affine (d : Vertex n → ℚ) (D : Point n →ᵃ[ℚ] ℚ) : Prop := ∀ v,d v = D v.point

theorem affine_planes : List.Forall₂ Affine (planes (n := n)) (borders n) := by
  refine .cons (fun v => ?_) (.cons (fun v => ?_) (.cons (fun v => ?_) .nil))
  all_goals rfl

theorem visible_iff {p : Point n} : (∀ D ∈ borders n,0 ≤ D p) ↔ Visible p := by
  simp [borders,Visible,coordinate]

theorem clipEdge_eq {d : Vertex n → ℚ} {D : Point n →ᵃ[ℚ] ℚ} (affine : Affine d D) (a b : Vertex n) :
    ∃ r,clipEdge d a b = some r ∧ r.map Vertex.point =
        (if inside D a.point then [a.point] else []) ++ cross D a.point b.point := by
  have kept : (if 0 ≤ d a then [a] else []).map Vertex.point =
      if inside D a.point then [a.point] else [] := by
    rw [affine a]
    by_cases within : 0 ≤ D a.point
    · simp [inside,within]
    · simp [inside,within]
  by_cases same : inside D a.point = inside D b.point
  · refine ⟨_,if_pos ?_,?_⟩
    · rw [affine a,affine b]
      exact same
    · rw [kept,cross,if_pos same,List.append_nil]
  · have apart : d a - d b ≠ 0 := by
      rw [affine a,affine b]
      intro zero
      exact same (by rw [inside,inside,sub_eq_zero.mp zero])
    have sides : ¬ decide (0 ≤ d a) = decide (0 ≤ d b) := by
      rw [affine a,affine b]
      exact same
    refine ⟨_,by rw [clipEdge,if_neg sides,div,if_neg apart]; rfl,?_⟩
    rw [List.map_append,kept,cross,if_neg same,List.map_singleton,point_between,affine a,affine b]

theorem mapM_flatten {α β γ : Type} {f : α → Option (List β)} {g : α → List γ} {h : β → γ} (l : List α)
    (each : ∀ e ∈ l,∃ r,f e = some r ∧ r.map h = g e) :
    ∃ rs,l.mapM f = some rs ∧ rs.flatten.map h = l.flatMap g := by
  induction l with
  | nil => exact ⟨[],rfl,rfl⟩
  | cons e l ih =>
    obtain ⟨r,first,same⟩ := each e List.mem_cons_self
    obtain ⟨rs,later,rest⟩ := ih fun e' member => each e' (List.mem_cons_of_mem _ member)
    refine ⟨r :: rs,?_,?_⟩
    · rw [List.mapM_cons,first,later]
      rfl
    · rw [List.flatten_cons,List.map_append,same,rest,List.flatMap_cons]

theorem clipPlane_eq {d : Vertex n → ℚ} {D : Point n →ᵃ[ℚ] ℚ} (affine : Affine d D) (cur : List (Vertex n)) :
    ∃ next,clipPlane d cur = some next ∧ next.map Vertex.point = cut D (cur.map Vertex.point) := by
  obtain ⟨rs,ran,points⟩ := mapM_flatten (cur.zip (cur.rotate 1)) fun e _ => clipEdge_eq affine e.1 e.2
  refine ⟨rs.flatten,by rw [clipPlane,ran]; rfl,?_⟩
  rw [points,cut,← List.map_rotate,List.zip_map,List.flatMap_map]
  rfl

theorem clipPlanes_eq {ds : List (Vertex n → ℚ)} {Ds : List (Point n →ᵃ[ℚ] ℚ)} (affine : List.Forall₂ Affine ds Ds)
    (cur : List (Vertex n)) :
    ∃ out,clipPlanes ds cur = some out ∧ out.map Vertex.point = cutAll Ds (cur.map Vertex.point) := by
  induction affine generalizing cur with
  | nil => exact ⟨cur,rfl,rfl⟩
  | @cons d D ds Ds first _ ih =>
    obtain ⟨next,made,points⟩ := clipPlane_eq first cur
    obtain ⟨out,done,whole⟩ := ih next
    rw [points] at whole
    cases cur with
    | nil =>
      cases made
      exact ⟨[],rfl,(cutAll_nil (D :: Ds)).symm⟩
    | cons v cur =>
      exact ⟨out,by rw [clipPlanes,if_neg (by simp),made]; exact done,whole⟩

theorem point_lineAt (a b : Vertex n) (t : ℚ) : (lineAt a b t).point = AffineMap.lineMap a.point b.point t := by
  unfold lineAt
  split
  next start => rw [start,AffineMap.lineMap_apply_zero]
  next =>
    split
    next last => rw [last,AffineMap.lineMap_apply_one]
    next => exact point_between a b t

/-- The places between two others that are inside the planes. -/
def Within (a b : Vertex n) (Ds : List (Point n →ᵃ[ℚ] ℚ)) (t0 t1 : ℚ) : Set ℚ :=
  {t | t0 ≤ t ∧ t ≤ t1 ∧ ∀ D ∈ Ds,0 ≤ D (AffineMap.lineMap a.point b.point t)}

theorem nonneg_enter {u v : ℚ} (hu : u < 0) (hv : 0 ≤ v) (t : ℚ) :
    0 ≤ AffineMap.lineMap u v t ↔ u / (u - v) ≤ t := by
  rw [AffineMap.lineMap_apply_ring,div_le_iff_of_neg (by linarith)]
  constructor <;> intro h <;> linarith

theorem nonneg_leave {u v : ℚ} (hu : 0 ≤ u) (hv : v < 0) (t : ℚ) :
    0 ≤ AffineMap.lineMap u v t ↔ t ≤ u / (u - v) := by
  rw [AffineMap.lineMap_apply_ring,le_div_iff₀ (by linarith)]
  constructor <;> intro h <;> linarith

theorem clipSpan_eq {ds : List (Vertex n → ℚ)} {Ds : List (Point n →ᵃ[ℚ] ℚ)} (affine : List.Forall₂ Affine ds Ds)
    (a b : Vertex n) (t0 t1 : ℚ) (low : 0 ≤ t0) (high : t1 ≤ 1) :
    ∃ r,clipSpan a b ds t0 t1 = some r ∧
      match r with
      | none => Within a b Ds t0 t1 = ∅
      | some (s0,s1) => t0 ≤ s0 ∧ s0 ≤ s1 ∧ s1 ≤ t1 ∧ Within a b Ds t0 t1 = Set.Icc s0 s1 := by
  induction affine generalizing t0 t1 with
  | nil =>
    have all : Within a b [] t0 t1 = Set.Icc t0 t1 := by
      ext t
      simp [Within]
    rw [all,clipSpan]
    by_cases past : t1 < t0
    · exact ⟨none,by rw [if_pos past],Set.Icc_eq_empty (not_le.mpr past)⟩
    · exact ⟨some (t0,t1),by rw [if_neg past],le_refl _,not_lt.mp past,le_refl _,rfl⟩
  | @cons d D ds Ds first _ ih =>
    have value (t : ℚ) : D (AffineMap.lineMap a.point b.point t) = AffineMap.lineMap (d a) (d b) t := by
      rw [AffineMap.apply_lineMap,first a,first b]
    have narrow (t0' t1' : ℚ) (same : clipSpan a b (d :: ds) t0 t1 = clipSpan a b ds t0' t1') (after : t0 ≤ t0')
        (before : t1' ≤ t1) (part : ∀ t,t0' ≤ t ∧ t ≤ t1' ↔ (t0 ≤ t ∧ t ≤ t1) ∧ 0 ≤ AffineMap.lineMap (d a) (d b) t) :
        ∃ r,clipSpan a b (d :: ds) t0 t1 = some r ∧
          match r with
          | none => Within a b (D :: Ds) t0 t1 = ∅
          | some (s0,s1) => t0 ≤ s0 ∧ s0 ≤ s1 ∧ s1 ≤ t1 ∧ Within a b (D :: Ds) t0 t1 = Set.Icc s0 s1 := by
      have shrunk : Within a b (D :: Ds) t0 t1 = Within a b Ds t0' t1' := by
        ext t
        simp only [Within,Set.mem_ofPred_eq,List.forall_mem_cons,value,← and_assoc,part t]
      rw [same,shrunk]
      obtain ⟨r,ran,result⟩ := ih t0' t1' (low.trans after) (before.trans high)
      refine ⟨r,ran,?_⟩
      match r,result with
      | none,empty => exact empty
      | some (s0,s1),⟨first,order,last,exactly⟩ => exact ⟨after.trans first,order,last.trans before,exactly⟩
    by_cases ha : d a < 0 <;> by_cases hb : d b < 0
    · refine ⟨none,by rw [clipSpan,if_pos ⟨ha,hb⟩],Set.eq_empty_of_forall_notMem ?_⟩
      rintro t ⟨after,before,all⟩
      have nonneg := all D List.mem_cons_self
      rw [value] at nonneg
      have negative : AffineMap.lineMap (d a) (d b) t < 0 :=
        (convex_Iio (0 : ℚ)).lineMap_mem ha hb ⟨low.trans after,before.trans high⟩
      exact absurd nonneg (not_le.mpr negative)
    · have apart : d a - d b ≠ 0 := by linarith
      refine narrow (max t0 (d a / (d a - d b))) t1 ?_ (le_max_left _ _) (le_refl _) fun t => ?_
      · rw [clipSpan,if_neg (by simp [hb]),if_pos ha,div,if_neg apart,Option.bind_some,max_def_lt]
      · rw [max_le_iff,nonneg_enter ha (not_lt.mp hb)]
        exact and_right_comm
    · have apart : d a - d b ≠ 0 := by linarith
      refine narrow t0 (min (d a / (d a - d b)) t1) ?_ (le_refl _) (min_le_right _ _) fun t => ?_
      · rw [clipSpan,if_neg (by simp [ha]),if_neg ha,if_pos hb,div,if_neg apart,Option.bind_some,min_def_lt]
      · rw [le_min_iff,nonneg_leave (not_lt.mp ha) hb,and_comm (a := t ≤ d a / (d a - d b)),and_assoc]
    · refine narrow t0 t1 ?_ (le_refl _) (le_refl _) fun t => ?_
      · rw [clipSpan,if_neg (by simp [ha]),if_neg ha,if_neg hb]
      · refine ⟨fun inner => ⟨inner,?_⟩,And.left⟩
        exact (convex_Ici (0 : ℚ)).lineMap_mem (not_lt.mp ha) (not_lt.mp hb)
          ⟨low.trans inner.1,inner.2.trans high⟩

theorem clipPoly_exact (a b c : Vertex n) : ∃ out,clipPoly [a,b,c] = some out ∧ out.length ≤ 6 ∧
      convexHull ℚ {p | p ∈ out.map Vertex.point} =
        convexHull ℚ {p | p ∈ [a.point,b.point,c.point]} ∩ {p | Visible p} ∧ Balanced ℚ (out.map Vertex.point) ∧
      (∀ x y z : Point n →ₗ[ℚ] ℚ,0 ≤ turn x y z a.point b.point c.point → Left x y z (out.map Vertex.point)) ∧
      ∀ v ∈ out,∃ α β γ : ℚ,0 ≤ α ∧ 0 ≤ β ∧ 0 ≤ γ ∧ α + β + γ = 1 ∧
        v.point = α • a.point + β • b.point + γ • c.point := by
  obtain ⟨out,ran,points⟩ := clipPlanes_eq affine_planes [a,b,c]
  have start : Balanced ℚ [a.point,b.point,c.point] := balanced_triangle _ _ _
  have hull := hull_cutAll start (borders n)
  have visible : {p | ∀ D ∈ borders n,0 ≤ D p} = {p : Point n | Visible p} := Set.ext fun _ => visible_iff
  rw [visible] at hull
  refine ⟨out,ran,?_⟩
  rw [points]
  refine ⟨?_,hull,start.cutAll _,?_,?_⟩
  · have size := length_cutAll_le start (borders n)
    rwa [← List.length_map (f := Vertex.point),points]
  · intro x y z turned
    refine Left.cutAll ?_ _
    exact List.triplewise_triple.mpr turned
  · intro v member
    have inside : v.point ∈ convexHull ℚ {p | p ∈ cutAll (borders n) [a.point,b.point,c.point]} := by
      refine subset_convexHull ℚ _ ?_
      have mapped := List.mem_map_of_mem (f := Vertex.point) member
      rwa [points] at mapped
    rw [hull] at inside
    exact mem_hull_triangle inside.1

theorem clipLine_exact (a b : Vertex n) :
    ∃ r,clipLine a b = some r ∧
      match r with
      | none => ∀ p ∈ segment ℚ a.point b.point,¬ Visible p
      | some (u,v) => segment ℚ u.point v.point = segment ℚ a.point b.point ∩ {p | Visible p} ∧
        ∃ s t : ℚ,0 ≤ s ∧ s ≤ t ∧ t ≤ 1 ∧ u.point = AffineMap.lineMap a.point b.point s ∧
          v.point = AffineMap.lineMap a.point b.point t := by
  obtain ⟨r,ran,result⟩ := clipSpan_eq affine_planes a b 0 1 (le_refl _) (le_refl _)
  refine ⟨_,by rw [clipLine,ran]; rfl,?_⟩
  have within (t : ℚ) : t ∈ Within a b (borders n) 0 1 ↔
      t ∈ Set.Icc (0 : ℚ) 1 ∧ Visible (AffineMap.lineMap a.point b.point t) := by
    rw [← visible_iff]
    exact and_assoc.symm
  match r,result with
  | none,empty =>
    intro p member visible
    rw [segment_eq_image_lineMap] at member
    obtain ⟨t,place,rfl⟩ := member
    have found := (within t).mpr ⟨place,visible⟩
    rw [empty] at found
    exact found
  | some (s,t),⟨low,order,high,exactly⟩ =>
    refine ⟨?_,s,t,low,order,high,point_lineAt a b s,point_lineAt a b t⟩
    rw [point_lineAt,point_lineAt,← image_segment,segment_eq_Icc order,← exactly,segment_eq_image_lineMap]
    ext p
    constructor
    · rintro ⟨t,place,rfl⟩
      obtain ⟨unit,visible⟩ := (within t).mp place
      exact ⟨⟨t,unit,rfl⟩,visible⟩
    · rintro ⟨⟨t,unit,rfl⟩,visible⟩
      exact ⟨t,(within t).mpr ⟨unit,visible⟩,rfl⟩

/-- No division is by zero. What is left of a triangle is its part inside the half-spaces, with the vertices in
order around and turning as the triangle does; vertices on a plane may be repeated. -/
theorem clipping_exact (n : ℕ) :
    (∀ a b c : Vertex n,∃ out,clipPoly [a,b,c] = some out ∧ out.length ≤ 6 ∧
      convexHull ℚ {p | p ∈ out.map Vertex.point} =
        convexHull ℚ {p | p ∈ [a.point,b.point,c.point]} ∩ {p | Visible p} ∧
      Balanced ℚ (out.map Vertex.point) ∧
      (∀ x y z : Point n →ₗ[ℚ] ℚ,0 ≤ turn x y z a.point b.point c.point → Left x y z (out.map Vertex.point)) ∧
      ∀ v ∈ out,∃ α β γ : ℚ,0 ≤ α ∧ 0 ≤ β ∧ 0 ≤ γ ∧ α + β + γ = 1 ∧
        v.point = α • a.point + β • b.point + γ • c.point) ∧
    ∀ a b : Vertex n,∃ r,clipLine a b = some r ∧
      match r with
      | none => ∀ p ∈ segment ℚ a.point b.point,¬ Visible p
      | some (u,v) => segment ℚ u.point v.point = segment ℚ a.point b.point ∩ {p | Visible p} ∧
        ∃ s t : ℚ,0 ≤ s ∧ s ≤ t ∧ t ≤ 1 ∧ u.point = AffineMap.lineMap a.point b.point s ∧
          v.point = AffineMap.lineMap a.point b.point t :=
  ⟨clipPoly_exact,clipLine_exact⟩

end Sharko.Script.WebGl.Clipping
