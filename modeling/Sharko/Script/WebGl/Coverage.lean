import Mathlib.Data.List.ProdSigma
import Mathlib.Data.Rat.Floor
import Sharko.Library.Plane

/-! The pixels of a triangle. The triangles of a mesh that do not overlap share out the pixel centres of its
interior among them. -/

namespace Sharko.Script.WebGl

open Sharko.Library Plane

inductive CullMode where
  | front
  | back
  | frontAndBack
  deriving DecidableEq

structure RasterState where
  frontIsCcw : Bool := true
  cull : Bool := false
  cullMode : CullMode := .back

structure Rect where
  x0 : ℤ
  y0 : ℤ
  x1 : ℤ
  y1 : ℤ

structure WindowVertex where
  x : ℚ
  y : ℚ

/-- Positions are rounded to parts of a pixel. -/
def SUB : ℤ := 256

def mathRound (q : ℚ) : ℤ := ⌊q + 1 / 2⌋

def WindowVertex.snap (v : WindowVertex) : ℤ × ℤ := (mathRound (v.x * SUB),mathRound (v.y * SUB))

/-- A pixel, and the weights of the vertices there. -/
structure Fragment where
  x : ℤ
  y : ℤ
  w0 : ℚ
  w1 : ℚ
  w2 : ℚ
  front : Bool
  deriving DecidableEq

def edge (a b p : ℤ × ℤ) : ℤ := (b.1 - a.1) * (p.2 - a.2) - (b.2 - a.2) * (p.1 - a.1)

def inc (a b : ℤ × ℤ) : Bool :=
  decide (b.2 - a.2 > 0) || (decide (b.2 - a.2 = 0) && decide (b.1 - a.1 < 0))

def pixelCentre (x y : ℤ) : ℤ × ℤ := (SUB * x + SUB / 2,SUB * y + SUB / 2)

def interval (low high : ℤ) : List ℤ := (List.range (high - low + 1).toNat).map fun i : ℕ => low + i

def RasterState.culls (S : RasterState) (front : Bool) : Bool :=
  S.cull && (match S.cullMode with
    | .frontAndBack => true
    | .front => front
    | .back => !front)

def fragmentAt (front : Bool) (ar : ℤ) (a b c : ℤ × ℤ) (x y : ℤ) : Option Fragment :=
  let p := pixelCentre x y
  let e0 := edge b c p
  let e1 := edge c a p
  let e2 := edge a b p
  if e0 < 0 ∨ e1 < 0 ∨ e2 < 0 then none
  else if e0 = 0 ∧ inc b c = false ∨ e1 = 0 ∧ inc c a = false ∨ e2 = 0 ∧ inc a b = false then none
  else some ⟨x,y,e0 / ar,e1 / ar,e2 / ar,front⟩

def rasterTriangle (S : RasterState) (rect : Rect) (v0 v1 v2 : WindowVertex) : List Fragment :=
  let p0 := v0.snap
  let p1 := v1.snap
  let p2 := v2.snap
  let area := (p1.1 - p0.1) * (p2.2 - p0.2) - (p2.1 - p0.1) * (p1.2 - p0.2)
  if area = 0 then []
  else
    let ccw := decide (area > 0)
    let front := ccw == S.frontIsCcw
    if S.culls front then []
    else
      let a := p0
      let b := if ccw then p1 else p2
      let c := if ccw then p2 else p1
      let ar := if ccw then area else -area
      let minX := max rect.x0 (min (min a.1 b.1) c.1 / SUB)
      let maxX := min (rect.x1 - 1) (max (max a.1 b.1) c.1 / SUB)
      let minY := max rect.y0 (min (min a.2 b.2) c.2 / SUB)
      let maxY := min (rect.y1 - 1) (max (max a.2 b.2) c.2 / SUB)
      (interval minY maxY ×ˢ interval minX maxX).filterMap fun (y,x) => fragmentAt front ar a b c x y

theorem mem_interval {low high n : ℤ} : n ∈ interval low high ↔ low ≤ n ∧ n ≤ high := by
  rw [interval,List.mem_map]
  constructor
  · rintro ⟨i,mem,rfl⟩
    rw [List.mem_range] at mem
    omega
  · rintro ⟨above,below⟩
    exact ⟨(n - low).toNat,List.mem_range.mpr (by omega),by omega⟩

theorem nodup_interval (low high : ℤ) : (interval low high).Nodup := by
  refine List.Nodup.map ?_ List.nodup_range
  intro i j same
  have : low + (i : ℤ) = low + j := same
  omega

theorem count_filterMap {α β : Type} [DecidableEq α] {f : α → Option β} {place : β → α}
    (knows : ∀ q r,f q = some r → place r = q) {L : List α} (nodup : L.Nodup) (q : α) :
    (q ∈ L → (f q).isSome = true → ((L.filterMap f).filter fun r => decide (place r = q)).length = 1) ∧
      ((f q).isSome = false → ((L.filterMap f).filter fun r => decide (place r = q)).length = 0) := by
  have absent : ∀ M : List α,q ∉ M → ((M.filterMap f).filter fun r => decide (place r = q)) = [] := by
    intro M away
    rw [List.filter_eq_nil_iff]
    intro r mem here
    obtain ⟨q',mem',found⟩ := List.mem_filterMap.mp mem
    rw [decide_eq_true_eq,knows q' r found] at here
    exact away (here ▸ mem')
  constructor
  · intro mem present
    obtain ⟨before,after,rfl⟩ := List.append_of_mem mem
    obtain ⟨r,found⟩ := Option.isSome_iff_exists.mp present
    have apart := List.nodup_middle.mp nodup
    have fresh := (List.nodup_cons.mp apart).1
    rw [List.filterMap_append,List.filterMap_cons_some found,List.filter_append,
      List.filter_cons_of_pos (by simp [knows q r found]),absent before fun h =>
      fresh (List.mem_append_left _ h),absent after fun h => fresh (List.mem_append_right _ h)]
    rfl
  · intro none
    rw [List.length_eq_zero_iff,List.filter_eq_nil_iff]
    intro r mem here
    obtain ⟨q',-,found⟩ := List.mem_filterMap.mp mem
    rw [decide_eq_true_eq,knows q' r found] at here
    subst here
    rw [found] at none
    cases none

theorem fragmentAt_place {front : Bool} {ar : ℤ} {a b c : ℤ × ℤ} {x y : ℤ} {r : Fragment}
    (found : fragmentAt front ar a b c x y = some r) : r.x = x ∧ r.y = y := by
  unfold fragmentAt at found
  dsimp only at found
  split_ifs at found
  cases found
  exact ⟨rfl,rfl⟩

def toReal (p : ℤ × ℤ) : ℝ × ℝ := (p.1,p.2)

theorem side_toReal (a b p : ℤ × ℤ) : side (toReal a) (toReal b) (toReal p) = edge a b p := by
  simp only [side,toReal,edge]
  push_cast
  ring

theorem inc_iff (a b : ℤ × ℤ) : inc a b = true ↔ Owning (toReal a) (toReal b) := by
  simp only [inc,Owning,toReal,Bool.or_eq_true,Bool.and_eq_true,decide_eq_true_eq]
  norm_cast

theorem left_iff (a b p : ℤ × ℤ) :
    Left (toReal a) (toReal b) (toReal p) ↔ 0 < edge a b p ∨ edge a b p = 0 ∧ inc a b = true := by
  rw [Left,side_toReal,inc_iff]
  norm_cast

theorem fragmentAt_isSome {front : Bool} {ar : ℤ} {a b c : ℤ × ℤ} {x y : ℤ} (ccw : 0 < edge a b c) :
    (fragmentAt front ar a b c x y).isSome = true ↔
      Covers (toReal a) (toReal b) (toReal c) (toReal (pixelCentre x y)) := by
  rw [Covers,left_iff,left_iff,left_iff,side_toReal]
  have ccw' : (0 : ℝ) < edge a b c := by exact_mod_cast ccw
  unfold fragmentAt
  dsimp only
  generalize edge b c (pixelCentre x y) = e0
  generalize edge c a (pixelCentre x y) = e1
  generalize edge a b (pixelCentre x y) = e2
  split_ifs with outside excluded
  · simp only [Option.isSome_none,Bool.false_eq_true,false_iff]
    omega
  · simp only [Option.isSome_none,Bool.false_eq_true,false_iff]
    rintro ⟨-,h0,h1,h2⟩
    rcases excluded with ⟨zero,off⟩ | ⟨zero,off⟩ | ⟨zero,off⟩ <;> simp_all
  · simp only [Option.isSome_some,true_iff]
    simp only [not_or,not_and,Bool.not_eq_false] at outside excluded
    have kept : ∀ {e : ℤ} {owns : Bool},¬ e < 0 → (e = 0 → owns = true) → 0 < e ∨ e = 0 ∧ owns = true := by
      intro e owns nonneg own
      rcases lt_trichotomy e 0 with negative | zero | positive
      · exact absurd negative nonneg
      · exact Or.inr ⟨zero,own zero⟩
      · exact Or.inl positive
    exact ⟨ccw',kept outside.1 excluded.1,kept outside.2.1 excluded.2.1,
      kept outside.2.2 excluded.2.2⟩

theorem mean_bounds {ar e0 e1 e2 u v w p : ℤ} (pos : 0 < ar) (sum : e0 + e1 + e2 = ar) (h0 : 0 ≤ e0)
    (h1 : 0 ≤ e1) (h2 : 0 ≤ e2) (mean : ar * p = e0 * u + e1 * v + e2 * w) :
    min (min u v) w ≤ p ∧ p ≤ max (max u v) w := by
  constructor
  · refine le_of_mul_le_mul_left ?_ pos
    calc ar * min (min u v) w = e0 * min (min u v) w + e1 * min (min u v) w + e2 * min (min u v) w := by
          rw [← sum]
          ring
      _ ≤ e0 * u + e1 * v + e2 * w := by
          gcongr
          · exact (min_le_left _ _).trans (min_le_left _ _)
          · exact (min_le_left _ _).trans (min_le_right _ _)
          · exact min_le_right _ _
      _ = ar * p := mean.symm
  · refine le_of_mul_le_mul_left ?_ pos
    calc ar * p = e0 * u + e1 * v + e2 * w := mean
      _ ≤ e0 * max (max u v) w + e1 * max (max u v) w + e2 * max (max u v) w := by
          gcongr
          · exact (le_max_left _ _).trans (le_max_left _ _)
          · exact (le_max_right _ _).trans (le_max_left _ _)
          · exact le_max_right _ _
      _ = ar * max (max u v) w := by
          rw [← sum]
          ring

theorem centre_in_box {a b c : ℤ × ℤ} {x y : ℤ} (ccw : 0 < edge a b c)
    (h0 : 0 ≤ edge b c (pixelCentre x y)) (h1 : 0 ≤ edge c a (pixelCentre x y))
    (h2 : 0 ≤ edge a b (pixelCentre x y)) :
    (min (min a.1 b.1) c.1 / SUB ≤ x ∧ x ≤ max (max a.1 b.1) c.1 / SUB) ∧
      min (min a.2 b.2) c.2 / SUB ≤ y ∧ y ≤ max (max a.2 b.2) c.2 / SUB := by
  have sum : edge b c (pixelCentre x y) + edge c a (pixelCentre x y) + edge a b (pixelCentre x y) =
      edge a b c := by
    unfold edge
    ring
  obtain ⟨left,right⟩ := @mean_bounds _ _ _ _ a.1 b.1 c.1 (pixelCentre x y).1 ccw sum h0 h1 h2
    (by unfold edge; ring)
  obtain ⟨bottom,top⟩ := @mean_bounds _ _ _ _ a.2 b.2 c.2 (pixelCentre x y).2 ccw sum h0 h1 h2
    (by unfold edge; ring)
  simp only [pixelCentre,SUB] at left right bottom top ⊢
  omega

def atPixel (x y : ℤ) (list : List Fragment) : List Fragment :=
  list.filter fun r => decide ((r.y,r.x) = (y,x))

def Rect.Has (rect : Rect) (x y : ℤ) : Prop :=
  (rect.x0 ≤ x ∧ x < rect.x1) ∧ rect.y0 ≤ y ∧ y < rect.y1

open Classical in
theorem count_pixels {rect : Rect} {a b c : ℤ × ℤ} {x y : ℤ} (ccw : 0 < edge a b c) (inside : rect.Has x y)
    (front : Bool) (ar : ℤ) : (atPixel x y ((interval (max rect.y0 (min (min a.2 b.2) c.2 / SUB))
        (min (rect.y1 - 1) (max (max a.2 b.2) c.2 / SUB)) ×ˢ
      interval (max rect.x0 (min (min a.1 b.1) c.1 / SUB))
        (min (rect.x1 - 1) (max (max a.1 b.1) c.1 / SUB))).filterMap
      fun q => fragmentAt front ar a b c q.2 q.1)).length =
      if Covers (toReal a) (toReal b) (toReal c) (toReal (pixelCentre x y)) then 1 else 0 := by
  have knows : ∀ (q : ℤ × ℤ) r,fragmentAt front ar a b c q.2 q.1 = some r → (r.y,r.x) = q := by
    intro q r found
    obtain ⟨hx,hy⟩ := fragmentAt_place found
    rw [hx,hy]
  obtain ⟨one,zero⟩ := count_filterMap knows ((nodup_interval _ _).product (nodup_interval _ _)) (y,x)
  split_ifs with covers
  · refine one ?_ ((fragmentAt_isSome ccw).mpr covers)
    have nonneg : ∀ {u v : ℤ × ℤ},Left (toReal u) (toReal v) (toReal (pixelCentre x y)) →
        0 ≤ edge u v (pixelCentre x y) := by
      intro u v left
      have := left.nonneg
      rw [side_toReal] at this
      exact_mod_cast this
    obtain ⟨⟨left,right⟩,bottom,top⟩ := centre_in_box ccw (nonneg covers.2.1) (nonneg covers.2.2.1)
      (nonneg covers.2.2.2)
    obtain ⟨⟨x0,x1⟩,y0,y1⟩ := inside
    rw [List.mem_product,mem_interval,mem_interval]
    exact ⟨⟨max_le y0 bottom,le_min (Int.le_sub_one_of_lt y1) top⟩,
      max_le x0 left,le_min (Int.le_sub_one_of_lt x1) right⟩
  · exact zero (Bool.eq_false_iff.mpr ((fragmentAt_isSome ccw).not.mpr covers))

theorem area_eq (p0 p1 p2 : ℤ × ℤ) :
    (p1.1 - p0.1) * (p2.2 - p0.2) - (p2.1 - p0.1) * (p1.2 - p0.2) = edge p0 p1 p2 := by
  unfold edge
  ring

theorem edge_swap (a b c : ℤ × ℤ) : edge a c b = -edge a b c := by
  unfold edge
  ring

open Classical in
theorem count_rasterTriangle {S : RasterState} (noCull : S.cull = false) {rect : Rect} {x y : ℤ}
    (inside : rect.Has x y) (v0 v1 v2 : WindowVertex) : (atPixel x y (rasterTriangle S rect v0 v1 v2)).length =
      if Covers (toReal v0.snap) (toReal v1.snap) (toReal v2.snap) (toReal (pixelCentre x y)) ∨
        Covers (toReal v0.snap) (toReal v2.snap) (toReal v1.snap) (toReal (pixelCentre x y)) then 1 else 0 := by
  have kept : ∀ front,S.culls front = false := by
    intro front
    rw [RasterState.culls,noCull,Bool.false_and]
  have flat_or : ∀ {a b c p : ℤ × ℤ},Covers (toReal a) (toReal b) (toReal c) (toReal p) → 0 < edge a b c := by
    intro a b c p covers
    have := covers.1
    rw [side_toReal] at this
    exact_mod_cast this
  unfold rasterTriangle
  simp only [area_eq,kept]
  generalize v0.snap = p0
  generalize v1.snap = p1
  generalize v2.snap = p2
  rcases lt_trichotomy (edge p0 p1 p2) 0 with cw | flat | ccw
  · have ccw : 0 < edge p0 p2 p1 := by
      rw [edge_swap]
      omega
    have never : ¬ Covers (toReal p0) (toReal p1) (toReal p2) (toReal (pixelCentre x y)) :=
      fun covers => by have := flat_or covers; omega
    simp only [cw.ne,if_false,gt_iff_lt,cw.not_gt,decide_false,Bool.false_eq_true,or_iff_right never]
    exact count_pixels ccw inside _ _
  · rw [if_pos flat,if_neg]
    · rfl
    · rintro (covers | covers)
      · have := flat_or covers
        omega
      · have := flat_or covers
        rw [edge_swap] at this
        omega
  · have never : ¬ Covers (toReal p0) (toReal p2) (toReal p1) (toReal (pixelCentre x y)) :=
      fun covers => by have := flat_or covers; rw [edge_swap] at this; omega
    simp only [ccw.ne',if_false,gt_iff_lt,ccw,decide_true,if_true,Bool.false_eq_true,or_iff_left never]
    exact count_pixels ccw inside _ _

structure MeshTriangle where
  p0 : ℤ × ℤ
  p1 : ℤ × ℤ
  p2 : ℤ × ℤ

def windowVertex (p : ℤ × ℤ) : WindowVertex := ⟨p.1 / SUB,p.2 / SUB⟩

theorem snap_windowVertex (p : ℤ × ℤ) : (windowVertex p).snap = p := by
  have back : ∀ n : ℤ,mathRound ((n : ℚ) / SUB * SUB) = n := by
    intro n
    rw [div_mul_cancel₀ _ (by norm_num [SUB]),mathRound,Int.floor_eq_iff]
    constructor <;> norm_num
  exact Prod.ext (back p.1) (back p.2)

def MeshTriangle.raster (S : RasterState) (rect : Rect) (t : MeshTriangle) : List Fragment :=
  rasterTriangle S rect (windowVertex t.p0) (windowVertex t.p1) (windowVertex t.p2)

def rasterMesh (S : RasterState) (rect : Rect) (mesh : List MeshTriangle) : List Fragment :=
  mesh.flatMap (MeshTriangle.raster S rect)

def MeshTriangle.closed (t : MeshTriangle) : Set (ℝ × ℝ) :=
  triangle (toReal t.p0) (toReal t.p1) (toReal t.p2)

/-- Every interior point off the edges lies in exactly one triangle. -/
def PlanarMesh (mesh : List MeshTriangle) : Prop :=
  Planar (fun i : Fin mesh.length => toReal mesh[i].p0) (fun i => toReal mesh[i].p1)
    fun i => toReal mesh[i].p2

def region (mesh : List MeshTriangle) : Set (ℝ × ℝ) := ⋃ i : Fin mesh.length,mesh[i].closed

open Classical in
theorem count_rasterMesh {S : RasterState} (noCull : S.cull = false) {rect : Rect} {x y : ℤ}
    (inside : rect.Has x y) (mesh : List MeshTriangle) :
    (atPixel x y (rasterMesh S rect mesh)).length = mesh.countP fun t =>
      Covers (toReal t.p0) (toReal t.p1) (toReal t.p2) (toReal (pixelCentre x y)) ∨
        Covers (toReal t.p0) (toReal t.p2) (toReal t.p1) (toReal (pixelCentre x y)) := by
  induction mesh with
  | nil => rfl
  | cons t mesh ih =>
    have split : atPixel x y (rasterMesh S rect (t :: mesh)) =
        atPixel x y (t.raster S rect) ++ atPixel x y (rasterMesh S rect mesh) := by
      rw [rasterMesh,List.flatMap_cons,atPixel,List.filter_append]
      rfl
    rw [split,List.length_append,ih,MeshTriangle.raster,count_rasterTriangle noCull inside,
      snap_windowVertex,snap_windowVertex,snap_windowVertex,List.countP_cons,Nat.add_comm]
    simp

theorem countP_eq_one_of {α : Type} {p : α → Bool} {L : List α} {i : ℕ} (bound : i < L.length)
    (holds : p L[i] = true) (only : ∀ j (bound : j < L.length),p L[j] = true → j = i) : L.countP p = 1 := by
  have none : ∀ M : List α,(∀ a ∈ M,p a = false) → M.countP p = 0 := fun M all =>
    List.countP_eq_zero.mpr fun a mem => by simp [all a mem]
  rw [← List.take_append_drop i L,List.drop_eq_getElem_cons bound,List.countP_append,
    List.countP_cons_of_pos holds,none,none]
  · intro a mem
    obtain ⟨j,inside,rfl⟩ := List.getElem_of_mem mem
    rw [List.getElem_drop]
    rw [List.length_drop] at inside
    refine Bool.eq_false_iff.mpr fun also => ?_
    have := only (i + 1 + j) (by omega) also
    omega
  · intro a mem
    obtain ⟨j,inside,rfl⟩ := List.getElem_of_mem mem
    rw [List.getElem_take]
    rw [List.length_take] at inside
    refine Bool.eq_false_iff.mpr fun also => ?_
    have := only j (by omega) also
    omega

/-- Without culling, a planar mesh has exactly one fragment at every pixel whose centre is in its interior,
on edges and at vertices too, and none where the centre is outside. -/
theorem coverage_exact (S : RasterState) (noCull : S.cull = false) (rect : Rect) (mesh : List MeshTriangle)
    (planar : PlanarMesh mesh) (x y : ℤ) (inside : rect.Has x y) :
    (toReal (pixelCentre x y) ∈ interior (region mesh) → (atPixel x y (rasterMesh S rect mesh)).length = 1) ∧
      (toReal (pixelCentre x y) ∉ closure (region mesh) → atPixel x y (rasterMesh S rect mesh) = []) := by
  classical
  constructor
  · intro interior_
    obtain ⟨i,covers,only⟩ := Planar.exists_unique_covers planar interior_
    rw [count_rasterMesh noCull inside]
    exact countP_eq_one_of i.isLt (decide_eq_true covers) fun j bound also =>
      congrArg Fin.val (only ⟨j,bound⟩ (of_decide_eq_true also))
  · intro outside
    rw [← List.length_eq_zero_iff,count_rasterMesh noCull inside,List.countP_eq_zero]
    intro t mem covers
    obtain ⟨i,bound,rfl⟩ := List.getElem_of_mem mem
    refine outside (subset_closure (Set.mem_iUnion.mpr ⟨⟨i,bound⟩,?_⟩))
    rw [decide_eq_true_eq] at covers
    rcases covers with covers | covers
    · exact covers.mem
    · show _ ∈ triangle _ _ _
      rw [← triangle_swap]
      exact covers.mem

def pixelSquare : List MeshTriangle :=
  [⟨(0,0),(256,0),(256,256)⟩,⟨(0,0),(256,256),(0,256)⟩]

theorem pixelSquare_planar : PlanarMesh pixelSquare := by
  intro p inside off
  obtain ⟨i,mem⟩ := Set.mem_iUnion.mp (interior_subset inside)
  have apart : ¬ (p ∈ triangle (toReal (0,0)) (toReal (256,0)) (toReal (256,256)) ∧
      p ∈ triangle (toReal (0,0)) (toReal (256,256)) (toReal (0,256))) := by
    rintro ⟨lower,upper⟩
    rw [mem_triangle_iff (by norm_num [side,toReal])] at lower upper
    simp only [side,toReal] at lower upper
    norm_num at lower upper
    have diagonal : p.1 = p.2 := by linarith
    refine (off ⟨1,by decide⟩).1 ?_
    refine ⟨1 - p.1 / 256,p.1 / 256,by linarith,by linarith,by ring,?_⟩
    refine Prod.ext ?_ ?_
    · simp [pixelSquare,toReal]
    · simp [pixelSquare,toReal,diagonal]
  refine ⟨i,mem,fun j also => ?_⟩
  by_contra different
  obtain ⟨i,boundI⟩ := i
  obtain ⟨j,boundJ⟩ := j
  have boundI : i < 2 := boundI
  have boundJ : j < 2 := boundJ
  obtain rfl | rfl : i = 0 ∨ i = 1 := by omega
  · obtain rfl | rfl : j = 0 ∨ j = 1 := by omega
    · exact different rfl
    · exact apart ⟨mem,also⟩
  · obtain rfl | rfl : j = 0 ∨ j = 1 := by omega
    · exact apart ⟨also,mem⟩
    · exact different rfl

theorem coverage_exact_pixelSquare : (toReal (pixelCentre 0 0) ∈ interior (region pixelSquare) →
        (atPixel 0 0 (rasterMesh {} ⟨0,0,1,1⟩ pixelSquare)).length = 1) ∧
      (toReal (pixelCentre 0 0) ∉ closure (region pixelSquare) →
        atPixel 0 0 (rasterMesh {} ⟨0,0,1,1⟩ pixelSquare) = []) :=
  coverage_exact {} rfl ⟨0,0,1,1⟩ pixelSquare pixelSquare_planar 0 0 ⟨⟨le_rfl,by decide⟩,le_rfl,by decide⟩

end Sharko.Script.WebGl
