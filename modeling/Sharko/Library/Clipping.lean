import Mathlib.Analysis.Convex.Join
import Mathlib.Data.List.Triplewise
import Mathlib.LinearAlgebra.Basis.VectorSpace
import Mathlib.Tactic.FieldSimp
import Mathlib.Tactic.Linarith
import Mathlib.Tactic.LinearCombination
import Mathlib.Tactic.Module
import Mathlib.Tactic.Positivity
import Sharko.Library.Alternation

/-! A polygon, as the list of its vertices around, is cut off by a half-space: the vertices outside go, and the
edges that leave and enter get new ones. The convex hull of what remains is the part of the convex hull inside
the half-space, and the order around stays that of a convex polygon. -/

namespace Sharko.Library.Clipping

open Alternation

section Lists

variable {α : Type*}

theorem triplewise_sublist {R : α → α → α → Prop} {us vs : List α} (sub : us.Sublist vs)
    (triples : vs.Triplewise R) : us.Triplewise R := by
  induction sub with
  | slnil => exact triples
  | cons v _ ih => exact ih (List.triplewise_cons.mp triples).2
  | cons_cons v sub ih =>
    obtain ⟨first,rest⟩ := List.triplewise_cons.mp triples
    exact List.triplewise_cons.mpr ⟨first.sublist sub,ih rest⟩

theorem mem_zip_of_infix {u v z : α} (a : α) (l : List α) (edge : [u,v] <:+: a :: (l ++ [z])) :
    (u,v) ∈ (a :: l).zip (l ++ [z]) := by
  obtain ⟨s,t,same⟩ := edge
  rw [List.append_assoc] at same
  induction l generalizing a s with
  | nil =>
    cases s with
    | nil =>
      simp only [List.nil_append,List.cons_append,List.cons.injEq] at same
      obtain ⟨rfl,rfl,_⟩ := same
      exact List.mem_singleton_self _
    | cons c s =>
      have size := congrArg List.length same
      simp only [List.length_append,List.length_cons,List.length_nil] at size
      omega
  | cons b l ih =>
    cases s with
    | nil =>
      simp only [List.nil_append,List.cons_append,List.cons.injEq] at same
      obtain ⟨rfl,rfl,_⟩ := same
      exact List.mem_cons_self
    | cons c s => exact List.mem_cons_of_mem _ (ih b s (List.cons.inj same).2)

theorem exists_step (f : α → Bool) (a z : α) (l : List α) (apart : f a ≠ f z) :
    ∃ u v,[u,v] <:+: a :: (l ++ [z]) ∧ f u ≠ f v ∧ f u = f a := by
  induction l generalizing a with
  | nil => exact ⟨a,z,List.infix_refl _,apart,rfl⟩
  | cons b l ih =>
    by_cases same : f a = f b
    · obtain ⟨u,v,inside,differ,first⟩ := ih b (same ▸ apart)
      exact ⟨u,v,inside.trans (List.suffix_cons a _).isInfix,differ,first.trans same.symm⟩
    · exact ⟨a,b,⟨[],l ++ [z],rfl⟩,same,rfl⟩

end Lists

variable {K V : Type*} [Field K] [AddCommGroup V] [Module K V] {d : V →ᵃ[K] K} {a b m : V} {l : List V}
  {x y z : V →ₗ[K] K}

def turn (x y z : V →ₗ[K] K) (p q r : V) : K :=
  x p * (y q * z r - z q * y r) - y p * (x q * z r - z q * x r) + z p * (x q * y r - y q * x r)

theorem lineMap_apply (f : V →ₗ[K] K) (a b : V) (t : K) :
    f (AffineMap.lineMap a b t) = (1 - t) * f a + t * f b := by
  rw [AffineMap.lineMap_apply_module]
  simp

theorem turn_first (a b q r : V) (t : K) :
    turn x y z (AffineMap.lineMap a b t) q r = (1 - t) * turn x y z a q r + t * turn x y z b q r := by
  simp only [turn,lineMap_apply]
  ring

theorem turn_second (a b p r : V) (t : K) :
    turn x y z p (AffineMap.lineMap a b t) r = (1 - t) * turn x y z p a r + t * turn x y z p b r := by
  simp only [turn,lineMap_apply]
  ring

theorem turn_third (a b p q : V) (t : K) :
    turn x y z p q (AffineMap.lineMap a b t) = (1 - t) * turn x y z p q a + t * turn x y z p q b := by
  simp only [turn,lineMap_apply]
  ring

theorem turn_rotate (p q r : V) : turn x y z q r p = turn x y z p q r := by
  simp only [turn]
  ring

@[simp] theorem turn_self (p r : V) : turn x y z p p r = 0 := by
  simp only [turn]
  ring

@[simp] theorem turn_ends (p q : V) : turn x y z p q p = 0 := by
  simp only [turn]
  ring

@[simp] theorem turn_last (p q : V) : turn x y z p q q = 0 := by
  simp only [turn]
  ring

def meet (d : V →ᵃ[K] K) (p q : V) : V := AffineMap.lineMap p q (d p / (d p - d q))

theorem meet_value {p q : V} (apart : d p - d q ≠ 0) (f : V →ᵃ[K] K) :
    f (meet d p q) = (d p * f q - d q * f p) / (d p - d q) := by
  rw [meet,AffineMap.apply_lineMap,AffineMap.lineMap_apply_ring]
  field_simp
  ring

theorem meet_scaled {p q : V} (apart : d p - d q ≠ 0) : (d p - d q) • meet d p q = d p • q - d q • p := by
  have one : (d p - d q) * (d p / (d p - d q)) = d p := mul_div_cancel₀ _ apart
  rw [meet,AffineMap.lineMap_apply_module,smul_add,smul_smul,smul_smul,one,mul_sub,one]
  module

theorem meet_symm {p q : V} (apart : d p - d q ≠ 0) : meet d q p = meet d p q := by
  have back : d q - d p ≠ 0 := fun zero => apart (by linear_combination -zero)
  refine smul_right_injective V apart ?_
  have scaled := meet_scaled back
  rw [← neg_sub,neg_smul,neg_eq_iff_eq_neg] at scaled
  simp only [scaled,meet_scaled apart,neg_sub]

theorem value_combination {s t : K} (sum : s + t = 1) (p p' q : V) :
    d (s • p + t • p') - d q = s * (d p - d q) + t * (d p' - d q) := by
  rw [Convex.combo_affine_apply sum,smul_eq_mul,smul_eq_mul]
  linear_combination d q * sum

theorem meet_combination {p p' q : V} {s t : K} (sum : s + t = 1) (apart : d p - d q ≠ 0) (apart' : d p' - d q ≠ 0)
    (total : s * (d p - d q) + t * (d p' - d q) ≠ 0) : meet d (s • p + t • p') q =
      (s * (d p - d q) / (s * (d p - d q) + t * (d p' - d q))) • meet d p q +
        (t * (d p' - d q) / (s * (d p - d q) + t * (d p' - d q))) • meet d p' q := by
  refine smul_right_injective V total ?_
  have whole := meet_scaled (d := d) (p := s • p + t • p') (q := q) (by rwa [value_combination sum])
  rw [value_combination sum] at whole
  simp only [smul_add,smul_smul,mul_div_cancel₀ _ total]
  rw [whole,mul_smul,mul_smul,meet_scaled apart,meet_scaled apart',Convex.combo_affine_apply sum]
  module

variable [LinearOrder K]

def inside (f : V →ᵃ[K] K) (v : V) : Bool := decide (0 ≤ f v)

def cross (d : V →ᵃ[K] K) (a b : V) : List V :=
  if inside d a = inside d b then [] else [AffineMap.lineMap a b (d a / (d a - d b))]

def cut (d : V →ᵃ[K] K) (l : List V) : List V :=
  (l.zip (l.rotate 1)).flatMap fun e => (if inside d e.1 then [e.1] else []) ++ cross d e.1 e.2

variable (K) in
/-- No hyperplane is crossed more than twice on the way around. -/
def Balanced (l : List V) : Prop := ∀ f : V →ᵃ[K] K,changes (l.map (inside f)) ≤ 2

variable (x y z) in
def Left (l : List V) : Prop := l.Triplewise fun p q r => 0 ≤ turn x y z p q r

theorem inside_iff (f : V →ᵃ[K] K) (v : V) : inside f v = true ↔ 0 ≤ f v := decide_eq_true_iff

theorem cross_ends (sides : inside d a ≠ inside d b) : 0 ≤ d a ∧ d b < 0 ∨ d a < 0 ∧ 0 ≤ d b := by
  by_cases ha : 0 ≤ d a <;> by_cases hb : 0 ≤ d b
  · simp [inside,ha,hb] at sides
  · exact .inl ⟨ha,not_le.mp hb⟩
  · exact .inr ⟨not_le.mp ha,hb⟩
  · simp [inside,ha,hb] at sides

def spread (d : V →ᵃ[K] K) (a : V) : List V → List V
  | [] => []
  | b :: l => cross d a b ++ b :: spread d b l

theorem spread_zip (a b : V) (l : List V) :
    ((a :: l).zip (l ++ [b])).flatMap (fun e => e.1 :: cross d e.1 e.2) ++ [b] = a :: spread d a (l ++ [b]) := by
  induction l generalizing a with
  | nil => simp [spread]
  | cons c l ih =>
    rw [List.cons_append,List.zip_cons_cons,List.flatMap_cons,List.append_assoc,ih]
    simp [spread]

theorem length_spread (a : V) (l : List V) :
    (spread d a l).length = l.length + changesFrom (inside d a) (l.map (inside d)) := by
  induction l generalizing a with
  | nil => rfl
  | cons b l ih =>
    have one : (cross d a b).length = step (inside d a) (inside d b) := by
      unfold cross step
      split <;> rfl
    simp only [spread,List.length_append,List.length_cons,List.map_cons,changesFrom,ih,one]
    omega

theorem sublist_spread (a : V) (l : List V) : l.Sublist (spread d a l) := by
  induction l generalizing a with
  | nil => exact List.Sublist.slnil
  | cons b l ih => exact ((ih b).cons_cons b).trans (List.sublist_append_right _ _)

theorem pairwise_cross {R : V → V → Prop} {us : List V} (each : ∀ m ∈ cross d a b,∀ v ∈ us,R m v)
    (rest : us.Pairwise R) : (cross d a b ++ us).Pairwise R := by
  have alone : (cross d a b).Pairwise R := by
    unfold cross
    split <;> simp
  exact List.pairwise_append.mpr ⟨alone,rest,each⟩

theorem mem_cut : m ∈ cut d l ↔
    ∃ e ∈ l.zip (l.rotate 1),m ∈ (if inside d e.1 then [e.1] else []) ++ cross d e.1 e.2 :=
  List.mem_flatMap

theorem mem_cut_of_mem_cross {u v : V} {a : V} {l : List V} (edge : [u,v] <:+: a :: (l ++ [a]))
    (found : m ∈ cross d u v) : m ∈ cut d (a :: l) := by
  refine mem_cut.mpr ⟨(u,v),?_,List.mem_append_right _ found⟩
  rw [List.rotate_cons_succ,List.rotate_zero]
  exact mem_zip_of_infix a l edge

theorem mem_cut_rotate (n : ℕ) : m ∈ cut d (l.rotate n) ↔ m ∈ cut d l := by
  have around : (l.rotate n).zip ((l.rotate n).rotate 1) = (l.zip (l.rotate 1)).rotate n := by
    rw [List.rotate_rotate,Nat.add_comm,← List.rotate_rotate]
    exact (List.zipWith_rotate_distrib Prod.mk l (l.rotate 1) n (List.length_rotate ..).symm).symm
  simp only [mem_cut,around,List.mem_rotate]

theorem mem_cut_of_inside (member : m ∈ l) (kept : 0 ≤ d m) : m ∈ cut d l := by
  have first : (l.zip (l.rotate 1)).map Prod.fst = l := List.map_fst_zip (by rw [List.length_rotate])
  rw [← first] at member
  obtain ⟨e,edge,rfl⟩ := List.mem_map.mp member
  refine mem_cut.mpr ⟨e,edge,List.mem_append_left _ ?_⟩
  rw [if_pos ((inside_iff d e.1).mpr kept)]
  exact List.mem_singleton_self _

theorem Balanced.rotate (balanced : Balanced K l) (n : ℕ) : Balanced K (l.rotate n) := by
  induction n generalizing l with
  | zero => rwa [List.rotate_zero]
  | succ n ih =>
    cases l with
    | nil => rwa [List.rotate_nil]
    | cons a l =>
      rw [List.rotate_cons_succ]
      refine ih fun f => ?_
      rw [List.map_append]
      exact changes_rotate (balanced f)

theorem balanced_triangle (a b c : V) : Balanced K [a,b,c] := by
  intro f
  simp only [List.map_cons,List.map_nil,changes,changesFrom,step]
  split <;> split <;> simp

theorem Left.close {a : V} {l : List V} (left : Left x y z (a :: l)) : Left x y z (a :: (l ++ [a])) := by
  rw [← List.cons_append]
  refine List.triplewise_append.mpr ⟨left,List.triplewise_singleton ..,fun _ _ => List.pairwise_singleton _ _,?_⟩
  intro r member
  obtain rfl := List.mem_singleton.mp member
  refine List.pairwise_cons.mpr ⟨fun q _ => (turn_ends r q).ge,?_⟩
  refine (List.triplewise_cons.mp left).1.imp fun turned => ?_
  rwa [turn_rotate]

variable [IsStrictOrderedRing K]

theorem convex_inside (f : V →ᵃ[K] K) : Convex K {v | 0 ≤ f v} := (convex_Ici (0 : K)).affine_preimage f

theorem convex_outside (f : V →ᵃ[K] K) : Convex K {v | f v < 0} := (convex_Iio (0 : K)).affine_preimage f

theorem inside_segment (f : V →ᵃ[K] K) (between : m ∈ segment K a b) :
    inside f m = inside f a ∨ inside f m = inside f b := by
  by_cases ha : 0 ≤ f a <;> by_cases hb : 0 ≤ f b
  · have hm : 0 ≤ f m := (convex_inside f).segment_subset ha hb between
    simp [inside,ha,hm]
  · simp [inside,ha,hb,le_or_gt]
  · simp [inside,ha,hb,lt_or_ge]
  · have hm : f m < 0 := (convex_outside f).segment_subset (not_le.mp ha) (not_le.mp hb) between
    simp [inside,ha,not_le.mpr hm]

theorem exists_of_mem_cross (found : m ∈ cross d a b) :
    ∃ t : K,m = AffineMap.lineMap a b t ∧ 0 ≤ t ∧ t ≤ 1 ∧ d m = 0 := by
  unfold cross at found
  split at found
  next => cases found
  next sides =>
    obtain rfl := List.mem_singleton.mp found
    have zero (apart : d a - d b ≠ 0) : d (AffineMap.lineMap a b (d a / (d a - d b))) = 0 := by
      rw [AffineMap.apply_lineMap,AffineMap.lineMap_apply_ring]
      field_simp
      ring
    obtain ⟨ha,hb⟩ | ⟨ha,hb⟩ := cross_ends sides
    · refine ⟨_,rfl,div_nonneg ha (by linarith),?_,zero (by linarith)⟩
      rw [div_le_one (by linarith)]
      linarith
    · refine ⟨_,rfl,div_nonneg_of_nonpos (by linarith) (by linarith),?_,zero (by linarith)⟩
      rw [div_le_one_of_neg (by linarith)]
      linarith

theorem mem_segment_of_mem_cross (found : m ∈ cross d a b) : m ∈ segment K a b := by
  obtain ⟨t,rfl,low,high,_⟩ := exists_of_mem_cross found
  exact lineMap_mem_segment K a b ⟨low,high⟩

theorem cut_eq_filter (l : List V) :
    cut d l = ((l.zip (l.rotate 1)).flatMap fun e => e.1 :: cross d e.1 e.2).filter (inside d) := by
  rw [cut,List.filter_flatMap]
  congr 1
  funext e
  have kept : (cross d e.1 e.2).filter (inside d) = cross d e.1 e.2 := by
    rw [List.filter_eq_self]
    intro m found
    obtain ⟨_,_,_,_,zero⟩ := exists_of_mem_cross found
    rw [inside_iff,zero]
  rw [List.filter_cons,kept]
  split <;> rfl

theorem cut_append_eq (a : V) (l : List V) :
    ∃ s,cut d (a :: l) = s.filter (inside d) ∧ s ++ [a] = a :: spread d a (l ++ [a]) :=
  ⟨_,cut_eq_filter (a :: l),by rw [List.rotate_cons_succ,List.rotate_zero]; exact spread_zip a a l⟩

theorem cut_sublist (a : V) (l : List V) : (cut d (a :: l)).Sublist (a :: spread d a (l ++ [a])) := by
  obtain ⟨s,same,whole⟩ := cut_append_eq (d := d) a l
  rw [same,← whole]
  exact List.filter_sublist.trans (List.sublist_append_left _ _)

theorem changesFrom_spread (f : V →ᵃ[K] K) (a : V) (l : List V) :
    changesFrom (inside f a) ((spread d a l).map (inside f)) = changesFrom (inside f a) (l.map (inside f)) := by
  induction l generalizing a with
  | nil => rfl
  | cons b l ih =>
    rw [spread,List.map_append,List.map_cons,List.map_cons,changesFrom,← ih b]
    generalize found : cross d a b = ms
    have short : ms = [] ∨ ∃ m,ms = [m] := by
      rw [← found,cross]
      split
      · exact .inl rfl
      · exact .inr ⟨_,rfl⟩
    obtain rfl | ⟨m,rfl⟩ := short
    · rfl
    · have member : m ∈ cross d a b := by rw [found]; exact List.mem_singleton_self m
      have between := step_between (inside_segment f (mem_segment_of_mem_cross member))
      rw [← between]
      exact (Nat.add_assoc ..).symm

theorem Balanced.cut (balanced : Balanced K l) (d : V →ᵃ[K] K) : Balanced K (Clipping.cut d l) := by
  intro f
  cases l with
  | nil => exact Nat.zero_le 2
  | cons a l =>
    have closed := changesFrom_closed (balanced f)
    calc changes ((Clipping.cut d (a :: l)).map (inside f))
        ≤ changes ((a :: spread d a (l ++ [a])).map (inside f)) := changes_sublist ((cut_sublist a l).map _)
      _ = changesFrom (inside f a) ((l ++ [a]).map (inside f)) := changesFrom_spread f a (l ++ [a])
      _ ≤ 2 := by rwa [List.map_append]

theorem length_cut_le (balanced : Balanced K l) : (cut d l).length ≤ l.length + 1 := by
  cases l with
  | nil => exact Nat.zero_le _
  | cons a l =>
    obtain ⟨s,same,whole⟩ := cut_append_eq (d := d) a l
    have closed : changesFrom (inside d a) (l.map (inside d) ++ [inside d a]) ≤ 2 := changesFrom_closed (balanced d)
    have size : s.length + 1 = (spread d a (l ++ [a])).length + 1 := by simpa using congrArg List.length whole
    rw [length_spread,List.map_append,List.length_append,List.length_singleton,List.map_singleton] at size
    have kept : (a :: l).Sublist s := by
      rw [← List.append_sublist_append_right [a],whole]
      exact (sublist_spread a (l ++ [a])).cons_cons a
    rw [same,List.length_cons]
    by_cases all : ∀ v ∈ s,inside d v = true
    · have constant : changesFrom (inside d a) (l.map (inside d) ++ [inside d a]) = 0 := by
        refine changesFrom_constant fun b member => ?_
        rw [all a (kept.subset List.mem_cons_self)] at member ⊢
        obtain found | rfl := List.mem_append.mp member |>.imp_right List.mem_singleton.mp
        · obtain ⟨v,inner,rfl⟩ := List.mem_map.mp found
          exact all v (kept.subset (List.mem_cons_of_mem _ inner))
        · rfl
      have fewer := List.length_filter_le (inside d) s
      omega
    · have fewer : (s.filter (inside d)).length < s.length := by
        rw [List.length_filter_lt_length_iff_exists]
        simpa using all
      omega

theorem blend {t u v : K} (low : 0 ≤ t) (high : t ≤ 1) (hu : 0 ≤ u) (hv : 0 ≤ v) : 0 ≤ (1 - t) * u + t * v :=
  add_nonneg (mul_nonneg (sub_nonneg.mpr high) hu) (mul_nonneg low hv)

theorem spread_turn_all (p q a : V) (l : List V) (all : ∀ v ∈ a :: l,0 ≤ turn x y z p q v) :
    ∀ v ∈ a :: spread d a l,0 ≤ turn x y z p q v := by
  induction l generalizing a with
  | nil => exact all
  | cons b l ih =>
    have later := ih b fun v member => all v (List.mem_cons_of_mem _ member)
    intro v member
    simp only [spread,List.mem_cons,List.mem_append] at member
    obtain rfl | new | old := member
    · exact all v List.mem_cons_self
    · obtain ⟨t,rfl,low,high,_⟩ := exists_of_mem_cross new
      rw [turn_third]
      exact blend low high (all a List.mem_cons_self) (later b List.mem_cons_self)
    · exact later v (List.mem_cons.mpr old)

theorem spread_turn_pairwise (p a : V) (l : List V)
    (pairs : (a :: l).Pairwise fun q r => 0 ≤ turn x y z p q r) :
    (a :: spread d a l).Pairwise fun q r => 0 ≤ turn x y z p q r := by
  induction l generalizing a with
  | nil => simp [spread]
  | cons b l ih =>
    obtain ⟨first,rest⟩ := List.pairwise_cons.mp pairs
    have later := ih b rest
    have fromStart : ∀ r ∈ a :: spread d a (b :: l),0 ≤ turn x y z p a r := by
      refine spread_turn_all p a a (b :: l) fun r member => ?_
      obtain rfl | member := List.mem_cons.mp member
      · exact (turn_last p r).ge
      · exact first r member
    refine List.pairwise_cons.mpr ⟨fun r member => fromStart r (List.mem_cons_of_mem _ member),?_⟩
    refine pairwise_cross (fun m new r member => ?_) later
    obtain ⟨t,rfl,low,high,_⟩ := exists_of_mem_cross new
    have fromNext : 0 ≤ turn x y z p b r := by
      obtain rfl | member := List.mem_cons.mp member
      · exact (turn_last p r).ge
      · exact (List.pairwise_cons.mp later).1 r member
    rw [turn_second]
    exact blend low high (fromStart r (List.mem_cons_of_mem _ (List.mem_append_right _ member))) fromNext

theorem spread_left (a : V) (l : List V) (left : Left x y z (a :: l)) : Left x y z (a :: spread d a l) := by
  induction l generalizing a with
  | nil => simp [spread,Left]
  | cons b l ih =>
    obtain ⟨first,rest⟩ := List.triplewise_cons.mp left
    have later := ih b rest
    have pairs (c : V) (us : List V) (inner : us.Pairwise fun q r => 0 ≤ turn x y z c q r) :
        (c :: us).Pairwise fun q r => 0 ≤ turn x y z c q r :=
      List.pairwise_cons.mpr ⟨fun r _ => (turn_self c r).ge,inner⟩
    have fromStart := (List.pairwise_cons.mp (spread_turn_pairwise (d := d) a a (b :: l) (pairs a _ first))).2
    refine List.triplewise_cons.mpr ⟨fromStart,?_⟩
    have fromNext := pairs b _ (List.triplewise_cons.mp later).1
    rw [spread] at fromStart ⊢
    generalize found : cross d a b = ms at fromStart ⊢
    match ms,found with
    | [],_ => exact later
    | [m],found =>
      obtain ⟨t,rfl,low,high,_⟩ := exists_of_mem_cross (d := d) (a := a) (b := b) (m := m) (by rw [found]; simp)
      refine List.triplewise_cons.mpr ⟨?_,later⟩
      have old := (List.pairwise_cons.mp fromStart).2
      refine (old.and fromNext).imp fun both => ?_
      rw [turn_first]
      exact blend low high both.1 both.2
    | _ :: _ :: _,found =>
      unfold cross at found
      split at found <;> simp at found

theorem Left.cut (left : Left x y z l) (d : V →ᵃ[K] K) : Left x y z (Clipping.cut d l) := by
  cases l with
  | nil => exact left
  | cons a l => exact triplewise_sublist (cut_sublist a l) (spread_left a (l ++ [a]) left.close)

omit [LinearOrder K] [IsStrictOrderedRing K] in
theorem eq_of_forall {p q : V} (same : ∀ φ : V →ₗ[K] K,φ p = φ q) : p = q := by
  refine sub_eq_zero.mp ((Module.Basis.ofVectorSpace K V).forall_coord_eq_zero_iff.mp fun i => ?_)
  rw [map_sub,same,sub_self]

theorem mem_segment_of_forall {p q v : V} (bound : ∀ f : V →ᵃ[K] K,0 ≤ f p → 0 ≤ f q → 0 ≤ f v) :
    v ∈ segment K p q := by
  have level (φ : V →ₗ[K] K) (k : K) (hp : φ p = k) (hq : φ q = k) : φ v = k := by
    have above := bound (φ.toAffineMap - AffineMap.const K V k) (by simp [hp]) (by simp [hq])
    have below := bound (AffineMap.const K V k - φ.toAffineMap) (by simp [hp]) (by simp [hq])
    simp only [AffineMap.coe_sub,Pi.sub_apply,LinearMap.coe_toAffineMap,AffineMap.const_apply] at above below
    linarith
  by_cases same : ∀ φ : V →ₗ[K] K,φ p = φ q
  · have ends := eq_of_forall same
    have here : v = p := eq_of_forall fun φ => level φ (φ p) rfl (same φ).symm
    rw [← ends,here]
    exact left_mem_segment K p p
  · push Not at same
    obtain ⟨φ,differ⟩ := same
    have apart : φ q - φ p ≠ 0 := sub_ne_zero.mpr differ.symm
    obtain ⟨f,value⟩ : ∃ f : V →ᵃ[K] K,∀ w,f w = (φ w - φ p) / (φ q - φ p) :=
      ⟨(φ q - φ p)⁻¹ • (φ.toAffineMap - AffineMap.const K V (φ p)),fun w => by simp [div_eq_inv_mul]⟩
    have low : 0 ≤ f v := bound f (by simp [value]) (by rw [value,div_self apart]; exact zero_le_one)
    have high : 0 ≤ (AffineMap.const K V 1 - f : V →ᵃ[K] K) v :=
      bound (AffineMap.const K V 1 - f) (by simp [value]) (by simp [value,div_self apart])
    rw [AffineMap.coe_sub,Pi.sub_apply,AffineMap.const_apply,sub_nonneg] at high
    rw [value] at low high
    set s := (φ v - φ p) / (φ q - φ p) with ratio
    have on : v = AffineMap.lineMap p q s := by
      refine eq_of_forall (K := K) fun ψ => ?_
      have flat := level (ψ - ((ψ q - ψ p) / (φ q - φ p)) • φ) _ rfl (by
        simp only [LinearMap.sub_apply,LinearMap.smul_apply,smul_eq_mul]
        field_simp
        ring)
      rw [lineMap_apply]
      simp only [LinearMap.sub_apply,LinearMap.smul_apply,smul_eq_mul] at flat
      rw [ratio]
      field_simp at flat ⊢
      linear_combination flat
    rw [on]
    exact lineMap_mem_segment K p q ⟨low,high⟩

theorem exists_negative {f : V →ᵃ[K] K} {p q : V} (hp : 0 ≤ d p) (hq : d q < 0) (negative : f (meet d p q) < 0) :
    ∃ μ : K,f p - μ * d p < 0 ∧ f q - μ * d q < 0 := by
  have apart : 0 < d p - d q := by linarith
  rw [meet_value apart.ne',div_neg_iff] at negative
  have low : d p * f q - d q * f p < 0 := by
    obtain ⟨_,bad⟩ | ⟨low,_⟩ := negative
    · exact absurd bad (not_lt.mpr apart.le)
    · exact low
  set N := d p * f q - d q * f p with hN
  have positive : 0 < d p + 1 := by linarith
  refine ⟨(f q - N / (d p + 1)) / d q,?_,?_⟩
  · have scaled : (f p - (f q - N / (d p + 1)) / d q * d p) * -d q = N / (d p + 1) := by
      have nonzero := hq.ne
      field_simp
      rw [hN]
      ring
    by_contra bad
    have nonneg := mul_nonneg (not_lt.mp bad) (neg_nonneg.mpr hq.le)
    rw [scaled] at nonneg
    exact absurd nonneg (not_le.mpr (div_neg_of_neg_of_pos low positive))
  · rw [div_mul_cancel₀ _ hq.ne,sub_sub_cancel]
    exact div_neg_of_neg_of_pos low positive

theorem exists_inner {f : V →ᵃ[K] K} {u v z : V} (edge : [u,v] <:+: a :: (l ++ [z])) (found : m ∈ cross d u v)
    (ha : f a < 0) (hz : f z < 0) (hm : 0 ≤ f m) : ∃ e ∈ l,0 ≤ f e := by
  have ends : ∃ e ∈ [u,v],0 ≤ f e := by
    have here : inside f m = true := (inside_iff f m).mpr hm
    obtain same | same := inside_segment f (mem_segment_of_mem_cross found)
    · exact ⟨u,by simp,(inside_iff f u).mp (same ▸ here)⟩
    · exact ⟨v,by simp,(inside_iff f v).mp (same ▸ here)⟩
  obtain ⟨e,member,he⟩ := ends
  have place := edge.subset member
  simp only [List.mem_cons,List.mem_append,List.not_mem_nil,or_false] at place
  obtain rfl | inner | rfl := place
  · exact absurd he (not_le.mpr ha)
  · exact ⟨e,inner,he⟩
  · exact absurd he (not_le.mpr hz)

theorem meet_mem_hull (balanced : Balanced K l) {p q : V} (hp : p ∈ l) (hq : q ∈ l) (dp : 0 ≤ d p)
    (dq : d q < 0) : meet d p q ∈ convexHull K {v | v ∈ cut d l} := by
  obtain ⟨s,t,rfl⟩ := List.append_of_mem hp
  have other : q ≠ p := by
    rintro rfl
    exact absurd dp (not_le.mpr dq)
  have around : q ∈ t ++ s := by
    simp only [List.mem_append,List.mem_cons,other,false_or] at hq ⊢
    exact hq.symm
  obtain ⟨u,w,split⟩ := List.append_of_mem around
  have turned : (s ++ p :: t).rotate s.length = p :: (u ++ q :: w) := by
    rw [List.rotate_append_length_eq,List.cons_append,split]
  have fair := balanced.rotate s.length
  have same (v : V) : v ∈ cut d (p :: (u ++ q :: w)) ↔ v ∈ cut d (s ++ p :: t) := by
    rw [← turned]
    exact mem_cut_rotate s.length
  rw [turned] at fair
  have apart : inside d p ≠ inside d q := by simp [inside,dp,dq]
  have new {x y : V} (sides : inside d x ≠ inside d y) :
      AffineMap.lineMap x y (d x / (d x - d y)) ∈ cross d x y := by
    rw [cross,if_neg sides]
    exact List.mem_singleton_self _
  obtain ⟨x₁,y₁,edge₁,sides₁,_⟩ := exists_step (inside d) p q u apart
  obtain ⟨x₂,y₂,edge₂,sides₂,_⟩ := exists_step (inside d) q p w apart.symm
  have part₁ : p :: (u ++ [q]) <:+: p :: ((u ++ q :: w) ++ [p]) := ⟨[],w ++ [p],by simp⟩
  have part₂ : q :: (w ++ [p]) <:+: p :: ((u ++ q :: w) ++ [p]) := ⟨p :: u,[],by simp⟩
  have in₁ := (same _).mp (mem_cut_of_mem_cross (edge₁.trans part₁) (new sides₁))
  have in₂ := (same _).mp (mem_cut_of_mem_cross (edge₂.trans part₂) (new sides₂))
  refine segment_subset_convexHull (s := {v | v ∈ cut d (s ++ p :: t)}) in₁ in₂ (mem_segment_of_forall fun f f₁ f₂ => ?_)
  by_contra bad
  obtain ⟨μ,low_p,low_q⟩ := exists_negative dp dq (not_le.mp bad)
  have value (v : V) : (f - μ • d) v = f v - μ * d v := rfl
  have level {x y : V} (sides : inside d x ≠ inside d y) (nonneg : 0 ≤ f (AffineMap.lineMap x y (d x / (d x - d y)))) :
      0 ≤ (f - μ • d) (AffineMap.lineMap x y (d x / (d x - d y))) := by
    obtain ⟨_,_,_,_,zero⟩ := exists_of_mem_cross (new sides)
    rw [value,zero,mul_zero,sub_zero]
    exact nonneg
  obtain ⟨e₁,inner₁,pos₁⟩ := exists_inner edge₁ (new sides₁) low_p low_q (level sides₁ f₁)
  obtain ⟨e₂,inner₂,pos₂⟩ := exists_inner edge₂ (new sides₂) low_q low_p (level sides₂ f₂)
  have sub : [p,e₁,q,e₂].Sublist (p :: (u ++ q :: w)) :=
    ((List.singleton_sublist.mpr inner₁).append ((List.singleton_sublist.mpr inner₂).cons_cons q)).cons_cons p
  have many := (changes_sublist (sub.map (inside (f - μ • d)))).trans (fair (f - μ • d))
  have outside {v : V} (negative : (f - μ • d) v < 0) : inside (f - μ • d) v = false :=
    decide_eq_false (not_le.mpr negative)
  have word : [p,e₁,q,e₂].map (inside (f - μ • d)) = [false,true,false,true] := by
    simp only [List.map_cons,List.map_nil,outside low_p,outside low_q,(inside_iff _ _).mpr pos₁,
      (inside_iff _ _).mpr pos₂]
  rw [word] at many
  exact absurd many (by decide)

theorem convex_meet_left {S : Set V} (convex : Convex K S) {q : V} (dq : d q < 0) :
    Convex K {p | 0 ≤ d p ∧ meet d p q ∈ S} := by
  rintro p ⟨hp,mp⟩ p' ⟨hp',mp'⟩ s t hs ht sum
  have low : 0 < d p - d q := by linarith
  have low' : 0 < d p' - d q := by linarith
  have within : 0 ≤ d (s • p + t • p') := convex_inside d hp hp' hs ht sum
  have total : 0 < s * (d p - d q) + t * (d p' - d q) := by
    rw [← value_combination sum]
    linarith
  refine ⟨within,?_⟩
  rw [meet_combination sum low.ne' low'.ne' total.ne']
  refine convex mp mp' (div_nonneg (mul_nonneg hs low.le) total.le) (div_nonneg (mul_nonneg ht low'.le) total.le) ?_
  rw [← add_div,div_self total.ne']

theorem convex_meet_right {S : Set V} (convex : Convex K S) {p : V} (dp : 0 ≤ d p) :
    Convex K {q | d q < 0 ∧ meet d p q ∈ S} := by
  rintro q ⟨hq,mq⟩ q' ⟨hq',mq'⟩ s t hs ht sum
  have low : d q - d p < 0 := by linarith
  have low' : d q' - d p < 0 := by linarith
  have below : d (s • q + t • q') < 0 := convex_outside d hq hq' hs ht sum
  have total : s * (d q - d p) + t * (d q' - d p) < 0 := by
    rw [← value_combination sum]
    linarith
  refine ⟨below,?_⟩
  rw [meet_symm (by linarith)] at mq mq' ⊢
  rw [meet_combination sum low.ne low'.ne total.ne]
  refine convex mq mq' (div_nonneg_of_nonpos (mul_nonpos_of_nonneg_of_nonpos hs low.le) total.le)
    (div_nonneg_of_nonpos (mul_nonpos_of_nonneg_of_nonpos ht low'.le) total.le) ?_
  rw [← add_div,div_self total.ne]

theorem mem_segment_meet {p q v : V} (dp : 0 ≤ d p) (dq : d q < 0) (between : v ∈ segment K p q) (dv : 0 ≤ d v) :
    v ∈ segment K p (meet d p q) := by
  rw [segment_eq_image_lineMap] at between
  obtain ⟨s,⟨low,_⟩,rfl⟩ := between
  have apart : 0 < d p - d q := by linarith
  rw [AffineMap.apply_lineMap,AffineMap.lineMap_apply_ring] at dv
  have early : s * (d p - d q) ≤ d p := by linear_combination dv
  rcases dp.eq_or_lt with border | dp
  · have start : s = 0 := by
      rw [← border] at early apart
      exact le_antisymm (nonpos_of_mul_nonpos_left early apart) low
    rw [start,AffineMap.lineMap_apply_zero]
    exact left_mem_segment K _ _
  · rw [segment_eq_image_lineMap]
    refine ⟨s * (d p - d q) / d p,⟨by positivity,(div_le_one dp).mpr early⟩,?_⟩
    rw [meet,AffineMap.lineMap_lineMap_right]
    congr 1
    field_simp

theorem hull_cut (balanced : Balanced K l) :
    convexHull K {v | v ∈ cut d l} = convexHull K {v | v ∈ l} ∩ {v | 0 ≤ d v} := by
  apply Set.Subset.antisymm
  · refine convexHull_min ?_ ((convex_convexHull K _).inter (convex_inside d))
    intro v member
    obtain ⟨e,edge,found⟩ := mem_cut.mp member
    have ends := List.of_mem_zip edge
    rw [List.mem_rotate] at ends
    obtain found | found := List.mem_append.mp found
    · split at found
      next kept =>
        obtain rfl := List.mem_singleton.mp found
        exact ⟨subset_convexHull K _ ends.1,(inside_iff d _).mp kept⟩
      next => cases found
    · obtain ⟨_,_,_,_,zero⟩ := exists_of_mem_cross found
      exact ⟨segment_subset_convexHull (s := {v | v ∈ l}) ends.1 ends.2 (mem_segment_of_mem_cross found),zero.ge⟩
  · rintro v ⟨member,dv⟩
    have convex := convex_convexHull K {v | v ∈ cut d l}
    have old : {v | v ∈ l ∧ 0 ≤ d v} ⊆ {v | v ∈ cut d l} := fun p ⟨hp,dp⟩ => mem_cut_of_inside hp dp
    have parts : {v | v ∈ l} = {v | v ∈ l ∧ 0 ≤ d v} ∪ {v | v ∈ l ∧ d v < 0} := by
      ext v
      simp only [Set.mem_ofPred_eq,Set.mem_union,← and_or_left,le_or_gt,and_true]
    rw [parts] at member
    rcases Set.eq_empty_or_nonempty {v | v ∈ l ∧ d v < 0} with none | someOut
    · rw [none,Set.union_empty] at member
      exact convexHull_mono old member
    rcases Set.eq_empty_or_nonempty {v | v ∈ l ∧ 0 ≤ d v} with none | someIn
    · rw [none,Set.empty_union] at member
      have below : d v < 0 := convexHull_min (fun q hq => hq.2) (convex_outside d) member
      exact absurd dv (not_le.mpr below)
    rw [convexHull_union someIn someOut,mem_convexJoin] at member
    obtain ⟨p,hp,q,hq,between⟩ := member
    have left (q : V) (out : q ∈ l ∧ d q < 0) : 0 ≤ d p ∧ meet d p q ∈ convexHull K {v | v ∈ cut d l} := by
      have cover : {p | p ∈ l ∧ 0 ≤ d p} ⊆ {p | 0 ≤ d p ∧ meet d p q ∈ convexHull K {v | v ∈ cut d l}} :=
        fun p inner => ⟨inner.2,meet_mem_hull balanced inner.1 out.1 inner.2 out.2⟩
      exact convexHull_min cover (convex_meet_left convex out.2) hp
    have dp : 0 ≤ d p := (left _ someOut.some_mem).1
    have right : d q < 0 ∧ meet d p q ∈ convexHull K {v | v ∈ cut d l} := by
      have cover : {q | q ∈ l ∧ d q < 0} ⊆ {q | d q < 0 ∧ meet d p q ∈ convexHull K {v | v ∈ cut d l}} :=
        fun q out => ⟨out.2,(left q out).2⟩
      exact convexHull_min cover (convex_meet_right convex dp) hq
    exact convex.segment_subset (convexHull_mono old hp) right.2 (mem_segment_meet dp right.1 between dv)

theorem mem_hull_triangle {a b c v : V} (member : v ∈ convexHull K {u | u ∈ [a,b,c]}) :
    ∃ α β γ : K,0 ≤ α ∧ 0 ≤ β ∧ 0 ≤ γ ∧ α + β + γ = 1 ∧ v = α • a + β • b + γ • c := by
  have convex : Convex K {v | ∃ α β γ : K,0 ≤ α ∧ 0 ≤ β ∧ 0 ≤ γ ∧ α + β + γ = 1 ∧ v = α • a + β • b + γ • c} := by
    rintro _ ⟨α,β,γ,hα,hβ,hγ,one,rfl⟩ _ ⟨α',β',γ',hα',hβ',hγ',one',rfl⟩ s t hs ht sum
    refine ⟨s * α + t * α',s * β + t * β',s * γ + t * γ',by positivity,by positivity,by positivity,?_,by module⟩
    linear_combination s * one + t * one' + sum
  refine convexHull_min ?_ convex member
  intro u corner
  simp only [Set.mem_ofPred_eq,List.mem_cons,List.not_mem_nil,or_false] at corner
  obtain rfl | rfl | rfl := corner
  · exact ⟨1,0,0,by simp⟩
  · exact ⟨0,1,0,by simp⟩
  · exact ⟨0,0,1,by simp⟩

def cutAll (ds : List (V →ᵃ[K] K)) (l : List V) : List V := ds.foldl (fun l d => cut d l) l

omit [IsStrictOrderedRing K] in
theorem cutAll_nil (ds : List (V →ᵃ[K] K)) : cutAll ds [] = [] := by
  induction ds with
  | nil => rfl
  | cons d ds ih => exact ih

theorem Balanced.cutAll (balanced : Balanced K l) (ds : List (V →ᵃ[K] K)) :
    Balanced K (Clipping.cutAll ds l) := by
  induction ds generalizing l with
  | nil => exact balanced
  | cons d ds ih => exact ih (balanced.cut d)

theorem Left.cutAll (left : Left x y z l) (ds : List (V →ᵃ[K] K)) : Left x y z (Clipping.cutAll ds l) := by
  induction ds generalizing l with
  | nil => exact left
  | cons d ds ih => exact ih (left.cut d)

theorem length_cutAll_le (balanced : Balanced K l) (ds : List (V →ᵃ[K] K)) :
    (cutAll ds l).length ≤ l.length + ds.length := by
  induction ds generalizing l with
  | nil => exact le_refl _
  | cons d ds ih =>
    have first := length_cut_le (d := d) balanced
    have later := ih (balanced.cut d)
    change (cutAll ds (cut d l)).length ≤ l.length + (ds.length + 1)
    omega

theorem hull_cutAll (balanced : Balanced K l) (ds : List (V →ᵃ[K] K)) :
    convexHull K {v | v ∈ cutAll ds l} = convexHull K {v | v ∈ l} ∩ {v | ∀ d ∈ ds,0 ≤ d v} := by
  induction ds generalizing l with
  | nil => simp [cutAll]
  | cons d ds ih =>
    change convexHull K {v | v ∈ cutAll ds (cut d l)} = _
    rw [ih (balanced.cut d),hull_cut balanced,Set.inter_assoc]
    congr 1
    ext v
    simp

end Sharko.Library.Clipping
