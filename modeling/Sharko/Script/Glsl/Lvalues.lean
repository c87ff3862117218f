import Mathlib.Data.List.Count
import Sharko.Script.Glsl.Places

/-! Which l-values are evaluated once: those without an index, and those that are only stored to. -/

namespace Sharko.Script.Glsl

open Sharko.Library
open Logged (log stop act look change Ends Total)

variable {m : Machine}

namespace Accessor

def depth? : Accessor m → Option ℕ
  | prop _ => none
  | elem depth _ => some depth

def name? : Accessor m → Option (String ⊕ Int)
  | prop name => some (.inl name)
  | elem _ _ => none

end Accessor

namespace Ref

def depths (ref : Ref m) : List ℕ := ref.path.filterMap Accessor.depth?

def element (ref : Ref m) : Element := ⟨ref.root.getD "undefined",ref.path.filterMap Accessor.name?⟩

end Ref

def Target.isDefined : Target m → Bool
  | var _ | member _ _ => true
  | undefined | memberOfUndefined => false

namespace Place

def base : Place m → Ref m
  | js ref _ => ref
  | swz _ base _ => base
  | col base _ _ _ _ => base

def depths : Place m → List ℕ
  | js ref _ => ref.depths
  | swz _ base _ => base.depths
  | col base depth _ _ _ => base.depths ++ [depth]

def elements : Place m → List Element
  | js ref _ => [ref.element]
  | swz comps base _ => base.element.parts (comps.map Int.ofNat)
  | col _ _ _ _ _ => []

end Place

section evaluation

variable (arg : ℕ)

theorem Target.ends_getValue (target : Target m) :
    Ends target.getValue fun l _ => l = [] ∧ target.isDefined = true := by
  cases target with
  | var x => exact (Logged.ends_look _).mono fun _ _ h => ⟨h,rfl⟩
  | member v key => exact (Logged.ends_look _).mono fun _ _ h => ⟨h,rfl⟩
  | undefined => exact Logged.ends_stop
  | memberOfUndefined => exact Logged.ends_stop

theorem Target.total_getValue {target : Target m} (defined : target.isDefined = true) :
    Total target.getValue := by
  cases target with
  | var x => exact Logged.total_look _
  | member v key => exact Logged.total_look _
  | undefined => cases defined
  | memberOfUndefined => cases defined

theorem Target.ends_putValue (v : m.Value) (target : Target m) :
    Ends (target.putValue v) fun l _ => l = [] ∧ target.isDefined = true := by
  cases target with
  | var x => exact (Logged.ends_change _).mono fun _ _ h => ⟨h,rfl⟩
  | member o key => exact (Logged.ends_change _).mono fun _ _ h => ⟨h,rfl⟩
  | undefined => exact Logged.ends_stop
  | memberOfUndefined => exact Logged.ends_stop

theorem Target.total_putValue {v : m.Value} {target : Target m} (defined : target.isDefined = true) :
    Total (target.putValue v) := by
  cases target with
  | var x => exact Logged.total_change _
  | member o key => exact Logged.total_change _
  | undefined => cases defined
  | memberOfUndefined => cases defined

namespace Accessor

theorem ends_key (a : Accessor m) : Ends (a.key arg) fun l key => l = a.depth?.toList.map (.index arg) ∧
      (a.depth? = none → a.name? = some key) := by
  cases a with
  | prop name =>
    refine Logged.ends_pure.mono ?_
    rintro l key ⟨rfl,rfl⟩
    exact ⟨rfl,fun _ => rfl⟩
  | elem depth js =>
    refine (Logged.ends_log [Event.index arg depth]).bind fun l _ hl => ?_
    refine (Logged.ends_act js).bind fun l' i hl' => Logged.ends_pure.mono ?_
    rintro l'' key ⟨rfl,-⟩
    exact ⟨by simp [hl,hl',depth?],fun h => nomatch h⟩

theorem total_key (a : Accessor m) : Total (a.key arg) := by
  cases a with
  | prop name => exact Logged.total_pure _
  | elem depth js =>
    exact (Logged.total_log _).andThen fun _ => (Logged.total_act _).andThen fun _ => Logged.total_pure _

theorem evaluate_of_defined {b : Target m × Element} (defined : b.1.isDefined = true) (a : Accessor m) :
    a.evaluate arg b = b.1.getValue >>= fun v => a.key arg >>= fun key =>
      Pure.pure (.member v key,⟨b.2.root,b.2.path ++ [key]⟩) := by
  obtain ⟨target,e⟩ := b
  cases target with
  | undefined => cases defined
  | memberOfUndefined => cases defined
  | var x => rfl
  | member v key => rfl

theorem ends_evaluate (a : Accessor m) (b : Target m × Element) :
    Ends (a.evaluate arg b) fun l r => l = a.depth?.toList.map (.index arg) ∧
      (a.depth? = none → r.2 = ⟨b.2.root,b.2.path ++ a.name?.toList⟩) ∧ r.1.isDefined = b.1.isDefined := by
  by_cases defined : b.1.isDefined = true
  · rw [evaluate_of_defined arg defined]
    refine b.1.ends_getValue.bind fun l v hl => (a.ends_key arg).bind fun l' key hl' => ?_
    refine Logged.ends_pure.mono ?_
    rintro l'' r ⟨rfl,rfl⟩
    refine ⟨by simp [hl.1,hl'.1],fun none => ?_,defined.symm⟩
    rw [hl'.2 none]
    rfl
  · obtain ⟨target,e⟩ := b
    cases target with
    | undefined =>
      refine (a.ends_key arg).bind fun l key hl => Logged.ends_pure.mono ?_
      rintro l' r ⟨rfl,rfl⟩
      refine ⟨by simp [hl.1],fun none => ?_,rfl⟩
      rw [hl.2 none]
      rfl
    | memberOfUndefined => exact Logged.ends_stop.bind fun _ _ h => (h : False).elim
    | var x => exact absurd rfl defined
    | member v key => exact absurd rfl defined

theorem total_evaluate (a : Accessor m) {b : Target m × Element} (defined : b.1.isDefined = true) :
    Total (a.evaluate arg b) := by
  rw [evaluate_of_defined arg defined]
  exact (Target.total_getValue defined).andThen fun _ =>
    (a.total_key arg).andThen fun _ => Logged.total_pure _

theorem ends_path (path : List (Accessor m)) (b : Target m × Element) :
    Ends (path.foldlM (Accessor.evaluate arg) b) fun l r => l = (path.filterMap depth?).map (.index arg) ∧
      (path.filterMap depth? = [] → r.2 = ⟨b.2.root,b.2.path ++ path.filterMap name?⟩) ∧
      r.1.isDefined = b.1.isDefined := by
  induction path generalizing b with
  | nil =>
    refine Logged.ends_pure.mono ?_
    rintro l r ⟨rfl,rfl⟩
    exact ⟨rfl,fun _ => by simp,rfl⟩
  | cons a path ih =>
    rw [List.foldlM_cons]
    refine (a.ends_evaluate arg b).bind fun l r ⟨hl,he,hd⟩ => (ih r).mono fun l' r' ⟨hl',he',hd'⟩ => ?_
    have split : (a :: path).filterMap depth? = a.depth?.toList ++ path.filterMap depth? := by
      cases h : a.depth? <;> simp [h]
    have names : (a :: path).filterMap name? = a.name?.toList ++ path.filterMap name? := by
      cases h : a.name? <;> simp [h]
    refine ⟨by rw [hl,hl',split,List.map_append],fun none => ?_,hd'.trans hd⟩
    rw [split,List.append_eq_nil_iff] at none
    rw [he' none.2,he (by simpa using none.1),names,List.append_assoc]

theorem total_path (path : List (Accessor m)) {b : Target m × Element} (defined : b.1.isDefined = true) :
    Total (path.foldlM (Accessor.evaluate arg) b) :=
  Logged.total_foldlM (P := fun b => b.1.isDefined = true) (fun _ a h => a.total_evaluate arg h)
    (fun b a h => (a.ends_evaluate arg b).mono fun _ _ h' => h'.2.2.trans h) path b defined

end Accessor

namespace Ref

theorem start_isDefined (ref : Ref m) : ref.start.1.isDefined = ref.root.isSome := by
  unfold start
  cases ref.root <;> rfl

theorem ends_evaluate (ref : Ref m) : Ends (ref.evaluate arg) fun l r => l = ref.depths.map (.index arg) ∧
      (ref.depths = [] → r.2 = ref.element) ∧ r.1.isDefined = ref.root.isSome := by
  refine (Accessor.ends_path arg ref.path ref.start).mono fun l r ⟨hl,he,hd⟩ => ⟨hl,fun none => ?_,?_⟩
  · rw [he none,element]
    unfold start
    cases ref.root <;> rfl
  · rw [hd,start_isDefined]

theorem total_evaluate {ref : Ref m} (rooted : ref.root.isSome = true) : Total (ref.evaluate arg) :=
  Accessor.total_path arg ref.path (by rw [start_isDefined,rooted])

end Ref

theorem columnKeys_spec (depth : ℕ) (idx : m.State → Int × m.State) (rows : ℕ) :
    Total (columnKeys arg depth idx rows) ∧
      Ends (columnKeys arg depth idx rows) fun l _ => l = [Event.index arg depth] := by
  constructor
  · exact (Logged.total_log _).andThen fun _ => (Logged.total_act _).andThen fun _ => Logged.total_pure _
  · refine (Logged.ends_log [Event.index arg depth]).bind fun l _ hl => ?_
    refine (Logged.ends_act idx).bind fun l' i hl' => Logged.ends_pure.mono ?_
    rintro l'' keys ⟨rfl,-⟩
    simp [hl,hl']

theorem swzKeys_spec (comps : List ℕ) : Total (swzKeys comps : Code m _) ∧
      Ends (swzKeys comps : Code m _) fun l keys => l = [] ∧ keys = comps.map Int.ofNat :=
  ⟨Logged.total_pure _,Logged.ends_pure⟩

theorem swzValue_spec (v : m.Value) (keys : List Int) :
    Total (swzValue v keys) ∧ Ends (swzValue v keys) fun l _ => l = [] := by
  unfold swzValue
  split
  · exact ⟨Logged.total_look _,Logged.ends_look _⟩
  · exact ⟨Logged.total_act _,Logged.ends_act _⟩

theorem ends_readParts (base : Ref m) {keys : Code m (List Int)} {Q : List Event → List Int → Prop}
    (hkeys : Ends keys Q) {result : m.Value → List Int → Code m m.Value}
    (hresult : ∀ v ks,Ends (result v ks) fun l _ => l = []) :
    Ends (readParts arg base keys result) fun l _ => base.root.isSome = true ∧ ∃ lk ks e,Q lk ks ∧
      l = base.depths.map (.index arg) ++ lk ++ (e.parts ks).map (.read arg) ∧
      (base.depths = [] → e = base.element) := by
  refine (base.ends_evaluate arg).bind fun l r ⟨hl,he,hd⟩ => ?_
  refine r.1.ends_getValue.bind fun l₁ v ⟨h₁,hdef⟩ => hkeys.bind fun lk ks hk => ?_
  refine (Logged.ends_log ((r.2.parts ks).map (Event.read arg))).bind fun l₂ _ h₂ => ?_
  refine (hresult v ks).mono fun l₃ _ h₃ => ?_
  exact ⟨by rw [← hd,hdef],lk,ks,r.2,hk,by simp [hl,h₁,h₂,h₃],he⟩

theorem total_readParts {base : Ref m} (rooted : base.root.isSome = true) {keys : Code m (List Int)}
    (hkeys : Total keys) {result : m.Value → List Int → Code m m.Value}
    (hresult : ∀ v ks,Total (result v ks)) : Total (readParts arg base keys result) := by
  refine (Ref.total_evaluate arg rooted).bind (base.ends_evaluate arg) fun l r ⟨_,_,hd⟩ => ?_
  refine (Target.total_getValue (hd.trans rooted)).andThen fun v => hkeys.andThen fun ks => ?_
  exact (Logged.total_log _).andThen fun _ => hresult v ks

theorem ends_storeParts (base : Ref m) {keys : Code m (List Int)} {Q : List Event → List Int → Prop}
    (hkeys : Ends keys Q) {value : Code m m.Value} {V : List Event → m.Value → Prop} (hvalue : Ends value V)
    (part : m.Value → ℕ → m.State → m.Value) :
    Ends (storeParts arg base keys value part) fun l x => base.root.isSome = true ∧ ∃ lk ks lv e,
      Q lk ks ∧ V lv x ∧ l = base.depths.map (.index arg) ++ lk ++ lv ++ (e.parts ks).map (.write arg) ∧
      (base.depths = [] → e = base.element) := by
  refine (base.ends_evaluate arg).bind fun l r ⟨hl,he,hd⟩ => ?_
  refine r.1.ends_getValue.bind fun l₁ v ⟨h₁,hdef⟩ => hkeys.bind fun lk ks hk => ?_
  refine hvalue.bind fun lv x hv => ?_
  refine (Logged.ends_log ((r.2.parts ks).map (Event.write arg))).bind fun l₂ _ h₂ => ?_
  refine (Logged.ends_change _).bind fun l₃ _ h₃ => Logged.ends_pure.mono ?_
  rintro l₄ y ⟨rfl,rfl⟩
  exact ⟨by rw [← hd,hdef],lk,ks,lv,r.2,hk,hv,by simp [hl,h₁,h₂,h₃],he⟩

theorem total_storeParts {base : Ref m} (rooted : base.root.isSome = true) {keys : Code m (List Int)}
    (hkeys : Total keys) {value : Code m m.Value} (hvalue : Total value)
    (part : m.Value → ℕ → m.State → m.Value) : Total (storeParts arg base keys value part) := by
  refine (Ref.total_evaluate arg rooted).bind (base.ends_evaluate arg) fun l r ⟨_,_,hd⟩ => ?_
  refine (Target.total_getValue (hd.trans rooted)).andThen fun v => hkeys.andThen fun ks => ?_
  refine hvalue.andThen fun x => (Logged.total_log _).andThen fun _ => ?_
  exact (Logged.total_change _).andThen fun _ => Logged.total_pure _

theorem ends_placeRead (pl : Place m) : Ends (placeRead arg pl) fun l _ => pl.base.root.isSome = true ∧ ∃ es,
      l = pl.depths.map (.index arg) ++ es.map (.read arg) ∧ (pl.depths = [] → es = pl.elements) := by
  cases pl with
  | js ref t =>
    refine (ref.ends_evaluate arg).bind fun l r ⟨hl,he,hd⟩ => ?_
    refine (Logged.ends_log [Event.read arg r.2]).bind fun l₁ _ h₁ => ?_
    refine r.1.ends_getValue.mono fun l₂ v ⟨h₂,hdef⟩ => ?_
    exact ⟨hd.symm.trans hdef,[r.2],by simp [hl,h₁,h₂,Place.depths],fun none => by
      rw [he none,Place.elements]⟩
  | swz comps base t =>
    refine (ends_readParts arg base (swzKeys_spec comps).2 fun v ks => (swzValue_spec v ks).2).mono ?_
    rintro l v ⟨rooted,lk,ks,e,⟨rfl,rfl⟩,hl,he⟩
    exact ⟨rooted,_,by rw [hl,List.append_nil]; rfl,fun none => by rw [he none,Place.elements]⟩
  | col base depth idx rows t =>
    refine (ends_readParts arg base (columnKeys_spec arg depth idx rows).2 fun v ks =>
      Logged.ends_act _).mono ?_
    rintro l v ⟨rooted,lk,ks,e,rfl,hl,-⟩
    exact ⟨rooted,_,by rw [hl,Place.depths,List.map_append]; rfl,fun none => by simp [Place.depths] at none⟩

theorem total_placeRead {pl : Place m} (rooted : pl.base.root.isSome = true) : Total (placeRead arg pl) := by
  cases pl with
  | js ref t =>
    refine (Ref.total_evaluate arg rooted).bind (ref.ends_evaluate arg) fun l r ⟨_,_,hd⟩ => ?_
    exact (Logged.total_log _).andThen fun _ => Target.total_getValue (hd.trans rooted)
  | swz comps base t =>
    exact total_readParts arg rooted (swzKeys_spec comps).1 fun v ks => (swzValue_spec v ks).1
  | col base depth idx rows t =>
    exact total_readParts arg rooted (columnKeys_spec arg depth idx rows).1 fun v ks => Logged.total_act _

theorem ends_storeTo {pl : Place m} {value store : Code m m.Value} {valueType : String}
    (accepted : storeTo arg pl value valueType = some store) {V : List Event → m.Value → Prop}
    (hvalue : Ends value V) : Ends store fun l x => pl.base.root.isSome = true ∧ ∃ lv es,V lv x ∧
      l = pl.depths.map (.index arg) ++ lv ++ es.map (.write arg) ∧ (pl.depths = [] → es = pl.elements) := by
  unfold storeTo at accepted
  split_ifs at accepted with same
  obtain rfl := Option.some.inj accepted
  have swizzled (comps : List ℕ) (base : Ref m) (t : String) (part : m.Value → ℕ → m.State → m.Value) :
      Ends (storeParts arg base (swzKeys comps) value part) fun l x =>
        (Place.swz comps base t).base.root.isSome = true ∧ ∃ lv es,V lv x ∧
        l = (Place.swz comps base t).depths.map (.index arg) ++ lv ++ es.map (.write arg) ∧
        ((Place.swz comps base t).depths = [] → es = (Place.swz comps base t).elements) := by
    refine (ends_storeParts arg base (swzKeys_spec comps).2 hvalue part).mono ?_
    rintro l x ⟨rooted,lk,ks,lv,e,⟨rfl,rfl⟩,hv,hl,he⟩
    exact ⟨rooted,lv,_,hv,by rw [hl,List.append_nil]; rfl,fun none => by rw [he none,Place.elements]⟩
  split
  · rename_i ref t
    refine (ref.ends_evaluate arg).bind fun l r ⟨hl,he,hd⟩ => hvalue.bind fun lv x hv => ?_
    refine (Logged.ends_log [Event.write arg r.2]).bind fun l₁ _ h₁ => ?_
    refine (r.1.ends_putValue x).bind fun l₂ _ ⟨h₂,hdef⟩ => Logged.ends_pure.mono ?_
    rintro l₃ y ⟨rfl,rfl⟩
    exact ⟨hd.symm.trans hdef,lv,[r.2],hv,by simp [hl,h₁,h₂,Place.depths],fun none => by
      rw [he none,Place.elements]⟩
  · exact swizzled _ _ _ _
  · exact swizzled _ _ _ _
  · rename_i base depth idx rows t
    refine (ends_storeParts arg base (columnKeys_spec arg depth idx rows).2 hvalue _).mono ?_
    rintro l x ⟨rooted,lk,ks,lv,e,rfl,hv,hl,-⟩
    exact ⟨rooted,lv,_,hv,by rw [hl,Place.depths,List.map_append]; rfl,fun none => by
      simp [Place.depths] at none⟩

theorem total_storeTo {pl : Place m} {value store : Code m m.Value} {valueType : String}
    (accepted : storeTo arg pl value valueType = some store) (rooted : pl.base.root.isSome = true)
    (hvalue : Total value) : Total store := by
  unfold storeTo at accepted
  split_ifs at accepted with same
  obtain rfl := Option.some.inj accepted
  split
  · rename_i ref t
    refine (Ref.total_evaluate arg rooted).bind (ref.ends_evaluate arg) fun l r ⟨_,_,hd⟩ => ?_
    refine hvalue.andThen fun x => (Logged.total_log _).andThen fun _ => ?_
    exact (Target.total_putValue (hd.trans rooted)).andThen fun _ => Logged.total_pure _
  · exact total_storeParts arg rooted (swzKeys_spec _).1 hvalue _
  · exact total_storeParts arg rooted (swzKeys_spec _).1 hvalue _
  · exact total_storeParts arg rooted (columnKeys_spec arg _ _ _).1 hvalue _

end evaluation

section places

variable (scope : Scope)

def Expr.isColumn : Expr m → Bool
  | .index e _ =>
    match (e.exprType scope).bind scope.info with
    | some (.mat _ _) => true
    | _ => false
  | _ => false

def Expr.throughColumn : Expr m → Bool
  | .id _ => false
  | .field e _ => e.throughColumn
  | .index e _ => e.throughColumn || e.isColumn scope

theorem Expr.indices_of_throughColumn {e : Expr m} (through : e.throughColumn scope = true) :
    e.indices ≠ 0 := by
  induction e with
  | id name => cases through
  | field e name ih => exact ih through
  | index e i ih => exact Nat.succ_ne_zero _

variable {scope}

def Place.isCol : Place m → Bool
  | .col _ _ _ _ _ => true
  | _ => false

structure Placed (scope : Scope) (e : Expr m) (pl : Place m) : Prop where
  root : pl.base.root.isSome = !e.throughColumn scope
  depths : e.throughColumn scope = false → pl.depths = List.range e.indices
  column : pl.isCol = e.isColumn scope

theorem Placed.text {e : Expr m} {bp : Place m} (placed : Placed scope e bp)
    (notSwz : ∀ comps base t,bp ≠ .swz comps base t) :
    (bp.text.root.isSome = !(e.throughColumn scope || e.isColumn scope)) ∧
      ((e.throughColumn scope || e.isColumn scope) = false → bp.text.depths = List.range e.indices) := by
  cases bp with
  | swz comps base t => exact absurd rfl (notSwz comps base t)
  | js ref t =>
    have column : e.isColumn scope = false := placed.column.symm
    rw [column,Bool.or_false]
    exact ⟨placed.root,placed.depths⟩
  | col base depth idx rows t =>
    have column : e.isColumn scope = true := placed.column.symm
    rw [column,Bool.or_true]
    exact ⟨rfl,fun h => nomatch h⟩

theorem place_id {name : String} {pl : Place m} (accepted : place scope (.id name) = some pl) :
    Placed scope (.id name) pl := by
  simp only [place,Option.bind_eq_bind,Option.bind_eq_some_iff] at accepted
  obtain ⟨r,-,accepted⟩ := accepted
  split at accepted
  · cases accepted
  obtain rfl := Option.some.inj accepted
  refine ⟨rfl,fun _ => ?_,rfl⟩
  cases hb : r.box <;> simp [Place.depths,Ref.depths,Accessor.depth?,Expr.indices]

theorem place_field {e : Expr m} {name : String} {pl : Place m}
    (ih : ∀ {bp},place scope e = some bp → Placed scope e bp)
    (accepted : place scope (.field e name) = some pl) : Placed scope (.field e name) pl := by
  rw [place] at accepted
  split at accepted
  · simp only [Option.bind_eq_bind,Option.bind_eq_some_iff] at accepted
    obtain ⟨t,-,bp,hbp,accepted⟩ := accepted
    cases bp with
    | js ref t' =>
      obtain rfl := Option.some.inj accepted
      refine ⟨(ih hbp).root,fun through => ?_,rfl⟩
      rw [Place.depths,Ref.depths,List.filterMap_append]
      exact (List.append_nil _).trans ((ih hbp).depths through)
    | swz comps base t' => cases accepted
    | col base depth idx rows t' => cases accepted
  · simp only [Option.bind_eq_bind,Option.bind_eq_some_iff] at accepted
    obtain ⟨sw,-,accepted⟩ := accepted
    split at accepted
    · cases accepted
    simp only [Option.bind_eq_some_iff] at accepted
    obtain ⟨bp,hbp,accepted⟩ := accepted
    cases bp with
    | js ref t' =>
      obtain rfl := Option.some.inj accepted
      exact ⟨(ih hbp).root,(ih hbp).depths,rfl⟩
    | swz comps base t' => cases accepted
    | col base depth idx rows t' => cases accepted
  · cases accepted

theorem place_index {e : Expr m} {i : Index m} {pl : Place m}
    (ih : ∀ {bp},place scope e = some bp → Placed scope e bp)
    (accepted : place scope (.index e i) = some pl) : Placed scope (.index e i) pl := by
  rw [place] at accepted
  split_ifs at accepted with integer
  simp only [Option.bind_eq_bind,Option.bind_eq_some_iff] at accepted
  obtain ⟨bp,hbp,accepted⟩ := accepted
  split at accepted
  · cases accepted
  rename_i notSwz
  obtain ⟨root,depths⟩ := (ih hbp).text notSwz
  have extended (through : (Expr.index e i).throughColumn scope = false) (t : String) :
      (Place.js ⟨bp.text.root,bp.text.path ++ [.elem e.indices i.js]⟩ t : Place m).depths =
        List.range (Expr.index e i).indices := by
    rw [Place.depths,Ref.depths,List.filterMap_append,Expr.indices,List.range_succ,← depths through]
    rfl
  split at accepted
  · rename_i eq
    obtain rfl := Option.some.inj accepted
    exact ⟨root,fun through => extended through _,by rw [Expr.isColumn,eq]; rfl⟩
  · rename_i eq
    obtain rfl := Option.some.inj accepted
    exact ⟨root,fun through => extended through _,by rw [Expr.isColumn,eq]; rfl⟩
  · rename_i eq
    obtain rfl := Option.some.inj accepted
    refine ⟨root,fun through => ?_,by rw [Expr.isColumn,eq]; rfl⟩
    rw [Place.depths,depths through,Expr.indices,List.range_succ]
  · cases accepted

theorem place_spec {e : Expr m} {pl : Place m} (accepted : place scope e = some pl) : Placed scope e pl := by
  induction e generalizing pl with
  | id name => exact place_id accepted
  | field e name ih => exact place_field ih accepted
  | index e i ih => exact place_index ih accepted

end places

section operators

theorem count_index (arg d : ℕ) (depths : List ℕ) :
    (depths.map (Event.index arg)).count (.index arg d) = depths.count d :=
  List.count_map_of_injective _ _ (fun _ _ h => by injection h) _

/-- What an operator logs: the indices before its store, and reads and writes of the same parts. -/
structure Updates (pl : Place m) (l : List Event) (times : ℕ) : Prop where
  rooted : pl.base.root.isSome = true
  count : ∀ d,l.count (.index 0 d) = times * pl.depths.count d
  own : ∀ j e,Event.read j e ∈ l → j = 0
  read : pl.depths = [] → ∀ e,Event.read 0 e ∈ l ↔ e ∈ pl.elements
  write : pl.depths = [] → ∀ e,Event.write 0 e ∈ l ↔ e ∈ pl.elements

variable {scope : Scope} {pl : Place m}

theorem ends_value {f : m.Value → Code m m.Value} (hf : ∀ cur,Ends (f cur) fun l _ => l = []) :
    Ends (placeRead 0 pl >>= f) fun l _ => pl.base.root.isSome = true ∧ ∃ es,
      l = pl.depths.map (.index 0) ++ es.map (.read 0) ∧ (pl.depths = [] → es = pl.elements) := by
  refine (ends_placeRead 0 pl).bind fun l cur ⟨rooted,es,hl,he⟩ => (hf cur).mono fun l' _ hl' => ?_
  exact ⟨rooted,es,by rw [hl,hl',List.append_nil],he⟩

theorem ends_update {value store : Code m m.Value} {valueType : String}
    (accepted : storeTo 0 pl value valueType = some store)
    (hvalue : Ends value fun l _ => pl.base.root.isSome = true ∧ ∃ es,
      l = pl.depths.map (.index 0) ++ es.map (.read 0) ∧ (pl.depths = [] → es = pl.elements)) :
    Ends store fun l _ => Updates pl l 2 := by
  refine (ends_storeTo 0 accepted hvalue).mono ?_
  rintro l x ⟨rooted,lv,ws,⟨-,rs,rfl,hr⟩,rfl,hw⟩
  refine ⟨rooted,fun d => ?_,fun j e => ?_,fun none e => ?_,fun none e => ?_⟩
  · have reads : (rs.map (Event.read 0)).count (.index 0 d) = 0 := by simp [List.count_eq_zero]
    have writes : (ws.map (Event.write 0)).count (.index 0 d) = 0 := by simp [List.count_eq_zero]
    simp only [List.count_append,count_index,reads,writes]
    omega
  · simp
    omega
  · simp [hr none]
  · simp [hw none]

theorem Updates.post {l l' : List Event} {rs : List Element} (h : Updates pl l' 2)
    (hl : l = pl.depths.map (.index 0) ++ rs.map (.read 0)) (hr : pl.depths = [] → rs = pl.elements) :
    Updates pl (l ++ l') 3 := by
  refine ⟨h.rooted,fun d => ?_,fun j e mem => ?_,fun none e => ?_,fun none e => ?_⟩
  · have reads : (rs.map (Event.read 0)).count (.index 0 d) = 0 := by simp [List.count_eq_zero]
    simp only [hl,List.count_append,count_index,reads,h.count]
    omega
  · rcases List.mem_append.mp mem with mem | mem
    · simp [hl] at mem
      exact mem.2.symm
    · exact h.own j e mem
  · rw [List.mem_append,h.read none]
    simp [hl,hr none]
  · rw [List.mem_append,h.write none]
    simp [hl]

theorem once_iff_of_updates {e : Expr m} (placed : Placed scope e pl) {code : Code m m.Value} {times : ℕ}
    (again : times ≠ 1) (updates : Ends code fun l _ => Updates pl l times)
    (total : pl.base.root.isSome = true → Total code) (s : m.State) :
    Once code (fun j => if j = 0 then e.indices else 0) s ↔ e.indices = 0 := by
  constructor
  · rintro ⟨ended,counts,-⟩
    by_contra indexed
    obtain ⟨⟨v,t⟩,ends⟩ := Option.isSome_iff_exists.mp ended
    have updated := updates s v t ends
    have root := placed.root
    rw [updated.rooted] at root
    have depths := placed.depths (by simpa using root.symm)
    have once := counts 0 0 (Nat.pos_of_ne_zero indexed)
    have first : (List.range e.indices).count 0 = 1 :=
      List.count_eq_one_of_mem List.nodup_range (List.mem_range.mpr (by omega))
    rw [updated.count,depths,first,Nat.mul_one] at once
    exact again once
  · intro none
    have direct : e.throughColumn scope = false := by
      rw [Bool.eq_false_iff]
      exact fun through => e.indices_of_throughColumn scope through none
    have depths : pl.depths = [] := by rw [placed.depths direct,none,List.range_zero]
    have rooted : pl.base.root.isSome = true := by rw [placed.root,direct,Bool.not_false]
    have ended := total rooted s
    obtain ⟨⟨v,t⟩,ends⟩ := Option.isSome_iff_exists.mp ended
    have updated := updates s v t ends
    refine ⟨ended,fun j d less => ?_,fun j ⟨e',read⟩ e => ?_⟩
    · simp [none] at less
    · rw [updated.own j e' read,updated.read depths,updated.write depths]

theorem genCompound_spec {e : Expr m} {rhs : m.State → m.Value × m.State}
    {binary : m.Value → m.Value → m.State → m.Value × m.State} {t : String} {code : Code m m.Value}
    (accepted : genCompound scope e rhs binary t = some code) :
    ∃ pl,place scope e = some pl ∧ (Ends code fun l _ => Updates pl l 2) ∧
      (pl.base.root.isSome = true → Total code) := by
  simp only [genCompound,Option.bind_eq_bind,Option.bind_eq_some_iff] at accepted
  obtain ⟨pl,hpl,accepted⟩ := accepted
  refine ⟨pl,hpl,ends_update accepted (ends_value fun cur => ?_),fun rooted => ?_⟩
  · refine (Logged.ends_act rhs).bind fun l r hl => (Logged.ends_act _).mono fun l' _ hl' => ?_
    rw [hl,hl',List.append_nil]
  · exact total_storeTo 0 accepted rooted ((total_placeRead 0 rooted).andThen fun _ =>
      (Logged.total_act _).andThen fun _ => Logged.total_act _)

theorem genPre_spec {e : Expr m} {binary : m.Value → m.State → m.Value × m.State} {code : Code m m.Value}
    (accepted : genPre scope e binary = some code) :
    ∃ pl,place scope e = some pl ∧ (Ends code fun l _ => Updates pl l 2) ∧
      (pl.base.root.isSome = true → Total code) := by
  simp only [genPre,Option.bind_eq_bind,Option.bind_eq_some_iff] at accepted
  obtain ⟨pl,hpl,accepted⟩ := accepted
  split_ifs at accepted with numeric
  refine ⟨pl,hpl,ends_update accepted (ends_value fun cur => Logged.ends_act _),fun rooted => ?_⟩
  exact total_storeTo 0 accepted rooted ((total_placeRead 0 rooted).andThen fun _ => Logged.total_act _)

theorem keep_spec (t : String) (cur : m.Value) :
    Total (keep scope t cur) ∧ Ends (keep scope t cur) fun l _ => l = [] := by
  unfold keep
  split
  · exact ⟨Logged.total_act _,Logged.ends_act _⟩
  · exact ⟨Logged.total_pure _,Logged.ends_pure.mono fun _ _ h => h.1⟩

theorem genPost_spec {e : Expr m} {binary : m.Value → m.State → m.Value × m.State} {temp : String}
    {code : Code m m.Value} (accepted : genPost scope e binary temp = some code) :
    ∃ pl,place scope e = some pl ∧ (Ends code fun l _ => Updates pl l 3) ∧
      (pl.base.root.isSome = true → Total code) := by
  simp only [genPost,Option.bind_eq_bind,Option.bind_eq_some_iff] at accepted
  obtain ⟨pl,hpl,accepted⟩ := accepted
  split at accepted
  · cases accepted
  simp only [Option.bind_eq_some_iff] at accepted
  obtain ⟨store,hstore,accepted⟩ := accepted
  obtain rfl := Option.some.inj accepted
  refine ⟨pl,hpl,?_,fun rooted => ?_⟩
  · refine (ends_placeRead 0 pl).bind fun l cur ⟨_,rs,hl,hr⟩ => (keep_spec _ cur).2.bind fun l₁ v h₁ => ?_
    refine (Logged.ends_change _).bind fun l₂ _ h₂ => ?_
    refine (ends_update hstore (ends_value fun cur => Logged.ends_act _)).bind fun l₃ _ h₃ => ?_
    refine (Logged.ends_look _).mono fun l₄ _ h₄ => ?_
    rw [h₁,h₂,h₄,List.nil_append,List.nil_append,List.append_nil]
    exact h₃.post hl hr
  · refine (total_placeRead 0 rooted).andThen fun cur => (keep_spec _ cur).1.andThen fun _ => ?_
    refine (Logged.total_change _).andThen fun _ => ?_
    refine (total_storeTo 0 hstore rooted ?_).andThen fun _ => Logged.total_look _
    exact (total_placeRead 0 rooted).andThen fun _ => Logged.total_act _

end operators

end Sharko.Script.Glsl
