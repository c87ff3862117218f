import Sharko.Script.Glsl.Lvalues

/-! The arguments of a call that are l-values: an `inout` is read before the call and stored to behind it,
an `out` only stored to. -/

namespace Sharko.Script.Glsl

open Sharko.Library
open Logged (log stop act look change Ends Total)

variable {m : Machine} {scope : Scope}

def Event.arg : Event → ℕ
  | index arg _ | read arg _ | write arg _ => arg

structure Touches (pl : Place m) (j : ℕ) (touch : ℕ → Element → Event) (l : List Event) : Prop where
  rooted : pl.base.root.isSome = true
  log : ∃ es,l = pl.depths.map (.index j) ++ es.map (touch j) ∧ (pl.depths = [] → es = pl.elements)

namespace Touches

variable {pl : Place m} {j : ℕ} {touch : ℕ → Element → Event} {l : List Event}

theorem arg (touches : Touches pl j touch l) (own : ∀ e,(touch j e).arg = j) : ∀ ev ∈ l,ev.arg = j := by
  obtain ⟨es,rfl,-⟩ := touches.log
  intro ev mem
  simp only [List.mem_append,List.mem_map] at mem
  rcases mem with ⟨d,-,rfl⟩ | ⟨e,-,rfl⟩
  · rfl
  · exact own e

theorem count (touches : Touches pl j touch l) (d : ℕ) (other : ∀ e,touch j e ≠ .index j d) :
    l.count (.index j d) = pl.depths.count d := by
  obtain ⟨es,rfl,-⟩ := touches.log
  have rest : (es.map (touch j)).count (.index j d) = 0 := by simp [List.count_eq_zero,other]
  rw [List.count_append,count_index,rest,Nat.add_zero]

theorem count_touch (touches : Touches pl j touch l) (none : pl.depths = []) (ev : Event) :
    l.count ev = (pl.elements.map (touch j)).count ev := by
  obtain ⟨es,rfl,he⟩ := touches.log
  rw [none,he none,List.map_nil,List.nil_append]

theorem count_other (touches : Touches pl j touch l) {ev : Event} (index : ∀ d,ev ≠ .index j d)
    (other : ∀ e,ev ≠ touch j e) : l.count ev = 0 := by
  obtain ⟨es,rfl,-⟩ := touches.log
  rw [List.count_eq_zero,List.mem_append,List.mem_map,List.mem_map]
  rintro (⟨d,-,eq⟩ | ⟨e,-,eq⟩)
  · exact index d eq.symm
  · exact other e eq.symm

end Touches

structure Silent {α : Type} (x : Code m α) : Prop where
  total : Total x
  ends : Ends x fun l _ => l = []

theorem silent_pure {α : Type} (a : α) : Silent (Pure.pure a : Code m α) :=
  ⟨Logged.total_pure _,Logged.ends_pure.mono fun _ _ h => h.1⟩

theorem silent_act {α : Type} (f : m.State → α × m.State) : Silent (act f : Code m α) :=
  ⟨Logged.total_act _,Logged.ends_act _⟩

theorem Silent.bind {α β : Type} {x : Code m α} {f : α → Code m β} (hx : Silent x)
    (hf : ∀ a,Silent (f a)) : Silent (x >>= f) := by
  refine ⟨hx.total.andThen fun a => (hf a).total,hx.ends.bind fun l a hl => (hf a).ends.mono ?_⟩
  intro l' b hl'
  rw [hl,hl',List.append_nil]

theorem Silent.count {α : Type} {x : Code m α} (hx : Silent x) (ev : Event) :
    Ends x fun l _ => l.count ev = 0 :=
  hx.ends.mono fun l a hl => by rw [hl,List.count_nil]

namespace Arg

structure Boxed (scope : Scope) (e : Expr m) (j : ℕ) (p : Part m) (before : Place m → Code m m.Value)
    (pl : Place m) : Prop where
  place : place scope e = some pl
  placed : Placed scope e pl
  pre : ∃ tmp,p.pre = before pl >>= fun v => act (m.box v) >>= fun b => change (m.write tmp b)
  js : Silent p.js
  post : Ends p.post fun l _ => Touches pl j .write l
  postTotal : pl.base.root.isSome = true → Total p.post

theorem part_boxed {e : Expr m} {t : String} {before : Place m → Code m m.Value} {j : ℕ} {p : Part m}
    (accepted : Arg.part.boxed scope j e t before = some p) : ∃ pl,Boxed scope e j p before pl := by
  simp only [Arg.part.boxed,Option.bind_eq_bind,Option.bind_eq_some_iff] at accepted
  obtain ⟨pl,hpl,store,hstore,accepted⟩ := accepted
  obtain rfl := Option.some.inj accepted
  refine ⟨pl,hpl,place_spec hpl,⟨_,rfl⟩,silent_act _,?_,fun rooted => ?_⟩
  · refine (ends_storeTo j hstore (Logged.ends_look _)).bind fun l x h => Logged.ends_pure.mono ?_
    rintro l' _ ⟨rfl,-⟩
    obtain ⟨rooted,lv,es,rfl,rfl,he⟩ := h
    exact ⟨rooted,es,by simp,he⟩
  · exact (total_storeTo j hstore rooted (Logged.total_look _)).andThen fun _ => Logged.total_pure _

theorem part_inn {js : m.State → m.Value × m.State} {j : ℕ} {p : Part m}
    (accepted : (Arg.inn js).part scope j = some p) : Silent p.pre ∧ Silent p.js ∧ Silent p.post := by
  obtain rfl := Option.some.inj accepted
  exact ⟨silent_pure _,silent_act _,silent_pure _⟩

theorem part_out {e : Expr m} {t : String} {zero : m.State → m.Value × m.State} {j : ℕ} {p : Part m}
    (accepted : (Arg.out e t zero).part scope j = some p) :
    ∃ pl,Boxed scope e j p (fun _ => act zero) pl ∧ Silent p.pre := by
  obtain ⟨pl,boxed⟩ := part_boxed accepted
  obtain ⟨tmp,pre⟩ := boxed.pre
  refine ⟨pl,boxed,?_⟩
  rw [pre]
  exact (silent_act _).bind fun _ => (silent_act _).bind fun _ => silent_act _

theorem part_inout {e : Expr m} {t : String} {j : ℕ} {p : Part m}
    (accepted : (Arg.inout e t).part scope j = some p) :
    ∃ pl,Boxed scope e j p (fun pl => placeRead j pl >>= fun cur => act (m.cp cur)) pl ∧
      (Ends p.pre fun l _ => Touches pl j .read l) ∧ (pl.base.root.isSome = true → Total p.pre) := by
  obtain ⟨pl,boxed⟩ := part_boxed accepted
  obtain ⟨tmp,pre⟩ := boxed.pre
  have rest (cur : m.Value) : Silent (act (m.cp cur) >>= fun v => act (m.box v) >>= fun b =>
      change (m.write tmp b) : Code m Unit) :=
    (silent_act _).bind fun _ => (silent_act _).bind fun _ => silent_act _
  have pre' : p.pre = placeRead j pl >>= fun cur => act (m.cp cur) >>= fun v => act (m.box v) >>= fun b =>
      change (m.write tmp b) := by rw [pre,bind_assoc]
  refine ⟨pl,boxed,?_,fun rooted => ?_⟩
  · rw [pre']
    refine (ends_placeRead j pl).bind fun l cur ⟨rooted,es,hl,he⟩ => (rest cur).ends.mono fun l' _ hl' => ?_
    exact ⟨rooted,es,by rw [hl,hl',List.append_nil],he⟩
  · rw [pre']
    exact (total_placeRead j rooted).andThen fun cur => (rest cur).total

theorem part_arg {a : Arg m} {j : ℕ} {p : Part m} (accepted : a.part scope j = some p) :
    (Ends p.pre fun l _ => ∀ ev ∈ l,ev.arg = j) ∧ Silent p.js ∧ Ends p.post fun l _ => ∀ ev ∈ l,ev.arg = j := by
  have silent {x : Code m Unit} (h : Silent x) : Ends x fun l _ => ∀ ev ∈ l,ev.arg = j :=
    h.ends.mono fun l _ hl ev mem => by simp [hl] at mem
  cases a with
  | inn js =>
    obtain ⟨pre,js,post⟩ := part_inn accepted
    exact ⟨silent pre,js,silent post⟩
  | out e t zero =>
    obtain ⟨pl,boxed,pre⟩ := part_out accepted
    exact ⟨silent pre,boxed.js,boxed.post.mono fun _ _ h => h.arg fun _ => rfl⟩
  | inout e t =>
    obtain ⟨pl,boxed,pre,-⟩ := part_inout accepted
    exact ⟨pre.mono fun _ _ h => h.arg fun _ => rfl,boxed.js,boxed.post.mono fun _ _ h => h.arg fun _ => rfl⟩

end Arg

section parts

variable {args : List (Arg m)} {parts : List (Part m)} {k : ℕ}

theorem parts_cons {a : Arg m}
    (accepted : (((a :: args).zipIdx k).mapM fun x => x.1.part scope x.2) = some parts) :
    ∃ p rest,a.part scope k = some p ∧ ((args.zipIdx (k + 1)).mapM fun x => x.1.part scope x.2) = some rest ∧
      parts = p :: rest := by
  rw [List.zipIdx_cons,List.mapM_cons] at accepted
  simp only [Option.bind_eq_bind,Option.bind_eq_some_iff] at accepted
  obtain ⟨p,hp,rest,hrest,accepted⟩ := accepted
  exact ⟨p,rest,hp,hrest,(Option.some.inj accepted).symm⟩

theorem part_of_arg (accepted : ((args.zipIdx k).mapM fun x => x.1.part scope x.2) = some parts) {i : ℕ}
    {a : Arg m} (ha : args[i]? = some a) : ∃ p ∈ parts,a.part scope (k + i) = some p := by
  induction args generalizing k parts i with
  | nil => simp at ha
  | cons b args ih =>
    obtain ⟨p,rest,hp,hrest,rfl⟩ := parts_cons accepted
    cases i with
    | zero =>
      obtain rfl : b = a := by simpa using ha
      exact ⟨p,List.mem_cons_self,hp⟩
    | succ i =>
      obtain ⟨p',mem,hp'⟩ := ih hrest (i := i) (by simpa using ha)
      exact ⟨p',List.mem_cons_of_mem _ mem,by rw [← hp',Nat.add_right_comm,Nat.add_assoc]⟩

theorem arg_of_part (accepted : ((args.zipIdx k).mapM fun x => x.1.part scope x.2) = some parts) {p : Part m}
    (mem : p ∈ parts) : ∃ (i : ℕ) (a : Arg m),args[i]? = some a ∧ a.part scope (k + i) = some p := by
  induction args generalizing k parts with
  | nil =>
    obtain rfl := Option.some.inj accepted
    cases mem
  | cons b args ih =>
    obtain ⟨p',rest,hp,hrest,rfl⟩ := parts_cons accepted
    rcases List.mem_cons.mp mem with rfl | mem
    · exact ⟨0,b,rfl,hp⟩
    · obtain ⟨i,a,ha,hp'⟩ := ih hrest mem
      exact ⟨i + 1,a,by simpa using ha,by rw [← hp',Nat.add_right_comm,Nat.add_assoc]⟩

theorem ends_parts {sel : Part m → Code m Unit} {ev : Event} {c : ℕ}
    (accepted : ((args.zipIdx k).mapM fun x => x.1.part scope x.2) = some parts)
    (arg : ∀ {a : Arg m} {j p},a.part scope j = some p → Ends (sel p) fun l _ => ∀ ev ∈ l,ev.arg = j)
    (own : ∀ (i : ℕ) (a : Arg m) p,args[i]? = some a → a.part scope (k + i) = some p → k + i = ev.arg →
      Ends (sel p) fun l _ => l.count ev = c) : Ends (parts.mapM sel) fun l _ =>
      l.count ev = if k ≤ ev.arg ∧ ev.arg < k + args.length then c else 0 := by
  induction args generalizing k parts with
  | nil =>
    obtain rfl := Option.some.inj accepted
    refine Logged.ends_pure.mono fun l _ hl => ?_
    rw [hl.1,if_neg (by simp),List.count_nil]
  | cons b args ih =>
    obtain ⟨p,rest,hp,hrest,rfl⟩ := parts_cons accepted
    have first : Ends (sel p) fun l _ => l.count ev = if k = ev.arg then c else 0 := by
      by_cases h : k = ev.arg
      · rw [if_pos h]
        exact own 0 b p rfl hp h
      · rw [if_neg h]
        exact (arg hp).mono fun l _ hl => List.count_eq_zero.mpr fun mem => h (hl ev mem).symm
    have others := ih hrest fun i a p ha hp eq =>
      own (i + 1) a p ((List.getElem?_cons_succ).trans ha) (by rw [← hp,Nat.add_right_comm,Nat.add_assoc]) (by omega)
    rw [List.mapM_cons]
    refine first.bind fun l _ hl => others.bind fun l' _ hl' => Logged.ends_pure.mono fun l'' _ hl'' => ?_
    rw [hl''.1,List.append_nil,List.count_append,hl,hl',List.length_cons]
    split_ifs <;> omega

end parts

section calls

variable {args : List (Arg m)} {callee : List m.Value → m.State → m.Value × m.State} {rt : String}
  {code : Code m m.Value}

def callCode (parts : List (Part m)) (callee : List m.Value → m.State → m.Value × m.State) (rt : String) :
    Code m m.Value :=
  parts.mapM (·.pre) >>= fun _ => parts.mapM (·.js) >>= fun values => act (callee values) >>= fun r =>
    change (m.write rt r) >>= fun _ => parts.mapM (·.post) >>= fun _ => look (m.read rt)

theorem genCall_eq (accepted : genCall scope args callee rt = some code) :
    ∃ parts,((args.zipIdx 0).mapM fun x => x.1.part scope x.2) = some parts ∧
      code = callCode parts callee rt := by
  simp only [genCall,Option.bind_eq_bind,Option.bind_eq_some_iff] at accepted
  obtain ⟨parts,hparts,accepted⟩ := accepted
  exact ⟨parts,hparts,(Option.some.inj accepted).symm⟩

theorem post_of_ended {parts : List (Part m)} {s : m.State} (ended : ((callCode parts callee rt) s).2.isSome = true) :
    ∀ p ∈ parts,∃ t,(p.post t).2.isSome = true := by
  obtain ⟨_,_,-,ended⟩ := Logged.bind_isSome ended
  obtain ⟨_,_,-,ended⟩ := Logged.bind_isSome ended
  obtain ⟨_,_,-,ended⟩ := Logged.bind_isSome ended
  obtain ⟨_,t,-,ended⟩ := Logged.bind_isSome ended
  obtain ⟨v,t',posts,-⟩ := Logged.bind_isSome ended
  exact Logged.mapM_isSome (s := t) (by rw [posts]; rfl)

variable {parts : List (Part m)}
  (accepted : ((args.zipIdx 0).mapM fun x => x.1.part scope x.2) = some parts)

include accepted

theorem ends_js : Ends (parts.mapM (·.js)) fun l _ => l = [] := by
  have silent : ∀ p ∈ parts,Silent p.js := by
    intro p mem
    obtain ⟨i,a,-,hp⟩ := arg_of_part accepted mem
    exact (Arg.part_arg hp).2.1
  clear accepted
  induction parts with
  | nil => exact Logged.ends_pure.mono fun _ _ h => h.1
  | cons p parts ih =>
    rw [List.mapM_cons]
    refine (silent p List.mem_cons_self).ends.bind fun l _ hl => ?_
    refine (ih fun p mem => silent p (List.mem_cons_of_mem _ mem)).bind fun l' _ hl' => ?_
    exact Logged.ends_pure.mono fun l'' _ h => by rw [hl,hl',h.1]; rfl

theorem ends_callCode {ev : Event} {before behind : ℕ}
    (own : ∀ (a : Arg m) p,args[ev.arg]? = some a → a.part scope ev.arg = some p →
      (Ends p.pre fun l _ => l.count ev = before) ∧ Ends p.post fun l _ => l.count ev = behind) :
    Ends (callCode parts callee rt) fun l _ =>
      l.count ev = if ev.arg < args.length then before + behind else 0 := by
  have own' (i : ℕ) (a : Arg m) (p : Part m) (ha : args[i]? = some a) (hp : a.part scope (0 + i) = some p)
      (eq : 0 + i = ev.arg) :
      (Ends p.pre fun l _ => l.count ev = before) ∧ Ends p.post fun l _ => l.count ev = behind := by
    rw [Nat.zero_add] at eq hp
    exact own a p (eq ▸ ha) (eq ▸ hp)
  have pre := ends_parts accepted (fun hp => (Arg.part_arg hp).1) fun i a p ha hp eq => (own' i a p ha hp eq).1
  have post := ends_parts accepted (fun hp => (Arg.part_arg hp).2.2) fun i a p ha hp eq =>
    (own' i a p ha hp eq).2
  refine pre.bind fun l _ hl => (ends_js accepted).bind fun l₁ _ h₁ => ?_
  refine (Logged.ends_act _).bind fun l₂ _ h₂ => (Logged.ends_change _).bind fun l₃ _ h₃ => ?_
  refine post.bind fun l₄ _ h₄ => (Logged.ends_look _).mono fun l₅ _ h₅ => ?_
  simp only [h₁,h₂,h₃,h₅,List.nil_append,List.append_nil,List.count_append,hl,h₄,Nat.zero_le,true_and,
    Nat.zero_add]
  split_ifs <;> omega

theorem total_callCode (pre : ∀ p ∈ parts,Total p.pre) (post : ∀ p ∈ parts,Total p.post) :
    Total (callCode parts callee rt) := by
  have js : ∀ p ∈ parts,Total p.js := by
    intro p mem
    obtain ⟨i,a,-,hp⟩ := arg_of_part accepted mem
    exact (Arg.part_arg hp).2.1.total
  refine (Logged.total_mapM parts pre).andThen fun _ => (Logged.total_mapM parts js).andThen fun _ => ?_
  refine (Logged.total_act _).andThen fun _ => (Logged.total_change _).andThen fun _ => ?_
  exact (Logged.total_mapM parts post).andThen fun _ => Logged.total_look _

end calls

namespace Arg

/-- An `out` has no index behind a column, and an `inout` none at all. -/
def Single (scope : Scope) : Arg m → Prop
  | inn _ => True
  | out e _ _ => e.throughColumn scope = false
  | inout e _ => e.indices = 0

variable {j : ℕ} {p : Part m}

theorem depths_of_placed {e : Expr m} {pl : Place m} (placed : Placed scope e pl)
    (rooted : pl.base.root.isSome = true) : pl.depths = List.range e.indices := by
  have root := placed.root
  rw [rooted] at root
  exact placed.depths (by simpa using root.symm)

theorem rooted_of_placed {e : Expr m} {pl : Place m} (placed : Placed scope e pl)
    (direct : e.throughColumn scope = false) : pl.base.root.isSome = true := by
  rw [placed.root,direct,Bool.not_false]

theorem direct_of_indices {e : Expr m} (none : e.indices = 0) : e.throughColumn scope = false := by
  rw [Bool.eq_false_iff]
  exact fun through => e.indices_of_throughColumn scope through none

theorem count_range {n d : ℕ} (less : d < n) : (List.range n).count d = 1 :=
  List.count_eq_one_of_mem List.nodup_range (List.mem_range.mpr less)

theorem post_index {e : Expr m} {before : Place m → Code m m.Value} {pl : Place m}
    (boxed : Boxed scope e j p before pl) {d : ℕ} (less : d < e.indices) :
    Ends p.post fun l _ => l.count (.index j d) = 1 :=
  boxed.post.mono fun l _ touches => by
    rw [touches.count d (fun e h => nomatch h),depths_of_placed boxed.placed touches.rooted,count_range less]

theorem total_part {a : Arg m} (single : a.Single scope) (accepted : a.part scope j = some p) :
    Total p.pre ∧ Total p.post := by
  cases a with
  | inn js =>
    obtain ⟨pre,-,post⟩ := part_inn accepted
    exact ⟨pre.total,post.total⟩
  | out e t zero =>
    obtain ⟨pl,boxed,pre⟩ := part_out accepted
    exact ⟨pre.total,boxed.postTotal (rooted_of_placed boxed.placed single)⟩
  | inout e t =>
    obtain ⟨pl,boxed,-,pre⟩ := part_inout accepted
    have rooted := rooted_of_placed boxed.placed (direct_of_indices single)
    exact ⟨pre rooted,boxed.postTotal rooted⟩

theorem single_index {a : Arg m} (single : a.Single scope) (accepted : a.part scope j = some p) {d : ℕ}
    (less : d < a.indices) :
    (Ends p.pre fun l _ => l.count (.index j d) = 0) ∧ Ends p.post fun l _ => l.count (.index j d) = 1 := by
  cases a with
  | inn js => exact absurd less (Nat.not_lt_zero d)
  | out e t zero =>
    obtain ⟨pl,boxed,pre⟩ := part_out accepted
    exact ⟨pre.count _,post_index boxed less⟩
  | inout e t =>
    have none : e.indices = 0 := single
    exact absurd less (by rw [Arg.indices,none]; exact Nat.not_lt_zero d)

/-- How often an element is among those that an `inout` without an index reads and stores. -/
def touched (scope : Scope) (e : Element) : Arg m → ℕ
  | inout e' _ => (place scope e').elim 0 fun pl => pl.elements.count e
  | _ => 0

theorem count_map_touch {touch : ℕ → Element → Event} (injective : Function.Injective (touch j))
    (es : List Element) (e : Element) : (es.map (touch j)).count (touch j e) = es.count e :=
  List.count_map_of_injective _ _ injective _

theorem single_read {a : Arg m} (single : a.Single scope) (accepted : a.part scope j = some p) (e : Element) :
    (Ends p.pre fun l _ => l.count (.read j e) = a.touched scope e) ∧
      Ends p.post fun l _ => l.count (.read j e) = 0 := by
  have stored {e' : Expr m} {before : Place m → Code m m.Value} {pl : Place m}
      (boxed : Boxed scope e' j p before pl) : Ends p.post fun l _ => l.count (.read j e) = 0 :=
    boxed.post.mono fun l _ touches => touches.count_other (fun d h => nomatch h) fun e' h => nomatch h
  cases a with
  | inn js =>
    obtain ⟨pre,-,post⟩ := part_inn accepted
    exact ⟨pre.count _,post.count _⟩
  | out e' t zero =>
    obtain ⟨pl,boxed,pre⟩ := part_out accepted
    exact ⟨pre.count _,stored boxed⟩
  | inout e' t =>
    obtain ⟨pl,boxed,pre,-⟩ := part_inout accepted
    refine ⟨pre.mono fun l _ touches => ?_,stored boxed⟩
    have depths : pl.depths = [] := by
      rw [depths_of_placed boxed.placed touches.rooted,single,List.range_zero]
    rw [touches.count_touch depths,count_map_touch (fun _ _ h => by injection h),touched,boxed.place]
    rfl

theorem single_write {e' : Expr m} {t : String} (single : e'.indices = 0)
    (accepted : (Arg.inout e' t).part scope j = some p) (e : Element) :
    (Ends p.pre fun l _ => l.count (.write j e) = 0) ∧
      Ends p.post fun l _ => l.count (.write j e) = (Arg.inout e' t : Arg m).touched scope e := by
  obtain ⟨pl,boxed,pre,-⟩ := part_inout accepted
  refine ⟨pre.mono fun l _ touches => ?_,boxed.post.mono fun l _ touches => ?_⟩
  · exact touches.count_other (fun d h => nomatch h) fun e' h => nomatch h
  have depths : pl.depths = [] := by
    rw [depths_of_placed boxed.placed touches.rooted,single,List.range_zero]
  rw [touches.count_touch depths,count_map_touch (fun _ _ h => by injection h),touched,boxed.place]
  rfl

end Arg

/-- What the compiler evaluates as often as the shader does. -/
def Evaluation.Single (scope : Scope) : Evaluation m → Prop
  | compound e _ _ _ | pre e _ | post e _ _ => e.indices = 0
  | call args _ _ => ∀ a ∈ args,a.Single scope

section once

variable {args : List (Arg m)} {callee : List m.Value → m.State → m.Value × m.State} {rt : String}
  {parts : List (Part m)} {s : m.State}

theorem single_of_once (accepted : ((args.zipIdx 0).mapM fun x => x.1.part scope x.2) = some parts)
    (once : Once (callCode parts callee rt) (fun j => args[j]?.elim 0 Arg.indices) s) :
    ∀ a ∈ args,a.Single scope := by
  intro a mem
  obtain ⟨i,ha⟩ := List.mem_iff_getElem?.mp mem
  obtain ⟨p,hp,part⟩ := part_of_arg accepted ha
  rw [Nat.zero_add] at part
  obtain ⟨t,ended⟩ := post_of_ended once.1 p hp
  obtain ⟨⟨u,t'⟩,ends⟩ := Option.isSome_iff_exists.mp ended
  cases a with
  | inn js => trivial
  | out e t zero =>
    obtain ⟨pl,boxed,-⟩ := Arg.part_out part
    have root := boxed.placed.root
    rw [(boxed.post _ _ _ ends).rooted] at root
    exact Bool.not_eq_eq_eq_not.mp root.symm
  | inout e t =>
    by_contra indexed
    have less : 0 < e.indices := Nat.pos_of_ne_zero indexed
    obtain ⟨pl,boxed,pre,-⟩ := Arg.part_inout part
    have twice : Ends (callCode parts callee rt) fun l _ =>
        l.count (.index i 0) = if i < args.length then 1 + 1 else 0 :=
      ends_callCode accepted fun a' p' ha' part' => by
        obtain rfl : a' = .inout e t := Option.some.inj (ha'.symm.trans ha)
        obtain rfl : p' = p := Option.some.inj (part'.symm.trans part)
        refine ⟨pre.mono fun l _ touches => ?_,Arg.post_index boxed less⟩
        rw [touches.count 0 (fun e h => nomatch h),Arg.depths_of_placed boxed.placed touches.rooted,
          Arg.count_range less]
    obtain ⟨⟨v,s'⟩,ends'⟩ := Option.isSome_iff_exists.mp once.1
    have bound : i < args.length := (List.getElem?_eq_some_iff.mp ha).1
    have counted : (callCode parts callee rt s).1.count (.index i 0) = if i < args.length then 1 + 1 else 0 :=
      twice s v s' ends'
    have one := once.2.1 i 0 (by dsimp only; rw [ha]; exact less)
    rw [one,if_pos bound] at counted
    exact absurd counted (by decide)

theorem once_of_single (accepted : ((args.zipIdx 0).mapM fun x => x.1.part scope x.2) = some parts)
    (single : ∀ a ∈ args,a.Single scope) :
    Once (callCode parts callee rt) (fun j => args[j]?.elim 0 Arg.indices) s := by
  have total : Total (callCode parts callee rt) := by
    have both : ∀ p ∈ parts,Total p.pre ∧ Total p.post := by
      intro p mem
      obtain ⟨i,a,ha,part⟩ := arg_of_part accepted mem
      exact Arg.total_part (single a (List.mem_of_getElem? ha)) part
    exact total_callCode accepted (fun p mem => (both p mem).1) fun p mem => (both p mem).2
  obtain ⟨⟨v,t⟩,ends⟩ := Option.isSome_iff_exists.mp (total s)
  refine ⟨total s,fun j d less => ?_,fun j ⟨e',read⟩ e => ?_⟩
  · cases ha : args[j]? with
    | none => simp [ha] at less
    | some a =>
      have counted : Ends (callCode parts callee rt) fun l _ =>
          l.count (.index j d) = if j < args.length then 0 + 1 else 0 :=
        ends_callCode accepted fun a' p ha' part => by
          obtain rfl : a' = a := Option.some.inj (ha'.symm.trans ha)
          exact Arg.single_index (single a' (List.mem_of_getElem? ha)) part (by simpa [ha] using less)
      have bound : j < args.length := (List.getElem?_eq_some_iff.mp ha).1
      rw [counted s v t ends,if_pos bound]
  · have reads (e : Element) : Ends (callCode parts callee rt) fun l _ => l.count (.read j e) =
        if j < args.length then args[j]?.elim 0 (Arg.touched scope e) + 0 else 0 :=
      ends_callCode accepted fun a p ha part => by
        rw [show args[j]? = some a from ha]
        exact Arg.single_read (single a (List.mem_of_getElem? ha)) part e
    have positive : 0 < (callCode parts callee rt s).1.count (.read j e') := List.count_pos_iff.mpr read
    rw [reads e' s v t ends] at positive
    have bound : j < args.length := by
      by_contra beyond
      rw [if_neg beyond] at positive
      exact Nat.lt_irrefl 0 positive
    rw [if_pos bound] at positive
    rw [← List.count_pos_iff,← List.count_pos_iff,reads e s v t ends,if_pos bound]
    cases ha : args[j]? with
    | none => simp [ha] at positive
    | some a =>
      cases a with
      | inn js => simp [ha,Arg.touched] at positive
      | out e'' t zero => simp [ha,Arg.touched] at positive
      | inout e'' t' =>
        have writes : Ends (callCode parts callee rt) fun l _ => l.count (.write j e) =
            if j < args.length then 0 + (Arg.inout e'' t' : Arg m).touched scope e else 0 :=
          ends_callCode accepted fun a p ha' part => by
            obtain rfl : a = .inout e'' t' := Option.some.inj (ha'.symm.trans ha)
            exact Arg.single_write (single _ (List.mem_of_getElem? ha)) part e
        rw [writes s v t ends,if_pos bound,Nat.zero_add,Option.elim_some,Nat.add_zero]

end once

/-- An operator goes to its l-value two or three times, and an `inout` twice, so that the code is right
where there is no index to evaluate. -/
theorem Evaluation.once_iff_single {ev : Evaluation m} {code : Code m m.Value}
    (accepted : ev.generate scope = some code) (s : m.State) : Once code ev.indices s ↔ ev.Single scope := by
  cases ev with
  | compound e rhs binary t =>
    obtain ⟨pl,hpl,updates,total⟩ := genCompound_spec accepted
    exact once_iff_of_updates (place_spec hpl) (by decide) updates total s
  | pre e binary =>
    obtain ⟨pl,hpl,updates,total⟩ := genPre_spec accepted
    exact once_iff_of_updates (place_spec hpl) (by decide) updates total s
  | post e binary temp =>
    obtain ⟨pl,hpl,updates,total⟩ := genPost_spec accepted
    exact once_iff_of_updates (place_spec hpl) (by decide) updates total s
  | call args callee rt =>
    obtain ⟨parts,hparts,rfl⟩ := genCall_eq accepted
    exact ⟨fun once => single_of_once hparts once,fun single => once_of_single hparts single⟩

section samples

inductive JsValue where
  | undefined
  | number (n : Int)
  | object (id : ℕ)
  deriving DecidableEq

structure Heap where
  vars : List (String × JsValue)
  objects : List (List ((String ⊕ Int) × JsValue))

def Heap.get (v : JsValue) (key : String ⊕ Int) (s : Heap) : JsValue :=
  match v with
  | .object id => ((s.objects[id]?.getD []).lookup key).getD .undefined
  | _ => .undefined

def Heap.add (object : List ((String ⊕ Int) × JsValue)) (s : Heap) : JsValue × Heap :=
  (.object s.objects.length,{ s with objects := s.objects ++ [object] })

def Machine.heap : Machine where
  Value := JsValue
  State := Heap
  read x s := (s.vars.lookup x).getD .undefined
  write x v s := { s with vars := (x,v) :: s.vars }
  get := Heap.get
  put v key x s :=
    match v with
    | .object id => { s with objects := s.objects.modify id ((key,x) :: ·) }
    | _ => s
  array vs s := s.add (vs.zipIdx.map fun (v,i) => (.inr i,v))
  box v s := s.add [(.inl "v",v)]
  cp v s :=
    match v with
    | .object id => s.add (s.objects[id]?.getD [])
    | v => (v,s)

def Machine.heap.next (s : Heap) : Int × Heap :=
  match (s.vars.lookup "v_i").getD .undefined with
  | .number n => (n,{ s with vars := ("v_i",.number (n + 1)) :: s.vars })
  | _ => (0,s)

def Machine.heap.add (v w : JsValue) (s : Heap) : JsValue × Heap :=
  match v,w with
  | .number n,.number k => (.number (n + k),s)
  | _,_ => (.undefined,s)

def Scope.sample : Scope where
  info t :=
    if t = "float" ∨ t = "int" then some (.scalar t)
    else if t = "float[2]" then some (.array "float" 2) else none
  lookup name :=
    if name = "a" then some ⟨"v_a",false,"float[2]",true⟩
    else if name = "i" then some ⟨"v_i",false,"int",true⟩ else none

def Heap.sample : Heap :=
  ⟨[("v_a",.object 0),("v_i",.number 0)],[[(.inr 0,.number 10),(.inr 1,.number 20)]]⟩

def Evaluation.sample : Evaluation Machine.heap :=
  .compound (.index (.id "a") ⟨"int",Machine.heap.next⟩) (fun s => (.number 1,s)) Machine.heap.add "float"

def Evaluation.sampleId : Evaluation Machine.heap :=
  .compound (.id "i") (fun s => (.number 1,s)) Machine.heap.add "int"

theorem Evaluation.sample_twice :
    ¬∀ (m : Machine) (scope : Scope) (ev : Evaluation m) (code : Code m m.Value) (s : m.State),
      ev.generate scope = some code → Once code ev.indices s := by
  intro all
  have once := all Machine.heap .sample .sample _ .sample rfl
  exact absurd (once.2.1 0 0 (by decide)) (by decide)

theorem Evaluation.sampleId_once :
    Once (((Evaluation.sampleId).generate .sample).get rfl) Evaluation.sampleId.indices .sample :=
  (once_iff_single (Option.some_get _).symm _).mpr rfl

end samples

end Sharko.Script.Glsl
