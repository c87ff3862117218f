import Mathlib
import Sharko.Script.XPath.Reference

/-! The step `//` and the child step after it select what one descendant step does, where no
predicate of the child step depends on the position. -/

namespace Sharko.Script.XPath
open Library Rose Address

section filters

def Filters (test : Node → Except XPathError Bool) (list out : List Node) : Prop :=
  (∀ n ∈ list,∃ b,test n = .ok b) ∧ out = list.filter fun n => test n matches .ok true

variable {test first second : Node → Except XPathError Bool} {list out : List Node} {n : Node}

theorem filters_cons {rest : List Node} : Filters test (n :: rest) out ↔
      ∃ b tail,test n = .ok b ∧ Filters test rest tail ∧ out = if b then n :: tail else tail := by
  constructor
  · rintro ⟨tested,rfl⟩
    obtain ⟨⟨b,here⟩,later⟩ := List.forall_mem_cons.mp tested
    refine ⟨b,_,here,⟨later,rfl⟩,?_⟩
    cases b <;> simp [here]
  · rintro ⟨b,tail,here,⟨later,rfl⟩,rfl⟩
    refine ⟨List.forall_mem_cons.mpr ⟨⟨b,here⟩,later⟩,?_⟩
    cases b <;> simp [here]

theorem filters_andThen {both : Node → Except XPathError Bool}
    (spec : ∀ n,both n = do if ← first n then second n else return false) :
    (∃ kept,Filters first list kept ∧ Filters second kept out) ↔ Filters both list out := by
  have agree (n : Node) : (both n matches .ok true) =
      ((first n matches .ok true) && (second n matches .ok true)) := by
    rw [spec]
    cases first n with
    | error e => rfl
    | ok b => cases b <;> rfl
  constructor
  · rintro ⟨_,⟨tested,rfl⟩,⟨tested',rfl⟩⟩
    refine ⟨fun n member => ?_,?_⟩
    · obtain ⟨b,here⟩ := tested n member
      cases b with
      | false => exact ⟨false,by rw [spec,here]; rfl⟩
      | true =>
        obtain ⟨b',there⟩ := tested' n (List.mem_filter.mpr ⟨member,by simp [here]⟩)
        exact ⟨b',by rw [spec,here]; exact there⟩
    · rw [List.filter_filter]
      apply List.filter_congr
      intro n _
      rw [agree,Bool.and_comm]
  · rintro ⟨tested,rfl⟩
    refine ⟨_,⟨fun n member => ?_,rfl⟩,⟨fun n member => ?_,?_⟩⟩
    · obtain ⟨b,here⟩ := tested n member
      rw [spec] at here
      obtain ⟨b',found,-⟩ := bind_ok.mp here
      exact ⟨b',found⟩
    · obtain ⟨inside,passed⟩ := List.mem_filter.mp member
      obtain ⟨b,here⟩ := tested n inside
      rw [spec] at here
      obtain ⟨b',found,rest⟩ := bind_ok.mp here
      cases b' with
      | false => simp [found] at passed
      | true => exact ⟨b,rest⟩
    · rw [List.filter_filter]
      apply List.filter_congr
      intro n _
      rw [agree,Bool.and_comm]

end filters

section unplaced
variable {R : Type} [JsNumber R] {d : Document} {c : Closure R} {cs : List (Closure R)}
  {list out : List Node}

structure Closure.Unplaced (c : Closure R) : Prop where
  place : ∀ n p s p' s',c n p s = c n p' s'
  scalar : ∀ n p s v,c n p s ≠ .ok (.number v)

def truth (c : Closure R) (n : Node) : Except XPathError Bool := do return toBool (← c n 1 1)

def passes : List (Closure R) → Node → Except XPathError Bool
  | [],_ => .ok true
  | c :: rest,n => do if ← truth c n then passes rest n else return false

theorem selects_of_scalar {v : Value R} (scalar : ∀ w,v ≠ .number w) (position : Nat) :
    selects v position = toBool v := by
  cases v with
  | number w => exact absurd rfl (scalar w)
  | _ => rfl

theorem applyFrom_filters (h : c.Unplaced) (size i : Nat) :
    applyFrom c size i list = .ok out ↔ Filters (truth c) list out := by
  induction list generalizing i out with
  | nil => simp [applyFrom,Filters,eq_comm]
  | cons n rest ih =>
    have here (b : Bool) : truth c n = .ok b ↔ ∃ v,c n (i + 1) size = .ok v ∧ toBool v = b := by
      rw [h.place n (i + 1) size 1 1,truth,bind_ok]
      simp [pure,Except.pure]
    rw [filters_cons]
    unfold applyFrom
    constructor
    · intro applied
      obtain ⟨v,value,applied⟩ := bind_ok.mp applied
      obtain ⟨tail,later,same⟩ := bind_ok.mp applied
      cases same
      refine ⟨_,tail,(here _).mpr ⟨v,value,rfl⟩,(ih (i + 1)).mp later,?_⟩
      rw [selects_of_scalar]
      rintro w rfl
      exact h.scalar _ _ _ w value
    · rintro ⟨b,tail,tested,later,rfl⟩
      obtain ⟨v,value,rfl⟩ := (here b).mp tested
      refine bind_ok.mpr ⟨v,value,bind_ok.mpr ⟨tail,(ih (i + 1)).mpr later,?_⟩⟩
      rw [selects_of_scalar]
      · rfl
      · rintro w rfl
        exact h.scalar _ _ _ w value

theorem filter_passes_nil (list : List Node) :
    (list.filter fun n => passes ([] : List (Closure R)) n matches .ok true) = list :=
  List.filter_eq_self.mpr fun _ _ => rfl

theorem applyPredicates_filters (h : ∀ c ∈ cs,c.Unplaced) :
    applyPredicates cs list = .ok out ↔ Filters (passes cs) list out := by
  induction cs generalizing list with
  | nil =>
    have all : ∀ n ∈ list,∃ b,passes ([] : List (Closure R)) n = .ok b := fun n _ => ⟨true,rfl⟩
    rw [Filters,filter_passes_nil,and_iff_right all]
    simp [applyPredicates,eq_comm]
  | cons c rest ih =>
    obtain ⟨first,later⟩ := List.forall_mem_cons.mp h
    have both : ∀ n,passes (c :: rest) n = do if ← truth c n then passes rest n else return false :=
      fun n => rfl
    rw [← filters_andThen both]
    unfold applyPredicates
    cases list with
    | nil => simp [Filters,eq_comm]
    | cons n list =>
      simp only [List.isEmpty_cons,Bool.false_eq_true,if_false]
      rw [bind_ok]
      constructor
      · rintro ⟨kept,applied,finished⟩
        exact ⟨kept,(applyFrom_filters first _ 0).mp applied,(ih later).mp finished⟩
      · rintro ⟨kept,applied,finished⟩
        exact ⟨kept,(applyFrom_filters first _ 0).mpr applied,(ih later).mpr finished⟩

theorem stepFrom_filters (h : ∀ c ∈ cs,c.Unplaced) {axis : Axis} (forward : axis.reverse = false)
    (test : Test) (n : Node) :
    stepFrom d ⟨axis,test,cs⟩ n = .ok out ↔ Filters (passes cs) (d.collect axis test n) out := by
  rw [← applyPredicates_filters h]
  unfold stepFrom
  rw [bind_ok]
  simp [forward,pure,Except.pure]

omit [JsNumber R] in
theorem mapM_filters {f : Node → Except XPathError (List Node)} {nodes : Node → List Node}
    {test : Node → Except XPathError Bool} {input : List Node} {sets : List (List Node)}
    (spec : ∀ n out,f n = .ok out ↔ Filters test (nodes n) out) :
    input.mapM f = .ok sets ↔ (∀ n ∈ input,∀ m ∈ nodes n,∃ b,test m = .ok b) ∧
      sets = input.map fun n => (nodes n).filter fun m => test m matches .ok true := by
  induction input generalizing sets with
  | nil => simp [eq_comm,pure,Except.pure]
  | cons n rest ih =>
    rw [List.mapM_cons,bind_ok]
    constructor
    · rintro ⟨out,here,continued⟩
      obtain ⟨later,there,same⟩ := bind_ok.mp continued
      cases same
      obtain ⟨tested,rfl⟩ := (spec n out).mp here
      obtain ⟨tested',rfl⟩ := ih.mp there
      exact ⟨List.forall_mem_cons.mpr ⟨tested,tested'⟩,rfl⟩
    · rintro ⟨tested,rfl⟩
      obtain ⟨here,later⟩ := List.forall_mem_cons.mp tested
      exact ⟨_,(spec n _).mpr ⟨here,rfl⟩,bind_ok.mpr ⟨_,ih.mpr ⟨later,rfl⟩,rfl⟩⟩

theorem evalStepEach_ok (h : ∀ c ∈ cs,c.Unplaced) {axis : Axis} (forward : axis.reverse = false)
    (test : Test) (input : List Node) : evalStepEach d ⟨axis,test,cs⟩ input = .ok out ↔
      (∀ m ∈ input.flatMap (d.collect axis test),∃ b,passes cs m = .ok b) ∧ out = d.docOrder
          ((input.flatMap (d.collect axis test)).filter fun m => passes cs m matches .ok true) := by
  unfold evalStepEach
  rw [bind_ok]
  have mapped {sets : List (List Node)} :=
    @mapM_filters (stepFrom d ⟨axis,test,cs⟩) (d.collect axis test) (passes cs) input sets
      fun n _ => stepFrom_filters h forward test n
  rw [List.filter_flatMap,List.flatMap_def,List.flatMap_def]
  constructor
  · rintro ⟨sets,found,same⟩
    cases same
    obtain ⟨tested,rfl⟩ := mapped.mp found
    refine ⟨?_,rfl⟩
    intro m member
    obtain ⟨set,there,inside⟩ := List.mem_flatten.mp member
    obtain ⟨n,source,rfl⟩ := List.mem_map.mp there
    exact tested n source m inside
  · rintro ⟨tested,rfl⟩
    refine ⟨_,mapped.mpr ⟨?_,rfl⟩,rfl⟩
    intro n source m inside
    exact tested m (List.mem_flatten.mpr ⟨_,List.mem_map_of_mem source,inside⟩)

end unplaced

section merged
variable {R : Type} [JsNumber R] {d : Document}

theorem mem_reach_child {id q : Address} : q ∈ d.reach .child id ↔ ∃ i,q = i :: id ∧ d.root.Inside q := by
  simp only [Document.reach,List.mem_map,List.mem_range]
  constructor
  · rintro ⟨i,less,rfl⟩
    exact ⟨i,rfl,inside_child.mpr less⟩
  · rintro ⟨i,rfl,inside⟩
    exact ⟨i,inside_child.mp inside,rfl⟩

theorem mem_reach_descendant {id q : Address} (inside : d.root.Inside id) :
    q ∈ d.reach .descendant id ↔ ∃ w,w ≠ [] ∧ q = w ++ id ∧ d.root.Inside q := by
  obtain ⟨s,here⟩ := Option.isSome_iff_exists.mp inside
  simp only [Document.reach,here,Option.elim]
  rw [mem_descendants]
  constructor
  · rintro ⟨w,proper,rfl,there⟩
    exact ⟨w,proper,rfl,by rw [Inside,at?_below,here]; exact there⟩
  · rintro ⟨w,proper,rfl,there⟩
    rw [Inside,at?_below,here] at there
    exact ⟨w,proper,rfl,there⟩

theorem reach_merged {id q : Address} (inside : d.root.Inside id) :
    (∃ m ∈ d.reach .descendantOrSelf id,q ∈ d.reach .child m) ↔ q ∈ d.reach .descendant id := by
  rw [mem_reach_descendant inside]
  constructor
  · rintro ⟨m,below,child⟩
    obtain ⟨⟨w,rfl⟩,-⟩ := mem_subtree.mp below
    obtain ⟨i,rfl,there⟩ := mem_reach_child.mp child
    exact ⟨i :: w,by simp,rfl,there⟩
  · rintro ⟨w,proper,rfl,there⟩
    cases w with
    | nil => exact absurd rfl proper
    | cons i w =>
      have above : d.root.Inside (w ++ id) := there.above (w := [i])
      exact ⟨w ++ id,mem_subtree.mpr ⟨List.suffix_append w id,above⟩,mem_reach_child.mpr ⟨i,rfl,there⟩⟩

theorem mem_collect_tree {axis : Axis} (ofTree : axis ≠ .attribute) {test : Test} {id : Address}
    (inside : d.root.Inside id) {q : Node} : q ∈ d.collect axis test (.tree id) ↔
      ∃ a ∈ d.reach axis id,d.treeTest test a = true ∧ q = .tree a := by
  simp only [Document.collect,if_neg ofTree,collectTree_eq axis _ inside,List.mem_map,List.mem_filter]
  constructor
  · rintro ⟨a,⟨reached,passed⟩,rfl⟩
    exact ⟨a,reached,passed,rfl⟩
  · rintro ⟨a,reached,passed,rfl⟩
    exact ⟨a,⟨reached,passed⟩,rfl⟩

theorem collect_merged (test : Test) {n : Node} (holds : d.Holds n) (q : Node) :
    (∃ m ∈ d.collect .descendantOrSelf .node n,q ∈ d.collect .child test m) ↔
      q ∈ d.collect .descendant test n := by
  cases n with
  | attr o =>
    -- an attribute has neither children nor descendants
    constructor
    · rintro ⟨m,self,child⟩
      obtain rfl : m = .attr o := by simpa [Document.collect,Document.collectFromAttr] using self
      exact child
    · intro none
      simp [Document.collect,Document.collectFromAttr] at none
  | tree id =>
    rw [mem_collect_tree (by decide) holds]
    constructor
    · rintro ⟨m,below,child⟩
      obtain ⟨a,reached,-,rfl⟩ := (mem_collect_tree (by decide) holds).mp below
      obtain ⟨b,reached',passed,rfl⟩ :=
        (mem_collect_tree (by decide) (reach_inside holds reached)).mp child
      exact ⟨b,(reach_merged holds).mp ⟨a,reached,reached'⟩,passed,rfl⟩
    · rintro ⟨b,reached,passed,rfl⟩
      obtain ⟨a,below,child⟩ := (reach_merged holds).mpr reached
      refine ⟨.tree a,(mem_collect_tree (by decide) holds).mpr ⟨a,below,rfl,rfl⟩,?_⟩
      exact (mem_collect_tree (by decide) (reach_inside holds below)).mpr ⟨b,child,passed,rfl⟩

theorem docOrder_congr {first second : List Node} (trees : ∀ m ∈ first,∃ id,m = .tree id)
    (same : ∀ m,m ∈ first ↔ m ∈ second) : d.docOrder first = d.docOrder second := by
  have ordered := docOrder_ordered (d := d) first
  have ordered' := docOrder_ordered (d := d) second
  have members : ∀ m,m ∈ d.docOrder first ↔ m ∈ d.docOrder second := by
    intro m
    rw [mem_docOrder,mem_docOrder]
    exact same m
  have perm := (List.perm_ext_iff_of_nodup ordered.nodup ordered'.nodup).mpr members
  refine List.Perm.eq_of_pairwise ?_ ordered.sorted ordered'.sorted perm
  intro m n here there before after
  obtain ⟨a,rfl⟩ := trees m (mem_docOrder.mp here)
  obtain ⟨b,rfl⟩ := trees n ((same n).mpr (mem_docOrder.mp there))
  exact congrArg Node.tree (rank_tree_injective (le_antisymm before after))

theorem collect_trees {test : Test} {n : Node} (holds : d.Holds n) :
    ∀ q ∈ d.collect .descendant test n,∃ id,q = .tree id := by
  intro q member
  cases n with
  | attr o => simp [Document.collect,Document.collectFromAttr] at member
  | tree id =>
    obtain ⟨a,-,-,rfl⟩ := (mem_collect_tree (by decide) holds).mp member
    exact ⟨a,rfl⟩

theorem merged_alike {cs : List (Closure R)} (h : ∀ c ∈ cs,c.Unplaced) (test : Test)
    {input : List Node} (holds : ∀ n ∈ input,d.Holds n) : Alike (evalStepEach d ⟨.descendant,test,cs⟩ input)
      (evalStepsEach d [⟨.descendantOrSelf,.node,[]⟩,⟨.child,test,cs⟩] input) := by
  have first : evalStepEach d (⟨.descendantOrSelf,.node,[]⟩ : Step R) input =
      .ok (d.docOrder (input.flatMap (d.collect .descendantOrSelf .node))) := by
    refine (evalStepEach_ok (by simp) rfl .node input).mpr ⟨fun m _ => ⟨true,rfl⟩,?_⟩
    rw [filter_passes_nil]
  have members (q : Node) : q ∈ input.flatMap (d.collect .descendant test) ↔
      q ∈ (d.docOrder (input.flatMap (d.collect .descendantOrSelf .node))).flatMap
        (d.collect .child test) := by
    simp only [List.mem_flatMap,mem_docOrder]
    constructor
    · rintro ⟨n,source,reached⟩
      obtain ⟨m,below,child⟩ := (collect_merged test (holds n source) q).mpr reached
      exact ⟨m,⟨n,source,below⟩,child⟩
    · rintro ⟨m,⟨n,source,below⟩,child⟩
      exact ⟨n,source,(collect_merged test (holds n source) q).mp ⟨m,below,child⟩⟩
  have whole : evalStepsEach d [⟨.descendantOrSelf,.node,[]⟩,⟨.child,test,cs⟩] input =
      evalStepEach d ⟨.child,test,cs⟩
        (d.docOrder (input.flatMap (d.collect .descendantOrSelf .node))) := by
    unfold evalStepsEach
    rw [first]
    show (evalStepEach d _ _ >>= fun cur => evalStepsEach d [] cur) = _
    simp only [evalStepsEach]
    exact bind_pure _
  have trees : ∀ q ∈ (input.flatMap (d.collect .descendant test)).filter
      (fun m => passes cs m matches .ok true),∃ id,q = .tree id := by
    intro q member
    obtain ⟨n,source,reached⟩ := List.mem_flatMap.mp (List.mem_of_mem_filter member)
    exact collect_trees (holds n source) q reached
  have same := @docOrder_congr d _ (((d.docOrder
    (input.flatMap (d.collect .descendantOrSelf .node))).flatMap (d.collect .child test)).filter
      fun m => passes cs m matches .ok true) trees fun m => by
        rw [List.mem_filter,List.mem_filter,members]
  intro out
  rw [whole,evalStepEach_ok h rfl,evalStepEach_ok h rfl,same]
  simp only [members]

end merged

end Sharko.Script.XPath
