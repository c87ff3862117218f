import Mathlib
import Sharko.Script.XPath.Merging

/-! `mergeDescendantSteps` and `reduceInputs` leave the values of expressions as they are. -/

namespace Sharko.Script.XPath
open Library

section place
variable {R : Type} [JsNumber R] {d : Document}

omit [JsNumber R] in
theorem args_place {n : Node} {p s p' s' : Nat} {cs : List (Closure R)} (same : ∀ c ∈ cs,c n p s = c n p' s') :
    (cs.mapM fun c => c n p s) = cs.mapM fun c => c n p' s' := by
  induction cs with
  | nil => rfl
  | cons c rest ih =>
    obtain ⟨first,later⟩ := List.forall_mem_cons.mp same
    rw [List.mapM_cons,List.mapM_cons,first,ih later]

theorem make_place {function : Function} (position : function ≠ .position) (last : function ≠ .last)
    {n : Node} {p s p' s' : Nat} {cs : List (Closure R)} (same : ∀ c ∈ cs,c n p s = c n p' s') :
    function.make d cs n p s = function.make d cs n p' s' := by
  cases function with
  | position => exact absurd rfl position
  | last => exact absurd rfl last
  | true | false => rfl
  | _ => simp only [Function.make,strict,args_place same]

omit [JsNumber R] in
theorem unionFrom_place {n : Node} {p s p' s' : Nat} {cs : List (Closure R)}
    (same : ∀ c ∈ cs,c n p s = c n p' s') (all : List Node) :
    unionFrom d n p s all cs = unionFrom d n p' s' all cs := by
  induction cs generalizing all with
  | nil => rfl
  | cons c rest ih =>
    obtain ⟨first,later⟩ := List.forall_mem_cons.mp same
    unfold unionFrom
    rw [first]
    simp only [ih later]

mutual

theorem compile_place (e : Expr R) (free : usesPosition e = false) (n : Node) (p s p' s' : Nat) :
    compile d e n p s = compile d e n p' s' := by
  cases e with
  | num v | str v => rfl
  | or a b | and a b | cmp op a b | arith op a b =>
    obtain ⟨first,second⟩ := Bool.or_eq_false_iff.mp free
    simp only [compile,compile_place a first n p s p' s',compile_place b second n p s p' s']
  | neg a => simp only [compile,compile_place a free n p s p' s']
  | union first rest =>
    obtain ⟨head,tail⟩ := Bool.or_eq_false_iff.mp free
    have others := unionFrom_place (d := d) (compileAll_place rest tail n p s p' s')
    simp only [compile,compile_place first head n p s p' s',others]
  | call function args =>
    obtain ⟨names,inside⟩ := Bool.or_eq_false_iff.mp free
    obtain ⟨position,last⟩ := Bool.or_eq_false_iff.mp names
    simp only [compile]
    exact make_place (ne_of_beq_false position) (ne_of_beq_false last)
      (compileAll_place args inside n p s p' s')
  | filter e preds =>
    obtain ⟨first,-⟩ := Bool.or_eq_false_iff.mp free
    simp only [compile,compile_place e first n p s p' s']
  | path start abs steps =>
    obtain ⟨first,-⟩ := Bool.or_eq_false_iff.mp free
    simp only [compile,compileStart_place start abs first n p s p' s']

theorem compileStart_place (start : Option (Expr R)) (abs : Bool)
    (free : startUsesPosition start = false) (n : Node) (p s p' s' : Nat) :
    compileStart d start abs n p s = compileStart d start abs n p' s' := by
  cases start with
  | none => rfl
  | some e => simp only [compileStart,compile_place e free n p s p' s']

theorem compileAll_place (list : List (Expr R)) (free : anyUsesPosition list = false) (n : Node)
    (p s p' s' : Nat) : ∀ c ∈ compileAll d list,c n p s = c n p' s' := by
  cases list with
  | nil => simp [compileAll]
  | cons a rest =>
    obtain ⟨first,later⟩ := Bool.or_eq_false_iff.mp free
    intro c member
    rcases List.mem_cons.mp member with rfl | member
    · exact compile_place a first n p s p' s'
    · exact compileAll_place rest later n p s p' s' c member

end

end place

section scalar
variable {R : Type} [JsNumber R] {d : Document}

theorem make_number {function : Function} (other : function.type ≠ .number) (cs : List (Closure R))
    (n : Node) (p s : Nat) (v : R) : function.make d cs n p s ≠ .ok (.number v) := by
  intro called
  cases function with
  | last | position | count | stringLength | number | sum | floor | ceiling | round =>
    exact other rfl
  | true | false => cases called
  | id =>
    obtain ⟨values,-,applied⟩ := bind_ok.mp called
    unfold idFn at applied
    split at applied <;> cases applied
  | localName | namespaceUri | name =>
    obtain ⟨values,-,applied⟩ := bind_ok.mp called
    unfold nameFn at applied
    split at applied <;> cases applied
  | string | normalizeSpace =>
    obtain ⟨values,-,applied⟩ := bind_ok.mp called
    unfold stringArg at applied
    split at applied <;> cases applied
  | startsWith | contains | substringBefore | substringAfter =>
    obtain ⟨values,-,applied⟩ := bind_ok.mp called
    unfold binary at applied
    split at applied <;> cases applied
  | boolean | not =>
    obtain ⟨values,-,applied⟩ := bind_ok.mp called
    unfold unary at applied
    split at applied <;> cases applied
  | concat =>
    obtain ⟨values,-,applied⟩ := bind_ok.mp called
    cases applied
  | substring | translate | lang =>
    obtain ⟨values,-,applied⟩ := bind_ok.mp called
    dsimp only at applied
    split at applied <;> cases applied

theorem compile_number {e : Expr R} (other : staticType e ≠ .number) (n : Node) (p s : Nat) (v : R) :
    compile d e n p s ≠ .ok (.number v) := by
  intro called
  cases e with
  | num v | neg a | arith op a b => exact other rfl
  | str v => cases called
  | or a b | and a b =>
    obtain ⟨x,_,continued⟩ := bind_ok.mp called
    split_ifs at continued
    · cases continued
    · obtain ⟨y,_,same⟩ := bind_ok.mp continued
      cases same
  | cmp op a b =>
    obtain ⟨x,_,continued⟩ := bind_ok.mp called
    obtain ⟨y,_,same⟩ := bind_ok.mp continued
    cases same
  | call function args => exact make_number other (compileAll d args) n p s v called
  | union first rest | filter e preds =>
    obtain ⟨x,_,continued⟩ := bind_ok.mp called
    obtain ⟨y,_,continued⟩ := bind_ok.mp continued
    obtain ⟨z,_,same⟩ := bind_ok.mp continued
    cases same
  | path start abs steps =>
    obtain ⟨x,_,continued⟩ := bind_ok.mp called
    obtain ⟨y,_,same⟩ := bind_ok.mp continued
    cases same

theorem compile_unplaced {e : Expr R} (free : positional e = false) : Closure.Unplaced (compile d e) := by
  obtain ⟨scalar,place⟩ := Bool.or_eq_false_iff.mp free
  exact ⟨compile_place e place,compile_number (ne_of_beq_false scalar)⟩

theorem compileAll_unplaced {preds : List (Expr R)} (free : preds.any positional = false) :
    ∀ c ∈ compileAll d preds,Closure.Unplaced c := by
  induction preds with
  | nil => simp [compileAll]
  | cons a rest ih =>
    rw [List.any_cons,Bool.or_eq_false_iff] at free
    intro c member
    rcases List.mem_cons.mp member with rfl | member
    · exact compile_unplaced free.1
    · exact ih free.2 c member

end scalar

section steps
variable {R : Type} [JsNumber R] {d : Document} {n : Node} {input : List Node}

theorem docOrder_nil : d.docOrder [] = [] :=
  List.eq_nil_iff_forall_not_mem.mpr fun m member => by simpa using mem_docOrder.mp member

theorem evalStepsEach_nil (steps : List (Step R)) : evalStepsEach d steps [] = .ok [] := by
  induction steps with
  | nil => rfl
  | cons step rest ih =>
    have first : evalStepEach d step [] = .ok [] := congrArg Except.ok docOrder_nil
    unfold evalStepsEach
    rw [first]
    exact ih

theorem evalSteps_each {steps : List (Step R)} (nodes : d.NodeSet n input) :
    evalSteps d steps input = evalStepsEach d steps input := by
  induction steps generalizing input with
  | nil => rfl
  | cons step rest ih =>
    unfold evalSteps
    split_ifs with none
    · obtain rfl := List.isEmpty_iff.mp none
      exact (evalStepsEach_nil (step :: rest)).symm
    · have first : evalStep d step input = evalStepEach d step input := evalStep_union nodes
      show (evalStep d step input >>= evalSteps d rest) =
        (evalStepEach d step input >>= evalStepsEach d rest)
      cases stepped : evalStep d step input with
      | error e =>
        rw [← first,stepped]
        rfl
      | ok out =>
        rw [← first,stepped]
        exact ih (evalStep_nodeSet nodes stepped)

omit [JsNumber R] in
theorem merges_cases {step : StepExpr R} {rest : List (StepExpr R)} (merge : merges step rest = true) :
    step = .descendantOrSelf ∧ ∃ test preds later,rest = .step .child test preds :: later ∧
      preds.any positional = false := by
  unfold merges at merge
  split at merge
  · obtain ⟨child,free⟩ := Bool.and_eq_true_iff.mp merge
    obtain rfl := eq_of_beq child
    exact ⟨rfl,_,_,_,rfl,by simpa using free⟩
  · cases merge

theorem compileSteps_merged {test : Test} {preds : List (Expr R)} (later : List (StepExpr R))
    (free : preds.any positional = false) :
    compileSteps d (.descendantOrSelf :: .step .child test preds :: later) =
      ⟨.descendant,test,compileAll d preds⟩ :: compileSteps d later := by
  have merge : merges .descendantOrSelf (.step .child test preds :: later) = true := by
    simp [merges,free]
  have apart : merges (.step .child test preds) later = false := rfl
  rw [compileSteps.eq_def]
  simp only [merge,if_true]
  rw [compileSteps.eq_def]
  simp only [apart,Bool.false_eq_true,if_false,compileStep]

/-- The predicates of a step have the same values compiled. -/
def StepExpr.Alike (d : Document) : StepExpr R → Prop
  | .descendantOrSelf => True
  | .step _ _ preds => List.Forall₂ (Closure.Alike d) (compileAll d preds) (evaluateAll d preds)

theorem compileStep_alike {step : StepExpr R} (alike : step.Alike d) (holds : ∀ m ∈ input,d.Holds m) :
    Alike (evalStepEach d (compileStep d step) input) (evalStepEach d (evaluateStep d step) input) := by
  cases step with
  | descendantOrSelf => exact .refl _
  | step axis test preds => exact evalStepEach_alike alike holds

theorem evalStepsEach_alike {step : Step R} {rest : List (Step R)} {out : Except XPathError (List Node)}
    {f : List Node → Except XPathError (List Node)} (nodes : d.NodeSet n input)
    (first : Alike (evalStepEach d step input) out)
    (later : ∀ set,d.NodeSet n set → Alike (evalStepsEach d rest set) (f set)) :
    Alike (evalStepsEach d (step :: rest) input) (out >>= f) := by
  refine first.bind fun set stepped => later set ?_
  exact evalStep_nodeSet nodes ((evalStep_union nodes).trans stepped)

theorem evalStepsEach_append (first later : List (Step R)) (input : List Node) :
    evalStepsEach d (first ++ later) input = evalStepsEach d first input >>= evalStepsEach d later := by
  induction first generalizing input with
  | nil => rfl
  | cons step rest ih =>
    rw [List.cons_append]
    unfold evalStepsEach
    simp only [ih,bind_assoc]

theorem compileSteps_alike {steps : List (StepExpr R)} (alike : ∀ step ∈ steps,step.Alike d)
    {input : List Node} (nodes : d.NodeSet n input) :
    Alike (evalStepsEach d (compileSteps d steps) input) (evalStepsEach d (evaluateSteps d steps) input) := by
  match steps with
  | [] => exact .refl _
  | step :: rest =>
    obtain ⟨here,others⟩ := List.forall_mem_cons.mp alike
    cases merge : merges step rest with
    | false =>
      have single : compileSteps d (step :: rest) = compileStep d step :: compileSteps d rest := by
        rw [compileSteps.eq_def]
        simp only [merge,Bool.false_eq_true,if_false]
      rw [single]
      exact evalStepsEach_alike nodes (compileStep_alike here nodes.inside) fun set selected =>
        compileSteps_alike others selected
    | true =>
      obtain ⟨rfl,test,preds,later,rfl,free⟩ := merges_cases merge
      obtain ⟨child,others⟩ := List.forall_mem_cons.mp others
      have split : evaluateSteps d (.descendantOrSelf :: .step .child test preds :: later) =
          [⟨.descendantOrSelf,.node,[]⟩,⟨.child,test,evaluateAll d preds⟩] ++ evaluateSteps d later := rfl
      rw [compileSteps_merged later free,split,evalStepsEach_append]
      have pair : Alike (evalStepsEach d [⟨.descendantOrSelf,.node,[]⟩,⟨.child,test,compileAll d preds⟩] input)
          (evalStepsEach d [⟨.descendantOrSelf,.node,[]⟩,⟨.child,test,evaluateAll d preds⟩] input) :=
        evalStepsEach_alike nodes (.refl _) fun set selected =>
          (evalStepEach_alike child selected.inside).andThen _
      exact evalStepsEach_alike nodes ((merged_alike (compileAll_unplaced free) test nodes.inside).trans pair)
        fun set selected => compileSteps_alike others selected
termination_by steps.length

end steps

section expressions
variable {R : Type} [JsNumber R] {d : Document}

mutual

theorem compile_alike (e : Expr R) : (compile d e).Alike d (evaluate d e) := by
  intro n p s holds
  cases e with
  | num v | str v => exact .refl _
  | or a b | and a b =>
    refine (compile_alike a n p s holds).bind fun x _ => ?_
    split_ifs
    · exact .refl _
    · exact (compile_alike b n p s holds).andThen _
  | cmp op a b | arith op a b =>
    refine (compile_alike a n p s holds).bind fun x _ => ?_
    exact (compile_alike b n p s holds).andThen _
  | neg a => exact (compile_alike a n p s holds).andThen _
  | call function args => exact make_alike function (compileAll_alike args) n p s holds
  | union first rest =>
    refine (compile_alike first n p s holds).bind fun x _ => ?_
    refine (Alike.refl _).bind fun all _ => ?_
    exact (unionFrom_alike holds p s (compileAll_alike rest) all).andThen _
  | filter e preds =>
    refine (compile_alike e n p s holds).bind fun v evaluated => ?_
    refine (Alike.refl _).bind fun list isSet => ?_
    have nodes := compile_sound e n p s list holds (nodeSetOf_ok.mp isSet ▸ evaluated)
    exact (applyPredicates_alike (compileAll_alike preds) nodes.inside).andThen _
  | path start abs steps =>
    refine (compileStart_alike start abs n p s holds).bind fun cur started => ?_
    have nodes := compileStart_nodeSet start abs n p s cur holds started
    rw [evalSteps_each nodes]
    exact (compileSteps_alike (steps_alike steps) nodes).andThen _

theorem compileStart_alike (start : Option (Expr R)) (abs : Bool) (n : Node) (p s : Nat)
    (holds : d.Holds n) : Alike (compileStart d start abs n p s) (evaluateStart d start abs n p s) := by
  cases start with
  | none => exact .refl _
  | some e => exact (compile_alike e n p s holds).andThen _

theorem compileAll_alike (list : List (Expr R)) :
    List.Forall₂ (Closure.Alike d) (compileAll d list) (evaluateAll d list) := by
  cases list with
  | nil => exact .nil
  | cons a rest => exact .cons (compile_alike a) (compileAll_alike rest)

theorem step_alike (step : StepExpr R) : step.Alike d := by
  cases step with
  | descendantOrSelf => trivial
  | step axis test preds => exact compileAll_alike preds

theorem steps_alike (steps : List (StepExpr R)) : ∀ step ∈ steps,step.Alike d := by
  cases steps with
  | nil => simp
  | cons step rest => exact List.forall_mem_cons.mpr ⟨step_alike step,steps_alike rest⟩

end

end expressions

/-- A location path selects the same nodes with the optimisations as step by step on the whole
sets, and so any expression has the same value with them as without. -/
theorem optimisations_preserve {R : Type} [JsNumber R] (d : Document) (n : Node) (p s : Nat)
    (holds : d.Holds n) :
    (∀ (start : Option (Expr R)) (abs : Bool) (steps : List (StepExpr R)) (set : List Node),
      compile d (.path start abs steps) n p s = .ok (.nodes set) ↔
        evaluate d (.path start abs steps) n p s = .ok (.nodes set)) ∧
    ∀ (e : Expr R) (v : Value R),compile d e n p s = .ok v ↔ evaluate d e n p s = .ok v :=
  ⟨fun start abs steps set => compile_alike (.path start abs steps) n p s holds (.nodes set),
    fun e v => compile_alike e n p s holds v⟩

theorem Sample.optimisations_preserve_page :
    evaluate document followingB (.tree [0,0]) 1 1 = .ok (.nodes [.tree [1]]) :=
  ((optimisations_preserve document (.tree [0,0]) 1 1 rfl).1 none true _ [.tree [1]]).mp rfl

end Sharko.Script.XPath
