import Mathlib
import Sharko.Library.Outcomes
import Sharko.Script.XPath.NodeSets

/-! The evaluation of expressions without optimisations: every step as it is written, from every
node of its input. -/

namespace Sharko.Script.XPath
open Library

section
variable {R : Type} [JsNumber R] (d : Document)

def evalStepEach (step : Step R) (input : List Node) : Except XPathError (List Node) := do
  return d.docOrder (← input.mapM (stepFrom d step)).flatten

def evalStepsEach : List (Step R) → List Node → Except XPathError (List Node)
  | [],cur => .ok cur
  | step :: rest,cur => do
    let cur ← evalStepEach d step cur
    evalStepsEach rest cur

mutual

def evaluate : Expr R → Closure R
  | .num v => constant (.number v)
  | .str v => constant (.string v)
  | .or a b => fun n p s => do
    if toBool (← evaluate a n p s) then return .boolean Bool.true
    return .boolean (toBool (← evaluate b n p s))
  | .and a b => fun n p s => do
    if !toBool (← evaluate a n p s) then return .boolean Bool.false
    return .boolean (toBool (← evaluate b n p s))
  | .cmp op a b => fun n p s => do
    let x ← evaluate a n p s
    let y ← evaluate b n p s
    return .boolean (compare d op x y)
  | .neg a => fun n p s => do return .number (JsNumber.neg (toNum d (← evaluate a n p s)))
  | .arith op a b => fun n p s => do
    let x ← evaluate a n p s
    let y ← evaluate b n p s
    return .number (arithmetic op (toNum d x) (toNum d y))
  | .union first rest => fun n p s => do
    let all ← nodeSetOf (← evaluate first n p s)
    return .nodes (← unionFrom d n p s all (evaluateAll rest))
  | .call function args => function.make d (evaluateAll args)
  | .filter e preds => fun n p s => do
    let list ← nodeSetOf (← evaluate e n p s)
    return .nodes (← applyPredicates (evaluateAll preds) list)
  | .path start abs steps => fun n p s => do
    let cur ← evaluateStart start abs n p s
    return .nodes (← evalStepsEach d (evaluateSteps steps) cur)

def evaluateStart : Option (Expr R) → Bool → Node → Nat → Nat → Except XPathError (List Node)
  | none,abs => fun n _ _ => .ok [if abs then d.rootOf n else n]
  | some start,_ => fun n p s => do nodeSetOf (← evaluate start n p s)

def evaluateAll : List (Expr R) → List (Closure R)
  | [] => []
  | a :: rest => evaluate a :: evaluateAll rest

def evaluateStep : StepExpr R → Step R
  | .descendantOrSelf => ⟨.descendantOrSelf,.node,[]⟩
  | .step axis test preds => ⟨axis,test,evaluateAll preds⟩

def evaluateSteps : List (StepExpr R) → List (Step R)
  | [] => []
  | step :: rest => evaluateStep step :: evaluateSteps rest

end

/-- On the nodes of the document. -/
def Closure.Alike (c c' : Closure R) : Prop :=
  ∀ n p s,d.Holds n → Library.Alike (c n p s) (c' n p s)

end

section congruence
variable {R : Type} [JsNumber R] {d : Document}

theorem applyFrom_alike {c c' : Closure R} (alike : c.Alike d c') {list : List Node}
    (holds : ∀ n ∈ list,d.Holds n) (size i : Nat) :
    Alike (applyFrom c size i list) (applyFrom c' size i list) := by
  induction list generalizing i with
  | nil => exact .refl _
  | cons n rest ih =>
    obtain ⟨first,later⟩ := List.forall_mem_cons.mp holds
    exact (alike n (i + 1) size first).bind fun v _ => (ih later (i + 1)).andThen _

theorem applyPredicates_alike {cs cs' : List (Closure R)}
    (alike : List.Forall₂ (Closure.Alike d) cs cs') {list : List Node}
    (holds : ∀ n ∈ list,d.Holds n) : Alike (applyPredicates cs list) (applyPredicates cs' list) := by
  induction alike generalizing list with
  | nil => exact .refl _
  | cons first _ ih =>
    unfold applyPredicates
    split
    · exact .refl _
    · refine (applyFrom_alike first holds list.length 0).bind fun kept applied => ih ?_
      intro n member
      exact holds n ((applyFrom_sublist applied).subset member)

theorem collect_holds {axis : Axis} {test : Test} {n : Node} (holds : d.Holds n) :
    ∀ m ∈ d.collect axis test n,d.Holds m := by
  have nodes := collect_nodesOn axis test holds
  unfold Document.NodesOn at nodes
  intro m member
  apply nodes.inside m
  split
  · exact List.mem_reverse.mpr member
  · exact member

theorem evalStepEach_alike {axis : Axis} {test : Test} {cs cs' : List (Closure R)}
    (alike : List.Forall₂ (Closure.Alike d) cs cs') {input : List Node} (holds : ∀ n ∈ input,d.Holds n) :
    Alike (evalStepEach d ⟨axis,test,cs⟩ input) (evalStepEach d ⟨axis,test,cs'⟩ input) := by
  have each : ∀ n ∈ input,Alike (stepFrom d ⟨axis,test,cs⟩ n) (stepFrom d ⟨axis,test,cs'⟩ n) := by
    intro n member
    exact (applyPredicates_alike alike (collect_holds (holds n member))).andThen _
  exact (Alike.mapM each).andThen _

omit [JsNumber R] in
theorem unionFrom_alike {n : Node} (holds : d.Holds n) (p s : Nat) {cs cs' : List (Closure R)}
    (alike : List.Forall₂ (Closure.Alike d) cs cs') (all : List Node) :
    Alike (unionFrom d n p s all cs) (unionFrom d n p s all cs') := by
  induction alike generalizing all with
  | nil => exact .refl _
  | cons first _ ih =>
    refine (first n p s holds).bind fun v _ => ?_
    exact (Alike.refl _).bind fun set _ => ih _

omit [JsNumber R] in
theorem args_alike {n : Node} (holds : d.Holds n) (p s : Nat) {cs cs' : List (Closure R)}
    (alike : List.Forall₂ (Closure.Alike d) cs cs') :
    Alike (cs.mapM fun c => c n p s) (cs'.mapM fun c => c n p s) := by
  induction alike with
  | nil => exact .refl _
  | cons first _ ih =>
    rw [List.mapM_cons,List.mapM_cons]
    exact (first n p s holds).bind fun v _ => ih.andThen _

omit [JsNumber R] in
theorem strict_alike (f : List (Value R) → Node → Except XPathError (Value R))
    {cs cs' : List (Closure R)} (alike : List.Forall₂ (Closure.Alike d) cs cs') :
    (strict f cs).Alike d (strict f cs') :=
  fun n p s holds => (args_alike holds p s alike).andThen _

theorem make_alike (function : Function) {cs cs' : List (Closure R)}
    (alike : List.Forall₂ (Closure.Alike d) cs cs') : (function.make d cs).Alike d (function.make d cs') := by
  cases function with
  | last | position | true | false => exact fun _ _ _ _ => .refl _
  | _ => exact strict_alike _ alike

end congruence

end Sharko.Script.XPath
