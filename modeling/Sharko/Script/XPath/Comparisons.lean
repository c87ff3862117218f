import Mathlib
import Sharko.Script.XPath.NodeSets

/-! Comparisons: some choice of nodes satisfies them, and they can be turned around. -/

namespace Sharko.Script.XPath

section
variable {R : Type} [JsNumber R] (d : Document)

/-- Booleans are the same or not, and are numbers where they are ordered. -/
def comparesBooleans (R : Type) [JsNumber R] (op : Comparison) (a b : Bool) : Prop :=
  match op with
  | .eq => a = b
  | .ne => a ≠ b
  | _ => cmpNum op (JsNumber.ofNat (if a then 1 else 0) : R) (JsNumber.ofNat (if b then 1 else 0)) = true

def comparesStrings (R : Type) [JsNumber R] (op : Comparison) (a b : JsString) : Prop :=
  match op with
  | .eq => a = b
  | .ne => a ≠ b
  | _ => cmpNum op (strToNum a : R) (strToNum b) = true

/-- Section 3.4 of XPath 1.0. -/
def Compares (op : Comparison) : Value R → Value R → Prop
  | .nodes xs,.nodes ys =>
    ∃ a ∈ xs,∃ b ∈ ys,comparesStrings R op (d.stringValue a) (d.stringValue b)
  | .nodes xs,.number v => ∃ a ∈ xs,cmpNum op (strToNum (d.stringValue a)) v = true
  | .number v,.nodes ys => ∃ b ∈ ys,cmpNum op v (strToNum (d.stringValue b)) = true
  | .nodes xs,.string v => ∃ a ∈ xs,comparesStrings R op (d.stringValue a) v
  | .string v,.nodes ys => ∃ b ∈ ys,comparesStrings R op v (d.stringValue b)
  | .nodes xs,.boolean v => comparesBooleans R op (!xs.isEmpty) v
  | .boolean v,.nodes ys => comparesBooleans R op v (!ys.isEmpty)
  | .number v,.number w => cmpNum op v w = true
  | .number v,.string w => cmpNum op v (strToNum w) = true
  | .string v,.number w => cmpNum op (strToNum v) w = true
  | .string v,.string w => comparesStrings R op v w
  | .boolean v,.boolean w => comparesBooleans R op v w
  | .boolean v,.number w =>
    match op with
    | .eq | .ne => comparesBooleans R op v (toBool (.number w : Value R))
    | _ => cmpNum op (JsNumber.ofNat (if v then 1 else 0)) w = true
  | .number v,.boolean w =>
    match op with
    | .eq | .ne => comparesBooleans R op (toBool (.number v : Value R)) w
    | _ => cmpNum op v (JsNumber.ofNat (if w then 1 else 0)) = true
  | .boolean v,.string w =>
    match op with
    | .eq | .ne => comparesBooleans R op v (!w.isEmpty)
    | _ => cmpNum op (JsNumber.ofNat (if v then 1 else 0) : R) (strToNum w) = true
  | .string v,.boolean w =>
    match op with
    | .eq | .ne => comparesBooleans R op (!v.isEmpty) w
    | _ => cmpNum op (strToNum v : R) (JsNumber.ofNat (if w then 1 else 0)) = true

/-- The loops of `compare` over two node-sets; equality looks up a set of strings. -/
def compareSets (R : Type) [JsNumber R] (op : Comparison) (x y : List Node) : Bool :=
  let strs := y.map d.stringValue
  x.any fun a =>
    if op = .eq then strs.contains (d.stringValue a)
    else strs.any fun s => cmpPrim d op (.string (d.stringValue a) : Value R) (.string s)

def Comparison.mirror : Comparison → Comparison
  | .lt => .gt
  | .le => .ge
  | .gt => .lt
  | .ge => .le
  | op => op

variable {d}

theorem compareSets_eq (op : Comparison) (x y : List Node) :
    compareSets d R op x y = compare d op (.nodes x : Value R) (.nodes y) := by
  show x.any _ = x.any _
  congr 1
  funext a
  rw [List.any_map]
  split_ifs with same
  · subst same
    rw [List.contains_eq_any_beq,List.any_map]
    rfl
  · rfl

theorem prim_strings (op : Comparison) (a b : JsString) :
    cmpPrim d op (.string a : Value R) (.string b) = true ↔ comparesStrings R op a b := by
  cases op <;> simp [cmpPrim,sameValue,comparesStrings,toStr,toNum]

theorem prim_booleans (op : Comparison) (a b : Bool) :
    cmpPrim d op (.boolean a : Value R) (.boolean b) = true ↔ comparesBooleans R op a b := by
  cases op <;> simp [cmpPrim,sameValue,comparesBooleans,toBool,toNum]

theorem compare_iff (op : Comparison) (x y : Value R) : compare d op x y = true ↔ Compares d op x y := by
  cases x <;> cases y
  case nodes.nodes | nodes.string | string.nodes =>
    simp only [compare,Compares,List.any_eq_true,prim_strings]
  case nodes.boolean | boolean.nodes | boolean.boolean => exact prim_booleans op _ _
  case string.string => exact prim_strings op _ _
  all_goals cases op <;> simp [compare,Compares,cmpPrim,sameValue,comparesBooleans,cmpNum,toNum,toBool]

theorem cmpNum_mirror (symm : ∀ v w : R,JsNumber.eq v w = JsNumber.eq w v) (op : Comparison) (a b : R) :
    cmpNum op a b = cmpNum op.mirror b a := by
  cases op <;> simp only [cmpNum,Comparison.mirror,symm a b]

theorem cmpPrim_mirror (symm : ∀ v w : R,JsNumber.eq v w = JsNumber.eq w v) (op : Comparison)
    (x y : Value R) : cmpPrim d op x y = cmpPrim d op.mirror y x := by
  have same : sameValue d x y = sameValue d y x := by
    cases x <;> cases y <;> simp only [sameValue,symm] <;> exact Bool.beq_comm
  have numbers := cmpNum_mirror symm op (toNum d x) (toNum d y)
  cases op with
  | eq => exact same
  | ne => exact congrArg (! ·) same
  | lt | le | gt | ge => exact numbers

theorem compare_mirror (symm : ∀ v w : R,JsNumber.eq v w = JsNumber.eq w v) (op : Comparison)
    (x y : Value R) : compare d op x y = compare d op.mirror y x := by
  cases x <;> cases y <;> simp only [compare,cmpPrim_mirror symm op]
  case nodes.nodes xs ys =>
    rw [Bool.eq_iff_iff]
    simp only [List.any_eq_true]
    exact ⟨fun ⟨a,m,b,m',h⟩ => ⟨b,m',a,m,h⟩,fun ⟨b,m',a,m,h⟩ => ⟨a,m,b,m',h⟩⟩

/-- Comparisons are those of the language, two node-sets may be compared by a set of strings, and
a comparison says the same from right to left. -/
theorem comparisons (symm : ∀ v w : R,JsNumber.eq v w = JsNumber.eq w v) (d : Document) :
    (∀ (op : Comparison) (x y : Value R),compare d op x y = true ↔ Compares d op x y) ∧
    (∀ (op : Comparison) (x y : List Node),
      compare d op (.nodes x : Value R) (.nodes y) = compareSets d R op x y) ∧
    ∀ (op : Comparison) (x y : Value R),compare d op x y = compare d op.mirror y x :=
  ⟨compare_iff,fun op x y => (compareSets_eq op x y).symm,compare_mirror symm⟩

theorem Sample.eq_symm (v w : Option Int) : JsNumber.eq v w = JsNumber.eq w v := by
  cases v <;> cases w <;> simp [JsNumber.eq,Bool.beq_comm]

/-- Without text the node is not a number, neither below 1 nor the other way around. -/
theorem Sample.comparisons_page : compare document .lt (.nodes [.tree [1]]) (.number (some 1 : Option Int)) =
      compare document .gt (.number (some 1 : Option Int)) (.nodes [.tree [1]]) :=
  (comparisons eq_symm document).2.2 .lt _ _

end

end Sharko.Script.XPath
