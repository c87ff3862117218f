import Mathlib
import Sharko.Library.Contraction
import Sharko.Script.Dom.NodeIterators

/-! `TreeWalker`: its seven moves, and the tree of accepted nodes that they all describe. -/

namespace Sharko.Script.Dom.TreeWalkers

open Sharko.Library NodeTree
open NodeIterators (climb)

inductive Verdict where
  | accept
  | reject
  | skip
  deriving DecidableEq

/-- A walker on nodes of given types; a filter is a function of the node alone. -/
structure TreeWalker where
  nodeType : ℕ → ℕ
  root : ℕ
  whatToShow : ℕ
  filter : Option (ℕ → Verdict)
  currentNode : ℕ

def runFilter (w : TreeWalker) (id : ℕ) : Verdict :=
  if !w.whatToShow.testBit (w.nodeType id - 1) then .skip
  else
    match w.filter with
    | none => .accept
    | some filter => filter id

section moves

variable (t : NodeTree)

def child (first : Bool) (id : ℕ) : Option ℕ := if first then firstChild t id else lastChild t id

def sibling (next : Bool) (id : ℕ) : Option ℕ := if next then nextSibling t id else prevSibling t id

variable (root : ℕ) (f : ℕ → Verdict)

def parentLoop : List ℕ → Option ℕ
  | [] => none
  | node :: up =>
    if node = root then none
    else
      match up with
      | [] => none
      | p :: _ => if f p = .accept then some p else parentLoop up

/-- The loop that tests one node after the other: below a skipped node first, and otherwise where
the way leads that leaves the node. None without fuel, `some none` where it returns null. -/
def scan (child leave : ℕ → Option ℕ) : ℕ → ℕ → Option (Option ℕ)
  | 0,_ => none
  | fuel + 1,node =>
    match f node with
    | .accept => some (some node)
    | .reject =>
      match leave node with
      | none => some none
      | some next => scan child leave fuel next
    | .skip =>
      match (child node).or (leave node) with
      | none => some none
      | some next => scan child leave fuel next

def scanFrom (child leave : ℕ → Option ℕ) (fuel : ℕ) : Option ℕ → Option (Option ℕ)
  | none => some none
  | some node => scan f child leave fuel node

def leaveChildren (first : Bool) (cur : ℕ) : List ℕ → Option ℕ
  | [] => none
  | node :: up =>
    match sibling t first node with
    | some sib => some sib
    | none =>
      match up with
      | [] => none
      | p :: _ => if p = root ∨ p = cur then none else leaveChildren first cur up

def leaveParents (next : Bool) : List ℕ → Option ℕ
  | [] => none
  | p :: up =>
    if p = root then none
    else if f p = .accept then none
    else
      match sibling t next p with
      | some sib => some sib
      | none => leaveParents next up

def leaveSiblings (next : Bool) (node : ℕ) : Option ℕ :=
  (sibling t next node).or (leaveParents t root f next (t.ancestors node))

def plunge : ℕ → ℕ → ℕ
  | 0,node => node
  | fuel + 1,node =>
    if f node = .reject then node
    else
      match lastChild t node with
      | some c => plunge fuel c
      | none => node

def previousLoop : ℕ → ℕ → Option (Option ℕ)
  | 0,_ => none
  | fuel + 1,node =>
    match prevSibling t node with
    | some sib =>
      let down := plunge t f t.nodes.length sib
      if f down = .accept then some (some down) else previousLoop fuel down
    | none =>
      if node = root then some none
      else
        match parent t node with
        | none => some none
        | some p =>
          if f p = .accept then some (some p)
          else if p = root then some none
          else previousLoop fuel p

end moves

section methods

variable (t : NodeTree) (w : TreeWalker)

def parentNode : Option (Option ℕ) :=
  some (parentLoop w.root (runFilter w) (w.currentNode :: t.ancestors w.currentNode))

def children (first : Bool) : Option (Option ℕ) :=
  scanFrom (runFilter w) (child t first)
    (fun node => leaveChildren t w.root first w.currentNode (node :: t.ancestors node))
    t.nodes.length (child t first w.currentNode)

def firstChild : Option (Option ℕ) := children t w true

def lastChild : Option (Option ℕ) := children t w false

def siblings (next : Bool) : Option (Option ℕ) :=
  if w.currentNode = w.root then some none
  else
    let leave := leaveSiblings t w.root (runFilter w) next
    scanFrom (runFilter w) (child t next) leave t.nodes.length (leave w.currentNode)

def nextSibling : Option (Option ℕ) := siblings t w true

def previousSibling : Option (Option ℕ) := siblings t w false

def previousNode : Option (Option ℕ) :=
  if w.currentNode = w.root then some none
  else previousLoop t w.root (runFilter w) t.nodes.length w.currentNode

def nextNode : Option (Option ℕ) :=
  let leave node := climb t w.root (node :: t.ancestors node)
  scanFrom (runFilter w) (child t true) leave t.nodes.length
    ((child t true w.currentNode).or (leave w.currentNode))

def nextNodes : ℕ → TreeWalker → List (Option (Option ℕ))
  | 0,_ => []
  | n + 1,w =>
    nextNode t w ::
      nextNodes n (match nextNode t w with
        | some (some id) => { w with currentNode := id }
        | _ => w)

end methods

def createTreeWalker (nodeType : ℕ → ℕ) (root whatToShow : ℕ) (filter : Option (ℕ → Verdict)) :
    TreeWalker := ⟨nodeType,root,whatToShow,filter,root⟩

section logical

def accepts (f : ℕ → Verdict) (id : ℕ) : Bool := f id == .accept

def rejects (f : ℕ → Verdict) (id : ℕ) : Bool := f id == .reject

/-- The accepted nodes below the root, with the skipped ones contracted into their children and
without the subtrees of the rejected ones. -/
def logical (t : NodeTree) (root : ℕ) (f : ℕ → Verdict) : NodeTree :=
  (t.children root).contract (accepts f) (rejects f)

end logical

section scans

variable {f : ℕ → Verdict} {h : NodeTree} {child sibling leave : ℕ → Option ℕ} {stop : ℕ → Bool}

/-- The moves to a child and to a sibling are those of a forest. -/
structure Reads (child sibling : ℕ → Option ℕ) (h : NodeTree) : Prop where
  nodup : h.nodes.Nodup
  child : ∀ x ∈ h.nodes, child x = (h.children x).first
  sibling : ∀ x ∈ h.nodes, sibling x = h.nextOf x

def reach (h : NodeTree) (stop : ℕ → Bool) (y : ℕ) : List ℕ :=
  y :: (h.ancestors y).takeWhile fun p => !stop p

def behind (f : ℕ → Verdict) (h : NodeTree) (l : List ℕ) : Option ℕ :=
  l.findSome? fun y => ((h.later y).contract (accepts f) (rejects f)).first

def aim (f : ℕ → Verdict) (h : NodeTree) (stop : ℕ → Bool) (y : ℕ) : Option ℕ :=
  ((Forest.cons y (h.children y) .nil).contract (accepts f) (rejects f)).first.or
    (behind f h (reach h stop y))

def remaining (h : NodeTree) (y : ℕ) : ℕ :=
  ((y :: h.ancestors y).map fun z => (h.later z).nodes.length).sum

theorem reach_all (h : NodeTree) (y : ℕ) : reach h (fun _ => false) y = y :: h.ancestors y := by
  rw [reach]
  exact congrArg _ (List.takeWhile_eq_self_iff.mpr fun _ _ => rfl)

theorem never_stops (f : ℕ → Verdict) (y : ℕ) (stops : (fun _ : ℕ => false) y = true) : f y = .accept := by
  cases stops

theorem reach_inside {y : ℕ} (inside : y ∈ h.nodes) : ∀ z ∈ reach h stop y, z ∈ h.nodes := by
  intro z up
  apply Forest.upwards_inside inside z
  exact ((List.takeWhile_sublist fun p => !stop p).cons_cons y).subset up

theorem behind_cons (f : ℕ → Verdict) (h : NodeTree) (y : ℕ) (l : List ℕ) : behind f h (y :: l) =
      ((h.later y).contract (accepts f) (rejects f)).first.or (behind f h l) := by
  rw [behind,List.findSome?_cons,behind]
  cases ((h.later y).contract (accepts f) (rejects f)).first <;> rfl

theorem reach_up (nodup : h.nodes.Nodup) {y p : ℕ} {up : List ℕ} (above : h.ancestors y = p :: up)
    (goes : stop p = false) : reach h stop y = y :: reach h stop p := by
  rw [reach,reach,above,Forest.ancestors_parent nodup above,List.takeWhile_cons_of_pos (by simp [goes])]

theorem remaining_up (nodup : h.nodes.Nodup) {y p : ℕ} {up : List ℕ} (above : h.ancestors y = p :: up) :
    remaining h y = (h.later y).nodes.length + remaining h p := by
  rw [remaining,remaining,above,Forest.ancestors_parent nodup above,List.map_cons,List.sum_cons]

theorem aim_sibling (nodup : h.nodes.Nodup) {y s : ℕ} {c n : NodeTree} (inside : y ∈ h.nodes)
    (next : h.later y = .cons s c n) : behind f h (reach h stop y) = aim f h stop s ∧
      (h.children s).nodes.length + remaining h s < remaining h y := by
  obtain ⟨-,children,siblings,up⟩ := Forest.places_later nodup inside next
  constructor
  · rw [aim,reach,reach,behind_cons,behind_cons,next,children,siblings,up,Forest.contract_cons,
      Forest.first_append,Option.or_assoc]
  · rw [remaining,remaining,up,List.map_cons,List.map_cons,List.sum_cons,List.sum_cons,next,children,
      siblings,Forest.nodes_cons,List.length_cons,List.length_append]
    omega

theorem aim_child (nodup : h.nodes.Nodup) {y c : ℕ} {cs ls : NodeTree} (inside : y ∈ h.nodes)
    (goes : stop y = false) (first : h.children y = .cons c cs ls) :
    ((h.children y).contract (accepts f) (rejects f)).first.or (behind f h (reach h stop y)) = aim f h stop c ∧
      (h.children c).nodes.length + remaining h c < (h.children y).nodes.length + remaining h y := by
  obtain ⟨-,children,siblings,up⟩ := Forest.places_children nodup inside first
  constructor
  · rw [aim,reach_up nodup up goes,behind_cons,first,children,siblings,Forest.contract_cons,
      Forest.first_append,Option.or_assoc]
  · rw [remaining_up nodup up,first,children,siblings,Forest.nodes_cons,List.length_cons,
      List.length_append]
    omega

theorem aim_leave (nodup : h.nodes.Nodup) {y : ℕ} (inside : y ∈ h.nodes) :
    (((reach h stop y).findSome? fun z => h.nextOf z) = none ∧ behind f h (reach h stop y) = none) ∨
      ∃ s ∈ h.nodes, ((reach h stop y).findSome? fun z => h.nextOf z) = some s ∧
        behind f h (reach h stop y) = aim f h stop s ∧
        (h.children s).nodes.length + remaining h s < remaining h y := by
  -- over the height of the node
  induction height : (h.ancestors y).length using Nat.strong_induction_on generalizing y with
  | _ k ih =>
    cases next : h.later y with
    | cons s c n =>
      right
      refine ⟨s,(Forest.places_later nodup inside next).1,?_,aim_sibling nodup inside next⟩
      rw [reach,List.findSome?_cons,Forest.nextOf_later,next]
      rfl
    | nil =>
      have here : h.nextOf y = none := by
        rw [Forest.nextOf_later,next]
        rfl
      have skips : ∀ l, ((y :: l).findSome? fun z => h.nextOf z) = (l.findSome? fun z => h.nextOf z) ∧
          behind f h (y :: l) = behind f h l := by
        intro l
        rw [List.findSome?_cons,here,behind_cons,next]
        exact ⟨rfl,rfl⟩
      have alone : h.ancestors y = [] ∨ (∃ p up, h.ancestors y = p :: up ∧ stop p = true) →
          reach h stop y = [y] := by
        rintro (top | ⟨p,up,above,stops⟩)
        · rw [reach,top,List.takeWhile_nil]
        · rw [reach,above,List.takeWhile_cons_of_neg (by simp [stops])]
      cases above : h.ancestors y with
      | nil =>
        rw [alone (.inl above),(skips []).1,(skips []).2]
        exact .inl ⟨rfl,rfl⟩
      | cons p up =>
        cases stops : stop p with
        | true =>
          rw [alone (.inr ⟨p,up,above,stops⟩),(skips []).1,(skips []).2]
          exact .inl ⟨rfl,rfl⟩
        | false =>
          have there : p ∈ h.nodes := Forest.ancestors_subset (above ▸ List.mem_cons_self)
          have shorter : (h.ancestors p).length < k := by
            rw [← height,above,Forest.ancestors_parent nodup above,List.length_cons]
            omega
          rw [reach_up nodup above stops,(skips _).1,(skips _).2]
          rcases ih _ shorter there rfl with none_ | ⟨s,insideS,found,same,less⟩
          · exact .inl none_
          · refine .inr ⟨s,insideS,found,same,?_⟩
            rw [remaining_up nodup above]
            omega

theorem scan_eq (reads : Reads child sibling h)
    (leaves : ∀ y ∈ h.nodes, leave y = (reach h stop y).findSome? fun z => h.nextOf z)
    (stops : ∀ y, stop y = true → f y = .accept) (fuel : ℕ) {y : ℕ} (inside : y ∈ h.nodes)
    (enough : (h.children y).nodes.length + remaining h y < fuel) :
    scan f child leave fuel y = some (aim f h stop y) := by
  induction fuel generalizing y with
  | zero => exact absurd enough (Nat.not_lt_zero _)
  | succ fuel ih =>
    have left : (match leave y with
        | none => some none
        | some next => scan f child leave fuel next) = some (behind f h (reach h stop y)) := by
      rw [leaves y inside]
      rcases aim_leave (f := f) reads.nodup inside with ⟨found,none_⟩ | ⟨s,insideS,found,same,less⟩
      · rw [found,none_]
      · rw [found,same]
        exact ih insideS (by omega)
    rw [scan]
    cases verdict : f y with
    | accept => simp [aim,Forest.contract,accepts,rejects,verdict,Forest.first]
    | reject => simpa [aim,Forest.contract,accepts,rejects,verdict,Forest.first] using left
    | skip =>
      have goes : stop y = false := by
        by_contra there
        have accepted := stops y (by simpa using there)
        rw [verdict] at accepted
        cases accepted
      have target : aim f h stop y =
          ((h.children y).contract (accepts f) (rejects f)).first.or
            (behind f h (reach h stop y)) := by
        simp [aim,Forest.contract,accepts,rejects,verdict]
      rw [target,reads.child y inside]
      cases first : h.children y with
      | nil => simpa [Forest.first,Forest.contract] using left
      | cons c cs ls =>
        obtain ⟨same,less⟩ := aim_child (f := f) reads.nodup inside goes first
        rw [← first,same,first]
        exact ih (Forest.places_children reads.nodup inside first).1 (by omega)

theorem remaining_lt (nodup : h.nodes.Nodup) {y : ℕ} (inside : y ∈ h.nodes) :
    (h.children y).nodes.length + remaining h y < h.nodes.length := by
  have places := Forest.length_places nodup inside
  have counted : ∀ l : List ℕ, (l.map fun z => (h.later z).nodes.length + 1).sum =
      (l.map fun z => (h.later z).nodes.length).sum + l.length := by
    intro l
    induction l with
    | nil => rfl
    | cons z l ih =>
      rw [List.map_cons,List.map_cons,List.sum_cons,List.sum_cons,ih,List.length_cons]
      omega
  rw [counted,List.length_cons] at places
  rw [remaining]
  omega

section runs

variable (reads : Reads child sibling h)
  (leaves : ∀ y ∈ h.nodes, leave y = (reach h stop y).findSome? fun z => h.nextOf z)
  (stops : ∀ y, stop y = true → f y = .accept) {fuel : ℕ} (enough : h.nodes.length ≤ fuel)
include reads leaves stops enough

theorem scanFrom_first :
    scanFrom f child leave fuel h.first = some (h.contract (accepts f) (rejects f)).first := by
  cases top : h with
  | nil => rfl
  | cons s c n =>
    have inside : s ∈ h.nodes := by
      rw [top]
      exact List.mem_cons_self
    have found := scan_eq reads leaves stops fuel inside
      ((remaining_lt reads.nodup inside).trans_le enough)
    have target : aim f h stop s = (h.contract (accepts f) (rejects f)).first := by
      rw [aim,reach,top,Forest.children_cons,if_pos rfl,Forest.ancestors_self,List.takeWhile_nil,
        behind_cons,Forest.later_self,Forest.contract_cons _ _ s c n,Forest.first_append,behind,
        List.findSome?_nil,Option.or_none]
    have start : h.first = some s := by rw [top,Forest.first]
    rw [← top,← target,start]
    exact found

theorem scanFrom_leave {x : ℕ} (inside : x ∈ h.nodes) :
    scanFrom f child leave fuel (leave x) = some (behind f h (reach h stop x)) := by
  rw [leaves x inside]
  rcases aim_leave (f := f) reads.nodup inside with ⟨found,none_⟩ | ⟨s,insideS,found,same,less⟩
  · rw [found,none_]
    rfl
  · rw [found,same]
    exact scan_eq reads leaves stops fuel insideS
      ((remaining_lt reads.nodup insideS).trans_le enough)

theorem scanFrom_next {x : ℕ} (inside : x ∈ h.nodes) (goes : stop x = false) :
    scanFrom f child leave fuel ((child x).or (leave x)) =
      some (((h.children x).contract (accepts f) (rejects f)).first.or (behind f h (reach h stop x))) := by
  have left := scanFrom_leave reads leaves stops enough inside
  rw [reads.child x inside]
  cases first : h.children x with
  | nil => exact left
  | cons c cs ls =>
    have insideC := (Forest.places_children reads.nodup inside first).1
    rw [← first,(aim_child (f := f) reads.nodup inside goes first).1,first]
    exact scan_eq reads leaves stops fuel insideC
      ((remaining_lt reads.nodup insideC).trans_le enough)

end runs

end scans

section sides

variable {t : NodeTree} {root cur x : ℕ} {f : ℕ → Verdict}

def side (first : Bool) (g : NodeTree) : NodeTree := if first then g else g.mirror

theorem side_perm (first : Bool) (g : NodeTree) : (side first g).nodes.Perm g.nodes := by
  cases first with
  | true => exact List.Perm.refl _
  | false => exact Forest.mirror_perm g

theorem side_contract (first : Bool) (g : NodeTree) (keep cut : ℕ → Bool) :
    (side first g).contract keep cut = side first (g.contract keep cut) := by
  cases first with
  | true => rfl
  | false => exact Forest.contract_mirror g

theorem child_eq (t : NodeTree) (first : Bool) (cur : ℕ) :
    child t first cur = (side first (t.children cur)).first := by
  cases first with
  | true => rfl
  | false => exact (Forest.first_mirror _).symm

section below

variable (nodup : t.nodes.Nodup) (inside : cur ∈ t.nodes) (first : Bool)
include nodup inside

theorem reads_side : Reads (child t first) (sibling t first) (side first (t.children cur)) where
  nodup := (side_perm first _).nodup_iff.mpr (nodup.sublist (Forest.children_sublist cur t))
  child := by
    intro x there
    have below := (side_perm first _).mem_iff.mp there
    have nodupBelow := nodup.sublist (Forest.children_sublist cur t)
    cases first with
    | true => exact firstChild_below nodup inside below
    | false =>
      rw [side,if_neg Bool.false_ne_true,Forest.children_mirror nodupBelow below,Forest.first_mirror]
      exact lastChild_below nodup inside below
  sibling := by
    intro x there
    have below := (side_perm first _).mem_iff.mp there
    have nodupBelow := nodup.sublist (Forest.children_sublist cur t)
    cases first with
    | true => exact nextSibling_below nodup inside below
    | false =>
      rw [side,if_neg Bool.false_ne_true,Forest.nextOf_mirror nodupBelow below]
      exact prevSibling_below nodup inside below

theorem ancestors_side (below : x ∈ (t.children cur).nodes) :
    t.ancestors x = (side first (t.children cur)).ancestors x ++ cur :: t.ancestors cur := by
  rw [ancestors_subtree nodup inside below]
  cases first with
  | true => rfl
  | false =>
    rw [side,if_neg Bool.false_ne_true,
      Forest.ancestors_mirror (nodup.sublist (Forest.children_sublist cur t)) below]

end below

theorem leaveChildren_eq (first : Bool) {y : ℕ} {up upper : List ℕ} (away : ∀ p ∈ up, p ≠ root ∧ p ≠ cur) :
    leaveChildren t root first cur (y :: (up ++ cur :: upper)) =
      (y :: up).findSome? fun z => sibling t first z := by
  induction up generalizing y with
  | nil =>
    rw [List.nil_append,leaveChildren,List.findSome?_cons]
    cases sibling t first y <;> simp
  | cons p up ih =>
    obtain ⟨notRoot,notCur⟩ := away p List.mem_cons_self
    rw [List.cons_append,leaveChildren,List.findSome?_cons,if_neg (by simp [notRoot,notCur]),
      ih fun z there => away z (List.mem_cons_of_mem p there)]
    cases sibling t first y <;> rfl

theorem leaveParents_eq (next : Bool) {up upper : List ℕ} (away : ∀ p ∈ up, p ≠ root) :
    leaveParents t root f next (up ++ root :: upper) =
      (up.takeWhile fun p => !accepts f p).findSome? fun z => sibling t next z := by
  induction up with
  | nil => simp [leaveParents]
  | cons p up ih =>
    rw [List.cons_append,leaveParents,if_neg (away p List.mem_cons_self)]
    cases accepted : accepts f p with
    | true =>
      have verdict : f p = .accept := by simpa [accepts] using accepted
      rw [if_pos verdict,List.takeWhile_cons_of_neg (by simp [accepted])]
      rfl
    | false =>
      have verdict : f p ≠ .accept := by simpa [accepts] using accepted
      rw [if_neg verdict,List.takeWhile_cons_of_pos (by simp [accepted]),List.findSome?_cons,
        ih fun z there => away z (List.mem_cons_of_mem p there)]
      cases sibling t next p <;> rfl

theorem parentLoop_eq {y : ℕ} {up upper : List ℕ} (away : ∀ p ∈ y :: up, p ≠ root) :
    parentLoop root f (y :: (up ++ root :: upper)) =
      (up.filter (accepts f)).head?.or (if accepts f root then some root else none) := by
  induction up generalizing y with
  | nil =>
    rw [List.nil_append,parentLoop,if_neg (away y List.mem_cons_self)]
    cases verdict : f root <;> simp [accepts,verdict,parentLoop]
  | cons p up ih =>
    rw [List.cons_append,parentLoop,if_neg (away y List.mem_cons_self),
      ih fun z there => away z (List.mem_cons_of_mem y there)]
    cases verdict : f p <;> simp [accepts,verdict]

end sides

section back

variable {t : NodeTree} {root : ℕ} {f : ℕ → Verdict} (nodup : t.nodes.Nodup) (inside : root ∈ t.nodes)

def backwards (t : NodeTree) (root : ℕ) : NodeTree := side false (t.children root)

/-- What `previousNode` comes to from a node on, where all in front has been rejected or skipped. -/
def passing (t : NodeTree) (root : ℕ) (f : ℕ → Verdict) (y : ℕ) : Option ℕ :=
  Forest.passed (accepts f) (rejects f) (backwards t root)
    (if accepts f root then some root else none) (y :: (backwards t root).ancestors y)

def plunging (t : NodeTree) (root : ℕ) (f : ℕ → Verdict) (s : ℕ) : Option ℕ :=
  ((Forest.cons s ((backwards t root).children s) .nil).contract (accepts f) (rejects f)).foot.or
    (passing t root f s)

def height (t : NodeTree) (root y : ℕ) : ℕ :=
  ((y :: (backwards t root).ancestors y).map fun z => ((backwards t root).later z).nodes.length + 1).sum

include nodup inside

theorem reads_back : Reads (child t false) (sibling t false) (backwards t root) :=
  reads_side nodup inside false

theorem height_up {y p : ℕ} {up : List ℕ} (above : (backwards t root).ancestors y = p :: up) :
    height t root y = ((backwards t root).later y).nodes.length + 1 + height t root p := by
  rw [height,height,above,Forest.ancestors_parent (reads_back nodup inside).nodup above,List.map_cons,
    List.sum_cons]

theorem passing_up {y p : ℕ} {up : List ℕ} (above : (backwards t root).ancestors y = p :: up) :
    passing t root f y = (((backwards t root).later y).contract (accepts f) (rejects f)).foot.or
        (if accepts f p then some p else passing t root f p) := by
  rw [passing,passing,above,Forest.ancestors_parent (reads_back nodup inside).nodup above,
    Forest.passed_cons_cons]

theorem plunging_child {s c : ℕ} {cs ls : NodeTree} (there : s ∈ (backwards t root).nodes)
    (goes : f s ≠ .reject) (first : (backwards t root).children s = .cons c cs ls) :
    plunging t root f s = plunging t root f c ∧ height t root c + ((backwards t root).children c).nodes.length =
        height t root s + ((backwards t root).children s).nodes.length := by
  obtain ⟨-,children,siblings,up⟩ :=
    Forest.places_children (reads_back nodup inside).nodup there first
  constructor
  · have spared : rejects f s = false := by simpa [rejects] using goes
    rw [plunging,plunging,passing_up nodup inside up,siblings,children,first]
    cases accepted : accepts f s with
    | true =>
      rw [Forest.contract_keep _ _ spared accepted,Forest.foot,Forest.contract_cons _ _ c cs ls,
        Forest.foot_append,if_pos rfl]
      cases ((Forest.cons c cs .nil).contract (accepts f) (rejects f)).foot with
      | some d => rfl
      | none => cases (ls.contract (accepts f) (rejects f)).foot <;> rfl
    | false =>
      rw [Forest.contract_skip _ _ spared accepted,Forest.contract_cons _ _ c cs ls,
        Forest.foot_append,Forest.foot_append,if_neg Bool.false_ne_true,Forest.contract,
        Forest.foot,Option.or_none,Option.or_assoc]
  · rw [height_up nodup inside up,children,siblings,first,Forest.nodes_cons,List.length_cons,
      List.length_append]
    omega

theorem passing_sibling {y s : ℕ} {c n : NodeTree} (there : y ∈ (backwards t root).nodes)
    (next : (backwards t root).later y = .cons s c n) : passing t root f y = plunging t root f s ∧
      height t root s + ((backwards t root).children s).nodes.length < height t root y := by
  obtain ⟨-,children,siblings,up⟩ := Forest.places_later (reads_back nodup inside).nodup there next
  constructor
  · rw [plunging,passing,passing,up,children]
    cases (backwards t root).ancestors y with
    | nil =>
      rw [Forest.passed,Forest.passed,next,siblings,Forest.contract_cons _ _ s c n,
        Forest.foot_append,Option.or_assoc]
    | cons p up =>
      rw [Forest.passed_cons_cons,Forest.passed_cons_cons,next,siblings,
        Forest.contract_cons _ _ s c n,Forest.foot_append,Option.or_assoc]
  · rw [height,height,up,List.map_cons,List.map_cons,List.sum_cons,List.sum_cons,next,children,
      siblings,Forest.nodes_cons,List.length_cons,List.length_append]
    omega

theorem plunge_eq (fuel : ℕ) {s : ℕ} (there : s ∈ (backwards t root).nodes)
    (enough : ((backwards t root).children s).nodes.length ≤ fuel) :
    plunge t f fuel s ∈ (backwards t root).nodes ∧
      plunging t root f s = (if f (plunge t f fuel s) = .accept then some (plunge t f fuel s)
        else passing t root f (plunge t f fuel s)) ∧ height t root (plunge t f fuel s) ≤
        height t root s + ((backwards t root).children s).nodes.length := by
  have reads := reads_back nodup inside
  have stays : ∀ s, (f s = .reject ∨ (backwards t root).children s = .nil) →
      plunging t root f s = if f s = .accept then some s else passing t root f s := by
    intro s stays
    rw [plunging]
    rcases stays with rejected | leaf
    · simp [Forest.contract,rejects,rejected,Forest.foot]
    · cases verdict : f s <;> simp [Forest.contract,accepts,rejects,verdict,leaf,Forest.foot]
  induction fuel generalizing s with
  | zero =>
    have leaf : (backwards t root).children s = .nil := by
      cases below : (backwards t root).children s with
      | nil => rfl
      | cons c cs ls => simp [below] at enough
    exact ⟨there,stays s (.inr leaf),Nat.le_add_right ..⟩
  | succ fuel ih =>
    rw [plunge]
    split
    next rejected => exact ⟨there,stays s (.inl rejected),Nat.le_add_right ..⟩
    next goes =>
      have last : NodeTree.lastChild t s = ((backwards t root).children s).first :=
        reads.child s there
      rw [last]
      cases first : (backwards t root).children s with
      | nil => exact ⟨there,stays s (.inr first),Nat.le_add_right ..⟩
      | cons c cs ls =>
        obtain ⟨same,tall⟩ := plunging_child nodup inside there goes first
        have insideC : c ∈ (backwards t root).nodes :=
          (Forest.places_children reads.nodup there first).1
        have children : (backwards t root).children c = cs :=
          (Forest.places_children reads.nodup there first).2.1
        rw [first,Forest.nodes_cons,List.length_cons,List.length_append] at enough
        have down := ih insideC (by rw [children]; omega)
        rw [same,← first,← tall,first]
        exact down

theorem previousLoop_eq (fuel : ℕ) {y : ℕ} (there : y ∈ (backwards t root).nodes)
    (enough : height t root y ≤ fuel) : previousLoop t root f fuel y = some (passing t root f y) := by
  have reads := reads_back nodup inside
  induction fuel generalizing y with
  | zero =>
    rw [height,List.map_cons,List.sum_cons] at enough
    omega
  | succ fuel ih =>
    have back : NodeTree.prevSibling t y = (backwards t root).nextOf y := reads.sibling y there
    rw [previousLoop,back,Forest.nextOf_later]
    cases next : (backwards t root).later y with
    | cons s c n =>
      obtain ⟨same,tall⟩ := passing_sibling (f := f) nodup inside there next
      have insideS : s ∈ (backwards t root).nodes := (Forest.places_later reads.nodup there next).1
      have few : ((backwards t root).children s).nodes.length ≤ t.nodes.length :=
        (Forest.children_sublist _ _).length_le.trans
          ((side_perm false _).length_eq.le.trans (Forest.children_sublist _ t).length_le)
      obtain ⟨insideD,down,less⟩ := plunge_eq (f := f) nodup inside _ insideS few
      have further := ih insideD (by omega)
      rw [same,down,Forest.first]
      dsimp only
      split
      · rfl
      · exact further
    | nil =>
      have below := (side_perm false _).mem_iff.mp there
      have other : y ≠ root := fun same => Forest.not_below_self nodup root (same ▸ below)
      have up : t.ancestors y = (backwards t root).ancestors y ++ root :: t.ancestors root :=
        ancestors_side nodup inside false below
      rw [Forest.first,if_neg other,NodeTree.parent,up]
      cases above : (backwards t root).ancestors y with
      | nil =>
        rw [passing,above,Forest.passed,next]
        cases verdict : f root <;> simp [accepts,verdict,Forest.contract,Forest.foot]
      | cons p upper =>
        have insideP : p ∈ (backwards t root).nodes :=
          Forest.ancestors_subset (above ▸ List.mem_cons_self)
        have belowP := (side_perm false _).mem_iff.mp insideP
        have otherP : p ≠ root := fun same => Forest.not_below_self nodup root (same ▸ belowP)
        have tall := height_up nodup inside above
        have further := ih insideP (by omega)
        rw [passing_up nodup inside above,next,List.cons_append,List.head?_cons]
        dsimp only
        rw [if_neg otherP,further]
        cases verdict : f p <;> simp [accepts,verdict,Forest.contract,Forest.foot]

end back

section walker

def TreeWalker.at (w : TreeWalker) (id : ℕ) : TreeWalker := { w with currentNode := id }

variable {t : NodeTree} {w : TreeWalker} {x : ℕ} (nodup : t.nodes.Nodup)

include nodup in
theorem below_of_kept (kept : x ∈ (logical t w.root (runFilter w)).nodes) :
    x ∈ (t.children w.root).nodes ∧ x ≠ w.root := by
  have below := (Forest.contract_sublist _).subset kept
  refine ⟨below,?_⟩
  rintro rfl
  exact Forest.not_below_self nodup _ below

include nodup in
theorem logical_nodup : (logical t w.root (runFilter w)).nodes.Nodup :=
  Forest.contract_nodup (nodup.sublist (Forest.children_sublist w.root t))

variable (inside : w.root ∈ t.nodes)
include nodup inside

theorem children_found {cur : ℕ} (there : cur ∈ subtree t w.root) (first : Bool) :
    children t (w.at cur) first = some ((side first (t.children cur)).contract
      (accepts (runFilter w)) (rejects (runFilter w))).first := by
  have here : cur ∈ t.nodes := by
    rcases List.mem_cons.mp there with rfl | below
    · exact inside
    · exact (Forest.children_sublist _ t).subset below
  have reads := reads_side nodup here first
  have away : ∀ y ∈ (t.children cur).nodes, y ≠ w.root ∧ y ≠ cur := by
    intro y below
    constructor
    · rintro rfl
      rcases List.mem_cons.mp there with rfl | deeper
      · exact Forest.not_below_self nodup _ below
      · rw [Forest.children_children nodup inside deeper] at below
        exact Forest.not_below_self nodup _ ((Forest.children_sublist cur _).subset below)
    · rintro rfl
      exact Forest.not_below_self nodup _ below
  have leaves : ∀ y ∈ (side first (t.children cur)).nodes,
      leaveChildren t w.root first cur (y :: t.ancestors y) =
        (reach (side first (t.children cur)) (fun _ => false) y).findSome? fun z =>
          (side first (t.children cur)).nextOf z := by
    intro y belowY
    rw [ancestors_side nodup here first ((side_perm first _).mem_iff.mp belowY),leaveChildren_eq]
    · rw [reach_all]
      apply Forest.findSome_congr
      intro z up
      exact reads.sibling z (Forest.upwards_inside belowY z up)
    · intro z up
      exact away z ((side_perm first _).mem_iff.mp (Forest.ancestors_subset up))
  have enough : (side first (t.children cur)).nodes.length ≤ t.nodes.length :=
    (side_perm first _).length_eq.le.trans (Forest.children_sublist _ t).length_le
  rw [children]
  change scanFrom _ _ _ _ (child t first cur) = _
  rw [child_eq]
  exact scanFrom_first reads leaves (fun y stops => by cases stops) enough

theorem climb_leaves : ∀ y ∈ (t.children w.root).nodes, climb t w.root (y :: t.ancestors y) =
    (reach (t.children w.root) (fun _ => false) y).findSome? fun z => (t.children w.root).nextOf z := by
  have reads := reads_side nodup inside true
  intro y belowY
  rw [ancestors_subtree nodup inside belowY,← List.cons_append,NodeIterators.climb_append,reach_all]
  · exact Forest.findSome_congr fun z above => reads.sibling z (Forest.upwards_inside belowY z above)
  · rintro z above rfl
    exact Forest.not_below_self nodup _ (Forest.upwards_inside belowY w.root above)

theorem nextNode_root : nextNode t (w.at w.root) = some (logical t w.root (runFilter w)).first := by
  have reads := reads_side nodup inside true
  have found := scanFrom_first reads (climb_leaves nodup inside) (never_stops (runFilter w))
    (Forest.children_sublist _ t).length_le
  have start : climb t w.root (w.root :: t.ancestors w.root) = none := by rw [climb,if_pos rfl]
  rw [nextNode]
  change scanFrom _ _ _ _
    ((child t true w.root).or (climb t w.root (w.root :: t.ancestors w.root))) = _
  rw [start,Option.or_none,child_eq]
  exact found

variable (kept : x ∈ (logical t w.root (runFilter w)).nodes)
include kept

theorem siblings_found (next : Bool) :
    siblings t (w.at x) next = some ((side next (logical t w.root (runFilter w))).nextOf x) := by
  obtain ⟨below,other⟩ := below_of_kept nodup kept
  have reads := reads_side nodup inside next
  have belowSide := (side_perm next _).mem_iff.mpr below
  have leaves : ∀ y ∈ (side next (t.children w.root)).nodes,
      leaveSiblings t w.root (runFilter w) next y =
        (reach (side next (t.children w.root)) (accepts (runFilter w)) y).findSome? fun z =>
          (side next (t.children w.root)).nextOf z := by
    intro y belowY
    have up := ancestors_side nodup inside next ((side_perm next _).mem_iff.mp belowY)
    have same : ((reach (side next (t.children w.root)) (accepts (runFilter w)) y).findSome? fun z =>
        sibling t next z) = _ :=
      Forest.findSome_congr fun z above => reads.sibling z (reach_inside belowY z above)
    rw [leaveSiblings,up,leaveParents_eq,← same,reach,List.findSome?_cons]
    · cases sibling t next y <;> rfl
    · rintro z above rfl
      have belowZ := (side_perm next _).mem_iff.mp (Forest.ancestors_subset above)
      exact Forest.not_below_self nodup _ belowZ
  have enough : (side next (t.children w.root)).nodes.length ≤ t.nodes.length :=
    (side_perm next _).length_eq.le.trans (Forest.children_sublist _ t).length_le
  have keptSide : x ∈ ((side next (t.children w.root)).contract (accepts (runFilter w))
      (rejects (runFilter w))).nodes := by
    rw [side_contract]
    exact (side_perm next _).mem_iff.mpr kept
  have found := scanFrom_leave reads leaves (fun y stops => by simpa [accepts] using stops) enough
    belowSide
  rw [logical,← side_contract,Forest.nextOf_contract reads.nodup keptSide]
  have moves : (w.at x).currentNode ≠ (w.at x).root := other
  rw [siblings,if_neg moves]
  exact found

theorem nextNode_found : nextNode t (w.at x) = some ((logical t w.root (runFilter w)).rest x).head? := by
  obtain ⟨below,other⟩ := below_of_kept nodup kept
  have reads := reads_side nodup inside true
  have found := scanFrom_next reads (climb_leaves nodup inside) (never_stops (runFilter w))
    (Forest.children_sublist _ t).length_le below rfl
  have nodupBelow := nodup.sublist (Forest.children_sublist w.root t)
  rw [reach_all] at found
  rw [logical,Forest.rest_contract nodupBelow kept]
  exact found

theorem previousNode_found :
    previousNode t (w.at x) = some (((logical t w.root (runFilter w)).front x).getLast?.or
      (if accepts (runFilter w) w.root then some w.root else none)) := by
  obtain ⟨below,other⟩ := below_of_kept nodup kept
  have reads := reads_back nodup inside
  have there : x ∈ (backwards t w.root).nodes := (side_perm false _).mem_iff.mpr below
  have tall : height t w.root x ≤ t.nodes.length := by
    have places := Forest.length_places reads.nodup there
    have few : (backwards t w.root).nodes.length ≤ t.nodes.length :=
      (side_perm false _).length_eq.le.trans (Forest.children_sublist _ t).length_le
    rw [height]
    omega
  have keptBack : x ∈ ((backwards t w.root).contract (accepts (runFilter w))
      (rejects (runFilter w))).nodes := by
    rw [backwards,side_contract]
    exact (side_perm false _).mem_iff.mpr kept
  have turned : (backwards t w.root).contract (accepts (runFilter w)) (rejects (runFilter w)) =
      (logical t w.root (runFilter w)).mirror := Forest.contract_mirror _
  have moves : (w.at x).currentNode ≠ (w.at x).root := other
  rw [previousNode,if_neg moves,← Forest.preceding_mirror (logical_nodup nodup) kept,
    ← turned,Forest.preceding_contract reads.nodup keptBack]
  exact previousLoop_eq nodup inside _ there tall

theorem parentNode_found : parentNode t (w.at x) = some (((logical t w.root (runFilter w)).ancestors x).head?.or
      (if accepts (runFilter w) w.root then some w.root else none)) := by
  obtain ⟨below,other⟩ := below_of_kept nodup kept
  have nodupBelow := nodup.sublist (Forest.children_sublist w.root t)
  rw [parentNode]
  change some (parentLoop w.root (runFilter w) (x :: t.ancestors x)) = _
  rw [logical,Forest.ancestors_contract nodupBelow kept,ancestors_subtree nodup inside below,
    parentLoop_eq]
  rintro y up rfl
  exact Forest.not_below_self nodup _ (Forest.upwards_inside below w.root up)

end walker

section laws

variable {t : NodeTree} {w : TreeWalker} {x y : ℕ}

theorem rest_of_split (nodup : t.nodes.Nodup) {front rest : List ℕ}
    (split : t.nodes = front ++ x :: rest) : t.front x = front ∧ t.rest x = rest := by
  have inside : x ∈ t.nodes := by
    rw [split]
    simp
  have own := Forest.front_rest inside
  have same := (NodeIterators.dropWhile_split nodup own).symm.trans
    (NodeIterators.dropWhile_split nodup split)
  have fronts := (NodeIterators.takeWhile_split nodup own).symm.trans
    (NodeIterators.takeWhile_split nodup split)
  exact ⟨fronts,(List.cons.inj same).2⟩

/-- What a walker with a pure filter does, in terms of its logical tree. -/
structure Walks (t : NodeTree) (w : TreeWalker) (f : ℕ → Verdict) (l : NodeTree) : Prop where
  /-- The accepted nodes below the root without a rejected ancestor there, in tree order. -/
  nodes : l.nodes = (t.children w.root).nodes.filter fun x =>
    accepts f x && ((t.children w.root).ancestors x).all fun p => !rejects f p
  /-- `nextNode` from the root on. -/
  calls : ∀ n, nextNodes t n (w.at w.root) = (List.range n).map fun i => some l.nodes[i]?
  /-- `previousNode` where `nextNode` has come from, the root only if it is accepted itself. -/
  undo : ∀ y ∈ w.root :: l.nodes, ∀ x, nextNode t (w.at y) = some (some x) →
    previousNode t (w.at x) =
      some (if y = w.root ∧ accepts f w.root = false then none else some y)
  parent : ∀ x ∈ l.nodes, parentNode t (w.at x) =
    some ((l.ancestors x).head?.or (if accepts f w.root then some w.root else none))
  top : firstChild t (w.at w.root) = some l.first ∧ lastChild t (w.at w.root) = some l.last
  first : ∀ x ∈ l.nodes, firstChild t (w.at x) = some (l.children x).first
  last : ∀ x ∈ l.nodes, lastChild t (w.at x) = some (l.children x).last
  next : ∀ x ∈ l.nodes, nextSibling t (w.at x) = some (l.nextOf x)
  previous : ∀ x ∈ l.nodes, previousSibling t (w.at x) = some (l.prevOf x)

variable (nodup : t.nodes.Nodup) (inside : w.root ∈ t.nodes)
include nodup inside

theorem nextNodes_from (n : ℕ) {front rest : List ℕ}
    (split : (logical t w.root (runFilter w)).nodes = front ++ x :: rest) :
    nextNodes t n (w.at x) = (List.range n).map fun i => some rest[i]? := by
  induction n generalizing x front rest with
  | zero => rfl
  | succ n ih =>
    have kept : x ∈ (logical t w.root (runFilter w)).nodes := by
      rw [split]
      simp
    have found := nextNode_found nodup inside kept
    rw [(rest_of_split (logical_nodup nodup) split).2] at found
    rw [nextNodes,found,List.range_succ_eq_map,List.map_cons,List.map_map]
    cases rest with
    | nil =>
      have again := ih split
      simpa [Function.comp_def] using again
    | cons y rest =>
      have split' : (logical t w.root (runFilter w)).nodes = (front ++ [x]) ++ y :: rest := by
        rw [split,List.append_assoc]
        rfl
      exact congrArg (List.cons _) (ih split')

theorem nextNodes_root (n : ℕ) : nextNodes t n (w.at w.root) =
      (List.range n).map fun i => some (logical t w.root (runFilter w)).nodes[i]? := by
  have found := nextNode_root nodup inside
  rw [Forest.first_eq] at found
  cases n with
  | zero => rfl
  | succ n =>
    rw [nextNodes,found,List.range_succ_eq_map,List.map_cons,List.map_map]
    cases nodes : (logical t w.root (runFilter w)).nodes with
    | nil =>
      have stays : nextNodes t n (w.at w.root) = (List.range n).map fun _ => some none := by
        induction n with
        | zero => rfl
        | succ n ih =>
          rw [nextNodes,found,nodes,List.range_succ_eq_map,List.map_cons,List.map_map]
          exact congrArg (List.cons _) ih
      exact congrArg (List.cons _) stays
    | cons x rest =>
      have split : (logical t w.root (runFilter w)).nodes = [] ++ x :: rest := nodes
      exact congrArg (List.cons _) (nextNodes_from nodup inside n split)

theorem previousNode_undo (there : y ∈ w.root :: (logical t w.root (runFilter w)).nodes)
    (came : nextNode t (w.at y) = some (some x)) : previousNode t (w.at x) =
      some (if y = w.root ∧ accepts (runFilter w) w.root = false then none else some y) := by
  have nodupL := logical_nodup (w := w) nodup
  rcases List.mem_cons.mp there with rfl | kept
  · rw [nextNode_root nodup inside,Forest.first_eq] at came
    cases nodes : (logical t w.root (runFilter w)).nodes with
    | nil =>
      rw [nodes] at came
      cases came
    | cons z rest =>
      rw [nodes] at came
      obtain rfl := Option.some.inj (Option.some.inj came)
      have split : (logical t w.root (runFilter w)).nodes = [] ++ z :: rest := nodes
      have keptZ : z ∈ (logical t w.root (runFilter w)).nodes := by
        rw [nodes]
        exact List.mem_cons_self
      rw [previousNode_found nodup inside keptZ,(rest_of_split nodupL split).1]
      cases accepts (runFilter w) w.root <;> simp
  · obtain ⟨front,rest,split⟩ := List.append_of_mem kept
    rw [nextNode_found nodup inside kept,(rest_of_split nodupL split).2] at came
    cases rest with
    | nil => cases came
    | cons z rest =>
      obtain rfl := Option.some.inj (Option.some.inj came)
      have split' : (logical t w.root (runFilter w)).nodes = (front ++ [y]) ++ z :: rest := by
        rw [split,List.append_assoc]
        rfl
      have keptZ : z ∈ (logical t w.root (runFilter w)).nodes := by
        rw [split']
        simp
      rw [previousNode_found nodup inside keptZ,(rest_of_split nodupL split').1,
        if_neg (not_and_of_not_left _ (below_of_kept nodup kept).2)]
      simp

theorem walks : Walks t w (runFilter w) (logical t w.root (runFilter w)) := by
  have nodupBelow := nodup.sublist (Forest.children_sublist w.root t)
  have there : ∀ x ∈ (logical t w.root (runFilter w)).nodes, x ∈ subtree t w.root :=
    fun x kept => List.mem_cons_of_mem _ (below_of_kept nodup kept).1
  constructor
  case nodes =>
    rw [logical,Forest.nodes_contract nodupBelow]
    apply List.filter_congr
    intro x below
    cases verdict : runFilter w x with
    | accept => simp [accepts,rejects,verdict]
    | reject => simp [accepts,rejects,verdict]
    | skip =>
      rw [accepts,verdict]
      rfl
  case calls => exact nextNodes_root nodup inside
  case undo => exact fun y there x came => previousNode_undo nodup inside there came
  case parent => exact fun x kept => parentNode_found nodup inside kept
  case top =>
    rw [logical,← Forest.first_mirror,← Forest.contract_mirror]
    exact ⟨children_found nodup inside List.mem_cons_self true,
      children_found nodup inside List.mem_cons_self false⟩
  case first =>
    intro x kept
    rw [logical,Forest.children_contract nodupBelow kept,
      ← Forest.children_children nodup inside (below_of_kept nodup kept).1]
    exact children_found nodup inside (there x kept) true
  case last =>
    intro x kept
    rw [logical,Forest.children_contract nodupBelow kept,← Forest.first_mirror,
      ← Forest.contract_mirror,← Forest.children_children nodup inside (below_of_kept nodup kept).1]
    exact children_found nodup inside (there x kept) false
  case next => exact fun x kept => siblings_found nodup inside kept true
  case previous =>
    intro x kept
    rw [← Forest.nextOf_mirror (logical_nodup nodup) kept]
    exact siblings_found nodup inside kept false

end laws

/-- All moves of a walker are those of one tree, the accepted nodes with the skipped ones
contracted. -/
theorem traversal (page : NodeIterators.Page) (nodeType : ℕ → ℕ) (whatToShow : ℕ)
    (filter : Option (ℕ → Verdict)) :
    let w := createTreeWalker nodeType page.root whatToShow filter
    Walks page.tree w (runFilter w) (logical page.tree page.root (runFilter w)) :=
  walks page.nodup page.inside

/-- A root that its own filter skips is not gone back to. -/
theorem skipped_root :
    let t : NodeTree := .cons 0 (.cons 1 .nil .nil) .nil
    let w := createTreeWalker (fun _ => 1) 0 1 (some fun id => if id = 0 then .skip else .accept)
    nextNode t w = some (some 1) ∧ previousNode t (w.at 1) ≠ some (some 0) := by
  decide

end Sharko.Script.Dom.TreeWalkers
