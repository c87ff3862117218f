import Mathlib
import Sharko.Library.Navigation

/-! Forests with some nodes cut off and others contracted into their children, and how the moves
in what is left are found by moves in the whole. -/

namespace Sharko.Library.Forest

variable {α : Type*}

/-- The nodes that are kept; a node that is cut goes with what is below it, one that is neither
gives way to its children. -/
def contract (keep cut : α → Bool) : Forest α → Forest α
  | nil => nil
  | cons a c n =>
    if cut a then n.contract keep cut
    else if keep a then cons a (c.contract keep cut) (n.contract keep cut)
    else (c.contract keep cut).append (n.contract keep cut)

def mirror : Forest α → Forest α
  | nil => nil
  | cons a c n => n.mirror.append (cons a c.mirror nil)

/-- The last node of the last tree of a forest turned around, in the order of the forest itself. -/
def foot : Forest α → Option α
  | nil => none
  | cons a c _ => some (c.foot.getD a)

section appended

variable {f g : Forest α} {keep cut : α → Bool}

@[simp] theorem append_nil (f : Forest α) : f.append nil = f := by
  induction f with
  | nil => rfl
  | cons a c n _ ihn => rw [append,ihn]

theorem append_assoc (f g h : Forest α) : (f.append g).append h = f.append (g.append h) := by
  induction f with
  | nil => rfl
  | cons a c n _ ihn => rw [append,append,append,ihn]

theorem first_append (f g : Forest α) : (f.append g).first = f.first.or g.first := by
  cases f <;> rfl

theorem contract_append (f g : Forest α) :
    (f.append g).contract keep cut = (f.contract keep cut).append (g.contract keep cut) := by
  induction f with
  | nil => rfl
  | cons a c n _ ihn =>
    rw [append,contract,contract,ihn]
    split
    · rfl
    split
    · rfl
    · rw [append_assoc]

theorem contract_sublist (f : Forest α) : (f.contract keep cut).nodes.Sublist f.nodes := by
  induction f with
  | nil => exact List.Sublist.refl _
  | cons a c n ihc ihn =>
    rw [contract,nodes_cons]
    split
    · exact (ihn.trans (List.sublist_append_right ..)).cons a
    split
    · exact (ihc.append ihn).cons_cons a
    · rw [nodes_append]
      exact (ihc.append ihn).cons a

theorem mirror_append (f g : Forest α) : (f.append g).mirror = g.mirror.append f.mirror := by
  induction f with
  | nil => exact (append_nil _).symm
  | cons a c n _ ihn => rw [append,mirror,mirror,ihn,append_assoc]

theorem contract_mirror (f : Forest α) : f.mirror.contract keep cut = (f.contract keep cut).mirror := by
  induction f with
  | nil => rfl
  | cons a c n ihc ihn =>
    rw [mirror,contract_append,ihn]
    cases out : cut a with
    | true => simp [contract,out]
    | false =>
      cases kept : keep a with
      | true => simp [contract,mirror,out,kept,ihc]
      | false => simp [contract,out,kept,ihc,mirror_append]

theorem mirror_perm (f : Forest α) : f.mirror.nodes.Perm f.nodes := by
  induction f with
  | nil => exact List.Perm.refl _
  | cons a c n ihc ihn =>
    rw [mirror,nodes_append,nodes_cons,nodes_cons,nodes_nil,List.append_nil]
    refine List.perm_append_comm.trans ?_
    exact (ihc.append ihn).cons a

theorem first_mirror (f : Forest α) : f.mirror.first = f.last := by
  induction f with
  | nil => rfl
  | cons a c n _ ihn =>
    rw [mirror,first_append,ihn,last]
    cases n.last <;> rfl

theorem foot_append (f g : Forest α) : (f.append g).foot = f.foot.or g.foot := by
  cases f <;> rfl

theorem foot_mirror (f : Forest α) : f.mirror.foot = f.nodes.getLast? := by
  induction f with
  | nil => rfl
  | cons a c n ihc ihn =>
    rw [mirror,foot_append,foot,ihc,ihn,nodes_cons,List.getLast?_cons,List.getLast?_append]
    cases n.nodes.getLast? <;> simp

theorem not_mem_contract {f : Forest α} (keep cut : α → Bool) {x : α} (outside : x ∉ f.nodes) :
    x ∉ (f.contract keep cut).nodes := fun there => outside ((contract_sublist f).subset there)

theorem contract_nodup (nodup : f.nodes.Nodup) : (f.contract keep cut).nodes.Nodup :=
  nodup.sublist (contract_sublist f)

theorem contract_cut {a : α} (c n : Forest α) (out : cut a = true) :
    (cons a c n).contract keep cut = n.contract keep cut := by
  rw [contract,if_pos out]

theorem contract_keep {a : α} (c n : Forest α) (out : cut a = false) (kept : keep a = true) :
    (cons a c n).contract keep cut = cons a (c.contract keep cut) (n.contract keep cut) := by
  rw [contract,if_neg (by simp [out]),if_pos kept]

theorem contract_skip {a : α} (c n : Forest α) (out : cut a = false) (skipped : keep a = false) :
    (cons a c n).contract keep cut = (c.contract keep cut).append (n.contract keep cut) := by
  rw [contract,if_neg (by simp [out]),if_neg (by simp [skipped])]

theorem takeWhile_concat (l : List α) (a : α) : ((l ++ [a]).takeWhile fun y => !keep y) =
      (l.takeWhile fun y => !keep y) ++ if l.filter keep = [] ∧ keep a = false then [a] else [] := by
  induction l with
  | nil => cases keptA : keep a <;> simp [keptA]
  | cons y l ih => cases keptY : keep y <;> simp [keptY,ih]

theorem contract_cons (keep cut : α → Bool) (a : α) (c n : Forest α) : (cons a c n).contract keep cut =
      ((cons a c nil).contract keep cut).append (n.contract keep cut) :=
  contract_append (cons a c nil) n

theorem contract_behind (keep cut : α → Bool) {a : α} {c : Forest α} (n : Forest α) {x : α}
    (other : a ≠ x) (outside : x ∉ c.nodes) :
    ∃ g : Forest α, x ∉ g.nodes ∧ (cons a c n).contract keep cut = g.append (n.contract keep cut) := by
  have away := not_mem_contract keep cut outside
  cases out : cut a with
  | true => exact ⟨nil,List.not_mem_nil,contract_cut c n out⟩
  | false =>
    cases kept : keep a with
    | true =>
      refine ⟨cons a (c.contract keep cut) nil,?_,contract_keep c n out kept⟩
      simp [Ne.symm other,away]
    | false => exact ⟨c.contract keep cut,away,contract_skip c n out kept⟩

@[elab_as_elim]
theorem contract_induction {x : α}
    {motive : (f : Forest α) → f.nodes.Nodup → x ∈ (f.contract keep cut).nodes → Prop}
    (here : ∀ c n nodup kept, cut x = false → keep x = true → motive (cons x c n) nodup kept)
    (below : ∀ a c n nodup kept, (nodupC : c.nodes.Nodup) → (keptC : x ∈ (c.contract keep cut).nodes) →
      x ∈ c.nodes → a ≠ x → cut a = false → motive c nodupC keptC → motive (cons a c n) nodup kept)
    (behind : ∀ a c n nodup kept, (nodupN : n.nodes.Nodup) → (keptN : x ∈ (n.contract keep cut).nodes) →
      x ∈ n.nodes → a ≠ x → x ∉ c.nodes → motive n nodupN keptN → motive (cons a c n) nodup kept)
    (f : Forest α) (nodup : f.nodes.Nodup) (kept : x ∈ (f.contract keep cut).nodes) : motive f nodup kept := by
  have inside := (contract_sublist f).subset kept
  induction f, nodup, inside using node_induction with
  | here c n nodup inside =>
    obtain ⟨outC,outN,-,-,-⟩ := nodup_parts nodup
    have awayC := not_mem_contract keep cut outC
    have awayN := not_mem_contract keep cut outN
    have kept' := kept
    rw [contract] at kept'
    apply here c n nodup kept
    · grind [nodes_append,nodes_cons]
    · grind [nodes_append,nodes_cons]
  | below a c n nodup inside nodupC insideC other ih =>
    have awayN := not_mem_contract keep cut ((nodup_parts nodup).2.2.2.2 x insideC)
    have kept' := kept
    rw [contract] at kept'
    have parts : cut a = false ∧ x ∈ (c.contract keep cut).nodes := by
      grind [nodes_append,nodes_cons]
    exact below a c n nodup kept nodupC parts.2 insideC other parts.1 (ih parts.2)
  | behind a c n nodup inside nodupN insideN other outside ih =>
    obtain ⟨g,away,split⟩ := contract_behind keep cut n other outside
    have kept' := kept
    rw [split,nodes_append,List.mem_append] at kept'
    have keptN := kept'.resolve_left away
    exact behind a c n nodup kept nodupN keptN insideN other outside (ih keptN)

end appended

variable [DecidableEq α] {f g : Forest α} {keep cut : α → Bool} {a x : α}

def later (a : α) : Forest α → Forest α
  | nil => nil
  | cons r c n => if r = a then n else if a ∈ c.nodes then c.later a else n.later a

theorem nextOf_later (f : Forest α) (a : α) : f.nextOf a = (f.later a).first := by
  induction f with
  | nil => rfl
  | cons r c n ihc ihn =>
    rw [nextOf,later,ihc,ihn]
    split
    · rfl
    · split <;> rfl

/-- What comes in front of a node in the order of the forest, read in the forest turned around. -/
def preceding (a : α) : Option α → Forest α → Option α
  | _,nil => none
  | before,cons r c n =>
    if r = a then n.foot.or before
    else if a ∈ c.nodes then c.preceding a (some r)
    else n.preceding a before

section later

variable {c n : Forest α}

theorem later_self (a : α) (c n : Forest α) : (cons a c n).later a = n := by
  rw [later,if_pos rfl]

theorem later_below (nodup : (cons a c n).nodes.Nodup) (below : x ∈ c.nodes) :
    (cons a c n).later x = c.later x := by
  have other : a ≠ x := fun same => (nodup_parts nodup).1 (same ▸ below)
  rw [later,if_neg other,if_pos below]

theorem later_behind (nodup : (cons a c n).nodes.Nodup) (behind : x ∈ n.nodes) :
    (cons a c n).later x = n.later x := by
  obtain ⟨-,outN,-,-,disjoint⟩ := nodup_parts nodup
  have other : a ≠ x := fun same => outN (same ▸ behind)
  rw [later,if_neg other,if_neg fun below => disjoint x below behind]

theorem findSome_below {β : Type*} (read : Forest α → Option β) (nodup : (cons a c n).nodes.Nodup)
    {l : List α} (below : ∀ y ∈ l, y ∈ c.nodes) :
    (l.findSome? fun y => read ((cons a c n).later y)) = l.findSome? fun y => read (c.later y) :=
  findSome_congr fun y there => by rw [later_below nodup (below y there)]

theorem findSome_behind {β : Type*} (read : Forest α → Option β) (nodup : (cons a c n).nodes.Nodup)
    {l : List α} (behind : ∀ y ∈ l, y ∈ n.nodes) :
    (l.findSome? fun y => read ((cons a c n).later y)) = l.findSome? fun y => read (n.later y) :=
  findSome_congr fun y there => by rw [later_behind nodup (behind y there)]

theorem upwards_inside (inside : x ∈ f.nodes) : ∀ y ∈ x :: f.ancestors x, y ∈ f.nodes := by
  intro y up
  rcases List.mem_cons.mp up with rfl | above
  · exact inside
  · exact ancestors_subset above

end later

section places

variable (nodup : f.nodes.Nodup) (inside : a ∈ f.nodes) {s : α} {c n : Forest α}
include nodup inside

theorem places_children (first : f.children a = cons s c n) :
    s ∈ f.nodes ∧ f.children s = c ∧ f.later s = n ∧ f.ancestors s = a :: f.ancestors a := by
  have below : s ∈ (f.children a).nodes := by
    rw [first]
    exact List.mem_cons_self
  refine ⟨(children_sublist a f).subset below,?_,?_,?_⟩
  · rw [children_children nodup inside below,first,children_cons,if_pos rfl]
  · have read := read_children (fun g => g.later s) nodup inside
      (fun _ _ _ nodup below => later_below nodup below)
      (fun _ _ _ nodup behind => later_behind nodup behind) below
    exact read.trans (by rw [first,later_self])
  · rw [ancestors_children nodup inside below,first,ancestors_self,List.nil_append]

theorem places_later (next : f.later a = cons s c n) :
    s ∈ f.nodes ∧ f.children s = c ∧ f.later s = n ∧ f.ancestors s = f.ancestors a := by
  induction f, nodup, inside using node_induction with
  | here c' n' nodup inside =>
    rw [later_self] at next
    subst next
    have behind : s ∈ (cons s c n).nodes := List.mem_cons_self
    rw [children_behind nodup behind,later_behind nodup behind,ancestors_behind nodup behind,
      children_cons,if_pos rfl,later_self,ancestors_self,ancestors_self]
    exact ⟨List.mem_cons_of_mem a (List.mem_append_right _ behind),rfl,rfl,rfl⟩
  | below r c' n' nodup inside nodupC insideC other ih =>
    rw [later_below nodup insideC] at next
    obtain ⟨below,children,siblings,up⟩ := ih next
    rw [children_below nodup below,later_below nodup below,ancestors_below nodup below,
      ancestors_below nodup insideC,up]
    exact ⟨List.mem_cons_of_mem r (List.mem_append_left _ below),children,siblings,rfl⟩
  | behind r c' n' nodup inside nodupN insideN other outside ih =>
    rw [later_behind nodup insideN] at next
    obtain ⟨behind,children,siblings,up⟩ := ih next
    rw [children_behind nodup behind,later_behind nodup behind,ancestors_behind nodup behind,
      ancestors_behind nodup insideN,up]
    exact ⟨List.mem_cons_of_mem r (List.mem_append_right _ behind),children,siblings,rfl⟩

/-- A node, what is below it and behind it, and its ancestors with what is behind them are nodes of
the forest, each of them once. -/
theorem length_places : (f.children a).nodes.length +
      ((a :: f.ancestors a).map fun y => (f.later y).nodes.length + 1).sum ≤ f.nodes.length := by
  induction f, nodup, inside using node_induction with
  | here c n nodup inside =>
    rw [children_cons,if_pos rfl,ancestors_self,nodes_cons]
    simp [later_self]
    omega
  | below r c n nodup inside nodupC insideC other ih =>
    have same : (a :: c.ancestors a).map (fun y => ((cons r c n).later y).nodes.length + 1) =
        (a :: c.ancestors a).map fun y => (c.later y).nodes.length + 1 := by
      apply List.map_congr_left
      intro y up
      rw [later_below nodup (upwards_inside insideC y up)]
    rw [children_below nodup insideC,ancestors_below nodup insideC,← List.cons_append,List.map_append,
      same,List.sum_append,nodes_cons]
    simp only [List.map_cons,List.map_nil,List.sum_cons,List.sum_nil,later_self,List.length_cons,
      List.length_append] at ih ⊢
    omega
  | behind r c n nodup inside nodupN insideN other outside ih =>
    have same : (a :: n.ancestors a).map (fun y => ((cons r c n).later y).nodes.length + 1) =
        (a :: n.ancestors a).map fun y => (n.later y).nodes.length + 1 := by
      apply List.map_congr_left
      intro y up
      rw [later_behind nodup (upwards_inside insideN y up)]
    rw [children_behind nodup insideN,ancestors_behind nodup insideN,same,nodes_cons]
    simp only [List.length_cons,List.length_append]
    omega

end places

section appending

theorem children_append (f g : Forest α) (x : α) :
    (f.append g).children x = if x ∈ f.nodes then f.children x else g.children x := by
  induction f with
  | nil => rfl
  | cons r c n _ ihn =>
    rw [append,children_cons,children_cons,ihn,nodes_cons]
    by_cases same : r = x
    · simp [same]
    by_cases below : x ∈ c.nodes <;> simp [same,Ne.symm same,below]

theorem ancestors_appended (f g : Forest α) (x : α) :
    (f.append g).ancestors x = if x ∈ f.nodes then f.ancestors x else g.ancestors x := by
  induction f with
  | nil => rfl
  | cons r c n _ ihn =>
    rw [append,ancestors,ancestors,ihn,nodes_cons]
    by_cases same : r = x
    · simp [same]
    by_cases below : x ∈ c.nodes <;> simp [same,Ne.symm same,below]

theorem nextOf_append (inside : x ∈ f.nodes) (g : Forest α) :
    (f.append g).nextOf x = (f.nextOf x).or (if f.ancestors x = [] then g.first else none) := by
  induction f with
  | nil => cases inside
  | cons r c n _ ihn =>
    rw [append,nextOf,nextOf,ancestors]
    by_cases same : r = x
    · simp [same,first_append]
    by_cases below : x ∈ c.nodes
    · simp [same,below]
    · have behind : x ∈ n.nodes := by simpa [Ne.symm same,below] using inside
      simp [same,below,ihn behind]

theorem nextOf_append_right (outside : x ∉ f.nodes) (g : Forest α) : (f.append g).nextOf x = g.nextOf x := by
  induction f with
  | nil => rfl
  | cons r c n _ ihn =>
    simp only [nodes_cons,List.mem_cons,List.mem_append,not_or] at outside
    rw [append,nextOf,if_neg (Ne.symm outside.1),if_neg outside.2.1,ihn outside.2.2]

theorem rest_append (f g : Forest α) (x : α) :
    (f.append g).rest x = if x ∈ f.nodes then f.rest x ++ g.nodes else g.rest x := by
  induction f with
  | nil => rfl
  | cons r c n _ ihn =>
    rw [append,rest,rest,ihn,nodes_append,nodes_cons]
    by_cases same : r = x
    · simp [same]
    by_cases below : x ∈ c.nodes <;> simp [same,Ne.symm same,below]

theorem preceding_append (f g : Forest α) (x : α) (before : Option α) : (f.append g).preceding x before =
      if x ∈ f.nodes then f.preceding x (g.foot.or before) else g.preceding x before := by
  induction f with
  | nil => rfl
  | cons r c n _ ihn =>
    rw [append,preceding,preceding,ihn,foot_append,nodes_cons]
    by_cases same : r = x
    · simp [same,Option.or_assoc]
    by_cases below : x ∈ c.nodes <;> simp [same,Ne.symm same,below]

end appending

section mirrored

variable (nodup : f.nodes.Nodup) (inside : x ∈ f.nodes)
include nodup inside

theorem children_mirror : f.mirror.children x = (f.children x).mirror := by
  induction f, nodup, inside using node_induction with
  | here c n nodup inside =>
    have outside := mt (mirror_perm n).mem_iff.mp (nodup_parts nodup).2.1
    rw [mirror,children_append,if_neg outside,children_cons,if_pos rfl,children_cons,if_pos rfl]
  | below a c n nodup inside nodupC insideC other ih =>
    have outside := mt (mirror_perm n).mem_iff.mp ((nodup_parts nodup).2.2.2.2 x insideC)
    rw [mirror,children_append,if_neg outside,children_cons,if_neg other,
      if_pos ((mirror_perm c).mem_iff.mpr insideC),children_below nodup insideC,ih]
  | behind a c n nodup inside nodupN insideN other outside ih =>
    rw [mirror,children_append,if_pos ((mirror_perm n).mem_iff.mpr insideN),
      children_behind nodup insideN,ih]

theorem ancestors_mirror : f.mirror.ancestors x = f.ancestors x := by
  induction f, nodup, inside using node_induction with
  | here c n nodup inside =>
    have outside := mt (mirror_perm n).mem_iff.mp (nodup_parts nodup).2.1
    rw [mirror,ancestors_appended,if_neg outside,ancestors_self,ancestors_self]
  | below a c n nodup inside nodupC insideC other ih =>
    have outside := mt (mirror_perm n).mem_iff.mp ((nodup_parts nodup).2.2.2.2 x insideC)
    rw [mirror,ancestors_appended,if_neg outside,ancestors,if_neg other,
      if_pos ((mirror_perm c).mem_iff.mpr insideC),ancestors_below nodup insideC,ih]
  | behind a c n nodup inside nodupN insideN other outside ih =>
    rw [mirror,ancestors_appended,if_pos ((mirror_perm n).mem_iff.mpr insideN),
      ancestors_behind nodup insideN,ih]

theorem prevFrom_mirror (before : Option α) :
    f.prevFrom x before = (f.mirror.nextOf x).or (if f.ancestors x = [] then before else none) := by
  induction f, nodup, inside using node_induction generalizing before with
  | here c n nodup inside =>
    have outside := mt (mirror_perm n).mem_iff.mp (nodup_parts nodup).2.1
    rw [mirror,nextOf_append_right outside,prevFrom,if_pos rfl,nextOf,if_pos rfl,ancestors_self]
    rfl
  | below a c n nodup inside nodupC insideC other ih =>
    have outside := mt (mirror_perm n).mem_iff.mp ((nodup_parts nodup).2.2.2.2 x insideC)
    rw [mirror,nextOf_append_right outside,prevFrom,if_neg other,if_pos insideC,nextOf,if_neg other,
      if_pos ((mirror_perm c).mem_iff.mpr insideC),ancestors_below nodup insideC,ih none]
    simp
  | behind a c n nodup inside nodupN insideN other outside ih =>
    rw [mirror,nextOf_append ((mirror_perm n).mem_iff.mpr insideN),prevFrom,if_neg other,
      if_neg outside,ancestors_behind nodup insideN,ancestors_mirror nodupN insideN,ih (some a)]
    split <;> simp [first]

theorem nextOf_mirror : f.mirror.nextOf x = f.prevOf x := by
  rw [prevOf,prevFrom_mirror nodup inside]
  simp

theorem preceding_mirror (before : Option α) :
    f.mirror.preceding x before = (f.front x).getLast?.or before := by
  induction f, nodup, inside using node_induction generalizing before with
  | here c n nodup inside =>
    have outside := mt (mirror_perm n).mem_iff.mp (nodup_parts nodup).2.1
    rw [mirror,preceding_append,if_neg outside,preceding,if_pos rfl,front,if_pos rfl]
    rfl
  | below a c n nodup inside nodupC insideC other ih =>
    have outside := mt (mirror_perm n).mem_iff.mp ((nodup_parts nodup).2.2.2.2 x insideC)
    rw [mirror,preceding_append,if_neg outside,preceding,if_neg other,
      if_pos ((mirror_perm c).mem_iff.mpr insideC),front,if_neg other,if_pos insideC,ih,
      List.getLast?_cons]
    cases (c.front x).getLast? <;> rfl
  | behind a c n nodup inside nodupN insideN other outside ih =>
    rw [mirror,preceding_append,if_pos ((mirror_perm n).mem_iff.mpr insideN),front,if_neg other,
      if_neg outside,ih,foot,foot_mirror,List.getLast?_cons,List.getLast?_append]
    cases (n.front x).getLast? <;> rfl

end mirrored

theorem nodes_contract (nodup : f.nodes.Nodup) : (f.contract keep cut).nodes =
      f.nodes.filter fun x => keep x && (x :: f.ancestors x).all fun y => !cut y := by
  induction f with
  | nil => rfl
  | cons a c n ihc ihn =>
    obtain ⟨-,-,nodupC,nodupN,-⟩ := nodup_parts nodup
    have below : c.nodes.filter (fun x => keep x && (x :: (cons a c n).ancestors x).all fun y => !cut y) =
        if cut a then [] else (c.contract keep cut).nodes := by
      rw [ihc nodupC]
      cases out : cut a with
      | true =>
        apply List.filter_eq_nil_iff.mpr
        intro x there
        simp [ancestors_below nodup there,out]
      | false =>
        apply List.filter_congr
        intro x there
        simp [ancestors_below nodup there,out]
    have behind : n.nodes.filter (fun x => keep x && (x :: (cons a c n).ancestors x).all fun y => !cut y) =
        (n.contract keep cut).nodes := by
      rw [ihn nodupN]
      apply List.filter_congr
      intro x there
      rw [ancestors_behind nodup there]
    rw [nodes_cons,List.filter_cons,List.filter_append,below,behind,ancestors_self]
    cases out : cut a with
    | true =>
      rw [contract_cut c n out]
      simp [out]
    | false =>
      cases kept : keep a with
      | true =>
        rw [contract_keep c n out kept]
        simp [out]
      | false =>
        rw [contract_skip c n out kept,nodes_append]
        simp

def passed (keep cut : α → Bool) (f : Forest α) (before : Option α) : List α → Option α
  | [] => before
  | y :: up =>
    ((f.later y).contract keep cut).foot.or
      (match up with
      | [] => before
      | p :: _ => if keep p then some p else passed keep cut f before up)

theorem passed_cons_cons (f : Forest α) (before : Option α) (y p : α) (up : List α) :
    passed keep cut f before (y :: p :: up) = ((f.later y).contract keep cut).foot.or
      (if keep p then some p else passed keep cut f before (p :: up)) := rfl

theorem passed_congr {f g : Forest α} {before : Option α} {l : List α}
    (same : ∀ y ∈ l, f.later y = g.later y) : passed keep cut f before l = passed keep cut g before l := by
  induction l with
  | nil => rfl
  | cons y up ih =>
    have above := ih fun z there => same z (List.mem_cons_of_mem y there)
    cases up with
    | nil => rw [passed,passed,same y List.mem_cons_self]
    | cons p up => rw [passed_cons_cons,passed_cons_cons,same y List.mem_cons_self,above]

theorem passed_append (f : Forest α) (before : Option α) (y : α) (up : List α) (a : α) :
    passed keep cut f before (y :: (up ++ [a])) =
      passed keep cut f (if keep a then some a else ((f.later a).contract keep cut).foot.or before)
        (y :: up) := by
  induction up generalizing y with
  | nil => rfl
  | cons p up ih =>
    rw [List.cons_append,passed_cons_cons,passed_cons_cons,ih]

section contracted

variable (nodup : f.nodes.Nodup) (kept : x ∈ (f.contract keep cut).nodes)
include nodup kept

theorem children_contract : (f.contract keep cut).children x = (f.children x).contract keep cut := by
  induction f, nodup, kept using contract_induction with
  | here c n nodup kept out keptX =>
    rw [contract_keep c n out keptX,children_cons,if_pos rfl,children_cons,if_pos rfl]
  | below a c n nodup kept nodupC keptC insideC other out ih =>
    rw [children_below nodup insideC,← ih]
    cases keptA : keep a with
    | true => rw [contract_keep c n out keptA,children_cons,if_neg other,if_pos keptC]
    | false => rw [contract_skip c n out keptA,children_append,if_pos keptC]
  | behind a c n nodup kept nodupN keptN insideN other outside ih =>
    obtain ⟨g,away,split⟩ := contract_behind keep cut n other outside
    rw [split,children_append,if_neg away,children_behind nodup insideN,ih]

theorem ancestors_contract : (f.contract keep cut).ancestors x = (f.ancestors x).filter keep := by
  induction f, nodup, kept using contract_induction with
  | here c n nodup kept out keptX =>
    rw [contract_keep c n out keptX,ancestors_self,ancestors_self]
    rfl
  | below a c n nodup kept nodupC keptC insideC other out ih =>
    rw [ancestors_below nodup insideC,List.filter_append,← ih]
    cases keptA : keep a with
    | true =>
      rw [contract_keep c n out keptA,ancestors,if_neg other,if_pos keptC]
      simp [keptA]
    | false =>
      rw [contract_skip c n out keptA,ancestors_appended,if_pos keptC]
      simp [keptA]
  | behind a c n nodup kept nodupN keptN insideN other outside ih =>
    obtain ⟨g,away,split⟩ := contract_behind keep cut n other outside
    rw [split,ancestors_appended,if_neg away,ancestors_behind nodup insideN,ih]

theorem rest_contract : ((f.contract keep cut).rest x).head? = ((f.children x).contract keep cut).first.or
      ((x :: f.ancestors x).findSome? fun y => ((f.later y).contract keep cut).first) := by
  induction f, nodup, kept using contract_induction with
  | here c n nodup kept out keptX =>
    rw [contract_keep c n out keptX,rest,if_pos rfl,children_cons,if_pos rfl,ancestors_self,
      List.findSome?_singleton,later_self,List.head?_append,first_eq,first_eq]
  | below a c n nodup kept nodupC keptC insideC other out ih =>
    have climb := findSome_below (fun g => (g.contract keep cut).first) nodup (upwards_inside insideC)
    have left : ((cons a c n).contract keep cut).rest x =
        (c.contract keep cut).rest x ++ (n.contract keep cut).nodes := by
      cases keptA : keep a with
      | true => rw [contract_keep c n out keptA,rest,if_neg other,if_pos keptC]
      | false => rw [contract_skip c n out keptA,rest_append,if_pos keptC]
    rw [left,List.head?_append,ih,children_below nodup insideC,ancestors_below nodup insideC,
      ← List.cons_append,List.findSome?_append,climb,List.findSome?_singleton,later_self,
      ← first_eq,Option.or_assoc]
  | behind a c n nodup kept nodupN keptN insideN other outside ih =>
    have climb := findSome_behind (fun g => (g.contract keep cut).first) nodup (upwards_inside insideN)
    obtain ⟨g,away,split⟩ := contract_behind keep cut n other outside
    rw [split,rest_append,if_neg away,children_behind nodup insideN,ancestors_behind nodup insideN,
      climb,ih]

theorem nextOf_contract : (f.contract keep cut).nextOf x =
      (x :: (f.ancestors x).takeWhile fun y => !keep y).findSome? fun y =>
        ((f.later y).contract keep cut).first := by
  induction f, nodup, kept using contract_induction with
  | here c n nodup kept out keptX =>
    rw [contract_keep c n out keptX,nextOf,if_pos rfl,ancestors_self,List.takeWhile_nil,
      List.findSome?_singleton,later_self]
  | below a c n nodup kept nodupC keptC insideC other out ih =>
    have climb := findSome_below (fun g => (g.contract keep cut).first) nodup
      fun y up => upwards_inside insideC y
        (((List.takeWhile_sublist fun y => !keep y).cons_cons x).subset up)
    rw [ancestors_below nodup insideC,takeWhile_concat]
    cases keptA : keep a with
    | true =>
      rw [contract_keep c n out keptA,nextOf,if_neg other,if_pos keptC,ih,← climb,if_neg (by simp),
        List.append_nil]
    | false =>
      rw [contract_skip c n out keptA,nextOf_append keptC,ih,ancestors_contract nodupC keptC,← climb]
      by_cases top : (c.ancestors x).filter keep = []
      · rw [if_pos top,if_pos ⟨top,rfl⟩,← List.cons_append,List.findSome?_append,
          List.findSome?_singleton,later_self]
      · rw [if_neg top,if_neg fun both => top both.1,List.append_nil,Option.or_none]
  | behind a c n nodup kept nodupN keptN insideN other outside ih =>
    obtain ⟨g,away,split⟩ := contract_behind keep cut n other outside
    have climb := findSome_behind (fun g => (g.contract keep cut).first) nodup
      fun y up => upwards_inside insideN y
        (((List.takeWhile_sublist fun y => !keep y).cons_cons x).subset up)
    rw [split,nextOf_append_right away,ancestors_behind nodup insideN,ih,climb]

theorem preceding_contract (before : Option α) :
    (f.contract keep cut).preceding x before = passed keep cut f before (x :: f.ancestors x) := by
  induction f, nodup, kept using contract_induction generalizing before with
  | here c n nodup kept out keptX =>
    rw [contract_keep c n out keptX,preceding,if_pos rfl,ancestors_self,passed,later_self]
  | below a c n nodup kept nodupC keptC insideC other out ih =>
    have same : ∀ y ∈ x :: c.ancestors x, (cons a c n).later y = c.later y :=
      fun y up => later_below nodup (upwards_inside insideC y up)
    rw [ancestors_below nodup insideC,passed_append,passed_congr same,later_self,← ih]
    cases keptA : keep a with
    | true => rw [contract_keep c n out keptA,preceding,if_neg other,if_pos keptC]; rfl
    | false => rw [contract_skip c n out keptA,preceding_append,if_pos keptC]; rfl
  | behind a c n nodup kept nodupN keptN insideN other outside ih =>
    have same : ∀ y ∈ x :: n.ancestors x, (cons a c n).later y = n.later y :=
      fun y up => later_behind nodup (upwards_inside insideN y up)
    obtain ⟨g,away,split⟩ := contract_behind keep cut n other outside
    rw [split,preceding_append,if_neg away,ancestors_behind nodup insideN,passed_congr same,ih]

end contracted

end Sharko.Library.Forest
