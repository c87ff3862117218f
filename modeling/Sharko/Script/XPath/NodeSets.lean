import Mathlib.Data.List.Forall2
import Mathlib.Logic.Equiv.List
import Sharko.Script.XPath.Axes
import Sharko.Script.XPath.Expressions

/-! Every node-set an expression produces is in document order and free of duplicates,
and a step over a node-set is the union of the steps from its nodes. -/

namespace Sharko.Script.XPath
open Library Rose Address

theorem bind_ok {α β : Type} {x : Except XPathError α} {f : α → Except XPathError β} {r : β} :
    x >>= f = .ok r ↔ ∃ a, x = .ok a ∧ f a = .ok r := by
  cases x with
  | error e => simp [bind,Except.bind]
  | ok a => simp [bind,Except.bind]

theorem mapM_ok {α β : Type} {f : α → Except XPathError β} {list : List α} {out : List β}
    (mapped : list.mapM f = .ok out) : List.Forall₂ (fun a b => f a = .ok b) list out := by
  induction list generalizing out with
  | nil =>
    cases mapped
    exact List.Forall₂.nil
  | cons a rest ih =>
    rw [List.mapM_cons] at mapped
    obtain ⟨b,first,continued⟩ := bind_ok.mp mapped
    obtain ⟨later,finished,same⟩ := bind_ok.mp continued
    cases same
    exact List.Forall₂.cons first (ih finished)

theorem mapM_of_ok {α β : Type} {f : α → Except XPathError β} {g : α → β} {list : List α}
    (total : ∀ a ∈ list,f a = .ok (g a)) : list.mapM f = .ok (list.map g) := by
  induction list with
  | nil => rfl
  | cons a rest ih =>
    obtain ⟨first,later⟩ := List.forall_mem_cons.mp total
    rw [List.mapM_cons,first,ih later]
    rfl

section
variable {R : Type} [JsNumber R] {d : Document}

theorem applyFrom_sublist {pred : Closure R} {size i : Nat} {list out : List Node}
    (applied : applyFrom pred size i list = .ok out) : out.Sublist list := by
  induction list generalizing i out with
  | nil =>
    cases applied
    exact List.Sublist.refl []
  | cons n rest ih =>
    obtain ⟨v,_,continued⟩ := bind_ok.mp applied
    obtain ⟨later,finished,same⟩ := bind_ok.mp continued
    cases same
    split_ifs
    · exact (ih finished).cons_cons n
    · exact (ih finished).cons n

theorem applyPredicates_sublist {preds : List (Closure R)} {list out : List Node}
    (applied : applyPredicates preds list = .ok out) : out.Sublist list := by
  induction preds generalizing list with
  | nil =>
    cases applied
    exact List.Sublist.refl _
  | cons pred rest ih =>
    unfold applyPredicates at applied
    split_ifs at applied
    · cases applied
      exact List.Sublist.refl _
    · obtain ⟨kept,first,finished⟩ := bind_ok.mp applied
      exact (ih finished).trans (applyFrom_sublist first)

theorem stepFrom_nodeSet {step : Step R} {n : Node} {out : List Node} (holds : d.Holds n)
    (stepped : stepFrom d step n = .ok out) : d.NodeSet n out := by
  obtain ⟨list,applied,same⟩ := bind_ok.mp stepped
  cases same
  exact (collect_nodesOn step.axis step.test holds).sublist (applyPredicates_sublist applied)

theorem docOrder_nodeSet {n : Node} {all : List Node} (inside : ∀ m ∈ all,d.Holds m)
    (tree : ∀ m ∈ all,d.rootOf m = d.rootOf n) : d.NodeSet n (d.docOrder all) :=
  ⟨docOrder_ordered all,fun m mem => inside m (mem_docOrder.mp mem),
    fun m mem => tree m (mem_docOrder.mp mem)⟩

theorem flatten_within {step : Step R} {n : Node} {input : List Node} {sets : List (List Node)}
    (nodes : d.NodeSet n input) (mapped : input.mapM (stepFrom d step) = .ok sets) :
    ∀ m ∈ sets.flatten,d.Holds m ∧ d.rootOf m = d.rootOf n := by
  intro m mem
  obtain ⟨set,there,mem⟩ := List.mem_flatten.mp mem
  have results := mapM_ok mapped
  obtain ⟨i,less,rfl⟩ := List.mem_iff_getElem.mp there
  have less' : i < input.length := results.length_eq ▸ less
  have stepped := results.get less' less
  have source : input[i] ∈ input := List.getElem_mem less'
  have result := stepFrom_nodeSet (nodes.inside _ source) stepped
  exact ⟨result.inside m mem,(result.oneTree m mem).trans (nodes.oneTree _ source)⟩

theorem ordered_iff {nodes : List Node} :
    d.Ordered nodes ↔ nodes.Pairwise fun m n => m ≠ n ∧ d.rank m ≤ d.rank n := by
  rw [List.pairwise_and_iff]
  exact ⟨fun h => ⟨h.nodup,h.sorted⟩,fun h => ⟨h.1,h.2⟩⟩

theorem flatten_ordered {step : Step R} {n : Node} {input : List Node} {sets : List (List Node)}
    (nodes : d.NodeSet n input) (mapped : input.mapM (stepFrom d step) = .ok sets)
    (apart : ∀ a ∈ input,∀ b ∈ input,a ≠ b → d.rank a ≤ d.rank b → ∀ x y : List Node,
      stepFrom d step a = .ok x → stepFrom d step b = .ok y →
      ∀ p ∈ x,∀ q ∈ y,p ≠ q ∧ d.rank p ≤ d.rank q) : d.Ordered sets.flatten := by
  have results := mapM_ok mapped
  rw [ordered_iff,List.pairwise_flatten]
  refine ⟨?_,?_⟩
  · intro set there
    obtain ⟨i,less,rfl⟩ := List.mem_iff_getElem.mp there
    have less' : i < input.length := results.length_eq ▸ less
    have source : input[i] ∈ input := List.getElem_mem less'
    exact ordered_iff.mp (stepFrom_nodeSet (nodes.inside _ source) (results.get less' less)).ordered
  · rw [List.pairwise_iff_getElem]
    intro i j first second less
    have first' : i < input.length := results.length_eq ▸ first
    have second' : j < input.length := results.length_eq ▸ second
    obtain ⟨other,before⟩ := List.pairwise_iff_getElem.mp (ordered_iff.mp nodes.ordered) i j first' second' less
    exact apart _ (List.getElem_mem first') _ (List.getElem_mem second') other before _ _
      (results.get first' first) (results.get second' second)

theorem stepFrom_collected {step : Step R} {n : Node} {out : List Node}
    (stepped : stepFrom d step n = .ok out) : ∀ m ∈ out,m ∈ d.collect step.axis step.test n := by
  intro m mem
  obtain ⟨list,applied,same⟩ := bind_ok.mp stepped
  cases same
  refine (applyPredicates_sublist applied).subset ?_
  split_ifs at mem
  · exact List.mem_reverse.mp mem
  · exact mem

theorem mem_collect_self {test : Test} {n m : Node} (collected : m ∈ d.collect .self test n) : m = n := by
  cases n with
  | tree id =>
    obtain ⟨q,kept,rfl⟩ := List.mem_map.mp collected
    exact congrArg Node.tree (List.mem_singleton.mp (List.mem_of_mem_filter kept))
  | attr o =>
    simp only [Document.collect,Document.collectFromAttr] at collected
    split_ifs at collected
    · exact List.mem_singleton.mp collected
    · simp at collected

theorem mem_collect_attribute {test : Test} {n m : Node} (collected : m ∈ d.collect .attribute test n) :
    ∃ id,n = .tree id ∧ (d.item m).1 = some id := by
  cases n with
  | attr o => simp [Document.collect,Document.collectFromAttr] at collected
  | tree id =>
    simp only [Document.collect,if_true,Document.collectAttributes] at collected
    split_ifs at collected with element
    · obtain ⟨name,kept,rfl⟩ := List.mem_map.mp collected
      exact ⟨id,rfl,congrArg Prod.fst (item_attrNode element (List.mem_of_mem_filter kept))⟩
    · simp at collected

theorem rank_place {m n : Node} {a b : Address} (first : (d.item m).1 = some a)
    (second : (d.item n).1 = some b) (before : Before a b) : d.rank m < d.rank n := by
  unfold Document.rank
  rw [Prod.Lex.toLex_lt_toLex,first,second]
  exact .inl (wayDown_lt.mpr before)

theorem keepsOrder_ordered {step : Step R} (keeps : step.axis.keepsOrder = true) {n : Node}
    {input : List Node} {sets : List (List Node)} (nodes : d.NodeSet n input)
    (mapped : input.mapM (stepFrom d step) = .ok sets) : d.Ordered sets.flatten := by
  refine flatten_ordered nodes mapped ?_
  intro a _ b _ other before x y first second p here q there
  have here := stepFrom_collected first p here
  have there := stepFrom_collected second q there
  cases axis : step.axis with
  | self =>
    rw [axis] at here there
    rw [mem_collect_self here,mem_collect_self there]
    exact ⟨other,before⟩
  | «attribute» =>
    rw [axis] at here there
    obtain ⟨i,rfl,place⟩ := mem_collect_attribute here
    obtain ⟨j,rfl,place'⟩ := mem_collect_attribute there
    have less : Before i j := by
      refine rank_tree.mp (lt_of_le_of_ne before ?_)
      exact fun same => other (congrArg Node.tree (rank_tree_injective same))
    have rising := rank_place place place' less
    exact ⟨fun same => rising.ne (congrArg d.rank same),rising.le⟩
  | ancestor | ancestorOrSelf | child | descendant | descendantOrSelf | following | followingSibling
  | namespaces | parent | preceding | precedingSibling => simp [axis,Axis.keepsOrder] at keeps

theorem tree_unique {ids : List Address} {nodes : List Node} (first : d.Ordered (ids.map Node.tree))
    (second : d.Ordered nodes) (same : ∀ m,m ∈ nodes ↔ m ∈ ids.map Node.tree) : nodes = ids.map Node.tree := by
  have perm : nodes.Perm (ids.map Node.tree) := (List.perm_ext_iff_of_nodup second.nodup first.nodup).mpr same
  refine List.Perm.eq_of_pairwise ?_ second.sorted first.sorted perm
  intro m n here there before after
  obtain ⟨a,_,rfl⟩ := List.mem_map.mp ((same m).mp here)
  obtain ⟨b,_,rfl⟩ := List.mem_map.mp there
  exact congrArg Node.tree (rank_tree_injective (le_antisymm before after))

theorem stepFrom_plain {step : Step R} (plain : step.preds = []) (n : Node) :
    stepFrom d step n = .ok (if step.axis.reverse then (d.collect step.axis step.test n).reverse
      else d.collect step.axis step.test n) := by
  unfold stepFrom
  rw [plain]
  rfl

theorem union_of_cover {step : Step R} (plain : step.preds = []) {n e : Node} {input : List Node}
    (nodes : d.NodeSet n input) (chosen : e ∈ input)
    (trees : ∃ ids : List Address,d.collect step.axis step.test e = ids.map Node.tree)
    (cover : ∀ a ∈ input,∀ m ∈ d.collect step.axis step.test a,m ∈ d.collect step.axis step.test e) :
    (do return d.docOrder (← input.mapM (stepFrom d step)).flatten) = stepFrom d step e := by
  have total := mapM_of_ok fun a (_ : a ∈ input) => stepFrom_plain (d := d) plain a
  have within := flatten_within nodes total
  have chosenNodes := stepFrom_nodeSet (nodes.inside e chosen) (stepFrom_plain plain e)
  have members : ∀ a m,(m ∈ if step.axis.reverse then (d.collect step.axis step.test a).reverse
      else d.collect step.axis step.test a) ↔ m ∈ d.collect step.axis step.test a := by
    intro a m
    split_ifs
    · exact List.mem_reverse
    · exact Iff.rfl
  obtain ⟨ids,same⟩ : ∃ ids : List Address,(if step.axis.reverse then (d.collect step.axis step.test e).reverse
      else d.collect step.axis step.test e) = ids.map Node.tree := by
    obtain ⟨ids,same⟩ := trees
    split_ifs
    · exact ⟨ids.reverse,by rw [same,List.map_reverse]⟩
    · exact ⟨ids,same⟩
  rw [total,stepFrom_plain plain e]
  refine congrArg Except.ok ?_
  rw [same]
  refine tree_unique (same ▸ chosenNodes.ordered) (docOrder_ordered _) ?_
  intro m
  rw [mem_docOrder,← same,members e m,List.mem_flatten]
  constructor
  · rintro ⟨_,there,mem⟩
    obtain ⟨a,source,rfl⟩ := List.mem_map.mp there
    exact cover a source m ((members a m).mp mem)
  · intro mem
    exact ⟨_,List.mem_map_of_mem chosen,(members e m).mpr mem⟩

theorem endsFirst_spec {best : Address} {rest : List Address} (rising : (best :: rest).Pairwise Before) :
    best <:+ endsFirst best rest ∧ endsFirst best rest ∈ best :: rest ∧
      ∀ id ∈ best :: rest,id <:+ endsFirst best rest ∨ Branches (endsFirst best rest) id := by
  induction rest generalizing best with
  | nil => simp [endsFirst]
  | cons next rest ih =>
    obtain ⟨before,later⟩ := List.pairwise_cons.mp rising
    have step : endsFirst best (next :: rest) =
        endsFirst (if best.isSuffixOf next then next else best) rest := rfl
    rw [step]
    split_ifs with above
    · obtain ⟨grown,chosen,cover⟩ := ih later
      have highest := (List.isSuffixOf_iff_suffix.mp above).trans grown
      refine ⟨highest,List.mem_cons_of_mem best chosen,?_⟩
      intro id mem
      rcases List.mem_cons.mp mem with rfl | mem
      · exact .inl highest
      · exact cover id mem
    · have rest_rising := List.pairwise_cons.mpr
        ⟨fun id mem => before id (List.mem_cons_of_mem next mem),(List.pairwise_cons.mp later).2⟩
      obtain ⟨grown,chosen,cover⟩ := ih rest_rising
      refine ⟨grown,(List.sublist_cons_self next rest).cons_cons best |>.subset chosen,?_⟩
      intro id mem
      rcases List.mem_cons.mp mem with rfl | mem
      · exact cover id List.mem_cons_self
      · rcases List.mem_cons.mp mem with rfl | mem
        · have right := branches_of_before (before id List.mem_cons_self)
            (fun h => above (List.isSuffixOf_iff_suffix.mpr h))
          obtain ⟨w,same⟩ := grown
          exact .inr (same ▸ branches_below w right)
        · exact cover id (List.mem_cons_of_mem best mem)

theorem last_spec {ids : List Address} (rising : ids.Pairwise Before) (some : ids ≠ []) :
    ∀ id ∈ ids,id <:+ ids.getLast some ∨ Branches id (ids.getLast some) := by
  intro id mem
  by_cases same : id = ids.getLast some
  · exact .inl (same ▸ List.suffix_rfl)
  · have before : Before id (ids.getLast some) := by
      rw [← List.dropLast_append_getLast some] at rising mem
      rcases List.mem_append.mp mem with mem | mem
      · exact (List.pairwise_append.mp rising).2.2 id mem _ List.mem_cons_self
      · exact absurd (List.mem_singleton.mp mem) same
    by_cases above : id <:+ ids.getLast some
    · exact .inl above
    · exact .inr (branches_of_before before above)

theorem ids_eq {input : List Node} {ids : List Address} (trees : input.mapM Node.id? = some ids) :
    input = ids.map Node.tree := by
  induction input generalizing ids with
  | nil =>
    cases trees
    rfl
  | cons n rest ih =>
    rw [List.mapM_cons] at trees
    obtain ⟨id,first,trees⟩ := Option.bind_eq_some_iff.mp trees
    obtain ⟨later,finished,same⟩ := Option.bind_eq_some_iff.mp trees
    cases same
    cases n with
    | attr o => simp [Node.id?] at first
    | tree a =>
      cases first
      rw [List.map_cons,ih finished]

theorem ids_rising {ids : List Address} (ordered : d.Ordered (ids.map Node.tree)) : ids.Pairwise Before := by
  have both := ordered_iff.mp ordered
  rw [List.pairwise_map] at both
  refine both.imp ?_
  rintro a b ⟨other,before⟩
  exact rank_tree.mp (lt_of_le_of_ne before fun same => other (congrArg Node.tree (rank_tree_injective same)))

theorem union_of_reach {step : Step R} (plain : step.preds = []) (ofTree : step.axis ≠ .attribute)
    {n : Node} {ids : List Address} (nodes : d.NodeSet n (ids.map Node.tree)) {e : Address} (chosen : e ∈ ids)
    (cover : ∀ id ∈ ids,∀ q ∈ d.reach step.axis id,q ∈ d.reach step.axis e) :
    (do return d.docOrder (← (ids.map Node.tree).mapM (stepFrom d step)).flatten) =
      stepFrom d step (.tree e) := by
  have inside : ∀ id ∈ ids,d.root.Inside id := fun id mem =>
    nodes.inside (.tree id) (List.mem_map_of_mem mem)
  have collected : ∀ id ∈ ids,d.collect step.axis step.test (.tree id) =
      ((d.reach step.axis id).filter (d.treeTest step.test)).map Node.tree := by
    intro id mem
    rw [← collectTree_eq step.axis (d.treeTest step.test) (inside id mem)]
    simp only [Document.collect,if_neg ofTree]
  refine union_of_cover plain nodes (List.mem_map_of_mem chosen) ⟨_,collected e chosen⟩ ?_
  intro a source m mem
  obtain ⟨id,here,rfl⟩ := List.mem_map.mp source
  rw [collected id here] at mem
  rw [collected e chosen]
  exact List.map_subset _ (List.filter_subset _ (cover id here)) mem

theorem reduceInputs_union {step : Step R} {n : Node} {input : List Node} (nodes : d.NodeSet n input) :
    reduceInputs step input = input ∨ ∃ e ∈ input,reduceInputs step input = [e] ∧
      (do return d.docOrder (← input.mapM (stepFrom d step)).flatten) = stepFrom d step e := by
  unfold reduceInputs
  by_cases skipped : (!step.preds.isEmpty || (step.axis != .following && step.axis != .preceding)) = true
  · exact .inl (if_pos skipped)
  · rw [if_neg skipped]
    simp only [Bool.or_eq_true,Bool.and_eq_true,not_or,Bool.not_eq_true',bne_iff_ne,ne_eq,
      List.isEmpty_iff,Bool.not_eq_false] at skipped
    obtain ⟨plain,axis⟩ := skipped
    cases trees : input.mapM Node.id? with
    | none => exact .inl rfl
    | some ids =>
      cases ids with
      | nil => exact .inl rfl
      | cons first rest =>
        obtain rfl := ids_eq trees
        have rising := ids_rising nodes.ordered
        right
        dsimp only
        split_ifs with backward
        · have chosen := List.getLast_mem (List.cons_ne_nil first rest)
          have last : (first :: rest).getLastD first = (first :: rest).getLast (List.cons_ne_nil first rest) := by
            rw [List.getLastD_eq_getLast?,List.getLast?_eq_some_getLast (List.cons_ne_nil first rest),
              Option.getD_some]
          refine ⟨.tree _,List.mem_map_of_mem chosen,by rw [last],?_⟩
          refine union_of_reach plain (by simp [backward]) nodes chosen ?_
          intro id here q reached
          have inside : ∀ id ∈ first :: rest,d.root.Inside id := fun id mem =>
            nodes.inside (.tree id) (List.mem_map_of_mem mem)
          rw [backward] at reached ⊢
          obtain ⟨left,there⟩ := (mem_preceding (inside id here)).mp reached
          refine (mem_preceding (inside _ chosen)).mpr ⟨?_,there⟩
          rcases last_spec rising (List.cons_ne_nil first rest) id here with ⟨w,above⟩ | right
          · exact above ▸ below_branches w left
          · exact left.trans right
        · have forward : step.axis = .following := by
            by_contra other
            exact axis ⟨other,backward⟩
          obtain ⟨_,chosen,cover⟩ := endsFirst_spec rising
          refine ⟨.tree (endsFirst first rest),List.mem_map_of_mem chosen,rfl,?_⟩
          refine union_of_reach plain (by simp [forward]) nodes chosen ?_
          intro id here q reached
          rw [forward] at reached ⊢
          obtain ⟨right,there⟩ := mem_following.mp reached
          refine mem_following.mpr ⟨?_,there⟩
          rcases cover id here with ⟨w,above⟩ | later
          · exact above ▸ branches_below w right
          · exact later.trans right

theorem union_single {step : Step R} {m : Node} (holds : d.Holds m) :
    (do return d.docOrder (← [m].mapM (stepFrom d step)).flatten) = stepFrom d step m := by
  cases stepped : stepFrom d step m with
  | error e => simp [stepped,bind,Except.bind]
  | ok list =>
    have ordered := (stepFrom_nodeSet holds stepped).ordered
    simp [stepped,bind,Except.bind,pure,Except.pure,docOrder_of_ordered ordered]

theorem union_kept {step : Step R} {n : Node} {input : List Node} (nodes : d.NodeSet n input) : (do
      let out ← input.mapM (stepFrom d step)
      return if step.axis.keepsOrder then out.flatten else d.docOrder out.flatten) =
      (do return d.docOrder (← input.mapM (stepFrom d step)).flatten) := by
  cases mapped : input.mapM (stepFrom d step) with
  | error e => rfl
  | ok sets =>
    simp only [bind,Except.bind,pure,Except.pure]
    split_ifs with keeps
    · rw [docOrder_of_ordered (keepsOrder_ordered keeps nodes mapped)]
    · rfl

theorem evalStep_union {step : Step R} {n : Node} {input : List Node} (nodes : d.NodeSet n input) :
    evalStep d step input = (do return d.docOrder (← input.mapM (stepFrom d step)).flatten) := by
  unfold evalStep
  dsimp only
  by_cases long : input.length > 1
  · rw [if_pos long]
    have reduced := @reduceInputs_union R _ d step n input nodes
    rcases reduced with same | ⟨e,_,single,union⟩
    · rw [same]
      rcases input with _ | ⟨m,_ | ⟨k,rest⟩⟩
      · simp at long
      · simp at long
      · exact union_kept nodes
    · rw [single]
      exact union.symm
  · rw [if_neg long]
    rcases input with _ | ⟨m,_ | ⟨k,rest⟩⟩
    · exact union_kept nodes
    · exact (union_single (nodes.inside m List.mem_cons_self)).symm
    · simp at long

theorem evalStep_nodeSet {step : Step R} {n : Node} {input out : List Node} (nodes : d.NodeSet n input)
    (stepped : evalStep d step input = .ok out) : d.NodeSet n out := by
  rw [evalStep_union nodes] at stepped
  obtain ⟨sets,mapped,same⟩ := bind_ok.mp stepped
  cases same
  have within := flatten_within nodes mapped
  exact docOrder_nodeSet (fun m mem => (within m mem).1) (fun m mem => (within m mem).2)

theorem evalSteps_nodeSet {steps : List (Step R)} {n : Node} {input out : List Node}
    (nodes : d.NodeSet n input) (stepped : evalSteps d steps input = .ok out) : d.NodeSet n out := by
  induction steps generalizing input with
  | nil =>
    cases stepped
    exact nodes
  | cons step rest ih =>
    unfold evalSteps at stepped
    split_ifs at stepped
    · cases stepped
      exact nodes
    · obtain ⟨next,first,later⟩ := bind_ok.mp stepped
      exact ih (evalStep_nodeSet nodes first) later

variable (d) in
/-- The node-sets a closure produces are node-sets from the tree of the context node. -/
def Closure.Sound (c : Closure R) : Prop :=
  ∀ (n : Node) (p s : Nat) (set : List Node),d.Holds n → c n p s = .ok (.nodes set) → d.NodeSet n set

omit [JsNumber R] in
theorem nodeSetOf_ok {v : Value R} {set : List Node} : nodeSetOf v = .ok set ↔ v = .nodes set := by
  cases v <;> simp [nodeSetOf]

theorem elementById_inside {s : JsString} {id : Address} (found : d.elementById s = some id) :
    d.root.Inside id := by
  unfold Document.elementById at found
  split_ifs at found
  · exact d.getElementById_inside s id found
  · cases found
    rfl
  · exact d.querySelectorId_inside s id found

theorem rootOf_tree {n : Node} {id : Address} (root : d.rootOf n = .tree id) : d.rootOf n = .tree [] := by
  cases n with
  | tree a => rfl
  | attr o =>
    simp only [Document.rootOf] at root ⊢
    split_ifs at root ⊢
    rfl

theorem idFn_nodeSet {args : List (Value R)} {n : Node} {set : List Node}
    (called : idFn d args n = .ok (.nodes set)) : d.NodeSet n set := by
  match args with
  | [] => cases called
  | _ :: _ :: _ => cases called
  | [v] =>
    cases called
    refine docOrder_nodeSet ?_ ?_
    · intro m mem
      obtain ⟨id,found,rfl⟩ := List.mem_map.mp mem
      split at found
      · obtain ⟨s,_,found⟩ := List.mem_filterMap.mp found
        exact elementById_inside found
      · simp at found
    · intro m mem
      obtain ⟨id,found,rfl⟩ := List.mem_map.mp mem
      split at found
      next root => exact (rootOf_tree root).symm
      · simp at found

omit [JsNumber R] in
theorem strict_sound {f : List (Value R) → Node → Except XPathError (Value R)} (args : List (Closure R))
    (scalar : ∀ values n set,f values n ≠ .ok (.nodes set)) : (strict f args).Sound d := by
  intro n p s set _ called
  obtain ⟨values,_,applied⟩ := bind_ok.mp called
  exact absurd applied (scalar values n set)

omit [JsNumber R] in
theorem nameFn_scalar (pick : JsString × Option JsString × Option JsString → JsString)
    (values : List (Value R)) (n : Node) (set : List Node) : nameFn d pick values n ≠ .ok (.nodes set) := by
  unfold nameFn
  split <;> simp

theorem stringArg_scalar {f : JsString → Value R} (scalar : ∀ s set,f s ≠ .nodes set)
    (values : List (Value R)) (n : Node) (set : List Node) : stringArg d f values n ≠ .ok (.nodes set) := by
  unfold stringArg
  split <;> simp [scalar]

omit [JsNumber R] in
theorem unary_scalar {f : Value R → Value R} (scalar : ∀ v set,f v ≠ .nodes set)
    (values : List (Value R)) (n : Node) (set : List Node) : unary f values n ≠ .ok (.nodes set) := by
  unfold unary
  split <;> simp [scalar]

theorem binary_scalar {f : JsString → JsString → Value R} (scalar : ∀ x y set,f x y ≠ .nodes set)
    (values : List (Value R)) (n : Node) (set : List Node) : binary d f values n ≠ .ok (.nodes set) := by
  unfold binary
  split <;> simp [scalar]

theorem make_sound (function : Function) (args : List (Closure R)) : (function.make d args).Sound d := by
  cases function with
  | id =>
    intro n p s set _ called
    obtain ⟨values,_,applied⟩ := bind_ok.mp called
    exact idFn_nodeSet applied
  | last | position | true | false =>
    intro n p s set _ called
    cases called
  | localName | namespaceUri | name => exact strict_sound args (nameFn_scalar _)
  | string | stringLength | normalizeSpace => exact strict_sound args (stringArg_scalar (by simp))
  | startsWith | contains | substringBefore | substringAfter =>
    exact strict_sound args (binary_scalar (by simp))
  | boolean | not | floor | ceiling | round => exact strict_sound args (unary_scalar (by simp))
  | sum =>
    refine strict_sound args (unary_scalar ?_)
    intro v set
    split <;> simp
  | concat => exact strict_sound args (by simp)
  | count =>
    refine strict_sound args ?_
    intro values n set called
    split at called
    · obtain ⟨_,_,same⟩ := bind_ok.mp called
      cases same
    · cases called
  | substring | translate | lang | number =>
    refine strict_sound args ?_
    intro values n set
    split <;> simp

omit [JsNumber R] in
theorem unionFrom_nodeSet {n : Node} {p s : Nat} (holds : d.Holds n) {parts : List (Closure R)}
    (sound : ∀ part ∈ parts,part.Sound d) {all out : List Node} (nodes : d.NodeSet n all)
    (united : unionFrom d n p s all parts = .ok out) : d.NodeSet n out := by
  induction parts generalizing all with
  | nil =>
    cases united
    exact nodes
  | cons part rest ih =>
    obtain ⟨first,later⟩ := List.forall_mem_cons.mp sound
    obtain ⟨v,called,continued⟩ := bind_ok.mp united
    obtain ⟨set,isSet,finished⟩ := bind_ok.mp continued
    have other := first n p s set holds (nodeSetOf_ok.mp isSet ▸ called)
    refine ih later (docOrder_nodeSet ?_ ?_) finished
    · intro m mem
      exact (List.mem_append.mp mem).elim (nodes.inside m) (other.inside m)
    · intro m mem
      exact (List.mem_append.mp mem).elim (nodes.oneTree m) (other.oneTree m)

theorem rootOf_nodeSet {n : Node} : d.NodeSet n [d.rootOf n] := by
  cases n with
  | tree a => exact nodeSet_single (m := .tree []) rfl rfl
  | attr o =>
    by_cases owned : (d.ownerId o).isSome = true
    · have root : d.rootOf (.attr o) = .tree [] := if_pos owned
      rw [root]
      exact nodeSet_single (m := .tree []) rfl root.symm
    · have root : d.rootOf (.attr o) = .attr o := if_neg owned
      rw [root]
      exact nodeSet_single trivial rfl

mutual

theorem compile_sound (e : Expr R) : (compile d e).Sound d := by
  intro n p s set holds called
  cases e with
  | num v | str v => cases called
  | or a b | and a b =>
    obtain ⟨x,_,continued⟩ := bind_ok.mp called
    split_ifs at continued
    · cases continued
    · obtain ⟨y,_,same⟩ := bind_ok.mp continued
      cases same
  | cmp op a b | arith op a b =>
    obtain ⟨x,_,continued⟩ := bind_ok.mp called
    obtain ⟨y,_,same⟩ := bind_ok.mp continued
    cases same
  | neg a =>
    obtain ⟨x,_,same⟩ := bind_ok.mp called
    cases same
  | call function args => exact make_sound function (compileAll d args) n p s set holds called
  | union first rest =>
    obtain ⟨v,evaluated,continued⟩ := bind_ok.mp called
    obtain ⟨all,isSet,continued⟩ := bind_ok.mp continued
    obtain ⟨out,united,same⟩ := bind_ok.mp continued
    cases same
    have nodes := compile_sound first n p s all holds (nodeSetOf_ok.mp isSet ▸ evaluated)
    exact unionFrom_nodeSet holds (compileAll_sound rest) nodes united
  | filter e preds =>
    obtain ⟨v,evaluated,continued⟩ := bind_ok.mp called
    obtain ⟨list,isSet,continued⟩ := bind_ok.mp continued
    obtain ⟨out,applied,same⟩ := bind_ok.mp continued
    cases same
    have nodes := compile_sound e n p s list holds (nodeSetOf_ok.mp isSet ▸ evaluated)
    exact nodes.sublist (applyPredicates_sublist applied)
  | path start abs steps =>
    obtain ⟨cur,started,continued⟩ := bind_ok.mp called
    obtain ⟨out,stepped,same⟩ := bind_ok.mp continued
    cases same
    exact evalSteps_nodeSet (compileStart_nodeSet start abs n p s cur holds started) stepped

theorem compileStart_nodeSet (start : Option (Expr R)) (abs : Bool) (n : Node) (p s : Nat)
    (cur : List Node) (holds : d.Holds n) (started : compileStart d start abs n p s = .ok cur) :
    d.NodeSet n cur := by
  cases start with
  | none =>
    cases started
    split_ifs
    · exact rootOf_nodeSet
    · exact nodeSet_single holds rfl
  | some e =>
    obtain ⟨v,evaluated,isSet⟩ := bind_ok.mp started
    exact compile_sound e n p s cur holds (nodeSetOf_ok.mp isSet ▸ evaluated)

theorem compileAll_sound (list : List (Expr R)) : ∀ c ∈ compileAll d list,c.Sound d := by
  cases list with
  | nil => simp [compileAll]
  | cons a rest =>
    intro c mem
    rcases List.mem_cons.mp mem with rfl | later
    · exact compile_sound a
    · exact compileAll_sound rest c later

end

end

/-- Every node-set value is in document order and free of duplicates, whatever the context
node; a step over a node-set is the union, in document order, of the steps from its nodes,
each of which counts positions on its own axis. -/
theorem node_sets {R : Type} [JsNumber R] (d : Document) :
    (∀ (e : Expr R) (n : Node) (p s : Nat) (set : List Node),d.Holds n →
      compile d e n p s = .ok (.nodes set) → d.NodeSet n set) ∧ (∀ (step : Step R) (n : Node),d.Holds n →
      d.NodesOn step.axis n (d.collect step.axis step.test n) ∧
      ∀ out,stepFrom d step n = .ok out → d.NodeSet n out) ∧
    (∀ (step : Step R) (n : Node) (input : List Node),d.NodeSet n input →
      evalStep d step input = (do return d.docOrder (← input.mapM (stepFrom d step)).flatten) ∧
      ∀ out,evalStep d step input = .ok out → d.NodeSet n out) ∧
    ∀ nodes,d.Ordered (d.docOrder nodes) ∧ ∀ m,m ∈ d.docOrder nodes ↔ m ∈ nodes := by
  refine ⟨?_,?_,?_,?_⟩
  · intro e n p s set holds called
    exact compile_sound e n p s set holds called
  · intro step n holds
    exact ⟨collect_nodesOn step.axis step.test holds,fun out stepped => stepFrom_nodeSet holds stepped⟩
  · intro step n input nodes
    exact ⟨evalStep_union nodes,fun out stepped => evalStep_nodeSet nodes stepped⟩
  · intro nodes
    exact ⟨docOrder_ordered nodes,fun m => mem_docOrder⟩

namespace Sample

instance : JsNumber (Option Int) where
  ofNat n := some n
  nan := none
  infinity := none
  neg v := v.map (- ·)
  add v w := do return (← v) + (← w)
  sub v w := do return (← v) - (← w)
  mul v w := do return (← v) * (← w)
  div v w := do return (← v) / (← w)
  rem v w := do return (← v).tmod (← w)
  floor v := v
  ceil v := v
  round v := v
  eq v w := v.isSome && v == w
  lt v w := (do return decide ((← v) < (← w))) == some true
  parseFloat s := some (digitsToNat s)
  toText v := (v.map fun i => js (toString i)).getD (js "NaN")
  toIndex v := (v.map Int.toNat).getD 0

def element (name : String) (attributes : List (JsString × JsString)) (children : List (Rose NodeData)) :
    Rose NodeData :=
  .node ⟨.element,js name,none,none,attributes,[],[]⟩ children

/-- `<a><b><c/></b><b k="1"/></a>` -/
def page : Rose NodeData :=
  element "a" [] [element "b" [] [element "c" [] []],element "b" [(js "k",js "1")] []]

theorem page_cases {a : Address} {s : Rose NodeData} (here : page.at? a = some s) :
    s.data.nodeType = .element ∧ (s.data.attributes.map Prod.fst).Nodup := by
  have inside : a ∈ page.subtree [] := mem_subtree.mpr ⟨List.nil_suffix,Option.isSome_iff_exists.mpr ⟨s,here⟩⟩
  have addresses : page.subtree [] = [[],[0],[0,0],[1]] := rfl
  rw [addresses] at inside
  simp only [List.mem_cons,List.not_mem_nil,or_false] at inside
  rcases inside with rfl | rfl | rfl | rfl
  all_goals
    cases here
    exact ⟨rfl,by decide⟩

def attrObject (o : Nat) : Attr :=
  match (Encodable.decode o : Option (List Nat × List Nat)) with
  | none => ⟨none,[],[],none,none,[]⟩
  | some (a,name) =>
    let name := name.map UInt16.ofNat
    ⟨if page.Inside a then some a else none,name,name,none,none,[]⟩

def document : Document where
  root := page
  attr := attrObject
  attrNode a name := Encodable.encode (a,name.map UInt16.toNat)
  isDocument := false
  htmlMode := false
  getElementById _ := none
  querySelectorId _ := none
  parents a s here bare := by
    rw [(page_cases here).1] at bare
    cases bare
  roots i a s here _ := (page_cases here).1
  names a s here := (page_cases here).2
  owners o a owned := by
    unfold attrObject at owned
    split at owned
    · cases owned
    · dsimp only at owned
      split_ifs at owned with inside
      cases owned
      obtain ⟨s,here⟩ := Option.isSome_iff_exists.mp inside
      rw [here]
      exact congrArg some (page_cases here).1
  attrNode_owner a name element := by
    have inside : page.Inside a := by
      unfold Inside
      cases here : page.at? a with
      | none => simp [here] at element
      | some s => rfl
    simp [attrObject,inside]
  attrNode_name a name element := by
    simp [attrObject,Function.comp_def]
  getElementById_inside s a found := by cases found
  querySelectorId_inside s a found := by cases found

/-- `//b/following::node()` -/
def followingB : Expr (Option Int) :=
  .path none true
    [.descendantOrSelf,.step .child (.name ⟨js "b",js "b",none,false⟩) [],.step .following .node []]

theorem node_sets_page : compile document followingB (.tree [0,0]) 1 1 = .ok (.nodes [.tree [1]]) ∧
    document.NodeSet (.tree [0,0]) [.tree [1]] :=
  ⟨rfl,(node_sets document).1 followingB (.tree [0,0]) 1 1 [.tree [1]] rfl rfl⟩

end Sample

end Sharko.Script.XPath
