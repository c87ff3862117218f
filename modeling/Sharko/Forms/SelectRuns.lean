import Sharko.Forms.SelectStates

/-! Every operation on a select keeps the selectedness worked out the same as the standard's, as long
as no option is left for which the record and the standard differ. -/

namespace Sharko.Forms.Selects

open Library

namespace Select

variable {s : Select} {o : ℕ}

section insert

variable {i : ℕ} {group : Option Bool}

theorem insert_marked (x : ℕ) : (s.insert o i group).marked x = s.marked x := by
  by_cases same : x = o
  · subst same
    simp [insert,marked]
  · simp [insert,marked,same]

theorem insert_options : (s.insert o i group).options = s.options.take i ++ o :: s.options.drop i := rfl

theorem mem_insert {x : ℕ} : x ∈ (s.insert o i group).options ↔ x = o ∨ x ∈ s.options := by
  conv_rhs => rw [← List.take_append_drop i s.options]
  rw [insert_options]
  simp only [List.mem_append,List.mem_cons]
  tauto

theorem insert_filter (unmarked : s.marked o = false) :
    (s.insert o i group).options.filter (s.insert o i group).marked = s.options.filter s.marked := by
  rw [funext (insert_marked (s := s)),insert_options,List.filter_append,
    List.filter_cons_of_neg (by simp [unmarked]),← List.filter_append,List.take_append_drop]

theorem insert_disabled {x : ℕ} (other : x ≠ o) :
    (s.insert o i group).optionDisabled x = s.optionDisabled x := by
  simp [insert,optionDisabled,other]

theorem insert_anyExplicit :
    (s.insert o i group).anyExplicit = ((s.selectedness o).isSome || s.anyExplicit) := by
  rw [Bool.eq_iff_iff]
  simp only [anyExplicit,List.any_eq_true,Bool.or_eq_true,mem_insert]
  constructor
  · rintro ⟨x,rfl | member,explicit⟩
    · exact .inl explicit
    · exact .inr ⟨x,member,explicit⟩
  · rintro (explicit | ⟨x,member,explicit⟩)
    · exact ⟨o,.inl rfl,explicit⟩
    · exact ⟨x,.inr member,explicit⟩

theorem insert_firstEnabled (new : o ∉ s.options) : (s.insert o i group).firstEnabled = s.firstEnabled ∨
      (s.insert o i group).firstEnabled = some o := by
  have others (xs : List ℕ) (inside : ∀ x ∈ xs,x ∈ s.options) :
      xs.find? (fun x => !(s.insert o i group).optionDisabled x) =
        xs.find? fun x => !s.optionDisabled x := by
    induction xs with
    | nil => rfl
    | cons x xs ih =>
      have other : x ≠ o := ne_of_mem_of_not_mem (inside x (List.mem_cons_self ..)) new
      rw [List.find?_cons,List.find?_cons,insert_disabled other,
        ih fun x member => inside x (List.mem_cons_of_mem _ member)]
  have whole : s.firstEnabled = ((s.options.take i).find? fun x => !s.optionDisabled x).or
      ((s.options.drop i).find? fun x => !s.optionDisabled x) := by
    rw [← List.find?_append,List.take_append_drop,firstEnabled]
  rw [whole,firstEnabled,insert_options,List.find?_append,List.find?_cons,
    others _ fun x => List.mem_of_mem_take,others _ fun x => List.mem_of_mem_drop]
  cases (s.options.take i).find? fun x => !s.optionDisabled x with
  | some x => exact .inl rfl
  | none => split <;> simp

theorem insert_fallback (new : o ∉ s.options) :
    (s.insert o i group).fallback = s.fallback ∨ (s.insert o i group).fallback = some o := by
  unfold fallback
  rcases @insert_firstEnabled s o i group new with same | first
  · rw [same]
    exact .inl rfl
  · rw [first,show (s.insert o i group).displaySize = s.displaySize from rfl]
    split
    · exact .inr rfl
    · exact .inl rfl

theorem insert_picked (new : o ∉ s.options) (unmarked : s.marked o = false)
    (between : (∃ x ∈ s.options,s.marked x = true) ∨ (s.insert o i group).fallback = none ∨
      (s.insert o i group).anyExplicit = false ∧ (s.fallback = none ∨ (s.insert o i group).fallback ≠ some o)) :
    (s.insert o i group).picked = s.picked.or (s.insert o i group).fallback := by
  cases last : (s.options.filter s.marked).getLast? with
  | some x =>
    rw [picked_of_marked last,picked_of_marked ((congrArg _ (insert_filter unmarked)).trans last),
      Option.some_or]
  | none =>
    have before := last_eq_none.mp last
    have after : ∀ x ∈ (s.insert o i group).options,(s.insert o i group).marked x = false := by
      intro x member
      rw [insert_marked]
      rcases mem_insert.mp member with rfl | old
      · exact unmarked
      · exact before x old
    rw [picked_of_unmarked before,picked_of_unmarked after]
    rcases between with ⟨x,member,marked⟩ | nothing | ⟨noneExplicit,only⟩
    · rw [before x member] at marked
      cases marked
    · have was : s.fallback = none := by
        rcases @insert_fallback s o i group new with same | first
        · rw [← same,nothing]
        · rw [nothing] at first
          cases first
      simp [nothing,was]
    · have was : s.anyExplicit = false := by
        rw [insert_anyExplicit,Bool.or_eq_false_iff] at noneExplicit
        exact noneExplicit.2
      simp only [noneExplicit,was,Bool.false_eq_true,if_false]
      rcases only with none | other
      · rw [none,Option.none_or]
      · rw [(insert_fallback new).resolve_right other,Option.or_self]

theorem insert_picked_marked (marked : s.marked o = true) (later : ∀ x ∈ s.options.drop i,s.marked x = false) :
    (s.insert o i group).picked = some o := by
  refine picked_of_marked ?_
  have behind : (s.options.drop i).filter s.marked = [] :=
    List.filter_eq_nil_iff.mpr fun x member => by simp [later x member]
  rw [funext (insert_marked (s := s)),insert_options,List.filter_append,List.filter_cons_of_pos marked,
    behind]
  simp

end insert

section remove

theorem remove_picked {x : ℕ} (is : s.picked = some x) (other : x ≠ o) (nodup : s.options.Nodup) :
    (s.remove o).picked = some x := by
  have without (f : ℕ → Bool) : (s.options.erase o).filter f = (s.options.filter f).filter (· != o) := by
    rw [nodup.erase_eq_filter,List.filter_filter,List.filter_filter]
    exact List.filter_congr fun _ _ => Bool.and_comm ..
  cases last : (s.options.filter s.marked).getLast? with
  | some y =>
    rw [picked_of_marked last] at is
    cases is
    refine picked_of_marked ?_
    obtain ⟨front,split⟩ := List.getLast?_eq_some_iff.mp last
    change ((s.options.erase o).filter s.marked).getLast? = _
    rw [without,split,List.filter_append]
    simp [other]
  | none =>
    have unmarked := last_eq_none.mp last
    rw [picked_of_unmarked unmarked] at is
    have noneExplicit : s.anyExplicit = false := by
      by_contra explicit
      rw [Bool.not_eq_false] at explicit
      simp [explicit] at is
    have stillUnmarked : ∀ y ∈ (s.remove o).options,(s.remove o).marked y = false :=
      fun y member => unmarked y (List.mem_of_mem_erase member)
    rw [picked_of_unmarked stillUnmarked]
    have stillNone : (s.remove o).anyExplicit = false := by
      simp only [anyExplicit,List.any_eq_false] at noneExplicit ⊢
      exact fun y member => noneExplicit y (List.mem_of_mem_erase member)
    simp only [noneExplicit,stillNone,Bool.false_eq_true,if_false] at is ⊢
    unfold fallback at is ⊢
    rw [show (s.remove o).displaySize = s.displaySize from rfl]
    split
    · rename_i one
      rw [if_pos one] at is
      have first : (s.options.filter fun y => !s.optionDisabled y).head? = some x := by
        rw [List.head?_filter]
        exact is
      change (s.options.erase o).find? (fun y => !s.optionDisabled y) = some x
      rw [← List.head?_filter,without]
      obtain ⟨rest,split⟩ := List.head?_eq_some_iff.mp first
      rw [split,List.filter_cons_of_pos (by simpa using other)]
      rfl
    · rename_i many
      rw [if_neg many] at is
      cases is

end remove

section mark

theorem picked_congr {s' : Select} (options : s'.options = s.options)
    (marked : ∀ x ∈ s.options,s'.marked x = s.marked x) (explicit : s'.anyExplicit = s.anyExplicit)
    (fallback : s'.fallback = s.fallback) : s'.picked = s.picked := by
  have filtered : s'.options.filter s'.marked = s.options.filter s.marked := by
    rw [options]
    exact List.filter_congr marked
  cases last : (s.options.filter s.marked).getLast? with
  | some x => rw [picked_of_marked last,picked_of_marked ((congrArg _ filtered).trans last)]
  | none =>
    rw [picked_of_unmarked (last_eq_none.mp last),
      picked_of_unmarked (last_eq_none.mp ((congrArg _ filtered).trans last)),explicit,fallback]

theorem setAttr_marked {b : Bool} (x : ℕ) :
    (s.setAttr o b).marked x = if x = o then (s.selectedness o).getD b else s.marked x := by
  by_cases same : x = o
  · subst same
    simp [setAttr,marked]
  · simp [setAttr,marked,same]

theorem setAttr_disabled {b : Bool} (x : ℕ) : (s.setAttr o b).optionDisabled x = s.optionDisabled x := by
  by_cases same : x = o
  · subst same
    simp [setAttr,optionDisabled]
  · simp [setAttr,optionDisabled,same]

theorem setAttr_fallback {b : Bool} : (s.setAttr o b).fallback = s.fallback := by
  unfold fallback firstEnabled
  simp only [setAttr_disabled]
  rfl

theorem setAttr_picked_of_explicit {b : Bool} (explicit : (s.selectedness o).isSome = true) :
    (s.setAttr o b).picked = s.picked := by
  refine picked_congr rfl (fun x _ => ?_) rfl setAttr_fallback
  rw [setAttr_marked]
  split
  · rename_i same
    obtain ⟨choice,is⟩ := Option.isSome_iff_exists.mp explicit
    simp [same,marked,is]
  · rfl

theorem setAttr_picked_of_outside {b : Bool} (outside : o ∉ s.options) : (s.setAttr o b).picked = s.picked := by
  refine picked_congr rfl (fun x member => ?_) rfl setAttr_fallback
  rw [setAttr_marked,if_neg (ne_of_mem_of_not_mem member outside)]

theorem record_congr {choice choice' : ℕ → Option Bool}
    (same : ∀ x ∈ s.options,choice x = choice' x) : s.record choice = s.record choice' := by
  have recorded : (fun x => if x ∈ s.options then choice x else s.selectedness x) =
      fun x => if x ∈ s.options then choice' x else s.selectedness x := by
    funext x
    split
    · rename_i member
      exact same x member
    · rfl
  rw [record,recorded,record]

theorem choose_marked (choice : ℕ → Option Bool) (x : ℕ) (member : x ∈ s.options) :
    (s.record choice).marked x = (choice x).getD (s.el x).selected := by
  simp [record,marked,member]

theorem split_at_idxOf {l : List ℕ} (member : o ∈ l) :
    l = l.take (l.idxOf o) ++ o :: l.drop (l.idxOf o + 1) := by
  have here := List.idxOf_lt_length_iff.mpr member
  have cons := List.drop_eq_getElem_cons here
  rw [List.getElem_idxOf here] at cons
  rw [← cons,List.take_append_drop]

theorem not_behind {l : List ℕ} (member : o ∈ l) (nodup : l.Nodup) : o ∉ l.drop (l.idxOf o + 1) := by
  rw [split_at_idxOf member,List.nodup_middle] at nodup
  exact fun behind => (List.nodup_cons.mp nodup).1 (List.mem_append_right _ behind)

theorem last_marked {marked : ℕ → Bool} {l : List ℕ} (member : o ∈ l) (is : marked o = true)
    (later : ∀ x ∈ l.drop (l.idxOf o + 1),marked x = false) : (l.filter marked).getLast? = some o := by
  have behind : (l.drop (l.idxOf o + 1)).filter marked = [] :=
    List.filter_eq_nil_iff.mpr fun x member => by simp [later x member]
  rw [split_at_idxOf member,List.filter_append,List.filter_cons_of_pos is,behind]
  simp

theorem last_of_only {marked : ℕ → Bool} {l : List ℕ} (member : o ∈ l) (is : marked o = true)
    (only : ∀ x ∈ l,marked x = true → x = o) : (l.filter marked).getLast? = some o := by
  have here : o ∈ l.filter marked := List.mem_filter.mpr ⟨member,is⟩
  cases last : (l.filter marked).getLast? with
  | none =>
    rw [List.getLast?_eq_none_iff.mp last] at here
    cases here
  | some x =>
    have found := List.mem_filter.mp (List.mem_of_getLast? last)
    rw [only x found.1 found.2]

theorem last_unmarked {m m' : ℕ → Bool} {l : List ℕ} {x : ℕ} (is : (l.filter m).getLast? = some x)
    (still : m' x = true) (fewer : ∀ y ∈ l,m' y = true → m y = true) : (l.filter m').getLast? = some x := by
  have filtered : l.filter m' = (l.filter m).filter m' := by
    rw [List.filter_filter]
    refine List.filter_congr fun y member => ?_
    cases after : m' y with
    | false => rfl
    | true => simp [fewer y member after]
  obtain ⟨front,split⟩ := List.getLast?_eq_some_iff.mp is
  rw [filtered,split,List.filter_append]
  simp [still]

end mark

end Select

namespace Standard

variable {s : Select} {t : Standard} {p : Option ℕ} {o : ℕ}

theorem choose_shows (single : s.multiple = false) (member : o ∈ s.options) :
    Shows s (t.choose s o) (some o) := by
  refine ⟨fun x inside => ?_,?_⟩
  · by_cases same : x = o
    · simp [choose,same]
    · simp [choose,single,member,inside,eq_comm]
  · rintro x ⟨⟩
    exact member

theorem choose_outside (outside : o ∉ s.options) (x : ℕ) (member : x ∈ s.options) :
    (t.choose s o).selectedness x = t.selectedness x := by
  simp [choose,outside,ne_of_mem_of_not_mem member outside]

theorem choose_multiple (multiple : s.multiple = true) (x : ℕ) :
    (t.choose s o).selectedness x = if x = o then true else t.selectedness x := by
  simp [choose,multiple]

theorem clear_apply (x : ℕ) : (t.clear o).selectedness x = if x = o then false else t.selectedness x :=
  Function.update_apply ..

theorem dirty_selectedness : (t.dirty o).selectedness = t.selectedness := rfl

theorem dirty_apply (x : ℕ) : (t.dirty o).dirtiness x = true ↔ x = o ∨ t.dirtiness x = true := by
  change Function.update t.dirtiness o true x = true ↔ _
  rw [Function.update_apply]
  split <;> simp_all

end Standard

theorem settle_marked {s : Select} {t : Standard} (single : s.multiple = false)
    (same : ∀ x ∈ s.options,t.selectedness x = s.marked x) (follows : s.anyExplicit = false) :
    Shows s (t.settle s) s.picked := by
  have filtered : s.options.filter t.selectedness = s.options.filter s.marked :=
    List.filter_congr same
  cases last : (s.options.filter s.marked).getLast? with
  | none =>
    have unmarked := Select.last_eq_none.mp last
    have nothing : Shows s t none := ⟨fun x member => by simp [same x member,unmarked x member],by simp⟩
    rw [Select.picked_of_unmarked unmarked,follows]
    exact Standard.settle_shows single nothing
  | some o =>
    have chosen := Select.marked_of_last last
    rw [Select.picked_of_marked last,Standard.settle,if_neg (by simp [single]),filtered,last]
    refine ⟨fun x member => ?_,?_⟩
    · simp [member,eq_comm]
    · rintro x ⟨⟩
      exact chosen.1

namespace Shows

variable {s s' : Select} {t t' : Standard} {p : Option ℕ} {o x : ℕ}

theorem congr (shows_ : Shows s t p) (same : s'.options = s.options)
    (selectedness : ∀ x ∈ s.options,t'.selectedness x = t.selectedness x) : Shows s' t' p := by
  refine ⟨fun x member => ?_,fun x is => same ▸ shows_.2 x is⟩
  rw [same] at member
  rw [selectedness x member,shows_.1 x member]

theorem selected_iff (shows_ : Shows s t p) (member : x ∈ s.options) :
    t.selectedness x = true ↔ p = some x := by
  rw [shows_.1 x member,decide_eq_true_iff]

theorem without (shows_ : Shows s t p) (fewer : ∀ x ∈ s'.options,x ∈ s.options)
    (kept : ∀ x ∈ s.options,x ≠ o → x ∈ s'.options)
    (others : ∀ x ∈ s'.options,x ≠ o → t'.selectedness x = t.selectedness x)
    (gone : o ∈ s'.options → t'.selectedness o = false) :
    (∃ x ∈ s.options,x ≠ o ∧ t.selectedness x = true) ∧ (∃ x,x ≠ o ∧ p = some x) ∧ Shows s' t' p ∨
      (∀ x ∈ s.options,x ≠ o → t.selectedness x = false) ∧ Shows s' t' none := by
  by_cases other : ∃ x ∈ s.options,x ≠ o ∧ t.selectedness x = true
  · left
    obtain ⟨x,member,ne,selected⟩ := other
    obtain rfl := (shows_.selected_iff member).mp selected
    refine ⟨⟨x,member,ne,selected⟩,⟨x,ne,rfl⟩,?_,?_⟩
    · intro y inside
      by_cases same : y = o
      · subst same
        simp [gone inside,ne]
      · rw [others y inside same,shows_.1 y (fewer y inside)]
    · rintro y ⟨⟩
      exact kept x member ne
  · right
    have unselected : ∀ x ∈ s.options,x ≠ o → t.selectedness x = false :=
      fun x member ne => Bool.eq_false_iff.mpr fun selected => other ⟨x,member,ne,selected⟩
    refine ⟨unselected,fun y inside => ?_,by simp⟩
    by_cases same : y = o
    · subst same
      simp [gone inside]
    · simp [others y inside same,unselected y (fewer y inside) same]

end Shows

namespace Pair

variable {p p' : Pair} {o : ℕ}

theorem agrees_of_marked {s : Select} {t : Standard} (multiple : s.multiple = true)
    (same : ∀ o ∈ s.options,s.marked o = t.selectedness o) : Agrees ⟨s,t⟩ :=
  (agrees_multiple multiple).mpr same

theorem agrees_of_multiple {s : Select} {t : Standard} (multiple : s.multiple = true)
    (same : ∀ o ∈ s.options,s.marked o = t.selectedness o) : Agrees ⟨s,t.settle s⟩ := by
  rw [Standard.settle_multiple multiple]
  exact agrees_of_marked multiple same

theorem agrees_of_single {s : Select} {t : Standard} (single : s.multiple = false)
    (shows_ : Shows s t s.picked) : Agrees ⟨s,t⟩ :=
  (agrees_single single).mpr shows_

theorem insert_invariant {i : ℕ} {group : Option Bool} (inv : Invariant p)
    (allowed : Allowed p (.insert o i group)) (taken : p.step (.insert o i group) = some p') :
    Invariant p' := by
  simp only [step] at taken
  split at taken
  · cases taken
  rename_i new
  obtain ⟨same,behind,between⟩ := allowed new
  rw [← Option.some.inj taken]
  refine ⟨?_,?_,?_⟩
  · change (p.code.options.take i ++ o :: p.code.options.drop i).Nodup
    rw [List.nodup_middle,List.take_append_drop]
    exact List.nodup_cons.mpr ⟨new,inv.nodup⟩
  · intro x dirty
    refine inv.known x ?_
    rw [Standard.settle_dirtiness] at dirty
    split at dirty <;> exact dirty
  cases multiple : p.code.multiple with
  | true =>
    have still : (p.code.insert o i group).multiple = true := multiple
    have before := (agrees_multiple multiple).mp inv.agrees
    refine agrees_of_multiple multiple fun x member => ?_
    rw [Select.insert_marked]
    rcases Select.mem_insert.mp member with rfl | old
    · rw [same]
      split
      · rename_i selected
        rw [selected]
        exact ((Standard.choose_multiple still x).trans (if_pos rfl)).symm
      · rfl
    · rw [before x old]
      split
      · have other := ne_of_mem_of_not_mem old new
        exact ((Standard.choose_multiple still x).trans (if_neg other)).symm
      · rfl
  | false =>
    have still : (p.code.insert o i group).multiple = false := multiple
    have before := (agrees_single multiple).mp inv.agrees
    have inside : o ∈ (p.code.insert o i group).options := Select.mem_insert.mpr (.inl rfl)
    cases selected : p.standard.selectedness o with
    | true =>
      have marked := same.trans selected
      have settled := Standard.settle_shows still
        (Standard.choose_shows (t := p.standard) (s := p.code.insert o i group) still inside)
      rw [Option.some_or] at settled
      refine agrees_of_single multiple ?_
      rw [if_pos rfl,Select.insert_picked_marked marked (behind multiple marked)]
      exact settled
    | false =>
      have unmarked := same.trans selected
      have kept : Shows (p.code.insert o i group) p.standard p.code.picked := by
        refine ⟨fun x member => ?_,fun x is => Select.mem_insert.mpr (.inr (before.2 x is))⟩
        rcases Select.mem_insert.mp member with rfl | old
        · rw [selected,eq_comm,decide_eq_false_iff_not]
          exact fun is => new (before.2 x is)
        · exact before.1 x old
      refine agrees_of_single multiple ?_
      rw [if_neg (by simp),Select.insert_picked new unmarked (between multiple unmarked)]
      exact Standard.settle_shows still kept

theorem remove_invariant (inv : Invariant p) (allowed : Allowed p (.remove o))
    (taken : p.step (.remove o) = some p') : Invariant p' := by
  simp only [step] at taken
  split at taken
  · cases taken
  rw [← Option.some.inj taken]
  have fewer : ∀ x ∈ (p.code.remove o).options,x ∈ p.code.options := fun x => List.mem_of_mem_erase
  refine ⟨inv.nodup.erase o,?_,?_⟩
  · intro x dirty
    rw [Standard.settle_dirtiness] at dirty
    exact inv.known x dirty
  cases multiple : p.code.multiple with
  | true =>
    exact agrees_of_multiple multiple fun x member =>
      (agrees_multiple multiple).mp inv.agrees x (fewer x member)
  | false =>
    have still : (p.code.remove o).multiple = false := multiple
    have before := (agrees_single multiple).mp inv.agrees
    refine agrees_of_single multiple ?_
    rcases before.without (o := o) fewer (fun x member ne => (List.mem_erase_of_ne ne).mpr member)
        (fun _ _ _ => rfl) (fun inside => absurd inside inv.nodup.not_mem_erase) with
      ⟨-,⟨x,ne,is⟩,kept⟩ | ⟨unselected,kept⟩
    · have settled := Standard.settle_shows still kept
      rw [is,Option.some_or] at settled
      rw [Select.remove_picked is ne inv.nodup]
      exact settled
    · rw [(allowed multiple unselected).picked]
      exact Standard.settle_shows still kept

theorem agrees_congr {s : Select} {t : Standard} (agrees : p.Agrees)
    (options : s.options = p.code.options) (kind : s.multiple = p.code.multiple)
    (marked : ∀ x ∈ p.code.options,s.marked x = p.code.marked x) (picked : s.picked = p.code.picked)
    (same : ∀ x ∈ p.code.options,t.selectedness x = p.standard.selectedness x) : Agrees ⟨s,t⟩ := by
  cases multiple : p.code.multiple with
  | true =>
    have before := (agrees_multiple multiple).mp agrees
    refine agrees_of_marked (kind.trans multiple) fun x member => ?_
    have member : x ∈ p.code.options := options ▸ member
    exact (marked x member).trans ((before x member).trans (same x member).symm)
  | false =>
    have before := (agrees_single multiple).mp agrees
    refine agrees_of_single (kind.trans multiple) ?_
    rw [picked]
    exact before.congr options same

def attrSet (p : Pair) (o : ℕ) (b : Bool) : Standard :=
  if p.standard.dirtiness o then p.standard
  else if b then p.standard.choose (p.code.setAttr o b) o else p.standard.clear o

theorem attrSet_dirtiness {b : Bool} : (p.attrSet o b).dirtiness = p.standard.dirtiness := by
  unfold attrSet
  split
  · rfl
  · split <;> rfl

theorem attrSet_outside {b : Bool} (outside : o ∉ p.code.options) (x : ℕ) (member : x ∈ p.code.options) :
    (p.attrSet o b).selectedness x = p.standard.selectedness x := by
  unfold attrSet
  split
  · rfl
  split
  · exact Standard.choose_outside (s := p.code.setAttr o b) outside x member
  · rw [Standard.clear_apply,if_neg (ne_of_mem_of_not_mem member outside)]

theorem attrSet_explicit {b : Bool} (agrees : p.Agrees)
    (silent : p.standard.dirtiness o = true ∨ p.standard.selectedness o = b) (x : ℕ)
    (member : x ∈ p.code.options) : (p.attrSet o b).selectedness x = p.standard.selectedness x := by
  by_cases inside : o ∈ p.code.options
  · unfold attrSet
    split
    · rfl
    rename_i clean
    have same := silent.resolve_left clean
    split
    · rename_i on
      rw [on] at same
      cases multiple : p.code.multiple with
      | true =>
        refine (Standard.choose_multiple (s := p.code.setAttr o b) multiple x).trans ?_
        split
        · rename_i here
          rw [here,same]
        · rfl
      | false =>
        have before := (agrees_single multiple).mp agrees
        have after := Standard.choose_shows (t := p.standard) (s := p.code.setAttr o b) multiple inside
        rw [after.1 x member,before.1 x member,(before.selected_iff inside).mp same]
    · rename_i off
      rw [Standard.clear_apply]
      split
      · rename_i here
        rw [here,same,Bool.not_eq_true _ |>.mp off]
      · rfl
  · exact attrSet_outside inside x member

theorem attrSet_clean {b : Bool} (inv : Invariant p) (follows : p.code.selectedness o = none) : p.attrSet o b =
      if b then p.standard.choose (p.code.setAttr o b) o else p.standard.clear o := by
  have clean : ¬p.standard.dirtiness o = true := by
    intro dirty
    have known := inv.known o dirty
    rw [follows] at known
    cases known
  rw [attrSet,if_neg clean]

theorem attrSet_invariant {b : Bool} (inv : Invariant p) (silent : (p.code.selectedness o).isSome = true →
      p.standard.dirtiness o = true ∨ p.standard.selectedness o = b)
    (heard : p.code.selectedness o = none → p.code.multiple = false → o ∈ p.code.options →
      Shows (p.code.setAttr o b) (p.attrSet o b) (p.code.setAttr o b).picked) :
    Invariant ⟨p.code.setAttr o b,p.attrSet o b⟩ := by
  refine ⟨inv.nodup,fun x dirty => inv.known x (by rwa [attrSet_dirtiness] at dirty),?_⟩
  cases choice : p.code.selectedness o with
  | some was =>
    have explicit : (p.code.selectedness o).isSome = true := by rw [choice]; rfl
    refine agrees_congr inv.agrees rfl rfl (fun x _ => ?_) (Select.setAttr_picked_of_explicit explicit)
      (attrSet_explicit inv.agrees (silent explicit))
    rw [Select.setAttr_marked]
    split
    · rename_i same
      simp [same,Select.marked,choice]
    · rfl
  | none =>
    by_cases inside : o ∈ p.code.options
    · cases multiple : p.code.multiple with
      | false => exact agrees_of_single multiple (heard choice multiple inside)
      | true =>
        have before := (agrees_multiple multiple).mp inv.agrees
        refine agrees_of_marked multiple fun x member => ?_
        rw [Select.setAttr_marked,attrSet_clean inv choice,choice,Option.getD_none]
        have other := before x member
        cases b with
        | true =>
          refine Eq.trans ?_ (Standard.choose_multiple (s := p.code.setAttr o true) multiple x).symm
          split
          · rfl
          · exact other
        | false =>
          refine Eq.trans ?_ (Standard.clear_apply x).symm
          split
          · rfl
          · exact other
    · refine agrees_congr inv.agrees rfl rfl (fun x member => ?_) (Select.setAttr_picked_of_outside inside)
        (attrSet_outside inside)
      rw [Select.setAttr_marked,if_neg (ne_of_mem_of_not_mem member inside)]

theorem setAttr_invariant (inv : Invariant p) (allowed : Allowed p (.setAttr o))
    (taken : p.step (.setAttr o) = some p') : Invariant p' := by
  simp only [step] at taken
  split at taken
  · rwa [← Option.some.inj taken]
  rename_i was
  obtain ⟨silent,later⟩ := allowed (Bool.not_eq_true _ |>.mp was)
  rw [← Option.some.inj taken]
  refine attrSet_invariant (b := true) inv silent fun follows single inside => ?_
  have marked : (p.code.setAttr o true).marked o = true := by
    rw [Select.setAttr_marked,if_pos rfl,follows]
    rfl
  have last : (p.code.setAttr o true).picked = some o := by
    refine Select.picked_of_marked (Select.last_marked inside marked fun x after => ?_)
    rw [Select.setAttr_marked]
    split
    · rename_i same
      exact absurd (same ▸ after) (Select.not_behind inside inv.nodup)
    · exact later follows single inside x after
  rw [attrSet_clean inv follows,if_pos rfl,last]
  exact Standard.choose_shows single inside

theorem removeAttr_invariant (inv : Invariant p) (allowed : Allowed p (.removeAttr o))
    (taken : p.step (.removeAttr o) = some p') : Invariant p' := by
  simp only [step] at taken
  split at taken
  · rwa [← Option.some.inj taken]
  rename_i was
  have on : (p.code.el o).selected = true := by simpa using was
  obtain ⟨silent,only⟩ := allowed on
  rw [← Option.some.inj taken]
  refine attrSet_invariant (b := false) inv silent fun follows single inside => ?_
  have before := (agrees_single single).mp inv.agrees
  have unmarked : (p.code.setAttr o false).marked o = false := by
    rw [Select.setAttr_marked,if_pos rfl,follows]
    rfl
  have kept : ∀ x ≠ o,(p.code.setAttr o false).marked x = p.code.marked x := fun x ne => by
    rw [Select.setAttr_marked,if_neg ne]
  have wasMarked : p.code.marked o = true := by
    rw [Select.marked,follows]
    exact on
  rw [attrSet_clean inv follows,if_neg (by simp)]
  have cleared (x : ℕ) := Standard.clear_apply (t := p.standard) (o := o) x
  cases selected : p.standard.selectedness o with
  | true =>
    obtain ⟨alone,nothing⟩ := only follows single inside selected
    have none : ∀ x ∈ (p.code.setAttr o false).options,(p.code.setAttr o false).marked x = false := by
      intro x member
      by_cases same : x = o
      · rw [same,unmarked]
      · rw [kept x same,← Bool.not_eq_true]
        exact fun marked => same (alone x member marked)
    have hidden : (p.code.setAttr o false).picked = .none := by
      rw [Select.picked_of_unmarked none,Select.setAttr_fallback]
      split
      · rfl
      · rename_i explicit
        exact nothing (Bool.not_eq_true _ |>.mp explicit)
    rw [hidden]
    refine ⟨fun x member => ?_,by simp⟩
    rw [cleared]
    split
    · rfl
    · rename_i other
      rw [before.1 x member,(before.selected_iff inside).mp selected]
      simp [Ne.symm other]
  | false =>
    have same : ∀ x,(p.standard.clear o).selectedness x = p.standard.selectedness x := by
      intro x
      rw [cleared]
      split
      · rename_i here
        rw [here,selected]
      · rfl
    have picked : (p.code.setAttr o false).picked = p.code.picked := by
      obtain ⟨last,is⟩ := Option.ne_none_iff_exists'.mp fun none =>
        Bool.false_ne_true ((Select.last_eq_none.mp none o inside).symm.trans wasMarked)
      have other : last ≠ o := by
        rintro rfl
        rw [(before.selected_iff inside).mpr (Select.picked_of_marked is)] at selected
        cases selected
      rw [Select.picked_of_marked is]
      refine Select.picked_of_marked (Select.last_unmarked is ?_ fun y _ marked => ?_)
      · rw [kept last other]
        exact (Select.marked_of_last is).2
      · by_cases here : y = o
        · rw [here,wasMarked]
        · rwa [kept y here] at marked
    rw [picked]
    exact before.congr rfl fun x _ => same x

theorem pick_invariant (inv : Invariant p) (chosen : Option ℕ) (listed : ∀ o ∈ chosen,o ∈ p.code.options) :
    Invariant ⟨p.code.record fun o => some (decide (chosen = some o)),p.standard.pick p.code chosen⟩ := by
  have marked (x : ℕ) (member : x ∈ p.code.options) :
      (p.code.record fun o => some (decide (chosen = some o))).marked x = decide (chosen = some x) :=
    Select.choose_marked _ x member
  refine ⟨inv.nodup,?_,?_⟩
  · intro x dirty
    change (if x ∈ p.code.options then some (decide (chosen = some x))
      else p.code.selectedness x).isSome = true
    split
    · rfl
    rename_i outside
    cases chosen with
    | none => exact inv.known x dirty
    | some o =>
      rcases (Standard.dirty_apply x).mp dirty with rfl | before
      · exact absurd (listed x rfl) outside
      · exact inv.known x before
  cases multiple : p.code.multiple with
  | true =>
    refine agrees_of_marked multiple fun x member => ?_
    change x ∈ p.code.options at member
    rw [marked x member]
    cases chosen with
    | none => simp [Standard.pick,member]
    | some o =>
      change _ = (Standard.choose _ p.code o).selectedness x
      rw [Standard.choose_multiple multiple]
      by_cases same : x = o
      · simp [same]
      · simp [same,member,Ne.symm same]
  | false =>
    refine agrees_of_single multiple ?_
    have shows_ : Shows p.code (p.standard.pick p.code chosen) chosen := by
      cases chosen with
      | none => exact ⟨fun x member => by simp [Standard.pick,member],by simp⟩
      | some o => exact Standard.choose_shows multiple (listed o rfl)
    have picked : (p.code.record fun o => some (decide (chosen = some o))).picked = chosen := by
      cases chosen with
      | some o =>
        refine Select.picked_of_marked (Select.last_of_only (listed o rfl) ?_ fun x member is => ?_)
        · rw [marked o (listed o rfl)]
          exact decide_eq_true rfl
        · rw [marked x member,decide_eq_true_iff] at is
          exact (Option.some.inj is).symm
      | none =>
        rw [Select.picked_of_unmarked fun x member => by rw [marked x member]; rfl]
        cases options : p.code.options with
        | nil =>
          split
          · rfl
          simp [Select.fallback,Select.firstEnabled,Select.record,options]
        | cons x rest =>
          refine if_pos (List.any_eq_true.mpr ⟨x,?_,?_⟩)
          · change x ∈ p.code.options
            simp [options]
          · simp [Select.record,options]
    rw [picked]
    exact shows_

theorem reset_invariant (inv : Invariant p) : Invariant ⟨p.code.reset,p.standard.reset p.code⟩ := by
  have marked (x : ℕ) (member : x ∈ p.code.options) : p.code.reset.marked x = (p.code.el x).selected :=
    Select.choose_marked _ x member
  refine ⟨inv.nodup,?_,?_⟩
  · intro x dirty
    rw [Standard.reset,Standard.settle_dirtiness] at dirty
    change (if x ∈ p.code.options then false else p.standard.dirtiness x) = true at dirty
    change (if x ∈ p.code.options then none else p.code.selectedness x).isSome = true
    split at dirty
    · cases dirty
    · rename_i outside
      rw [if_neg outside]
      exact inv.known x dirty
  cases multiple : p.code.multiple with
  | true =>
    refine agrees_of_multiple (s := p.code.reset) multiple fun x member => ?_
    change x ∈ p.code.options at member
    rw [marked x member]
    exact (if_pos member).symm
  | false =>
    refine agrees_of_single multiple (settle_marked (s := p.code.reset) multiple ?_ ?_)
    · intro x member
      change x ∈ p.code.options at member
      rw [marked x member]
      exact if_pos member
    · refine List.any_eq_false.mpr fun x member => ?_
      change x ∈ p.code.options at member
      simp [Select.reset,Select.record,member]

theorem setSelected_marked {selected : Bool} (multiple : p.code.multiple = true) (x : ℕ) :
    (p.code.setOptionSelected o selected).marked x = if x = o then selected else p.code.marked x := by
  by_cases same : x = o <;> simp [Select.setOptionSelected,Select.marked,multiple,same]

theorem unselected_marked (x : ℕ) :
    (p.code.setOptionSelected o false).marked x = if x = o then false else p.code.marked x := by
  by_cases same : x = o <;> simp [Select.setOptionSelected,Select.marked,same]

theorem selected_marked (single : p.code.multiple = false) (inside : o ∈ p.code.options) (x : ℕ)
    (member : x ∈ p.code.options) : (p.code.setOptionSelected o true).marked x = decide (x = o) := by
  by_cases same : x = o <;>
    simp [Select.setOptionSelected,Select.marked,Select.record,single,inside,member,same]

theorem setSelected_options {selected : Bool} :
    (p.code.setOptionSelected o selected).options = p.code.options := by
  unfold Select.setOptionSelected
  split <;> rfl

theorem setSelected_multiple {selected : Bool} :
    (p.code.setOptionSelected o selected).multiple = p.code.multiple := by
  unfold Select.setOptionSelected
  split <;> rfl

theorem setSelected_known {selected : Bool} (x : ℕ) (known : x = o ∨ (p.code.selectedness x).isSome = true) :
    ((p.code.setOptionSelected o selected).selectedness x).isSome = true := by
  unfold Select.setOptionSelected
  by_cases same : x = o
  · simp [same]
  have known := known.resolve_left same
  simp only [Function.update_apply,if_neg same]
  split
  · change (if x ∈ p.code.options then some (decide (x = o)) else p.code.selectedness x).isSome = true
    split
    · rfl
    · exact known
  · exact known

theorem setSelected_outside {selected : Bool} (outside : o ∉ p.code.options) (agrees : p.Agrees) :
    Agrees ⟨p.code.setOptionSelected o selected,
      (if selected then p.standard.choose (p.code.setOptionSelected o selected) o
        else p.standard.clear o).dirty o⟩ := by
  have others : ∀ x ∈ p.code.options,x ≠ o := fun x member => ne_of_mem_of_not_mem member outside
  have same : ∀ x ∈ p.code.options,
      (p.code.setOptionSelected o selected).selectedness x = p.code.selectedness x := by
    intro x member
    simp [Select.setOptionSelected,outside,others x member]
  have elements : (p.code.setOptionSelected o selected).el = p.code.el := by
    unfold Select.setOptionSelected
    split <;> rfl
  have marked : ∀ x ∈ p.code.options,
      (p.code.setOptionSelected o selected).marked x = p.code.marked x := by
    intro x member
    rw [Select.marked,same x member,elements,Select.marked]
  refine agrees_congr agrees setSelected_options setSelected_multiple marked
    (Select.picked_congr setSelected_options marked ?_ ?_) ?_
  · unfold Select.anyExplicit
    rw [setSelected_options,Bool.eq_iff_iff,List.any_eq_true,List.any_eq_true]
    exact exists_congr fun x => and_congr_right fun member => by rw [same x member]
  · unfold Select.setOptionSelected
    split <;> rfl
  · intro x member
    rw [Standard.dirty_selectedness]
    split
    · exact Standard.choose_outside (by rwa [setSelected_options]) x (by rwa [setSelected_options])
    · rw [Standard.clear_apply,if_neg (others x member)]

theorem setSelected_agrees {selected : Bool} (inv : Invariant p)
    (allowed : Allowed p (.setSelected o selected)) (inside : o ∈ p.code.options) :
    Agrees ⟨p.code.setOptionSelected o selected,
      ((if selected then p.standard.choose (p.code.setOptionSelected o selected) o
        else p.standard.clear o).dirty o).settle (p.code.setOptionSelected o selected)⟩ := by
  cases multiple : p.code.multiple with
  | true =>
    have before := (agrees_multiple multiple).mp inv.agrees
    refine agrees_of_multiple (setSelected_multiple.trans multiple) fun x member => ?_
    rw [setSelected_options] at member
    rw [setSelected_marked multiple,before x member,Standard.dirty_selectedness]
    cases selected with
    | true => exact (Standard.choose_multiple (setSelected_multiple.trans multiple) x).symm
    | false => exact (Standard.clear_apply x).symm
  | false =>
    have single : (p.code.setOptionSelected o selected).multiple = false :=
      setSelected_multiple.trans multiple
    have listed : o ∈ (p.code.setOptionSelected o selected).options := by rwa [setSelected_options]
    refine agrees_of_single single ?_
    cases selected with
    | true =>
      have chosen : Shows (p.code.setOptionSelected o true)
          ((p.standard.choose (p.code.setOptionSelected o true) o).dirty o) (some o) :=
        Standard.choose_shows single listed
      have settled := Standard.settle_shows single chosen
      have picked : (p.code.setOptionSelected o true).picked = some o := by
        refine Select.picked_of_marked (Select.last_of_only listed ?_ fun x member is => ?_)
        · rw [selected_marked multiple inside o inside]
          exact decide_eq_true rfl
        · rw [setSelected_options] at member
          rwa [selected_marked multiple inside x member,decide_eq_true_iff] at is
      rw [picked]
      exact settled
    | false =>
      obtain ⟨marks,falls⟩ := allowed rfl multiple inside
      have before := (agrees_single multiple).mp inv.agrees
      have options : (p.code.setOptionSelected o false).options = p.code.options := setSelected_options
      have cleared (x : ℕ) := Standard.clear_apply (t := p.standard) (o := o) x
      rcases @Shows.without p.code (p.code.setOptionSelected o false) p.standard
          ((p.standard.clear o).dirty o) p.code.picked o before (fun x member => options ▸ member)
          (fun x member _ => options.symm ▸ member)
          (fun x _ other => (cleared x).trans (if_neg other)) (fun _ => (cleared o).trans (if_pos rfl)) with
        ⟨some_,⟨x,other,is⟩,kept⟩ | ⟨unselected,kept⟩
      · have settled := Standard.settle_shows single kept
        have picked : (p.code.setOptionSelected o false).picked = some x := by
          obtain ⟨y,inList,marked⟩ := marks some_
          obtain ⟨last,isLast⟩ := Option.ne_none_iff_exists'.mp fun none =>
            Bool.false_ne_true ((Select.last_eq_none.mp none y inList).symm.trans marked)
          obtain rfl := Option.some.inj ((Select.picked_of_marked isLast).symm.trans is)
          refine Select.picked_of_marked ?_
          rw [options]
          refine Select.last_unmarked isLast ?_ fun z _ still => ?_
          · rw [unselected_marked,if_neg other]
            exact (Select.marked_of_last isLast).2
          · rw [unselected_marked] at still
            split at still
            · cases still
            · exact still
        rw [is,Option.some_or] at settled
        rw [picked]
        exact settled
      · rw [(falls unselected).picked]
        exact Standard.settle_shows single kept

theorem setSelected_invariant {selected : Bool} (inv : Invariant p)
    (allowed : Allowed p (.setSelected o selected))
    (taken : p.step (.setSelected o selected) = some p') : Invariant p' := by
  simp only [step] at taken
  rw [← Option.some.inj taken]
  refine ⟨?_,?_,?_⟩
  · rw [setSelected_options]
    exact inv.nodup
  · intro x dirty
    refine setSelected_known x ?_
    have dirty : ((if selected then p.standard.choose (p.code.setOptionSelected o selected) o
        else p.standard.clear o).dirty o).dirtiness x = true := by
      split at dirty
      · rwa [Standard.settle_dirtiness] at dirty
      · exact dirty
    rcases (Standard.dirty_apply x).mp dirty with same | before
    · exact .inl same
    · refine .inr (inv.known x ?_)
      split at before <;> exact before
  · split
    · rename_i inside
      rw [setSelected_options] at inside
      exact setSelected_agrees inv allowed inside
    · rename_i outside
      rw [setSelected_options] at outside
      exact setSelected_outside outside inv.agrees

theorem find_idxOf {l : List ℕ} {index : Int} (member : o ∈ l) :
    l.find? (fun x => (l.idxOf x : Int) = index) = some o ↔ (l.idxOf o : Int) = index := by
  constructor
  · intro is
    simpa using List.find?_some is
  · intro here
    cases found : l.find? fun x => (l.idxOf x : Int) = index with
    | none => exact absurd here (by simpa using List.find?_eq_none.mp found o member)
    | some x =>
      have there : (l.idxOf x : Int) = index := by simpa using List.find?_some found
      have same : l.idxOf x = l.idxOf o := by exact_mod_cast there.trans here.symm
      rw [(List.idxOf_inj (List.mem_of_find?_eq_some found)).mp same]

theorem step_invariant {action : Action} (inv : Invariant p) (allowed : Allowed p action)
    (taken : p.step action = some p') : Invariant p' := by
  cases action with
  | insert o i group => exact insert_invariant inv allowed taken
  | remove o => exact remove_invariant inv allowed taken
  | setAttr o => exact setAttr_invariant inv allowed taken
  | removeAttr o => exact removeAttr_invariant inv allowed taken
  | setSelected o selected => exact setSelected_invariant inv allowed taken
  | setSelectedIndex index =>
    rw [← Option.some.inj taken]
    have listed : ∀ o ∈ p.code.options.find? (fun o => (p.code.options.idxOf o : Int) = index),
        o ∈ p.code.options := fun o is => List.mem_of_find?_eq_some is
    have same : p.code.setSelectedIndex index = p.code.record fun o =>
        some (decide (p.code.options.find? (fun o => (p.code.options.idxOf o : Int) = index) = some o)) := by
      refine Select.record_congr fun o member => ?_
      exact congrArg some (decide_eq_decide.mpr (find_idxOf member).symm)
    rw [same]
    exact pick_invariant inv _ listed
  | setValue value =>
    rw [← Option.some.inj taken]
    exact pick_invariant inv _ fun o is => List.mem_of_find?_eq_some is
  | reset =>
    rw [← Option.some.inj taken]
    exact reset_invariant inv

instance (s : Select) : Decidable s.Falls := inferInstanceAs (Decidable (_ ∧ _))

instance (p : Pair) : DecidablePred (Allowed p)
  | .insert .. => inferInstanceAs (Decidable (_ → _))
  | .remove _ => inferInstanceAs (Decidable (_ → _))
  | .setAttr _ => inferInstanceAs (Decidable (_ → _))
  | .removeAttr _ => inferInstanceAs (Decidable (_ → _))
  | .setSelected .. => inferInstanceAs (Decidable (_ → _))
  | .setSelectedIndex _ | .setValue _ | .reset => inferInstanceAs (Decidable True)

instance (p : Pair) : Decidable p.Agrees := inferInstanceAs (Decidable (∀ e ∈ _,_))

end Pair

end Sharko.Forms.Selects
