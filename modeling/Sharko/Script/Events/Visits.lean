import Mathlib
import Sharko.Script.Events.Order

/-! The visits of a dispatch, one after another, and the listeners each of them serves. -/

namespace Sharko.Script.Events

open Library

section frames

variable {T C : Type} {s t : Store T C} {σ : Slot T} {l : Nat}

theorem visits_append_of_none {news log : List (Entry T)} (none : ∀ e ∈ news,e.visit = none) :
    visits (news ++ log) = visits log := by
  rw [visits,List.filterMap_append,List.filterMap_eq_nil_iff.mpr none]
  rfl

theorem mem_visits {log : List (Entry T)} {snapshot : List Nat} (member : .visited σ snapshot ∈ log) :
    σ ∈ visits log :=
  List.mem_filterMap.mpr ⟨_,member,rfl⟩

theorem Frame.visits_eq (h : Frame (·.visit = none) s t) : visits t.log = visits s.log := by
  obtain ⟨news,logged,none⟩ := h.log
  rw [logged,visits_append_of_none none]

theorem Frame.mem {P : Entry T → Prop} (h : Frame P s t) {e : Entry T} (member : e ∈ t.log) :
    P e ∨ e ∈ s.log := by
  obtain ⟨news,logged,conform⟩ := h.log
  rw [logged] at member
  exact (List.mem_append.mp member).imp_left (conform e)

theorem Entry.Own.visit {e : Entry T} (h : e.Own σ l) : e.visit = none := by
  rcases h with rfl | scripted
  · rfl
  · exact visit_of_scripted scripted

/-- A listener did not get its turn: it was removed, or the dispatch stopped, before any after it
had theirs. -/
def Skipped (start : Store T C) (log : List (Entry T)) (σ : Slot T) (post : List Nat) (l : Nat) :
    Prop :=
  ∃ newer older,log = newer ++ older ∧ (∀ m ∈ post,.called σ m ∉ older) ∧
    (.removed l ∈ older ∨ start.Gone l ∨ .stoppedImmediately ∈ older)

def Served (start t : Store T C) (σ : Slot T) (list : List Nat) : Prop :=
  ∀ pre l post,list = pre ++ l :: post → (t.listener l).capture = σ.pass →
    .called σ l ∈ t.log ∨ Skipped start t.log σ post l

theorem Skipped.append {start : Store T C} {log : List (Entry T)} {post : List Nat}
    (h : Skipped start log σ post l) (news : List (Entry T)) : Skipped start (news ++ log) σ post l := by
  obtain ⟨newer,older,rfl,after,why⟩ := h
  exact ⟨news ++ newer,older,by simp,after,why⟩

theorem Served.frame {start : Store T C} {list : List Nat} {P : Entry T → Prop}
    (h : Served start s σ list) (known : ∀ l ∈ list,l < s.made) (frame : Frame P s t) :
    Served start t σ list := by
  intro pre l post split captures
  obtain ⟨news,logged,-⟩ := frame.log
  rw [(frame.listener l (known l (by simp [split]))).1] at captures
  rw [logged]
  rcases h pre l post split captures with called | skipped
  · exact .inl (List.mem_append_right _ called)
  · exact .inr (skipped.append news)

theorem Served.cons {start : Store T C} {rest : List Nat} (h : Served start t σ rest)
    (head : (t.listener l).capture = σ.pass → .called σ l ∈ t.log ∨ Skipped start t.log σ rest l) :
    Served start t σ (l :: rest) := by
  intro pre m post split captures
  cases pre with
  | nil =>
    obtain ⟨rfl,rfl⟩ := List.cons.inj split
    exact head captures
  | cons _ pre =>
    obtain ⟨-,split⟩ := List.cons.inj split
    exact h pre m post split captures

end frames

section serving

variable {T C S : Type} {slots : List (Slot T)} {start : Store T C} {s t : State T C S} {σ : Slot T}
  {snapshot served rest : List Nat} {l : Nat}

structure Serving (slots : List (Slot T)) (start : Store T C) (σ : Slot T)
    (snapshot served : List Nat) (s : State T C S) : Prop where
  running : Running slots start s
  passive : s.event.passive = false
  node : (visits s.log).head? = some σ
  current : .visited σ snapshot ∈ s.log
  only : ∀ other,.visited σ other ∈ s.log → other = snapshot
  served : ∀ m,.called σ m ∈ s.log → m ∈ served

def Distinct (slots : List (Slot T)) : Prop :=
  ∀ σ ∈ slots,∀ σ' ∈ slots,σ.position = σ'.position → σ.phase = σ'.phase → σ.pass = σ'.pass → σ = σ'

theorem Serving.due (h : Serving slots start σ snapshot served s) (distinct : Distinct slots)
    (inside : σ ∈ slots) (immediate : s.event.stopImm = false)
    (split : snapshot = served ++ l :: rest) (present : (s.listener l).removed = false)
    (captures : (s.listener l).capture = σ.pass) : Turn start s.log σ l := by
  obtain ⟨nodup,known⟩ := h.running.account.snapshots σ snapshot h.current
  have member : l ∈ snapshot := by simp [split]
  refine ⟨h.node,?_,?_,?_,?_⟩
  · intro other visited
    rw [h.only other visited]
    refine ⟨member,fun m called => ?_⟩
    rw [split]
    exact (List.singleton_sublist.mpr (h.served m called)).append
      (List.singleton_sublist.mpr List.mem_cons_self)
  · rintro σ' called ⟨position,phase⟩
    obtain ⟨inside',-,captures'⟩ := h.running.account.calls σ' l called
    have same : σ' = σ := distinct σ' inside' σ inside position phase (captures'.symm.trans captures)
    rw [same] at called
    rw [split] at nodup
    exact (List.disjoint_of_nodup_append nodup) (h.served l called) List.mem_cons_self
  · have gone := h.running.account.removed l (known l member)
    rw [present] at gone
    simpa using gone
  · have stopped := h.running.account.stopImm
    rw [immediate] at stopped
    exact fun member => by simpa using stopped.mpr (.inl member)

theorem Serving.mono (h : Serving slots start σ snapshot served s) {served' : List Nat}
    (subset : served ⊆ served') : Serving slots start σ snapshot served' s :=
  { h with served := fun m called => subset (h.served m called) }

variable [DecidableEq T] [DecidableEq C] [DecidableEq S]

theorem Serving.turn (page : Page T C S) (h : Serving slots start σ snapshot served s)
    (distinct : Distinct slots) (inside : σ ∈ slots) (immediate : s.event.stopImm = false)
    (split : snapshot = served ++ l :: rest) (present : (s.listener l).removed = false)
    (captures : (s.listener l).capture = σ.pass) : Turned slots start σ l s (turn page σ l s) ∧
      Serving slots start σ snapshot (served ++ [l]) (turn page σ l s) := by
  have due := h.due distinct inside immediate split present captures
  have known : l < s.made :=
    (h.running.account.snapshots σ snapshot h.current).2 l (by simp [split])
  have turned := turn_turned page h.running inside known captures due
  refine ⟨turned,?_⟩
  have quiet : Frame (·.visit = none) s.toStore _ := turned.frame.mono fun _ own => own.visit
  refine {
    running := turned.running,
    passive := turn_passive page h.running inside known captures due h.passive,
    node := by rw [quiet.visits_eq]; exact h.node,
    current := ?_,
    only := ?_,
    served := ?_ }
  · obtain ⟨news,logged,-⟩ := quiet.log
    rw [logged]
    exact List.mem_append_right _ h.current
  · intro other visited
    rcases quiet.mem visited with new | old
    · cases new
    · exact h.only other old
  · intro m called
    rcases turned.frame.mem called with (own | own) | old
    · cases own
      simp
    · cases own
    · exact List.mem_append_left _ (h.served m old)

omit [DecidableEq T] [DecidableEq C] [DecidableEq S] in
theorem Serving.uncalled (h : Serving slots start σ snapshot served s)
    (split : snapshot = served ++ rest) : ∀ m ∈ rest,.called σ m ∉ s.log := by
  intro m member called
  have nodup := (h.running.account.snapshots σ snapshot h.current).1
  rw [split] at nodup
  exact List.disjoint_of_nodup_append nodup (h.served m called) member

structure Visited (slots : List (Slot T)) (start : Store T C) (σ : Slot T) (list : List Nat)
    (s t : State T C S) : Prop where
  running : Running slots start t
  passive : t.event.passive = false
  frame : Frame (·.visit = none) s.toStore t.toStore
  served : Served start t.toStore σ list

theorem serve_visited (page : Page T C S) (distinct : Distinct slots) (inside : σ ∈ slots)
    (fresh : start.event.stopImm = false) (h : Serving slots start σ snapshot served s)
    (immediate : s.event.stopImm = false) (split : snapshot = served ++ rest) :
    Visited slots start σ rest s (serve page σ rest s) := by
  induction rest generalizing s served with
  | nil =>
    refine ⟨h.running,h.passive,.refl _ _,?_⟩
    intro pre l post none
    simp at none
  | cons l rest ih =>
    have split' : snapshot = served ++ [l] ++ rest := by simpa using split
    have known : l < s.made :=
      (h.running.account.snapshots σ snapshot h.current).2 l (by simp [split])
    have next := ih (h.mono (List.subset_append_left served [l])) immediate split'
    unfold serve
    split_ifs with removed captures
    · -- removed before its turn
      refine ⟨next.running,next.passive,next.frame,next.served.cons fun _ => .inr ?_⟩
      obtain ⟨news,logged,-⟩ := next.frame.log
      refine ⟨news,s.log,logged,fun m member => ?_,?_⟩
      · exact h.uncalled split m (List.mem_cons_of_mem _ member)
      · rcases (h.running.account.removed l known).mp removed with removed | gone
        · exact .inl removed
        · exact .inr (.inl gone)
    · -- for the other pass
      refine ⟨next.running,next.passive,next.frame,next.served.cons fun captures' => ?_⟩
      rw [(next.frame.listener l known).1] at captures'
      simp [captures'] at captures
    · have present : (s.listener l).removed = false := by simpa using removed
      have captures' : (s.listener l).capture = σ.pass := by simpa using captures
      obtain ⟨turned,serving⟩ := h.turn page distinct inside immediate split present captures'
      have own : Frame (·.visit = none) s.toStore (turn page σ l s).toStore :=
        turned.frame.mono fun _ own => own.visit
      dsimp only
      cases stopped : (turn page σ l s).event.stopImm with
      | true =>
        refine ⟨turned.running,serving.passive,own,?_⟩
        refine Served.cons ?_ fun _ => .inl turned.called
        intro pre m post split'' _
        refine .inr ⟨[],_,rfl,fun m member => ?_,.inr (.inr ?_)⟩
        · exact serving.uncalled split' m (by simp [split'',member])
        · have logged := turned.running.account.stopImm.mp stopped
          simpa [fresh] using logged
      | false =>
        have next := ih serving stopped split'
        refine ⟨next.running,next.passive,own.trans next.frame,next.served.cons fun _ => .inl ?_⟩
        obtain ⟨news,logged,-⟩ := next.frame.log
        rw [logged]
        exact List.mem_append_right _ turned.called

end serving

section visiting

variable {T C S : Type} [DecidableEq T] [DecidableEq C] [DecidableEq S] {slots : List (Slot T)}
  {start : Store T C} {s t : State T C S} {σ : Slot T}

omit [DecidableEq T] [DecidableEq C] [DecidableEq S] in
theorem Running.called_visited (h : Running slots start s) {l : Nat} (called : .called σ l ∈ s.log) :
    σ ∈ visits s.log := by
  obtain ⟨newer,older,split⟩ := List.append_of_mem called
  have admitted := h.account.admitted
  rw [split] at admitted
  have node := List.mem_of_head? admitted.entry.node
  rw [split,visits,List.filterMap_append]
  exact List.mem_append_right _ node

theorem invoke_visited (page : Page T C S) (distinct : Distinct slots) (inside : σ ∈ slots)
    (h : Running slots start s) (passive : s.event.passive = false)
    (unstopped : s.event.stop = false) (unvisited : σ ∉ visits s.log) :
    Visited slots start σ (s.lists σ.node s.event.type)
      (s.record (.visited σ (s.lists σ.node s.event.type))) (invoke page σ s) := by
  have account := h.account.visit unstopped unvisited s.event.type
  have running : Running slots start (s.record (.visited σ (s.lists σ.node s.event.type))) := by
    refine ⟨account,⟨account.sound,h.registered.algorithms,h.registered.records⟩,?_⟩
    exact @Consumed.append _ _ _ h.consumed [_] (by simp)
  unfold invoke
  dsimp only
  split
  case isTrue empty =>
    refine ⟨running,passive,.refl _ _,?_⟩
    rw [empty]
    intro pre l post none
    simp at none
  case isFalse =>
    have immediate : s.event.stopImm = false := by
      rw [Bool.eq_false_iff]
      intro stopped
      rw [h.account.sound.immediate stopped] at unstopped
      cases unstopped
    have fresh : start.event.stopImm = false := by
      rw [Bool.eq_false_iff]
      intro stopped
      rw [h.account.stopImm.mpr (.inr stopped)] at immediate
      cases immediate
    have marked : Marked (s.record (.visited σ (s.lists σ.node s.event.type)))
        { s.record (.visited σ (s.lists σ.node s.event.type)) with
          event.phase := σ.phase,event.currentTarget := some σ.node } :=
      ⟨_,rfl,rfl,rfl,rfl⟩
    have serving : Serving slots start σ (s.lists σ.node s.event.type) []
        { s.record (.visited σ (s.lists σ.node s.event.type)) with
          event.phase := σ.phase,event.currentTarget := some σ.node } := by
      refine ⟨running.marked marked,passive,rfl,List.mem_cons_self,?_,?_⟩
      · intro other visited
        rcases List.mem_cons.mp visited with new | old
        · cases new
          rfl
        · exact absurd (mem_visits old) unvisited
      · intro m called
        rcases List.mem_cons.mp called with new | old
        · cases new
        · exact absurd (h.called_visited old) unvisited
    have visited := serve_visited page distinct inside fresh serving immediate rfl
    exact { visited with frame := marked.frame.trans visited.frame }

structure Toured (slots : List (Slot T)) (start : Store T C) (todo : List (Slot T))
    (s t : State T C S) : Prop where
  running : Running slots start t
  passive : t.event.passive = false
  frame : Frame (fun _ => True) s.toStore t.toStore
  visits : ∃ seen rest,todo = seen ++ rest ∧ visits t.log = seen.reverse ++ visits s.log ∧
    (rest = [] ∨ t.event.stop = true)
  served : ∀ σ snapshot,.visited σ snapshot ∈ t.log →
    .visited σ snapshot ∈ s.log ∨ Served start t.toStore σ snapshot

theorem visit_toured (page : Page T C S) (distinct : Distinct slots) {todo : List (Slot T)}
    (inside : ∀ σ ∈ todo,σ ∈ slots) (nodup : todo.Nodup) (unvisited : ∀ σ ∈ todo,σ ∉ visits s.log)
    (h : Running slots start s) (passive : s.event.passive = false) :
    Toured slots start todo s (visit page todo s) := by
  induction todo generalizing s with
  | nil =>
    exact ⟨h,passive,.refl _ _,⟨[],[],rfl,rfl,.inl rfl⟩,fun _ _ visited => .inl visited⟩
  | cons σ todo ih =>
    unfold visit
    split
    case isTrue stopped =>
      exact ⟨h,passive,.refl _ _,⟨[],_,rfl,rfl,.inr stopped⟩,fun _ _ visited => .inl visited⟩
    case isFalse unstopped =>
      rw [Bool.not_eq_true] at unstopped
      obtain ⟨first,nodup⟩ := List.nodup_cons.mp nodup
      have visited := invoke_visited page distinct (inside σ List.mem_cons_self) h passive unstopped
        (unvisited σ List.mem_cons_self)
      have log := visited.frame.visits_eq
      have visits_eq : visits (invoke page σ s).log = σ :: visits s.log := log
      have toured := ih (fun σ' member => inside σ' (List.mem_cons_of_mem _ member)) nodup
        (by
          intro σ' member
          rw [visits_eq,List.mem_cons,not_or]
          refine ⟨?_,unvisited σ' (List.mem_cons_of_mem _ member)⟩
          rintro rfl
          exact first member)
        visited.running visited.passive
      have whole : Frame (fun _ => True) s.toStore (invoke page σ s).toStore :=
        (Frame.record trivial).trans (visited.frame.mono fun _ _ => trivial)
      refine ⟨toured.running,toured.passive,whole.trans toured.frame,?_,?_⟩
      · obtain ⟨seen,rest,split,seen_eq,why⟩ := toured.visits
        refine ⟨σ :: seen,rest,by rw [split]; rfl,?_,why⟩
        rw [seen_eq,visits_eq]
        simp
      · intro σ' snapshot member
        rcases toured.served σ' snapshot member with before | served
        · rcases visited.frame.mem before with new | old
          · cases new
          · rcases List.mem_cons.mp old with new | old
            · cases new
              refine .inr (visited.served.frame ?_ toured.frame)
              exact (visited.running.account.snapshots σ _ before).2
            · exact .inl old
        · exact .inr served

theorem visit_append (page : Page T C S) (first second : List (Slot T)) (s : State T C S) :
    visit page (first ++ second) s = visit page second (visit page first s) := by
  have halted {s : State T C S} (stopped : s.event.stop = true) (slots : List (Slot T)) :
      visit page slots s = s := by
    cases slots with
    | nil => rfl
    | cons σ slots => simp [visit,stopped]
  induction first generalizing s with
  | nil => rfl
  | cons σ first ih =>
    cases stopped : s.event.stop with
    | true => simp [visit,stopped,halted stopped]
    | false => simp [visit,stopped,ih]

omit [DecidableEq T] [DecidableEq C] [DecidableEq S] in
theorem Account.initial {s : Store T C} (sound : Sound s) (unlogged : s.log = []) : Account slots s s where
  sound := sound
  later := Nat.le_refl _
  removed := fun l known => by simp [unlogged,Store.Gone,known]
  stop := by simp [unlogged]
  stopImm := by simp [unlogged]
  known := by simp [unlogged]
  snapshots := by simp [unlogged]
  calls := by simp [unlogged]
  admitted := by
    rw [unlogged]
    trivial

omit [DecidableEq T] [DecidableEq C] [DecidableEq S] in
theorem blank_registered (type : String) (bubbles cancelable : Bool) :
    Registered (State.blank (.new type bubbles cancelable) : State T C S) :=
  ⟨⟨by simp [State.blank],by simp [State.blank],by simp [State.blank,Event.new]⟩,
    by simp [State.blank],by simp [State.blank]⟩

theorem arranged_registered (page : Page T C S) (before : List (Action T C S)) (type : String)
    (bubbles cancelable : Bool) : Registered (arranged page before type bubbles cancelable) := by
  have acted := (acts_leads page (blank_registered type bubbles cancelable) before).2
  exact ⟨⟨acted.sound.nodup,acted.sound.known,acted.sound.immediate⟩,acted.algorithms,acted.records⟩

/-- How the listeners of a path have been called, by the log of a dispatch that is over. -/
structure Dispatched (path : List T) (slots : List (Slot T)) (start final : Store T C) : Prop where
  visits : (visits final.log).reverse <+: slots
  whole : (Events.visits final.log).reverse = slots ∨ .stopped ∈ final.log ∨ start.event.stop = true
  unstarted : start.event.stop = true → Events.visits final.log = []
  stopped : ∀ newer older,final.log = newer ++ .stopped :: older → Events.visits newer = []
  turns : ∀ newer older σ l,final.log = newer ++ .called σ l :: older →
    Turn start older σ l ∧ (final.listener l).capture = σ.pass
  nodes : path.Nodup → ∀ newer older σ l,final.log = newer ++ .called σ l :: older →
    ∀ σ',.called σ' l ∈ older → ¬(σ'.node = σ.node ∧ σ'.phase = σ.phase)
  once : ∀ newer older σ l,final.log = newer ++ .called σ l :: older →
    (final.listener l).once = true → .removed l ∈ newer
  young : ∀ newer older σ snapshot,final.log = newer ++ .visited σ snapshot :: older →
    ∀ target l,.added target l ∈ newer → .called σ l ∉ final.log
  served : ∀ σ snapshot,.visited σ snapshot ∈ final.log → Served start final σ snapshot
  reset : final.event.phase = .none ∧ final.event.currentTarget = none ∧ final.event.path = [] ∧
    final.event.dispatch = false ∧ final.event.stop = false ∧ final.event.stopImm = false ∧
    final.event.passive = false ∧ final.event.threw = false

omit [DecidableEq C] [DecidableEq S] in
theorem discover_leads (h : Registered s) (type : String) (path : List T) :
    Leads s (path.foldl (fun s node => s.discoverInline node type) s) := by
  induction path generalizing s with
  | nil => exact h.leads
  | cons node path ih =>
    have first := h.discoverInline node type
    exact first.trans (ih first.2)

structure Ready (slots : List (Slot T)) (start : Store T C) (s : State T C S) : Prop where
  running : Running slots start s
  passive : s.event.passive = false
  unvisited : visits s.log = []
  bubbles : s.event.bubbles = start.event.bubbles

omit [DecidableEq C] [DecidableEq S] in
theorem ready_of_unlogged (h : Registered s) (unlogged : s.log = []) (passive : s.event.passive = false)
    (target : T) (ancestors : List T) (targetOverride : Option T) :
    Ready slots s.toStore (s.ready target ancestors targetOverride) := by
  have initial : Running slots s.toStore s := by
    refine ⟨.initial h.sound unlogged,h,?_⟩
    intro newer older σ l split
    rw [unlogged] at split
    simp at split
  have begun := @Running.event _ _ _ _ _ _ initial
    (s.event.begin (targetOverride.getD target) (target :: ancestors)) rfl rfl
  have discovered := discover_leads begun.registered s.event.type (target :: ancestors)
  obtain ⟨news,logged,scripted⟩ := discovered.1.frame.log
  refine ⟨begun.leads discovered,discovered.1.passive.trans passive,?_,
    discovered.1.frame.bubbles⟩
  rw [State.ready,logged,unlogged,visits_append_of_none fun e member =>
    Entry.visit_of_scripted (scripted e member)]
  rfl

theorem Ready.toured (page : Page T C S) {target : T} {ancestors : List T} {bubbles : Bool}
    (h : Ready (schedule target ancestors bubbles) start s) {todo : List (Slot T)}
    (part : todo <+: schedule target ancestors bubbles) :
    Toured (schedule target ancestors bubbles) start todo s (visit page todo s) := by
  refine visit_toured page ?_ (fun σ member => part.subset member)
    (part.sublist.nodup (schedule_nodup target ancestors bubbles)) ?_ h.running h.passive
  · intro σ member σ' member'
    exact schedule_distinct member member'
  · intro σ _
    rw [h.unvisited]
    exact List.not_mem_nil

theorem dispatchCore_eq (page : Page T C S) {target : T} {ancestors : List T} {targetOverride : Option T}
    (h : Ready (schedule target ancestors s.event.bubbles) s.toStore
      (s.ready target ancestors targetOverride)) : (dispatchCore page target ancestors targetOverride s).2 =
      let t := visit page (schedule target ancestors s.event.bubbles)
        (s.ready target ancestors targetOverride)
      { t with event := t.event.finish } := by
  have part : captureSlots ancestors ++ targetSlots target <+:
      schedule target ancestors s.event.bubbles := List.prefix_append _ _
  have early := (h.toured page part).frame.bubbles.trans h.bubbles
  rw [visit_append] at early
  cases bubbles : s.event.bubbles with
  | true => simp [dispatchCore,schedule,visit_append,early,bubbles]
  | false => simp [dispatchCore,schedule,visit_append,early,bubbles]

section ended

variable {log newer older : List (Entry T)} {l : Nat} {snapshot : List Nat} {target : T}

omit [DecidableEq T] [DecidableEq C] [DecidableEq S]

theorem Turn.visited {past : List (Entry T)} (h : Turn start past σ l) : σ ∈ visits past :=
  List.mem_of_head? h.node

theorem young_of_admissible (admitted : Admissible (May start) log)
    (split : log = newer ++ .visited σ snapshot :: older) (added : .added target l ∈ newer) :
    .called σ l ∉ log := by
  intro called
  rw [split] at admitted called
  have absent : l ∉ snapshot := by
    obtain ⟨after,before,rfl⟩ := List.append_of_mem added
    rw [List.append_assoc] at admitted
    exact admitted.entry σ snapshot (by simp)
  rcases List.mem_append.mp called with later | earlier
  · obtain ⟨after,before,rfl⟩ := List.append_of_mem later
    rw [List.append_assoc] at admitted
    exact absent (admitted.entry.order snapshot (by simp)).1
  · have first : σ ∉ visits older := admitted.entry.2.2
    rcases List.mem_cons.mp earlier with same | earlier
    · cases same
    · obtain ⟨after,before,rfl⟩ := List.append_of_mem earlier
      have turn : Turn start before σ l := (admitted.earlier.2).entry
      apply first
      rw [visits,List.filterMap_append]
      exact List.mem_append_right _ turn.visited

theorem unvisited_of_stopped (admitted : Admissible (May start) (newer ++ .stopped :: older)) :
    visits newer = [] := by
  rw [visits,List.filterMap_eq_nil_iff]
  intro e member
  cases e with
  | visited σ snapshot =>
    obtain ⟨after,before,rfl⟩ := List.append_of_mem member
    rw [List.append_assoc] at admitted
    exact absurd (by simp) admitted.entry.1
  | _ => rfl

theorem unvisited_of_unstarted (admitted : Admissible (May start) log)
    (stopped : start.event.stop = true) : visits log = [] := by
  rw [visits,List.filterMap_eq_nil_iff]
  intro e member
  cases e with
  | visited σ snapshot =>
    obtain ⟨after,before,rfl⟩ := List.append_of_mem member
    have unstopped := admitted.entry.2.1
    rw [stopped] at unstopped
    cases unstopped
  | _ => rfl

end ended

omit [DecidableEq T] [DecidableEq C] [DecidableEq S] in
theorem dispatched_of_toured {target : T} {ancestors : List T} {bubbles : Bool}
    (h : Toured (schedule target ancestors bubbles) start (schedule target ancestors bubbles) s t)
    (unvisited : visits s.log = []) : Dispatched (target :: ancestors) (schedule target ancestors bubbles) start
      { t with event := t.event.finish }.toStore := by
  have account := h.running.account
  obtain ⟨seen,rest,split,seen_eq,ended⟩ := h.visits
  rw [unvisited,List.append_nil] at seen_eq
  have turns {newer older : List (Entry T)} {σ : Slot T} {l : Nat}
      (split : t.log = newer ++ .called σ l :: older) : Turn start older σ l := by
    have admitted := account.admitted
    rw [split] at admitted
    exact admitted.entry
  refine {
    visits := ?_,
    whole := ?_,
    unstarted := unvisited_of_unstarted account.admitted,
    stopped := ?_,
    turns := ?_,
    nodes := ?_,
    once := h.running.consumed,
    young := ?_,
    served := ?_,
    reset := ⟨rfl,rfl,rfl,rfl,rfl,rfl,h.passive,rfl⟩ }
  · show (visits t.log).reverse <+: _
    rw [seen_eq,List.reverse_reverse,split]
    exact List.prefix_append _ _
  · show (visits t.log).reverse = _ ∨ _
    rw [seen_eq,List.reverse_reverse,split]
    rcases ended with rfl | stopped
    · exact .inl (List.append_nil _).symm
    · exact .inr (account.stop.mp stopped)
  · intro newer older split
    have admitted := account.admitted
    rw [show t.log = _ from split] at admitted
    exact unvisited_of_stopped admitted
  · intro newer older σ l split
    have called : .called σ l ∈ t.log := by
      rw [show t.log = _ from split]
      simp
    exact ⟨turns split,(account.calls σ l called).2.2⟩
  · rintro distinct newer older σ l split σ' called ⟨node,phase⟩
    have slot {σ : Slot T} (member : .called σ l ∈ t.log) := mem_schedule (account.calls σ l member).1
    have place := slot (show .called σ l ∈ t.log from split ▸ by simp)
    have place' := slot (show .called σ' l ∈ t.log from split ▸ by simp [called])
    rw [node,← place] at place'
    have position : σ'.position = σ.position :=
      ((List.getElem?_inj (List.getElem?_eq_some_iff.mp place).1 distinct).mp place'.symm).symm
    exact (turns split).first σ' called ⟨position,phase⟩
  · intro newer older σ snapshot split target l added
    exact young_of_admissible account.admitted split added
  · intro σ snapshot member
    rcases h.served σ snapshot member with before | served
    · have := mem_visits before
      rw [unvisited] at this
      cases this
    · exact served

theorem dispatchCore_dispatched (page : Page T C S) (before : List (Action T C S)) (type : String)
    (bubbles cancelable : Bool) (target : T) (ancestors : List T) (targetOverride : Option T) :
    let s := arranged page before type bubbles cancelable
    Dispatched (target :: ancestors) (schedule target ancestors bubbles) s.toStore
      (dispatchCore page target ancestors targetOverride s).2.toStore := by
  intro s
  have registered := arranged_registered page before type bubbles cancelable
  have acted := (acts_leads page (blank_registered type bubbles cancelable) before).1
  have passive : s.event.passive = false := acted.passive
  have kept : s.event.bubbles = bubbles := acted.frame.bubbles
  have ready := @ready_of_unlogged _ _ _ _ (schedule target ancestors s.event.bubbles) _
    registered rfl passive target ancestors targetOverride
  rw [dispatchCore_eq page ready,← kept]
  exact dispatched_of_toured (ready.toured page List.prefix_rfl) ready.unvisited

end visiting

def stopping : Page Nat Nat Unit where
  defaultPassive := fun _ _ => false
  callback := fun _ l => (if l = 0 then [.stopPropagation] else [],false)

def two : List (Action Nat Nat Unit) :=
  [.addEventListener 0 "click" 0 false false none none,
    .addEventListener 0 "click" 1 false false none none]

/-- The second is called nevertheless: it listens at the same node. -/
theorem called_after_stop : ∃ newer older σ l,
    (dispatchCore stopping 0 [] none (arranged stopping two "click" true true)).2.log =
      newer ++ .stopped :: older ∧ .called σ l ∈ newer := by
  refine ⟨[.called ⟨0,0,.atTarget,false⟩ 1],
    [.called ⟨0,0,.atTarget,false⟩ 0,.visited ⟨0,0,.atTarget,false⟩ [0,1],
      .visited ⟨0,0,.atTarget,true⟩ [0,1]],⟨0,0,.atTarget,false⟩,1,?_,by simp⟩
  decide

end Sharko.Script.Events
