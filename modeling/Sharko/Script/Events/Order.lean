import Mathlib
import Sharko.Library.History
import Sharko.Script.Events.Dispatch

/-! In which order, and how often, `dispatchCore` calls the listeners of a path that change their
own lists while they run. -/

namespace Sharko.Script.Events

open Library

namespace Entry

variable {T : Type}

def visit : Entry T → Option (Slot T)
  | visited σ _ => some σ
  | _ => none

def scripted : Entry T → Bool
  | visited _ _ | called _ _ => false
  | _ => true

theorem visit_of_scripted {e : Entry T} (h : e.scripted = true) : e.visit = none := by
  cases e with
  | visited => cases h
  | _ => rfl

end Entry

def visits {T : Type} (log : List (Entry T)) : List (Slot T) := log.filterMap Entry.visit

section account

variable {T C : Type}

def Store.Gone (start : Store T C) (l : Nat) : Prop :=
  l < start.made ∧ (start.listener l).removed = true

structure Turn (start : Store T C) (past : List (Entry T)) (σ : Slot T) (l : Nat) : Prop where
  node : (visits past).head? = some σ
  order : ∀ snapshot,.visited σ snapshot ∈ past →
    l ∈ snapshot ∧ ∀ m,.called σ m ∈ past → [m,l].Sublist snapshot
  first : ∀ σ',.called σ' l ∈ past → ¬(σ'.position = σ.position ∧ σ'.phase = σ.phase)
  kept : .removed l ∉ past ∧ ¬start.Gone l
  running : .stoppedImmediately ∉ past

def May (start : Store T C) (past : List (Entry T)) : Entry T → Prop
  | .visited σ _ => .stopped ∉ past ∧ start.event.stop = false ∧ σ ∉ visits past
  | .called σ l => Turn start past σ l
  | .added _ l => ∀ σ snapshot,.visited σ snapshot ∈ past → l ∉ snapshot
  | _ => True

structure Account (slots : List (Slot T)) (start s : Store T C) : Prop where
  sound : Sound s
  later : start.made ≤ s.made
  removed : ∀ l < s.made,((s.listener l).removed = true ↔ .removed l ∈ s.log ∨ start.Gone l)
  stop : s.event.stop = true ↔ .stopped ∈ s.log ∨ start.event.stop = true
  stopImm : s.event.stopImm = true ↔ .stoppedImmediately ∈ s.log ∨ start.event.stopImm = true
  known : ∀ l,.removed l ∈ s.log → l < s.made
  snapshots : ∀ σ snapshot,.visited σ snapshot ∈ s.log → snapshot.Nodup ∧ ∀ l ∈ snapshot,l < s.made
  calls : ∀ σ l,.called σ l ∈ s.log →
    σ ∈ slots ∧ l < s.made ∧ (s.listener l).capture = σ.pass
  admitted : Admissible (May start) s.log

/-- The entries that are added satisfy the condition, and the listeners there are stay as they
are, but for their removal. -/
structure Frame (P : Entry T → Prop) (s t : Store T C) : Prop where
  made : s.made ≤ t.made
  listener : ∀ l < s.made,(t.listener l).capture = (s.listener l).capture ∧
    (t.listener l).once = (s.listener l).once
  log : ∃ news,t.log = news ++ s.log ∧ ∀ e ∈ news,P e
  bubbles : t.event.bubbles = s.event.bubbles

variable {P Q : Entry T → Prop} {s t u : Store T C}

theorem Frame.refl (P : Entry T → Prop) (s : Store T C) : Frame P s s :=
  ⟨Nat.le_refl _,fun _ _ => ⟨rfl,rfl⟩,⟨[],rfl,by simp⟩,rfl⟩

theorem Frame.trans (h : Frame P s t) (h' : Frame P t u) : Frame P s u := by
  refine ⟨h.made.trans h'.made,?_,?_,h'.bubbles.trans h.bubbles⟩
  · intro l known
    obtain ⟨capture,once⟩ := h.listener l known
    obtain ⟨capture',once'⟩ := h'.listener l (known.trans_le h.made)
    exact ⟨capture'.trans capture,once'.trans once⟩
  · obtain ⟨news,logged,conform⟩ := h.log
    obtain ⟨news',logged',conform'⟩ := h'.log
    refine ⟨news' ++ news,by rw [logged',logged,List.append_assoc],?_⟩
    intro e member
    exact (List.mem_append.mp member).elim (conform' e) (conform e)

theorem Frame.mono (h : Frame P s t) (imp : ∀ e,P e → Q e) : Frame Q s t := by
  obtain ⟨news,logged,conform⟩ := h.log
  exact ⟨h.made,h.listener,⟨news,logged,fun e member => imp e (conform e member)⟩,h.bubbles⟩

variable [DecidableEq T]

theorem Change.frame (h : Change s t) : Frame (·.scripted = true) s t := by
  cases h with
  | appended target l fresh | prepended target l fresh =>
    refine ⟨Nat.le_succ _,?_,⟨[.added target s.made],rfl,by simp [Entry.scripted]⟩,rfl⟩
    intro m known
    have other : m ≠ s.made := known.ne
    simp [Store.addListener,Store.prependListener,Store.listen,other]
  | dropped target type l known =>
    refine ⟨Nat.le_refl _,?_,⟨[.removed l],rfl,by simp [Entry.scripted]⟩,rfl⟩
    intro m known
    by_cases same : m = l
    · subst same
      simp [Store.drop]
    · simp [Store.drop,same]
  | stopped =>
    exact ⟨Nat.le_refl _,fun _ _ => ⟨rfl,rfl⟩,⟨[.stopped],rfl,by simp [Entry.scripted]⟩,rfl⟩
  | stoppedImmediately =>
    exact ⟨Nat.le_refl _,fun _ _ => ⟨rfl,rfl⟩,
      ⟨[.stoppedImmediately,.stopped],rfl,by simp [Entry.scripted]⟩,rfl⟩
  | prevented =>
    unfold Store.preventDefault
    split
    · exact ⟨Nat.le_refl _,fun _ _ => ⟨rfl,rfl⟩,⟨[],rfl,by simp⟩,rfl⟩
    · exact .refl _ _

theorem Changes.frame (h : Changes s t) : Frame (·.scripted = true) s t := by
  induction h with
  | refl => exact .refl _ _
  | tail _ change ih => exact ih.trans change.frame

variable {slots : List (Slot T)} {start : Store T C}

theorem Account.listen (h : Account slots start s) (target : T) {l : Listener C} (list : List Nat)
    (fresh : l.removed = false) (sound : Sound (s.listen target l list)) :
    Account slots start (s.listen target l list) := by
  have other {m : Nat} (known : m < s.made) : (s.listen target l list).listener m = s.listener m :=
    Function.update_of_ne known.ne _ _
  have new : (s.listen target l list).listener s.made = l := Function.update_self _ _ _
  refine {
    sound,
    later := h.later.trans (Nat.le_succ _),
    removed := ?_,
    stop := by simpa [Store.listen] using h.stop,
    stopImm := by simpa [Store.listen] using h.stopImm,
    known := ?_,
    snapshots := ?_,
    calls := ?_,
    admitted := ⟨?_,h.admitted⟩ }
  · intro m known
    rcases Nat.lt_succ_iff_lt_or_eq.mp known with known | rfl
    · rw [other known,h.removed m known]
      simp [Store.listen]
    · rw [new,fresh]
      have unknown : .removed s.made ∉ s.log := fun member => Nat.lt_irrefl _ (h.known _ member)
      have young : ¬start.Gone s.made := fun gone => Nat.lt_irrefl _ (gone.1.trans_le h.later)
      simp [Store.listen,unknown,young]
  · intro m member
    exact Nat.lt_succ_of_lt (h.known m (by simpa [Store.listen] using member))
  · intro σ snapshot member
    obtain ⟨nodup,known⟩ := h.snapshots σ snapshot (by simpa [Store.listen] using member)
    exact ⟨nodup,fun m inside => Nat.lt_succ_of_lt (known m inside)⟩
  · intro σ m member
    obtain ⟨inside,known,captures⟩ := h.calls σ m (by simpa [Store.listen] using member)
    exact ⟨inside,Nat.lt_succ_of_lt known,by rw [other known]; exact captures⟩
  · intro σ snapshot visited member
    exact Nat.lt_irrefl _ ((h.snapshots σ snapshot visited).2 _ member)

theorem Account.drop (h : Account slots start s) (target : T) (type : String) {l : Nat}
    (known : l < s.made) (sound : Sound (s.drop target type l)) :
    Account slots start (s.drop target type l) := by
  have same (m : Nat) : ((s.drop target type l).listener m).capture = (s.listener m).capture := by
    by_cases eq : m = l
    · subst eq
      simp [Store.drop]
    · simp [Store.drop,eq]
  refine {
    sound,
    later := h.later,
    removed := ?_,
    stop := by simpa [Store.drop] using h.stop,
    stopImm := by simpa [Store.drop] using h.stopImm,
    known := ?_,
    snapshots := fun σ snapshot member => h.snapshots σ snapshot (by simpa [Store.drop] using member),
    calls := ?_,
    admitted := ⟨trivial,h.admitted⟩ }
  · intro m known
    by_cases eq : m = l
    · subst eq
      simp [Store.drop]
    · have := h.removed m known
      simpa [Store.drop,eq] using this
  · intro m member
    rcases List.mem_cons.mp member with new | old
    · obtain rfl : m = l := by simpa using new
      exact known
    · exact h.known m old
  · intro σ m member
    rw [same m]
    exact h.calls σ m (by simpa [Store.drop] using member)

omit [DecidableEq T] in
theorem Account.event (h : Account slots start s) {e : Event T} (stop : e.stop = s.event.stop)
    (stopImm : e.stopImm = s.event.stopImm) : Account slots start { s with event := e } where
  sound := ⟨h.sound.nodup,h.sound.known,by rw [stop,stopImm]; exact h.sound.immediate⟩
  later := h.later
  removed := h.removed
  stop := by rw [stop]; exact h.stop
  stopImm := by rw [stopImm]; exact h.stopImm
  known := h.known
  snapshots := h.snapshots
  calls := h.calls
  admitted := h.admitted

theorem Account.stopPropagation (h : Account slots start s) : Account slots start s.stopPropagation where
  sound := h.sound.change (.stopped s)
  later := h.later
  removed := by simpa [Store.stopPropagation] using h.removed
  stop := by simp [Store.stopPropagation]
  stopImm := by simpa [Store.stopPropagation] using h.stopImm
  known := by simpa [Store.stopPropagation] using h.known
  snapshots := by simpa [Store.stopPropagation] using h.snapshots
  calls := by simpa [Store.stopPropagation] using h.calls
  admitted := ⟨trivial,h.admitted⟩

omit [DecidableEq T] in
theorem Account.stopImmediately (h : Account slots start s) (stopped : s.event.stop = true) :
    Account slots start { s with event.stopImm := true,log := .stoppedImmediately :: s.log } where
  sound := ⟨h.sound.nodup,h.sound.known,fun _ => stopped⟩
  later := h.later
  removed := by simpa using h.removed
  stop := by simpa using h.stop
  stopImm := by simp
  known := by simpa using h.known
  snapshots := by simpa using h.snapshots
  calls := by simpa using h.calls
  admitted := ⟨trivial,h.admitted⟩

theorem Account.change (h : Account slots start s) (change : Change s t) : Account slots start t := by
  have sound := h.sound.change change
  cases change with
  | appended target l fresh | prepended target l fresh => exact h.listen target _ fresh sound
  | dropped target type l known => exact h.drop target type known sound
  | stopped => exact h.stopPropagation
  | stoppedImmediately => exact h.stopPropagation.stopImmediately rfl
  | prevented =>
    unfold Store.preventDefault
    split
    · exact h.event rfl rfl
    · exact h

theorem Account.changes (h : Account slots start s) (changes : Changes s t) : Account slots start t := by
  induction changes with
  | refl => exact h
  | tail _ change ih => exact ih.change change

omit [DecidableEq T] in
theorem Account.call (h : Account slots start s) {σ : Slot T} {l : Nat} (inside : σ ∈ slots)
    (known : l < s.made) (captures : (s.listener l).capture = σ.pass) (due : Turn start s.log σ l) :
    Account slots start { s with log := .called σ l :: s.log } where
  sound := ⟨h.sound.nodup,h.sound.known,h.sound.immediate⟩
  later := h.later
  removed := by simpa using h.removed
  stop := by simpa using h.stop
  stopImm := by simpa using h.stopImm
  known := by simpa using h.known
  snapshots := by simpa using h.snapshots
  calls := by
    intro σ' m member
    rcases List.mem_cons.mp member with new | old
    · cases new
      exact ⟨inside,known,captures⟩
    · exact h.calls σ' m old
  admitted := ⟨due,h.admitted⟩

omit [DecidableEq T] in
theorem Account.visit (h : Account slots start s) {σ : Slot T} (unstopped : s.event.stop = false)
    (unvisited : σ ∉ visits s.log) (type : String) :
    Account slots start { s with log := .visited σ (s.lists σ.node type) :: s.log } where
  sound := ⟨h.sound.nodup,h.sound.known,h.sound.immediate⟩
  later := h.later
  removed := by simpa using h.removed
  stop := by simpa using h.stop
  stopImm := by simpa using h.stopImm
  known := by simpa using h.known
  snapshots := by
    intro σ' snapshot member
    rcases List.mem_cons.mp member with new | old
    · cases new
      exact ⟨h.sound.nodup σ.node type,h.sound.known σ.node type⟩
    · exact h.snapshots σ' snapshot old
  calls := by simpa using h.calls
  admitted := by
    have none : ¬(.stopped ∈ s.log ∨ start.event.stop = true) := by
      rw [← h.stop,unstopped]
      simp
    rw [not_or,Bool.not_eq_true] at none
    exact ⟨⟨none.1,none.2,unvisited⟩,h.admitted⟩

theorem Changes.passive (h : Changes s t) : t.event.passive = s.event.passive := by
  induction h with
  | refl => rfl
  | tail _ change ih =>
    rw [← ih]
    cases change with
    | prevented =>
      unfold Store.preventDefault
      split <;> rfl
    | _ => rfl

omit [DecidableEq T] in
theorem Frame.event {e : Event T} (bubbles : e.bubbles = s.event.bubbles) : Frame P s { s with event := e } :=
  ⟨Nat.le_refl _,fun _ _ => ⟨rfl,rfl⟩,⟨[],rfl,by simp⟩,bubbles⟩

omit [DecidableEq T] in
theorem Frame.record {e : Entry T} (conforms : P e) : Frame P s { s with log := e :: s.log } :=
  ⟨Nat.le_refl _,fun _ _ => ⟨rfl,rfl⟩,⟨[e],rfl,by simpa using conforms⟩,rfl⟩

end account

section consumed

variable {T : Type} {once once' : Nat → Bool} {log : List (Entry T)} {σ : Slot T} {l : Nat}

def Consumed (once : Nat → Bool) (log : List (Entry T)) : Prop :=
  ∀ newer older σ l,log = newer ++ .called σ l :: older → once l = true → .removed l ∈ newer

theorem Consumed.congr (h : Consumed once log)
    (same : ∀ σ l,.called σ l ∈ log → once' l = once l) : Consumed once' log := by
  intro newer older σ l split isOnce
  rw [same σ l (by simp [split])] at isOnce
  exact h newer older σ l split isOnce

theorem Consumed.called (h : Consumed once log) (often : once l = false) :
    Consumed once (.called σ l :: log) := by
  intro newer older σ' m split isOnce
  cases newer with
  | nil =>
    cases split
    rw [often] at isOnce
    cases isOnce
  | cons e newer =>
    obtain ⟨-,old⟩ := List.cons.inj split
    exact List.mem_cons_of_mem _ (h newer older σ' m old isOnce)

theorem Consumed.taken (h : Consumed once log) : Consumed once (.removed l :: .called σ l :: log) := by
  intro newer older σ' m split isOnce
  match newer with
  | [] => cases split
  | [e] =>
    cases split
    exact List.mem_cons_self
  | e :: e' :: newer =>
    obtain ⟨-,old⟩ := List.cons.inj split
    obtain ⟨-,old⟩ := List.cons.inj old
    exact List.mem_cons_of_mem _ (List.mem_cons_of_mem _ (h newer older σ' m old isOnce))

theorem Consumed.append (h : Consumed once log) {news : List (Entry T)}
    (uncalled : ∀ e ∈ news,∀ σ l,e ≠ .called σ l) : Consumed once (news ++ log) := by
  induction news with
  | nil => exact h
  | cons e news ih =>
    intro newer older σ l split isOnce
    cases newer with
    | nil =>
      exact absurd (List.cons.inj split).1 (uncalled e List.mem_cons_self σ l)
    | cons e' newer =>
      obtain ⟨-,old⟩ := List.cons.inj split
      have before := ih (fun e member => uncalled e (List.mem_cons_of_mem _ member))
      exact List.mem_cons_of_mem _ (before newer older σ l old isOnce)

end consumed

section run

variable {T C S : Type} {slots : List (Slot T)} {start : Store T C} {s t : State T C S} {σ : Slot T}
  {l : Nat}

structure Running (slots : List (Slot T)) (start : Store T C) (s : State T C S) : Prop where
  account : Account slots start s.toStore
  registered : Registered s
  consumed : Consumed (fun l => (s.listener l).once) s.log

theorem Running.event (h : Running slots start s) {e : Event T} (stop : e.stop = s.event.stop)
    (stopImm : e.stopImm = s.event.stopImm) : Running slots start { s with event := e } := by
  have account := h.account.event stop stopImm
  exact ⟨account,⟨account.sound,h.registered.algorithms,h.registered.records⟩,h.consumed⟩

def Marked (s t : State T C S) : Prop :=
  ∃ e : Event T,t = { s with event := e } ∧ e.stop = s.event.stop ∧
    e.stopImm = s.event.stopImm ∧ e.bubbles = s.event.bubbles

theorem setPassive_marked (s : State T C S) (passive value : Bool) : Marked s (s.setPassive passive value) := by
  cases passive with
  | true => exact ⟨{ s.event with passive := value },rfl,rfl,rfl,rfl⟩
  | false => exact ⟨s.event,rfl,rfl,rfl,rfl⟩

theorem setThrew_marked (s : State T C S) (threw : Bool) : Marked s (s.setThrew threw) := by
  cases threw with
  | true => exact ⟨{ s.event with threw := true },rfl,rfl,rfl,rfl⟩
  | false => exact ⟨s.event,rfl,rfl,rfl,rfl⟩

theorem Running.marked (h : Running slots start s) (marked : Marked s t) : Running slots start t := by
  obtain ⟨e,rfl,stop,stopImm,-⟩ := marked
  exact h.event stop stopImm

theorem Marked.frame {P : Entry T → Prop} (h : Marked s t) : Frame P s.toStore t.toStore := by
  obtain ⟨e,rfl,-,-,bubbles⟩ := h
  exact .event bubbles

variable [DecidableEq T]

theorem Running.leads (h : Running slots start s) (leads : Leads s t) : Running slots start t := by
  refine ⟨h.account.changes leads.1,leads.2,?_⟩
  obtain ⟨news,logged,scripted⟩ := leads.1.frame.log
  rw [logged]
  refine (h.consumed.congr ?_).append ?_
  · intro σ l member
    exact (leads.1.frame.listener l (h.account.calls σ l member).2.1).2
  · rintro e member σ l rfl
    cases scripted _ member

theorem take_of_once (once : (s.listener l).once = true) :
    s.take σ l = (s.record (.called σ l)).removeListenerObj σ.node l := if_pos once

theorem take_of_often (often : (s.listener l).once = false) :
    s.take σ l = s.record (.called σ l) := if_neg (by simp [State.record,often])

theorem Running.take (h : Running slots start s) (inside : σ ∈ slots) (known : l < s.made)
    (captures : (s.listener l).capture = σ.pass) (due : Turn start s.log σ l) :
    Running slots start (s.take σ l) := by
  have account := h.account.call inside known captures due
  have registered : Registered (s.record (.called σ l)) :=
    ⟨account.sound,h.registered.algorithms,h.registered.records⟩
  cases once : (s.listener l).once with
  | true =>
    rw [take_of_once once]
    have dropped := registered.removeListenerObj σ.node known
    refine ⟨account.changes dropped.1,dropped.2,h.consumed.taken.congr ?_⟩
    intro σ' m member
    have known' : m < s.made := by
      rcases List.mem_cons.mp member with new | member
      · cases new
      · exact (account.calls σ' m member).2.1
    exact (dropped.1.frame.listener m known').2
  | false =>
    rw [take_of_often once]
    exact ⟨account,registered,h.consumed.called once⟩

def Entry.Own (σ : Slot T) (l : Nat) (e : Entry T) : Prop := e = .called σ l ∨ e.scripted = true

theorem take_frame (known : l < s.made) : Frame (Entry.Own σ l) s.toStore (s.take σ l).toStore := by
  have called : Frame (Entry.Own σ l) s.toStore (s.record (.called σ l)).toStore :=
    .record (.inl rfl)
  cases once : (s.listener l).once with
  | true =>
    rw [take_of_once once]
    have dropped : Change (s.record (.called σ l)).toStore _ :=
      .dropped _ σ.node (s.listener l).type l known
    exact called.trans (dropped.frame.mono fun _ => .inr)
  | false =>
    rw [take_of_often once]
    exact called

variable [DecidableEq C] [DecidableEq S]

theorem turn_stages (page : Page T C S) (σ : Slot T) (l : Nat) (s : State T C S) :
    ∃ ready actions thrown,Marked (s.take σ l) ready ∧ Marked (acts page ready actions) thrown ∧
      Marked thrown (turn page σ l s) :=
  ⟨_,_,_,setPassive_marked _ _ _,setThrew_marked _ _,setPassive_marked _ _ _⟩

structure Turned (slots : List (Slot T)) (start : Store T C) (σ : Slot T) (l : Nat)
    (s t : State T C S) : Prop where
  running : Running slots start t
  frame : Frame (Entry.Own σ l) s.toStore t.toStore
  called : .called σ l ∈ t.log

theorem turn_turned (page : Page T C S) (h : Running slots start s) (inside : σ ∈ slots)
    (known : l < s.made) (captures : (s.listener l).capture = σ.pass)
    (due : Turn start s.log σ l) : Turned slots start σ l s (turn page σ l s) := by
  obtain ⟨ready,actions,thrown,begun,threw,ended⟩ := turn_stages page σ l s
  have running := (h.take inside known captures due).marked begun
  have run := acts_leads page running.registered actions
  have rest : Frame (·.scripted = true) (s.take σ l).toStore (turn page σ l s).toStore :=
    ((begun.frame.trans run.1.frame).trans threw.frame).trans ended.frame
  refine ⟨((running.leads run).marked threw).marked ended,
    (take_frame known).trans (rest.mono fun _ => .inr),?_⟩
  obtain ⟨news,logged,-⟩ := rest.log
  rw [logged]
  refine List.mem_append_right _ ?_
  cases once : (s.listener l).once with
  | true =>
    rw [take_of_once once]
    exact List.mem_cons_of_mem _ List.mem_cons_self
  | false =>
    rw [take_of_often once]
    exact List.mem_cons_self

theorem turn_passive (page : Page T C S) (h : Running slots start s) (inside : σ ∈ slots)
    (known : l < s.made) (captures : (s.listener l).capture = σ.pass)
    (due : Turn start s.log σ l) (unset : s.event.passive = false) :
    (turn page σ l s).event.passive = false := by
  have taken : (s.take σ l).event = s.event := by
    unfold State.take
    dsimp only
    split <;> rfl
  have run := acts_leads page (h.take inside known captures due).registered
    (page.callback (s.take σ l) l).1
  cases passive : (s.listener l).passive with
  | true => simp [turn,State.setPassive,passive]
  | false =>
    have thrown (t : State T C S) (threw : Bool) : (t.setThrew threw).event.passive = t.event.passive := by
      cases threw <;> rfl
    simp only [turn,passive,State.setPassive,Bool.false_eq_true,if_false,thrown]
    rw [run.1.passive,taken]
    exact unset

end run

end Sharko.Script.Events
