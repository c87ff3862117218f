import Mathlib

/-! The listeners of 10_events.js: `EventTarget`, event handlers and abort signals, and what a
running listener can do to them. The log, newest entry first, is not in the source. -/

namespace Sharko.Script.Events

/-- The listener of an event handler has a closure of its own for a callback. -/
structure Listener (C : Type) where
  type : String
  callback : Option C
  capture : Bool
  once : Bool
  passive : Bool
  removed : Bool

inductive Phase where
  | none
  | capturing
  | atTarget
  | bubbling
  deriving DecidableEq

structure Event (T : Type) where
  type : String
  bubbles : Bool
  cancelable : Bool
  target : Option T
  currentTarget : Option T
  phase : Phase
  path : List T
  stop : Bool
  stopImm : Bool
  canceled : Bool
  passive : Bool
  dispatch : Bool
  threw : Bool

def Event.new {T : Type} (type : String) (bubbles cancelable : Bool) : Event T :=
  { type,bubbles,cancelable,target := none,currentTarget := none,phase := .none,path := [],
    stop := false,stopImm := false,canceled := false,passive := false,dispatch := false,threw := false }

/-- One call of `invoke`. Its first pass takes the capturing listeners. -/
structure Slot (T : Type) where
  position : Nat
  node : T
  phase : Phase
  pass : Bool
  deriving DecidableEq

inductive Entry (T : Type) where
  | visited (slot : Slot T) (snapshot : List Nat)
  | called (slot : Slot T) (l : Nat)
  | added (target : T) (l : Nat)
  | removed (l : Nat)
  | stopped
  | stoppedImmediately
  deriving DecidableEq

structure Store (T C : Type) where
  made : Nat
  listener : Nat → Listener C
  lists : T → String → List Nat
  event : Event T
  log : List (Entry T)

/-- Of an event handler: a function or its source, and the listener while it is active. -/
structure HandlerRecord (C : Type) where
  value : Option C
  listener : Option Nat

/-- `inline` holds the handler content attributes, whether they have been discovered or not. -/
structure State (T C S : Type) extends Store T C where
  records : T → String → Option (HandlerRecord C)
  inline : T → String → Option C
  aborted : S → Bool
  algorithms : S → List (T × Nat)

section update

variable {T C S : Type} [DecidableEq T] [DecidableEq C] [DecidableEq S]

def assign {α : Type} (f : T → String → α) (target : T) (type : String) (value : α) :
    T → String → α :=
  Function.update f target (Function.update (f target) type value)

namespace Store

def listen (s : Store T C) (target : T) (l : Listener C) (list : List Nat) : Store T C :=
  { s with
    made := s.made + 1
    listener := Function.update s.listener s.made l
    lists := assign s.lists target l.type list
    log := .added target s.made :: s.log }

def addListener (s : Store T C) (target : T) (l : Listener C) : Store T C :=
  s.listen target l (s.lists target l.type ++ [s.made])

def prependListener (s : Store T C) (target : T) (l : Listener C) : Store T C :=
  s.listen target l (s.made :: s.lists target l.type)

def drop (s : Store T C) (target : T) (type : String) (l : Nat) : Store T C :=
  { s with
    listener := Function.update s.listener l { s.listener l with removed := true }
    lists := assign s.lists target type ((s.lists target type).erase l)
    log := .removed l :: s.log }

def removeListenerObj (s : Store T C) (target : T) (l : Nat) : Store T C :=
  s.drop target (s.listener l).type l

def stopPropagation (s : Store T C) : Store T C :=
  { s with event.stop := true,log := .stopped :: s.log }

def stopImmediatePropagation (s : Store T C) : Store T C :=
  { s with
    event.stop := true
    event.stopImm := true
    log := .stoppedImmediately :: .stopped :: s.log }

def preventDefault (s : Store T C) : Store T C :=
  if s.event.cancelable && !s.event.passive then { s with event.canceled := true } else s

end Store

end update

/-- What scripts can do. A nested dispatch of another event discovers inline handlers and consumes
the listeners that run once. -/
inductive Action (T C S : Type) where
  | addEventListener (target : T) (type : String) (callback : C) (capture once : Bool)
      (passive : Option Bool) (signal : Option S)
  | removeEventListener (target : T) (type : String) (callback : C) (capture : Bool)
  | abort (signal : S)
  | setHandler (target : T) (type : String) (value : Option C)
  | setAttribute (target : T) (type : String) (value : Option C)
  | markup (target : T) (type : String) (value : Option C)
  | discover (target : T) (type : String)
  | consume (target : T) (l : Nat)
  | stopPropagation
  | stopImmediatePropagation
  | preventDefault

/-- The callback of a listener looks at all there is, acts, and may throw. -/
structure Page (T C S : Type) where
  defaultPassive : T → String → Bool
  callback : State T C S → Nat → List (Action T C S) × Bool

section actions

variable {T C S : Type} [DecidableEq T] [DecidableEq C] [DecidableEq S]

namespace State

def matching (s : State T C S) (callback : C) (capture : Bool) (l : Nat) : Bool :=
  (s.listener l).callback = some callback && (s.listener l).capture = capture

def addEventListener (page : Page T C S) (s : State T C S) (target : T) (type : String) (callback : C)
    (capture once : Bool) (passive : Option Bool) (signal : Option S) : State T C S :=
  if signal.any s.aborted then s
  else if (s.lists target type).any (s.matching callback capture) then s
  else
    { s with
      toStore := s.toStore.addListener target
        { type,callback := some callback,capture,once,
          passive := passive.getD (page.defaultPassive target type),removed := false }
      algorithms := match signal with
        | none => s.algorithms
        | some signal =>
          Function.update s.algorithms signal (s.algorithms signal ++ [(target,s.made)]) }

def removeEventListener (s : State T C S) (target : T) (type : String) (callback : C)
    (capture : Bool) : State T C S :=
  match (s.lists target type).find? (s.matching callback capture) with
  | none => s
  | some l => { s with toStore := s.toStore.drop target type l }

def removeListenerObj (s : State T C S) (target : T) (l : Nat) : State T C S :=
  { s with toStore := s.toStore.removeListenerObj target l }

def signalAbort (s : State T C S) (signal : S) : State T C S :=
  if s.aborted signal then s
  else
    (s.algorithms signal).foldl (fun s algorithm => s.removeListenerObj algorithm.1 algorithm.2)
      { s with
        aborted := Function.update s.aborted signal true
        algorithms := Function.update s.algorithms signal [] }

def handlerRec (s : State T C S) (target : T) (type : String) : HandlerRecord C :=
  (s.records target type).getD { value := none,listener := none }

def setRecord (s : State T C S) (target : T) (type : String) (record : HandlerRecord C) :
    State T C S :=
  { s with records := assign s.records target type (some record) }

def activate (s : State T C S) (target : T) (type : String) (front : Bool) : State T C S :=
  match (s.handlerRec target type).listener with
  | some _ => s
  | none =>
    let l : Listener C :=
      { type,callback := none,capture := false,once := false,passive := false,removed := false }
    let s' := s.setRecord target type { s.handlerRec target type with listener := some s.made }
    if front then { s' with toStore := s.toStore.prependListener target l }
    else { s' with toStore := s.toStore.addListener target l }

def deactivate (s : State T C S) (target : T) (type : String) : State T C S :=
  let s' := match (s.handlerRec target type).listener with
    | some l => s.removeListenerObj target l
    | none => s
  s'.setRecord target type { value := none,listener := none }

def discoverInline (s : State T C S) (target : T) (type : String) : State T C S :=
  if (s.records target type).isSome then s
  else match s.inline target type with
    | none => s
    | some code =>
      (s.setRecord target type { value := some code,listener := none }).activate target type true

def setValue (s : State T C S) (target : T) (type : String) (value : Option C) : State T C S :=
  match value with
  | none => s.deactivate target type
  | some _ =>
    (s.setRecord target type { s.handlerRec target type with value }).activate target type false

def setHandlerIDL (s : State T C S) (target : T) (type : String) (value : Option C) : State T C S :=
  (s.discoverInline target type).setValue target type value

def handlerAttrChanged (s : State T C S) (target : T) (type : String) (value : Option C) :
    State T C S :=
  s.setValue target type value

end State

def act (page : Page T C S) (s : State T C S) : Action T C S → State T C S
  | .addEventListener target type callback capture once passive signal =>
    s.addEventListener page target type callback capture once passive signal
  | .removeEventListener target type callback capture =>
    s.removeEventListener target type callback capture
  | .abort signal => s.signalAbort signal
  | .setHandler target type value => s.setHandlerIDL target type value
  | .setAttribute target type value =>
    ({ s with inline := assign s.inline target type value }).handlerAttrChanged target type value
  | .markup target type value => { s with inline := assign s.inline target type value }
  | .discover target type => s.discoverInline target type
  | .consume target l =>
    if l ∈ s.lists target (s.listener l).type then s.removeListenerObj target l else s
  | .stopPropagation => { s with toStore := s.toStore.stopPropagation }
  | .stopImmediatePropagation => { s with toStore := s.toStore.stopImmediatePropagation }
  | .preventDefault => { s with toStore := s.toStore.preventDefault }

def acts (page : Page T C S) (s : State T C S) (actions : List (Action T C S)) : State T C S :=
  actions.foldl (act page) s

end actions

section changes

variable {T C : Type} [DecidableEq T]

/-- All that actions do to the store. -/
inductive Change : Store T C → Store T C → Prop
  | appended (s : Store T C) (target : T) (l : Listener C) (fresh : l.removed = false) :
      Change s (s.addListener target l)
  | prepended (s : Store T C) (target : T) (l : Listener C) (fresh : l.removed = false) :
      Change s (s.prependListener target l)
  | dropped (s : Store T C) (target : T) (type : String) (l : Nat) (known : l < s.made) :
      Change s (s.drop target type l)
  | stopped (s : Store T C) : Change s s.stopPropagation
  | stoppedImmediately (s : Store T C) : Change s s.stopImmediatePropagation
  | prevented (s : Store T C) : Change s s.preventDefault

def Changes : Store T C → Store T C → Prop := Relation.ReflTransGen Change

structure Sound (s : Store T C) : Prop where
  nodup : ∀ target type,(s.lists target type).Nodup
  known : ∀ target type,∀ l ∈ s.lists target type,l < s.made
  immediate : s.event.stopImm = true → s.event.stop = true

theorem assign_cases {α : Type} {P : α → Prop} {f : T → String → α} {target : T} {type : String}
    {value : α} (old : ∀ t ty,P (f t ty)) (new : P value) (t : T) (ty : String) :
    P (assign f target type value t ty) := by
  by_cases same : t = target
  · subst same
    by_cases same : ty = type
    · subst same
      simpa [assign] using new
    · simpa [assign,same] using old t ty
  · simpa [assign,same] using old t ty

theorem Change.made_le {s t : Store T C} (h : Change s t) : s.made ≤ t.made := by
  cases h with
  | appended | prepended => exact Nat.le_succ _
  | dropped | stopped | stoppedImmediately => exact Nat.le_refl _
  | prevented =>
    unfold Store.preventDefault
    split <;> exact Nat.le_refl _

theorem Sound.listen {s : Store T C} (h : Sound s) (target : T) (l : Listener C) {list : List Nat}
    (nodup : list.Nodup) (members : ∀ m ∈ list,m ≤ s.made) : Sound (s.listen target l list) := by
  refine ⟨?_,?_,h.immediate⟩
  · exact assign_cases h.nodup nodup
  · refine assign_cases (P := fun list => ∀ m ∈ list,m < s.made + 1) ?_ ?_
    · intro t ty m member
      exact Nat.lt_succ_of_lt (h.known t ty m member)
    · intro m member
      exact Nat.lt_succ_of_le (members m member)

omit [DecidableEq T] in
theorem Sound.unlisted {s : Store T C} (h : Sound s) (target : T) (type : String) :
    s.made ∉ s.lists target type :=
  fun member => Nat.lt_irrefl _ (h.known target type _ member)

theorem Sound.change {s t : Store T C} (h : Sound s) (change : Change s t) : Sound t := by
  cases change with
  | appended target l fresh =>
    apply h.listen
    · rw [← List.concat_eq_append]
      exact (h.nodup target l.type).concat (h.unlisted target l.type)
    · intro m member
      rcases List.mem_append.mp member with old | new
      · exact (h.known target l.type m old).le
      · exact (List.mem_singleton.mp new).le
  | prepended target l fresh =>
    apply h.listen
    · exact (h.nodup target l.type).cons (h.unlisted target l.type)
    · intro m member
      rcases List.mem_cons.mp member with new | old
      · exact new.le
      · exact (h.known target l.type m old).le
  | dropped target type l known =>
    refine ⟨?_,?_,h.immediate⟩
    · exact assign_cases h.nodup ((h.nodup target type).erase l)
    · refine assign_cases (P := fun list => ∀ m ∈ list,m < s.made) h.known ?_
      intro m member
      exact h.known target type m (List.mem_of_mem_erase member)
  | stopped => exact ⟨h.nodup,h.known,fun _ => rfl⟩
  | stoppedImmediately => exact ⟨h.nodup,h.known,fun _ => rfl⟩
  | prevented =>
    unfold Store.preventDefault
    split
    · exact ⟨h.nodup,h.known,h.immediate⟩
    · exact h

theorem Sound.changes {s t : Store T C} (h : Sound s) (changes : Changes s t) : Sound t := by
  induction changes with
  | refl => exact h
  | tail _ change ih => exact ih.change change

end changes

section registered

variable {T C S : Type} {s t u : State T C S}

/-- The listeners that signals and handlers may yet remove have been made. -/
structure Registered (s : State T C S) : Prop where
  sound : Sound s.toStore
  algorithms : ∀ signal,∀ algorithm ∈ s.algorithms signal,algorithm.2 < s.made
  records : ∀ target type,∀ record ∈ s.records target type,∀ l ∈ record.listener,l < s.made

variable [DecidableEq T]

def Leads (s t : State T C S) : Prop := Changes s.toStore t.toStore ∧ Registered t

theorem Registered.leads (h : Registered s) : Leads s s := ⟨.refl,h⟩

theorem Leads.trans (h : Leads s t) (h' : Leads t u) : Leads s u := ⟨h.1.trans h'.1,h'.2⟩

theorem Registered.store (h : Registered s) {store : Store T C} (change : Change s.toStore store) :
    Leads s { s with toStore := store } := by
  refine ⟨.single change,h.sound.change change,?_,?_⟩
  · intro signal algorithm member
    exact (h.algorithms signal algorithm member).trans_le change.made_le
  · intro target type record member l listens
    exact (h.records target type record member l listens).trans_le change.made_le

theorem Registered.removeListenerObj (h : Registered s) (target : T) {l : Nat} (known : l < s.made) :
    Leads s (s.removeListenerObj target l) :=
  h.store (.dropped _ target _ l known)

theorem Registered.setRecord (h : Registered s) (target : T) (type : String)
    (record : HandlerRecord C) (known : ∀ l ∈ record.listener,l < s.made) :
    Leads s (s.setRecord target type record) := by
  refine ⟨.refl,h.sound,h.algorithms,?_⟩
  refine assign_cases
    (P := fun r : Option (HandlerRecord C) => ∀ record ∈ r,∀ l ∈ record.listener,l < s.made)
    h.records ?_
  intro record' same
  obtain rfl : record = record' := by simpa using same
  exact known

omit [DecidableEq T] in
theorem Registered.handlerRec (h : Registered s) (target : T) (type : String) :
    ∀ l ∈ (s.handlerRec target type).listener,l < s.made := by
  unfold State.handlerRec
  cases found : s.records target type with
  | none => simp
  | some record => exact h.records target type record found

theorem Registered.activate (h : Registered s) (target : T) (type : String) (front : Bool) :
    Leads s (s.activate target type front) := by
  unfold State.activate
  cases (s.handlerRec target type).listener with
  | some l => exact h.leads
  | none =>
    -- the record names the listener before it is made
    have records (store : Store T C) (made : store.made = s.made + 1)
        (change : Change s.toStore store) :
        Leads s
          { s.setRecord target type { s.handlerRec target type with listener := some s.made } with
            toStore := store } := by
      refine ⟨.single change,h.sound.change change,?_,?_⟩
      · intro signal algorithm member
        exact (h.algorithms signal algorithm member).trans_le change.made_le
      · refine assign_cases
          (P := fun r : Option (HandlerRecord C) => ∀ record ∈ r,∀ l ∈ record.listener,l < store.made)
          ?_ ?_
        · intro t ty record member l listens
          exact (h.records t ty record member l listens).trans_le change.made_le
        · simp [made]
    cases front with
    | true => exact records _ rfl (.prepended _ target _ rfl)
    | false => exact records _ rfl (.appended _ target _ rfl)

theorem Registered.deactivate (h : Registered s) (target : T) (type : String) :
    Leads s (s.deactivate target type) := by
  have bare {t : State T C S} (h : Registered t) :
      Leads t (t.setRecord target type { value := none,listener := none }) :=
    h.setRecord target type _ (by simp)
  unfold State.deactivate
  cases listens : (s.handlerRec target type).listener with
  | none => exact bare h
  | some l =>
    have dropped := h.removeListenerObj target (h.handlerRec target type l listens)
    exact dropped.trans (bare dropped.2)

theorem Registered.discoverInline (h : Registered s) (target : T) (type : String) :
    Leads s (s.discoverInline target type) := by
  unfold State.discoverInline
  split
  · exact h.leads
  · cases s.inline target type with
    | none => exact h.leads
    | some code =>
      have recorded := h.setRecord target type { value := some code,listener := none } (by simp)
      exact recorded.trans (recorded.2.activate target type true)

theorem Registered.setValue (h : Registered s) (target : T) (type : String) (value : Option C) :
    Leads s (s.setValue target type value) := by
  cases value with
  | none => exact h.deactivate target type
  | some value =>
    have recorded := h.setRecord target type { s.handlerRec target type with value := some value }
      (h.handlerRec target type)
    exact recorded.trans (recorded.2.activate target type false)

theorem Registered.setHandlerIDL (h : Registered s) (target : T) (type : String)
    (value : Option C) : Leads s (s.setHandlerIDL target type value) := by
  have discovered := h.discoverInline target type
  exact discovered.trans (discovered.2.setValue target type value)

variable [DecidableEq S]

theorem Registered.signalAbort (h : Registered s) (signal : S) : Leads s (s.signalAbort signal) := by
  have removals (algorithms : List (T × Nat)) {t : State T C S} (h : Registered t)
      (known : ∀ algorithm ∈ algorithms,algorithm.2 < t.made) :
      Leads t (algorithms.foldl (fun s algorithm => s.removeListenerObj algorithm.1 algorithm.2) t) := by
    induction algorithms generalizing t with
    | nil => exact h.leads
    | cons algorithm algorithms ih =>
      have dropped := h.removeListenerObj algorithm.1 (known algorithm List.mem_cons_self)
      exact dropped.trans (ih dropped.2 fun other member => known other (List.mem_cons_of_mem _ member))
  unfold State.signalAbort
  split
  · exact h.leads
  · have cleared : Registered
        { s with
          aborted := Function.update s.aborted signal true
          algorithms := Function.update s.algorithms signal [] } := by
      refine ⟨h.sound,?_,h.records⟩
      exact (Function.forall_update_iff _ fun _ (algorithms : List (T × Nat)) =>
        ∀ algorithm ∈ algorithms,algorithm.2 < s.made).mpr
          ⟨by simp,fun other _ => h.algorithms other⟩
    exact removals (s.algorithms signal) cleared (h.algorithms signal)

variable [DecidableEq C]

theorem Registered.addEventListener (h : Registered s) (page : Page T C S) (target : T)
    (type : String) (callback : C) (capture once : Bool) (passive : Option Bool) (signal : Option S) :
    Leads s (s.addEventListener page target type callback capture once passive signal) := by
  unfold State.addEventListener
  split
  · exact h.leads
  split
  · exact h.leads
  · have added := h.store (.appended s.toStore target
      { type,callback := some callback,capture,once,
        passive := passive.getD (page.defaultPassive target type),removed := false } rfl)
    refine ⟨added.1,added.2.sound,?_,added.2.records⟩
    cases signal with
    | none => exact added.2.algorithms
    | some signal =>
      refine (Function.forall_update_iff _ fun _ (algorithms : List (T × Nat)) =>
        ∀ algorithm ∈ algorithms,algorithm.2 < s.made + 1).mpr
          ⟨?_,fun other _ => added.2.algorithms other⟩
      intro algorithm member
      rcases List.mem_append.mp member with old | new
      · exact added.2.algorithms signal algorithm old
      · rw [List.mem_singleton.mp new]
        exact Nat.lt_succ_self _

omit [DecidableEq S] in
theorem Registered.removeEventListener (h : Registered s) (target : T) (type : String)
    (callback : C) (capture : Bool) : Leads s (s.removeEventListener target type callback capture) := by
  unfold State.removeEventListener
  cases found : (s.lists target type).find? (s.matching callback capture) with
  | none => exact h.leads
  | some l =>
    exact h.store (.dropped _ target type l (h.sound.known target type l (List.mem_of_find?_eq_some found)))

theorem act_leads (page : Page T C S) (h : Registered s) (a : Action T C S) : Leads s (act page s a) := by
  cases a with
  | addEventListener target type callback capture once passive signal =>
    exact h.addEventListener page target type callback capture once passive signal
  | removeEventListener target type callback capture =>
    exact h.removeEventListener target type callback capture
  | abort signal => exact h.signalAbort signal
  | setHandler target type value => exact h.setHandlerIDL target type value
  | setAttribute target type value =>
    have written : Registered { s with inline := assign s.inline target type value } :=
      ⟨h.sound,h.algorithms,h.records⟩
    exact written.setValue target type value
  | markup target type value => exact ⟨.refl,h.sound,h.algorithms,h.records⟩
  | discover target type => exact h.discoverInline target type
  | consume target l =>
    by_cases member : l ∈ s.lists target (s.listener l).type
    · simp only [act,if_pos member]
      exact h.removeListenerObj target (h.sound.known target _ l member)
    · simp only [act,if_neg member]
      exact h.leads
  | stopPropagation => exact h.store (.stopped _)
  | stopImmediatePropagation => exact h.store (.stoppedImmediately _)
  | preventDefault => exact h.store (.prevented _)

theorem acts_leads (page : Page T C S) (h : Registered s) (actions : List (Action T C S)) :
    Leads s (acts page s actions) := by
  induction actions generalizing s with
  | nil => exact h.leads
  | cons a actions ih =>
    have first := act_leads page h a
    exact first.trans (ih first.2)

end registered

end Sharko.Script.Events
