import Mathlib
import Sharko.Script.Events.Listeners

/-! `invoke` and `dispatchCore` of 10_events.js, without the click activation around them. -/

namespace Sharko.Script.Events

variable {T : Type}

def captureSlots (ancestors : List T) : List (Slot T) :=
  ((ancestors.zipIdx 1).map fun (node,i) => ⟨i,node,.capturing,true⟩).reverse

def targetSlots (target : T) : List (Slot T) :=
  [⟨0,target,.atTarget,true⟩,⟨0,target,.atTarget,false⟩]

def bubbleSlots (ancestors : List T) : List (Slot T) :=
  (ancestors.zipIdx 1).map fun (node,i) => ⟨i,node,.bubbling,false⟩

/-- All calls of `invoke`, if nothing stops them. -/
def schedule (target : T) (ancestors : List T) (bubbles : Bool) : List (Slot T) :=
  captureSlots ancestors ++ targetSlots target ++ if bubbles then bubbleSlots ancestors else []

section schedule

variable {target : T} {ancestors : List T} {bubbles : Bool} {σ σ' : Slot T}

theorem mem_schedule (member : σ ∈ schedule target ancestors bubbles) :
    (target :: ancestors)[σ.position]? = some σ.node := by
  have ancestor {phase : Phase} {pass : Bool}
      (member : σ ∈ (ancestors.zipIdx 1).map fun (node,i) => ⟨i,node,phase,pass⟩) :
      (target :: ancestors)[σ.position]? = some σ.node := by
    obtain ⟨⟨node,i⟩,place,rfl⟩ := List.mem_map.mp member
    obtain ⟨later,found⟩ := List.mk_mem_zipIdx_iff_le_and_getElem?_sub.mp place
    have away : i ≠ 0 := by
      rintro rfl
      cases later
    simpa [List.getElem?_cons,away] using found
  simp only [schedule,List.mem_append] at member
  rcases member with (capturing | atTarget) | bubbling
  · exact ancestor (List.mem_reverse.mp capturing)
  · have : σ = ⟨0,target,.atTarget,true⟩ ∨ σ = ⟨0,target,.atTarget,false⟩ := by
      simpa [targetSlots] using atTarget
    rcases this with rfl | rfl <;> rfl
  · cases bubbles with
    | true => exact ancestor bubbling
    | false => cases bubbling

theorem schedule_distinct (member : σ ∈ schedule target ancestors bubbles)
    (member' : σ' ∈ schedule target ancestors bubbles) (position : σ.position = σ'.position)
    (phase : σ.phase = σ'.phase) (pass : σ.pass = σ'.pass) : σ = σ' := by
  have node := mem_schedule member
  rw [position,mem_schedule member'] at node
  cases σ
  cases σ'
  simp_all

theorem places_nodup (ancestors : List T) (phase : Phase) (pass : Bool) :
    ((ancestors.zipIdx 1).map fun (node,i) => (⟨i,node,phase,pass⟩ : Slot T)).Nodup := by
  apply List.Nodup.of_map Slot.position
  rw [List.map_map]
  have positions : (ancestors.zipIdx 1).map Prod.snd = List.range' 1 ancestors.length :=
    List.zipIdx_map_snd 1 ancestors
  exact positions ▸ List.nodup_range'

theorem places_phase {phase : Phase} {pass : Bool}
    (member : σ ∈ (ancestors.zipIdx 1).map fun (node,i) => (⟨i,node,phase,pass⟩ : Slot T)) :
    σ.phase = phase := by
  obtain ⟨place,-,rfl⟩ := List.mem_map.mp member
  rfl

theorem disjoint_of_phases {first second : List (Slot T)} {phase phase' : Phase}
    (phases : ∀ σ ∈ first,σ.phase = phase) (phases' : ∀ σ ∈ second,σ.phase = phase')
    (differs : phase ≠ phase') : first.Disjoint second := by
  intro σ member member'
  exact differs ((phases σ member).symm.trans (phases' σ member'))

theorem schedule_nodup (target : T) (ancestors : List T) (bubbles : Bool) :
    (schedule target ancestors bubbles).Nodup := by
  have capturing : (captureSlots ancestors).Nodup :=
    List.nodup_reverse.mpr (places_nodup ancestors .capturing true)
  have capturePhase : ∀ σ ∈ captureSlots ancestors,σ.phase = .capturing := fun σ member =>
    places_phase (List.mem_reverse.mp member)
  have targetPhase : ∀ σ ∈ targetSlots target,σ.phase = .atTarget := by simp [targetSlots]
  have early := capturing.append (by simp [targetSlots] : (targetSlots target).Nodup)
    (disjoint_of_phases capturePhase targetPhase (by decide))
  cases bubbles with
  | false => simpa [schedule] using early
  | true =>
    refine early.append (places_nodup ancestors .bubbling false) ?_
    rw [List.disjoint_append_left]
    exact ⟨disjoint_of_phases capturePhase (fun _ => places_phase) (by decide),
      disjoint_of_phases targetPhase (fun _ => places_phase) (by decide)⟩

end schedule

variable {C S : Type} [DecidableEq T] [DecidableEq C] [DecidableEq S]

def State.record (s : State T C S) (entry : Entry T) : State T C S :=
  { s with log := entry :: s.log }

def State.take (s : State T C S) (σ : Slot T) (l : Nat) : State T C S :=
  let s := s.record (.called σ l)
  if (s.listener l).once then s.removeListenerObj σ.node l else s

def State.setPassive (s : State T C S) (passive value : Bool) : State T C S :=
  if passive then { s with event.passive := value } else s

def State.setThrew (s : State T C S) (threw : Bool) : State T C S :=
  if threw then { s with event.threw := true } else s

def turn (page : Page T C S) (σ : Slot T) (l : Nat) (s : State T C S) : State T C S :=
  let passive := (s.listener l).passive
  let s := (s.take σ l).setPassive passive true
  let run := page.callback s l
  ((acts page s run.1).setThrew run.2).setPassive passive false

def serve (page : Page T C S) (σ : Slot T) : List Nat → State T C S → State T C S
  | [],s => s
  | l :: rest,s =>
    if (s.listener l).removed then serve page σ rest s
    else if (s.listener l).capture != σ.pass then serve page σ rest s
    else
      let s := turn page σ l s
      if s.event.stopImm then s else serve page σ rest s

def invoke (page : Page T C S) (σ : Slot T) (s : State T C S) : State T C S :=
  let list := s.lists σ.node s.event.type
  let s := s.record (.visited σ list)
  if list = [] then s
  else serve page σ list { s with event.phase := σ.phase,event.currentTarget := some σ.node }

def visit (page : Page T C S) : List (Slot T) → State T C S → State T C S
  | [],s => s
  | σ :: rest,s => if s.event.stop then s else visit page rest (invoke page σ s)

structure Result where
  canceled : Bool
  stopped : Bool
  threw : Bool
  deriving DecidableEq

def Event.begin (e : Event T) (target : T) (path : List T) : Event T :=
  { e with dispatch := true,target := some target,path }

def Event.finish (e : Event T) : Event T :=
  { e with
    phase := .none,currentTarget := none,path := []
    dispatch := false,stop := false,stopImm := false,threw := false }

def State.ready (s : State T C S) (target : T) (ancestors : List T) (targetOverride : Option T) :
    State T C S :=
  (target :: ancestors).foldl (fun s' node => s'.discoverInline node s.event.type)
    { s with event := s.event.begin (targetOverride.getD target) (target :: ancestors) }

def dispatchCore (page : Page T C S) (target : T) (ancestors : List T) (targetOverride : Option T)
    (s : State T C S) : Result × State T C S :=
  let s := s.ready target ancestors targetOverride
  let s := visit page (captureSlots ancestors) s
  let s := visit page (targetSlots target) s
  let s := if s.event.bubbles then visit page (bubbleSlots ancestors) s else s
  (⟨s.event.canceled,s.event.stop,s.event.threw⟩,{ s with event := s.event.finish })

def State.blank (event : Event T) : State T C S :=
  { made := 0
    listener := fun _ =>
      { type := "",callback := none,capture := false,once := false,passive := false,removed := false }
    lists := fun _ _ => []
    event
    log := []
    records := fun _ _ => none
    inline := fun _ _ => none
    aborted := fun _ => false
    algorithms := fun _ => [] }

def arranged (page : Page T C S) (before : List (Action T C S)) (type : String)
    (bubbles cancelable : Bool) : State T C S :=
  { acts page (State.blank (.new type bubbles cancelable)) before with log := [] }

end Sharko.Script.Events
