import Mathlib
import Sharko.Library.Runs
import Sharko.Script.PageScripts

/-! The scripts that other scripts insert: when they are started, and in which order those run
that are fetched. A script that runs on the spot may change the tree and insert scripts itself,
so that the loops over pending scripts are on a stack. -/

namespace Sharko.Script.DynamicScripts

open Library
open PageScripts (Kind FetchState)

/-- What the attributes and the children of a script element say. The type is none where nothing
is run, the source as for `PageScripts.Element`. -/
structure Element where
  type : Option Kind
  src : Option Bool
  text : Bool
  async : Bool
  deriving DecidableEq

inductive Frame where
  | code
  /-- The loop of `checkPendingScripts`, with the number of the call. -/
  | batch (n : ℕ) (rest : List ℕ)
  | ordered
  deriving DecidableEq

inductive Entry where
  | collected (batch : ℕ) (document : List ℕ)
  /-- By which call of `checkPendingScripts`, if by one, whether it is connected then, and the kind
  of one that is external and not async. -/
  | started (id : ℕ) (batch : Option ℕ) (connected : Bool) (inOrder : Option Kind)
  | ran (id : ℕ) (inOrder : Bool)
  deriving DecidableEq

/-- The tree is given by the connected nodes in tree order, which is all that is asked of it. -/
structure State where
  document : List ℕ := []
  scripts : ℕ → Element := fun _ => ⟨none,none,false,false⟩
  created : ℕ := 0
  pendingScripts : List ℕ := []
  batches : ℕ := 0
  stack : List Frame := []
  orderedDynamic : List (ℕ × FetchState) := []
  fetches : List (ℕ × Bool) := []
  modules : List (ℕ × Bool) := []
  log : List Entry := []

namespace State

variable (s : State)

def note (entry : Entry) : State := { s with log := s.log ++ [entry] }

/-- Neither a source nor text: not started yet, and may be later. -/
def empty (id : ℕ) : Bool := (s.scripts id).src.isNone && !(s.scripts id).text

def prepareDynamicScript (batch : Option ℕ) (id : ℕ) : State :=
  if id ∉ s.pendingScripts then s
  else if s.empty id then s
  else
    let script := s.scripts id
    let next := { s with pendingScripts := s.pendingScripts.erase id }
    let started inOrder := next.note (.started id batch (decide (id ∈ s.document)) inOrder)
    let external := script.src.isSome
    match script.type with
    | none => next
    | some kind =>
      if script.src = some false then started none
      else
        match kind with
        | .module =>
          let inOrder := external && !script.async
          { started (if inOrder then some .module else none) with
            modules := s.modules ++ [(id,inOrder)] }
        | .classic =>
          if !external then { started none with stack := .code :: s.stack }
          else if !script.async then
            { started (some .classic) with
              orderedDynamic := s.orderedDynamic ++ [(id,.pending)]
              fetches := s.fetches ++ [(id,true)] }
          else { started none with fetches := s.fetches ++ [(id,false)] }

def before (a b : ℕ) : Prop := s.document.idxOf a ≤ s.document.idxOf b

instance : DecidableRel s.before := fun _ _ => Nat.decLe _ _

def connectedPending : List ℕ :=
  (s.pendingScripts.filter fun id => id ∈ s.document).insertionSort s.before

def checkPendingScripts : State :=
  let connected := s.connectedPending
  if connected = [] then s
  else
    { s.note (.collected s.batches s.document) with
      batches := s.batches + 1
      stack := .batch s.batches connected :: s.stack }

def scriptChildrenChanged (id : ℕ) : State :=
  if id ∈ s.pendingScripts ∧ id ∈ s.document then s.prepareDynamicScript none id else s

end State

inductive Action where
  | enter
  | leave
  | create (script : Option Element)
  /-- The nodes inserted, in tree order, and how many connected nodes are in front of them; none
  where the parent is not connected. -/
  | insert (nodes : List ℕ) (place : Option ℕ)
  | remove (nodes : List ℕ)
  | change (id : ℕ) (script : Element) (hook : Bool)
  | turn
  | arrive (id : ℕ) (ok : Bool)
  | pump
  | evaluate (id : ℕ)
  deriving DecidableEq

def insertAt (document nodes : List ℕ) : Option ℕ → List ℕ
  | none => document.filter fun x => x ∉ nodes
  | some place =>
    let rest := document.filter fun x => x ∉ nodes
    rest.take place ++ nodes ++ rest.drop place

def step (s : State) : Action → Option State
  | .enter => if s.stack = [] then some { s with stack := [.code] } else none
  | .leave =>
    match s.stack with
    | .code :: below => some { s with stack := below }
    | _ => none
  | .create script =>
    match s.stack with
    | .code :: _ =>
      match script with
      | none => some { s with created := s.created + 1 }
      | some script =>
        some { s with
          created := s.created + 1
          scripts := fun id => if id = s.created then script else s.scripts id
          pendingScripts := s.pendingScripts ++ [s.created] }
    | _ => none
  | .insert nodes place =>
    match s.stack with
    | .code :: _ =>
      if nodes.Nodup ∧ ∀ x ∈ nodes, x < s.created then
        some { s with document := insertAt s.document nodes place }.checkPendingScripts
      else none
    | _ => none
  | .remove nodes =>
    match s.stack with
    | .code :: _ => some { s with document := s.document.filter fun x => x ∉ nodes }
    | _ => none
  | .change id script hook =>
    match s.stack with
    | .code :: _ =>
      let next := { s with scripts := fun other => if other = id then script else s.scripts other }
      some (if hook then next.scriptChildrenChanged id else next)
    | _ => none
  | .turn =>
    match s.stack with
    | .batch _ [] :: below => some { s with stack := below }
    | .batch n (id :: rest) :: below =>
      some ({ s with stack := .batch n rest :: below }.prepareDynamicScript (some n) id)
    | _ => none
  | .arrive id ok =>
    if s.stack = [] then
      match s.fetches.find? fun fetch => fetch.1 == id with
      | none => none
      | some (_,true) =>
        some { s with
          fetches := s.fetches.erase (id,true)
          orderedDynamic := s.orderedDynamic.map fun rec =>
            if rec.1 = id then (id,if ok then .ready else .error) else rec
          stack := [.ordered] }
      | some (_,false) =>
        some { s.note (.ran id false) with fetches := s.fetches.erase (id,false), stack := [.code] }
    else none
  | .pump =>
    match s.stack with
    | .ordered :: below =>
      match s.orderedDynamic with
      | (id,state) :: later =>
        if state = .pending then some { s with stack := below }
        else
          some { s.note (.ran id true) with
            orderedDynamic := later
            stack := .code :: .ordered :: below }
      | [] => some { s with stack := below }
    | _ => none
  | .evaluate id =>
    match s.modules.find? fun m => m.1 == id with
    | none => none
    | some (_,inOrder) =>
      some { s.note (.ran id inOrder) with
        modules := s.modules.erase (id,inOrder)
        stack := .code :: s.stack }

section laws

def startOf : Entry → Option (ℕ × Option ℕ)
  | .started id batch _ _ => some (id,batch)
  | _ => none

def starts (log : List Entry) : List (ℕ × Option ℕ) := log.filterMap startOf

def dueOf : Entry → Option (ℕ × Kind)
  | .started id _ _ (some kind) => some (id,kind)
  | _ => none

def due (log : List Entry) : List (ℕ × Kind) := log.filterMap dueOf

def ranOf : Entry → Option ℕ
  | .ran id true => some id
  | _ => none

def ran (log : List Entry) : List ℕ := log.filterMap ranOf

def startsIn (n : ℕ) (log : List Entry) : List ℕ :=
  ((starts log).filter fun start => start.2 = some n).map Prod.fst

structure Right (s : State) : Prop where
  once : ((starts s.log).map Prod.fst).Nodup
  connected : ∀ id batch connected inOrder,
    Entry.started id batch connected inOrder ∈ s.log → connected = true
  treeOrder : ∀ n document, Entry.collected n document ∈ s.log → (startsIn n s.log).Sublist document
  inOrder : ran s.log <+: (due s.log).map Prod.fst

def next (s : State) : Option (ℕ × Kind) := ((due s.log).drop (ran s.log).length).head?

def Waits (s : State) (id : ℕ) : Prop :=
  id ∈ s.pendingScripts ∧ s.empty id = false ∧ (s.scripts id).type.isSome

/-- A script whose turn in a batch comes is still connected, and no module is passed over by one
that runs before its turn or runs before its turn itself. -/
def InTurn (s : State) : Action → Prop
  | .turn => ∀ n id rest below, s.stack = .batch n (id :: rest) :: below →
      Waits s id → id ∈ s.document
  | .pump => ∀ below id state later, s.stack = .ordered :: below →
      s.orderedDynamic = (id,state) :: later → state ≠ .pending → ∀ x, next s ≠ some (x,.module)
  | .evaluate id => (s.modules.find? fun m => m.1 == id) = some (id,true) →
      (next s).map Prod.fst = some id
  | _ => True

end laws

section logs

variable (log : List Entry) (entry : Entry)

@[simp] theorem starts_append : starts (log ++ [entry]) = starts log ++ (startOf entry).toList := by
  rw [starts,List.filterMap_append,starts]
  cases entry <;> rfl

@[simp] theorem due_append : due (log ++ [entry]) = due log ++ (dueOf entry).toList := by
  rw [due,List.filterMap_append,due]
  cases entry with
  | started id batch connected inOrder => cases inOrder <;> rfl
  | _ => rfl

@[simp] theorem ran_append : ran (log ++ [entry]) = ran log ++ (ranOf entry).toList := by
  rw [ran,List.filterMap_append,ran]
  cases entry with
  | ran id inOrder => cases inOrder <;> rfl
  | _ => rfl

theorem startsIn_append (n : ℕ) : startsIn n (log ++ [entry]) =
      startsIn n log ++ (((startOf entry).toList.filter fun start => start.2 = some n).map Prod.fst) := by
  rw [startsIn,starts_append,List.filter_append,List.map_append,startsIn]

theorem due_sublist : ((due log).map Prod.fst).Sublist ((starts log).map Prod.fst) := by
  induction log with
  | nil => exact List.Sublist.refl _
  | cons entry log ih =>
    rw [due,starts,List.filterMap_cons,List.filterMap_cons]
    cases entry with
    | started id batch connected inOrder =>
      cases inOrder with
      | none => exact ih.cons id
      | some kind => exact ih.cons_cons id
    | collected n document => exact ih
    | ran id inOrder => exact ih

end logs

section invariant

def remaining (n : ℕ) (stack : List Frame) : List ℕ :=
  stack.flatMap fun
    | .batch m rest => if m = n then rest else []
    | _ => []

theorem remaining_batch (n m : ℕ) (rest : List ℕ) (below : List Frame) :
    remaining n (.batch m rest :: below) = (if m = n then rest else []) ++ remaining n below := rfl

structure Valid (s : State) : Prop where
  nodup : s.pendingScripts.Nodup
  created : ∀ id ∈ s.pendingScripts, id < s.created
  started : ∀ id ∈ (starts s.log).map Prod.fst, id < s.created ∧ id ∉ s.pendingScripts
  once : ((starts s.log).map Prod.fst).Nodup
  collected : ∀ n document, Entry.collected n document ∈ s.log → n < s.batches
  counted : ∀ start ∈ starts s.log, ∀ n, start.2 = some n → n < s.batches
  frames : ∀ n rest, Frame.batch n rest ∈ s.stack → n < s.batches
  treeOrder : ∀ n document, Entry.collected n document ∈ s.log →
    (startsIn n s.log ++ remaining n s.stack).Sublist document
  queue : s.orderedDynamic.map Prod.fst =
    ((due s.log).filter fun x => x.2 = .classic ∧ x.1 ∉ ran s.log).map Prod.fst
  modules : ∀ id, (id,true) ∈ s.modules → (id,Kind.module) ∈ due s.log
  ran : ∀ id ∈ ran s.log, id ∈ (starts s.log).map Prod.fst

variable {s t : State}

structure Silent (old new : List Entry) : Prop where
  starts : starts new = starts old
  due : due new = due old
  ran : ran new = ran old
  collected : ∀ n document, Entry.collected n document ∈ new → Entry.collected n document ∈ old
  started : ∀ id batch connected inOrder, Entry.started id batch connected inOrder ∈ new →
    Entry.started id batch connected inOrder ∈ old

theorem silent_refl (log : List Entry) : Silent log log :=
  ⟨rfl,rfl,rfl,fun _ _ => id,fun _ _ _ _ => id⟩

theorem silent_ran (log : List Entry) (id : ℕ) : Silent log (log ++ [.ran id false]) := by
  constructor
  · rw [starts_append]
    exact List.append_nil _
  · rw [due_append]
    exact List.append_nil _
  · rw [ran_append]
    exact List.append_nil _
  · intro n document there
    simpa using there
  · intro id batch connected inOrder there
    simpa using there

theorem valid_of_silent (valid : Valid s) (log : Silent s.log t.log) (created : t.created = s.created)
    (pending : t.pendingScripts.Sublist s.pendingScripts) (batches : t.batches = s.batches)
    (stack : ∀ n, (remaining n t.stack).Sublist (remaining n s.stack))
    (frames : ∀ n rest, Frame.batch n rest ∈ t.stack → ∃ rest', Frame.batch n rest' ∈ s.stack)
    (queue : t.orderedDynamic.map Prod.fst = s.orderedDynamic.map Prod.fst)
    (modules : t.modules ⊆ s.modules) : Valid t where
  nodup := valid.nodup.sublist pending
  created id there := created ▸ valid.created id (pending.subset there)
  started id there := by
    rw [log.starts] at there
    obtain ⟨below,away⟩ := valid.started id there
    exact ⟨created ▸ below,fun again => away (pending.subset again)⟩
  once := log.starts ▸ valid.once
  collected n document there := batches ▸ valid.collected n document (log.collected n document there)
  counted start there n same := by
    rw [log.starts] at there
    exact batches ▸ valid.counted start there n same
  frames n rest there := by
    obtain ⟨rest',there'⟩ := frames n rest there
    exact batches ▸ valid.frames n rest' there'
  treeOrder n document there := by
    rw [startsIn,log.starts,← startsIn]
    exact ((stack n).append_left _).trans
      (valid.treeOrder n document (log.collected n document there))
  queue := by rw [queue,log.due,log.ran,valid.queue]
  modules id there := log.due ▸ valid.modules id (modules there)
  ran id there := by
    rw [log.ran] at there
    exact log.starts ▸ valid.ran id there

theorem right_of_silent (right : Right s) (log : Silent s.log t.log) : Right t where
  once := log.starts ▸ right.once
  connected id batch connected inOrder there :=
    right.connected id batch connected inOrder (log.started id batch connected inOrder there)
  treeOrder n document there := by
    rw [startsIn,log.starts,← startsIn]
    exact right.treeOrder n document (log.collected n document there)
  inOrder := by
    rw [log.ran,log.due]
    exact right.inOrder

theorem right_iff (valid : Valid s) : Right s ↔ (∀ id batch connected inOrder,
        Entry.started id batch connected inOrder ∈ s.log → connected = true) ∧
      ran s.log <+: (due s.log).map Prod.fst := by
  constructor
  · rintro ⟨-,connected,-,inOrder⟩
    exact ⟨connected,inOrder⟩
  · rintro ⟨connected,inOrder⟩
    refine ⟨valid.once,connected,?_,inOrder⟩
    intro n document there
    exact (List.sublist_append_left ..).trans (valid.treeOrder n document there)

structure Started (s : State) (batch : Option ℕ) (id : ℕ) (inOrder : Option Kind) (t : State) :
    Prop where
  waits : Waits s id
  log : t.log = s.log ++ [.started id batch (decide (id ∈ s.document)) inOrder]
  pending : t.pendingScripts = s.pendingScripts.erase id
  created : t.created = s.created
  batches : t.batches = s.batches
  stack : t.stack = s.stack ∨ t.stack = .code :: s.stack
  queue : t.orderedDynamic =
    s.orderedDynamic ++ if inOrder = some .classic then [(id,.pending)] else []
  modules : ∀ other, (other,true) ∈ t.modules →
    (other,true) ∈ s.modules ∨ other = id ∧ inOrder = some .module

theorem prepare_cases (s : State) (batch : Option ℕ) (id : ℕ) :
    (¬ Waits s id ∧ (s.prepareDynamicScript batch id = s ∨
        s.prepareDynamicScript batch id = { s with pendingScripts := s.pendingScripts.erase id })) ∨
      ∃ inOrder, Started s batch id inOrder (s.prepareDynamicScript batch id) := by
  unfold State.prepareDynamicScript
  split
  next absent => exact .inl ⟨fun waits => absent waits.1,.inl rfl⟩
  next pending =>
    rw [not_not] at pending
    split
    next empty => exact .inl ⟨fun waits => by simp [waits.2.1] at empty,.inl rfl⟩
    next filled =>
      dsimp only
      cases type : (s.scripts id).type with
      | none => exact .inl ⟨fun waits => by simp [Waits,type] at waits,.inr rfl⟩
      | some kind =>
        have waits : Waits s id := ⟨pending,by simpa using filled,by simp [type]⟩
        right
        dsimp only
        split
        next => exact ⟨none,waits,rfl,rfl,rfl,rfl,.inl rfl,(List.append_nil _).symm,fun _ => .inl⟩
        next =>
          cases kind with
          | module =>
            dsimp only
            refine ⟨_,waits,rfl,rfl,rfl,rfl,.inl rfl,?_,?_⟩
            · split <;> simp [State.note]
            · intro other there
              rcases List.mem_append.mp there with earlier | last
              · exact .inl earlier
              · simp only [List.mem_singleton,Prod.mk.injEq] at last
                exact .inr ⟨last.1,if_pos last.2.symm⟩
          | classic =>
            dsimp only
            split
            · exact ⟨none,waits,rfl,rfl,rfl,rfl,.inr rfl,(List.append_nil _).symm,fun _ => .inl⟩
            split
            · exact ⟨some .classic,waits,rfl,rfl,rfl,rfl,.inl rfl,rfl,fun _ => .inl⟩
            · exact ⟨none,waits,rfl,rfl,rfl,rfl,.inl rfl,(List.append_nil _).symm,fun _ => .inl⟩

theorem valid_started {batch : Option ℕ} {id : ℕ} {inOrder : Option Kind} (valid : Valid s)
    (started : Started s batch id inOrder t) (known : ∀ n, batch = some n → n < s.batches)
    (treeOrder : ∀ n document, Entry.collected n document ∈ s.log →
      (startsIn n s.log ++ (if batch = some n then [id] else []) ++
        remaining n s.stack).Sublist document) : Valid t := by
  have fresh : id ∉ (starts s.log).map Prod.fst :=
    fun there => (valid.started id there).2 started.waits.1
  have ids : (starts t.log).map Prod.fst = (starts s.log).map Prod.fst ++ [id] := by
    rw [started.log,starts_append,List.map_append]
    rfl
  have still : ∀ n, remaining n t.stack = remaining n s.stack := by
    intro n
    rcases started.stack with same | code
    · rw [same]
    · rw [code]
      rfl
  constructor
  case nodup =>
    rw [started.pending]
    exact valid.nodup.erase id
  case created =>
    intro other there
    rw [started.pending] at there
    rw [started.created]
    exact valid.created other (List.mem_of_mem_erase there)
  case started =>
    intro other there
    rw [ids,List.mem_append] at there
    rw [started.created,started.pending]
    rcases there with earlier | last
    · obtain ⟨below,away⟩ := valid.started other earlier
      exact ⟨below,fun again => away (List.mem_of_mem_erase again)⟩
    · obtain rfl := List.mem_singleton.mp last
      exact ⟨valid.created other started.waits.1,valid.nodup.not_mem_erase⟩
  case once =>
    rw [ids]
    exact valid.once.append (List.nodup_singleton id)
      (List.disjoint_singleton.mpr fresh)
  case collected =>
    intro n document there
    rw [started.log,List.mem_append] at there
    rw [started.batches]
    rcases there with earlier | last
    · exact valid.collected n document earlier
    · cases List.mem_singleton.mp last
  case counted =>
    intro start there n same
    rw [started.log,starts_append,List.mem_append] at there
    rw [started.batches]
    rcases there with earlier | last
    · exact valid.counted start earlier n same
    · obtain rfl := List.mem_singleton.mp last
      exact known n same
  case frames =>
    intro n rest there
    rw [started.batches]
    rcases started.stack with same | code
    · exact valid.frames n rest (same ▸ there)
    · rw [code] at there
      rcases List.mem_cons.mp there with code' | below
      · cases code'
      · exact valid.frames n rest below
  case treeOrder =>
    intro n document there
    rw [started.log,List.mem_append] at there
    rcases there with earlier | last
    · have ordered := treeOrder n document earlier
      rw [started.log,startsIn_append,still]
      have part : ((startOf (.started id batch (decide (id ∈ s.document)) inOrder)).toList.filter
          fun start => start.2 = some n).map Prod.fst = if batch = some n then [id] else [] := by
        by_cases same : batch = some n <;> simp [startOf,same]
      rw [part]
      exact ordered
    · cases List.mem_singleton.mp last
  case queue =>
    have away : id ∉ ran s.log := fun there => fresh (valid.ran id there)
    have same : ran t.log = ran s.log := by
      rw [started.log,ran_append]
      exact List.append_nil _
    rw [started.queue,List.map_append,valid.queue,same,started.log,due_append,List.filter_append,
      List.map_append]
    congr 1
    cases inOrder with
    | none => rfl
    | some kind => cases kind <;> simp [dueOf,away]
  case ran =>
    intro other there
    rw [started.log,ran_append] at there
    rw [ids]
    exact List.mem_append_left _ (valid.ran other (by simpa [ranOf] using there))
  case modules =>
    intro other there
    rw [started.log,due_append,List.mem_append]
    rcases started.modules other there with earlier | ⟨same,module⟩
    · exact .inl (valid.modules other earlier)
    · rw [same,module]
      exact .inr (List.mem_singleton_self _)

theorem right_started {batch : Option ℕ} {id : ℕ} {inOrder : Option Kind} (validT : Valid t)
    (right : Right s) (started : Started s batch id inOrder t) : Right t ↔ id ∈ s.document := by
  rw [right_iff validT]
  constructor
  · rintro ⟨connected,-⟩
    have here := connected id batch (decide (id ∈ s.document)) inOrder (by
      rw [started.log]
      simp)
    simpa using here
  · intro inside
    constructor
    · intro other batch' connected inOrder' there
      rw [started.log,List.mem_append] at there
      rcases there with earlier | last
      · exact right.connected other batch' connected inOrder' earlier
      · cases List.mem_singleton.mp last
        simpa using inside
    · have same : ran t.log = ran s.log := by
        rw [started.log,ran_append]
        exact List.append_nil _
      rw [same,started.log,due_append,List.map_append]
      exact right.inOrder.trans (List.prefix_append ..)

theorem sublist_of_sorted {l document : List ℕ} (nodup : l.Nodup) (inside : ∀ x ∈ l, x ∈ document)
    (sorted : l.Pairwise fun a b => document.idxOf a ≤ document.idxOf b) : l.Sublist document := by
  induction document generalizing l with
  | nil =>
    cases l with
    | nil => exact List.Sublist.refl _
    | cons x l => cases inside x List.mem_cons_self
  | cons d document ih =>
    -- behind the first place every index is one more
    have shifted : ∀ l : List ℕ, l.Nodup → (∀ x ∈ l, x ∈ d :: document) → d ∉ l →
        (l.Pairwise fun a b => (d :: document).idxOf a ≤ (d :: document).idxOf b) →
        l.Sublist document := by
      intro l nodup inside away sorted
      have index : ∀ x ∈ l, (d :: document).idxOf x = document.idxOf x + 1 := by
        intro x there
        apply List.idxOf_cons_ne
        rintro rfl
        exact away there
      apply ih nodup
      · intro x there
        exact (List.mem_cons.mp (inside x there)).resolve_left fun same => away (same ▸ there)
      · refine sorted.imp_of_mem ?_
        intro a b thereA thereB le
        rw [index a thereA,index b thereB] at le
        omega
    by_cases first : d ∈ l
    · cases l with
      | nil => cases first
      | cons x l =>
        have same : x = d := by
          by_contra other
          have later : d ∈ l := (List.mem_cons.mp first).resolve_left (Ne.symm other)
          have le := (List.pairwise_cons.mp sorted).1 d later
          rw [List.idxOf_cons_self,List.idxOf_cons_ne _ (Ne.symm other)] at le
          omega
        subst same
        obtain ⟨away,nodup'⟩ := List.nodup_cons.mp nodup
        exact (shifted l nodup' (fun y there => inside y (List.mem_cons_of_mem x there)) away
          (List.pairwise_cons.mp sorted).2).cons_cons x
    · exact (shifted l nodup inside first sorted).cons d

theorem connectedPending_sublist (valid : Valid s) : s.connectedPending.Sublist s.document := by
  have perm := List.perm_insertionSort s.before (s.pendingScripts.filter fun id => id ∈ s.document)
  have total : Std.Total s.before := ⟨fun a b => Nat.le_total _ _⟩
  have transitive : IsTrans ℕ s.before := ⟨fun a b c => Nat.le_trans⟩
  apply sublist_of_sorted
  · exact perm.nodup_iff.mpr (valid.nodup.filter _)
  · intro x there
    simpa using (List.mem_filter.mp (perm.mem_iff.mp there)).2
  · exact List.pairwise_insertionSort s.before _

theorem valid_check (valid : Valid s) : Valid s.checkPendingScripts := by
  unfold State.checkPendingScripts
  dsimp only
  split
  next => exact valid
  next some_ =>
    have none_ : startsIn s.batches s.log = [] := by
      apply List.map_eq_nil_iff.mpr
      apply List.filter_eq_nil_iff.mpr
      intro start there same
      exact absurd (valid.counted start there s.batches (by simpa using same)) (Nat.lt_irrefl _)
    have alone : remaining s.batches s.stack = [] := by
      apply List.flatMap_eq_nil_iff.mpr
      intro frame there
      cases frame with
      | code => rfl
      | ordered => rfl
      | batch n rest =>
        have other : n ≠ s.batches := (valid.frames n rest there).ne
        exact if_neg other
    have started : starts (s.log ++ [.collected s.batches s.document]) = starts s.log := by
      rw [starts_append]
      exact List.append_nil _
    have dues : due (s.log ++ [.collected s.batches s.document]) = due s.log := by
      rw [due_append]
      exact List.append_nil _
    have rans : ran (s.log ++ [.collected s.batches s.document]) = ran s.log := by
      rw [ran_append]
      exact List.append_nil _
    constructor
    case nodup => exact valid.nodup
    case created => exact valid.created
    case started =>
      intro id there
      rw [State.note,started] at there
      exact valid.started id there
    case once =>
      rw [State.note,started]
      exact valid.once
    case collected =>
      intro n document there
      rcases List.mem_append.mp there with earlier | last
      · exact Nat.lt_succ_of_lt (valid.collected n document earlier)
      · cases List.mem_singleton.mp last
        exact Nat.lt_succ_self _
    case counted =>
      intro start there n same
      rw [State.note,started] at there
      exact Nat.lt_succ_of_lt (valid.counted start there n same)
    case frames =>
      intro n rest there
      rcases List.mem_cons.mp there with new | below
      · cases new
        exact Nat.lt_succ_self _
      · exact Nat.lt_succ_of_lt (valid.frames n rest below)
    case treeOrder =>
      intro n document there
      rw [startsIn,State.note,started,← startsIn,remaining_batch]
      rcases List.mem_append.mp there with earlier | last
      · have other : s.batches ≠ n := (valid.collected n document earlier).ne'
        rw [if_neg other]
        exact valid.treeOrder n document earlier
      · cases List.mem_singleton.mp last
        rw [if_pos rfl,none_,alone,List.append_nil]
        exact connectedPending_sublist valid
    case queue =>
      rw [State.note,dues,rans]
      exact valid.queue
    case modules =>
      intro id there
      rw [State.note,dues]
      exact valid.modules id there
    case ran =>
      intro id there
      rw [State.note,rans] at there
      rw [State.note,started]
      exact valid.ran id there

theorem right_check (right : Right s) (valid : Valid s) : Right s.checkPendingScripts := by
  rw [right_iff (valid_check valid)]
  unfold State.checkPendingScripts
  dsimp only
  split
  next => exact ⟨right.connected,right.inOrder⟩
  next some_ =>
    constructor
    · intro id batch connected inOrder there
      rcases List.mem_append.mp there with earlier | last
      · exact right.connected id batch connected inOrder earlier
      · cases List.mem_singleton.mp last
    · rw [State.note,ran_append,due_append]
      simpa [ranOf,dueOf] using right.inOrder

theorem take_ran (right : Right s) : ((due s.log).take (ran s.log).length).map Prod.fst = ran s.log := by
  rw [List.map_take]
  exact (List.prefix_iff_eq_take.mp right.inOrder).symm

theorem due_nodup (valid : Valid s) : ((due s.log).map Prod.fst).Nodup :=
  valid.once.sublist (due_sublist s.log)

theorem due_kind (valid : Valid s) {id : ℕ} {a b : Kind} (first : (id,a) ∈ due s.log)
    (second : (id,b) ∈ due s.log) : a = b := by
  have same := List.inj_on_of_nodup_map (due_nodup valid) first second rfl
  exact (Prod.mk.inj same).2

theorem queue_mem (valid : Valid s) {id : ℕ} (there : id ∈ s.orderedDynamic.map Prod.fst) :
    (id,Kind.classic) ∈ due s.log ∧ id ∉ ran s.log := by
  rw [valid.queue] at there
  obtain ⟨⟨id',kind⟩,inside,rfl⟩ := List.mem_map.mp there
  obtain ⟨inside,both⟩ := List.mem_filter.mp inside
  obtain ⟨rfl,away⟩ := of_decide_eq_true both
  exact ⟨inside,away⟩

theorem queue_nodup (valid : Valid s) : (s.orderedDynamic.map Prod.fst).Nodup := by
  rw [valid.queue]
  exact (due_nodup valid).sublist (List.filter_sublist.map Prod.fst)

theorem valid_ran (valid : Valid s) {id : ℕ} (log : t.log = s.log ++ [.ran id true])
    (was : id ∈ (due s.log).map Prod.fst) (created : t.created = s.created)
    (pending : t.pendingScripts = s.pendingScripts) (batches : t.batches = s.batches)
    (stack : ∀ n, (remaining n t.stack).Sublist (remaining n s.stack))
    (frames : ∀ n rest, Frame.batch n rest ∈ t.stack → ∃ rest', Frame.batch n rest' ∈ s.stack)
    (queue : t.orderedDynamic.map Prod.fst = (s.orderedDynamic.map Prod.fst).filter fun x => x ≠ id)
    (modules : t.modules ⊆ s.modules) : Valid t := by
  have started : starts t.log = starts s.log := by
    rw [log,starts_append]
    exact List.append_nil _
  have dues : due t.log = due s.log := by
    rw [log,due_append]
    exact List.append_nil _
  have rans : ran t.log = ran s.log ++ [id] := by
    rw [log,ran_append]
    rfl
  constructor
  case nodup => exact pending ▸ valid.nodup
  case created =>
    rw [pending,created]
    exact valid.created
  case started =>
    rw [started,created,pending]
    exact valid.started
  case once => exact started ▸ valid.once
  case collected =>
    intro n document there
    rw [log,List.mem_append] at there
    rw [batches]
    rcases there with earlier | last
    · exact valid.collected n document earlier
    · cases List.mem_singleton.mp last
  case counted =>
    rw [started,batches]
    exact valid.counted
  case frames =>
    intro n rest there
    obtain ⟨rest',there'⟩ := frames n rest there
    exact batches ▸ valid.frames n rest' there'
  case treeOrder =>
    intro n document there
    rw [log,List.mem_append] at there
    rw [startsIn,started,← startsIn]
    rcases there with earlier | last
    · exact ((stack n).append_left _).trans (valid.treeOrder n document earlier)
    · cases List.mem_singleton.mp last
  case queue =>
    rw [queue,valid.queue,List.filter_map,List.filter_filter,dues,rans]
    congr 1
    apply List.filter_congr
    intro x there
    simp [and_comm,Bool.and_left_comm]
  case modules =>
    intro other there
    rw [dues]
    exact valid.modules other (modules there)
  case ran =>
    intro other there
    rw [rans,List.mem_append] at there
    rw [started]
    rcases there with earlier | last
    · exact valid.ran other earlier
    · obtain rfl := List.mem_singleton.mp last
      exact (due_sublist s.log).subset was

theorem prefix_ran (right : Right s) (id : ℕ) :
    ran s.log ++ [id] <+: (due s.log).map Prod.fst ↔ (next s).map Prod.fst = some id := by
  obtain ⟨later,whole⟩ := right.inOrder
  have rest : ((due s.log).drop (ran s.log).length).map Prod.fst = later := by
    rw [List.map_drop,← whole,List.drop_left]
  rw [next,← List.head?_map,rest,← whole,List.prefix_append_right_inj]
  cases later with
  | nil => simp
  | cons x later => simp [List.cons_prefix_cons,eq_comm]

theorem next_classic (valid : Valid s) (right : Right s) {id : ℕ} {state : FetchState}
    {later : List (ℕ × FetchState)} (queue : s.orderedDynamic = (id,state) :: later) :
    (next s).map Prod.fst = some id ↔ ∀ x, next s ≠ some (x,.module) := by
  have there : (id,Kind.classic) ∈ due s.log ∧ id ∉ ran s.log := by
    apply queue_mem valid
    rw [queue]
    exact List.mem_cons_self
  have split := List.take_append_drop (ran s.log).length (due s.log)
  have early : ((due s.log).take (ran s.log).length).filter
      (fun x => x.2 = .classic ∧ x.1 ∉ ran s.log) = [] := by
    apply List.filter_eq_nil_iff.mpr
    intro x taken both
    have away := (of_decide_eq_true both).2
    apply away
    rw [← take_ran right]
    exact List.mem_map_of_mem taken
  have ids := valid.queue
  rw [← split,List.filter_append,early,List.nil_append,queue,List.map_cons] at ids
  constructor
  · intro first x module
    rw [module] at first
    obtain rfl := Option.some.inj first
    have inside : (x,Kind.module) ∈ due s.log :=
      (List.drop_sublist _ _).subset (List.mem_of_mem_head? module)
    cases due_kind valid there.1 inside
  · intro none_
    cases rest : (due s.log).drop (ran s.log).length with
    | nil =>
      rw [rest] at ids
      cases ids
    | cons u us =>
      have found : next s = some u := by
        rw [next,rest]
        rfl
      obtain ⟨y,kind⟩ := u
      have classic : kind = .classic := by
        cases kind with
        | classic => rfl
        | module => exact absurd found (none_ y)
      have nodup := due_nodup valid
      rw [← split,List.map_append,take_ran right,rest] at nodup
      have away : y ∉ ran s.log := fun again =>
        (List.nodup_append.mp nodup).2.2 y again y List.mem_cons_self rfl
      rw [rest,List.filter_cons_of_pos (by simp [classic,away]),List.map_cons] at ids
      rw [found]
      exact congrArg some (List.cons.inj ids).1.symm

theorem right_ran (validT : Valid t) (right : Right s) {id : ℕ}
    (log : t.log = s.log ++ [.ran id true]) : Right t ↔ (next s).map Prod.fst = some id := by
  have rans : ran t.log = ran s.log ++ [id] := by
    rw [log,ran_append]
    rfl
  have dues : due t.log = due s.log := by
    rw [log,due_append]
    exact List.append_nil _
  rw [right_iff validT,rans,dues,prefix_ran right id]
  apply and_iff_right
  intro other batch connected inOrder there
  rw [log,List.mem_append] at there
  rcases there with earlier | last
  · exact right.connected other batch connected inOrder earlier
  · cases List.mem_singleton.mp last

end invariant

section steps

variable {s t : State}

theorem valid_same (valid : Valid s) (log : t.log = s.log) (created : t.created = s.created)
    (pending : t.pendingScripts = s.pendingScripts) (batches : t.batches = s.batches)
    (stack : t.stack = s.stack) (queue : t.orderedDynamic = s.orderedDynamic)
    (modules : t.modules = s.modules) : Valid t :=
  valid_of_silent valid (log ▸ silent_refl _) created (pending ▸ List.Sublist.refl _) batches
    (fun _ => stack ▸ List.Sublist.refl _) (fun _ rest there => ⟨rest,stack ▸ there⟩)
    (queue ▸ rfl) (modules ▸ List.Subset.refl _)

theorem valid_drop (valid : Valid s) (id : ℕ) : Valid { s with pendingScripts := s.pendingScripts.erase id } :=
  valid_of_silent valid (silent_refl _) rfl List.erase_sublist rfl (fun _ => List.Sublist.refl _)
    (fun _ rest there => ⟨rest,there⟩) rfl (List.Subset.refl _)

theorem valid_pop (valid : Valid s) {frame : Frame} {below : List Frame}
    (top : s.stack = frame :: below) : Valid { s with stack := below } := by
  refine valid_of_silent valid (silent_refl _) rfl (List.Sublist.refl _) rfl ?_ ?_ rfl
    (List.Subset.refl _)
  · intro n
    rw [top]
    exact List.sublist_append_right ..
  · intro n rest there
    exact ⟨rest,top ▸ List.mem_cons_of_mem _ there⟩

theorem valid_create (valid : Valid s) (script : Element) : Valid { s with
      created := s.created + 1
      scripts := fun id => if id = s.created then script else s.scripts id
      pendingScripts := s.pendingScripts ++ [s.created] } := by
  have fresh : s.created ∉ s.pendingScripts := fun there => Nat.lt_irrefl _ (valid.created _ there)
  constructor
  case nodup => exact valid.nodup.append (List.nodup_singleton _) (List.disjoint_singleton.mpr fresh)
  case created =>
    intro id there
    rcases List.mem_append.mp there with earlier | last
    · exact Nat.lt_succ_of_lt (valid.created id earlier)
    · obtain rfl := List.mem_singleton.mp last
      exact Nat.lt_succ_self _
  case started =>
    intro id there
    obtain ⟨below,away⟩ := valid.started id there
    refine ⟨Nat.lt_succ_of_lt below,?_⟩
    rw [List.mem_append,not_or,List.mem_singleton]
    exact ⟨away,below.ne⟩
  case once => exact valid.once
  case collected => exact valid.collected
  case counted => exact valid.counted
  case frames => exact valid.frames
  case treeOrder => exact valid.treeOrder
  case queue => exact valid.queue
  case modules => exact valid.modules
  case ran => exact valid.ran

theorem valid_grow (valid : Valid s) : Valid { s with created := s.created + 1 } where
  nodup := valid.nodup
  created id there := Nat.lt_succ_of_lt (valid.created id there)
  started id there := ⟨Nat.lt_succ_of_lt (valid.started id there).1,(valid.started id there).2⟩
  once := valid.once
  collected := valid.collected
  counted := valid.counted
  frames := valid.frames
  treeOrder := valid.treeOrder
  queue := valid.queue
  modules := valid.modules
  ran := valid.ran

theorem kept_turn (valid : Valid s) (right : Right s) {n id : ℕ} {rest : List ℕ} {below : List Frame}
    (top : s.stack = .batch n (id :: rest) :: below) :
    Valid ({ s with stack := .batch n rest :: below }.prepareDynamicScript (some n) id) ∧
      (Right ({ s with stack := .batch n rest :: below }.prepareDynamicScript (some n) id) ↔
        (Waits s id → id ∈ s.document)) := by
  have validS : Valid { s with stack := .batch n rest :: below } := by
    refine valid_of_silent valid (silent_refl _) rfl (List.Sublist.refl _) rfl ?_ ?_ rfl
      (List.Subset.refl _)
    · intro m
      rw [top,remaining_batch,remaining_batch]
      refine List.Sublist.append_right ?_ _
      split
      · exact List.sublist_cons_self id rest
      · exact List.Sublist.refl _
    · intro m rest' there
      rw [top]
      rcases List.mem_cons.mp there with first | later
      · cases first
        exact ⟨id :: rest,List.mem_cons_self⟩
      · exact ⟨rest',List.mem_cons_of_mem _ later⟩
  have rightS : Right { s with stack := .batch n rest :: below } :=
    right_of_silent right (silent_refl _)
  rcases prepare_cases { s with stack := .batch n rest :: below } (some n) id with
    ⟨idle,same | dropped⟩ | ⟨inOrder,started⟩
  · rw [same]
    exact ⟨validS,iff_of_true rightS fun waits => absurd waits idle⟩
  · rw [dropped]
    refine ⟨valid_drop validS id,iff_of_true (right_of_silent rightS (silent_refl _)) ?_⟩
    exact fun waits => absurd waits idle
  · have validT := valid_started validS started (by
      rintro m ⟨⟩
      exact valid.frames n (id :: rest) (top ▸ List.mem_cons_self)) (by
      intro m document there
      have ordered := valid.treeOrder m document there
      rw [top,remaining_batch] at ordered
      rw [remaining_batch]
      by_cases same : n = m
      · subst same
        simpa using ordered
      · simpa [same] using ordered)
    have waits : Waits s id := started.waits
    refine ⟨validT,(right_started validT rightS started).trans ?_⟩
    exact ⟨fun inside _ => inside,fun inside => inside waits⟩

theorem kept_hook (valid : Valid s) (right : Right s) (id : ℕ) :
    Valid (s.scriptChildrenChanged id) ∧ Right (s.scriptChildrenChanged id) := by
  unfold State.scriptChildrenChanged
  split
  next both =>
    rcases prepare_cases s none id with ⟨idle,same | dropped⟩ | ⟨inOrder,started⟩
    · rw [same]
      exact ⟨valid,right⟩
    · rw [dropped]
      exact ⟨valid_drop valid id,right_of_silent right (silent_refl _)⟩
    · have validT := valid_started valid started (by
        intro m none_
        cases none_) (by
        intro m document there
        simpa using valid.treeOrder m document there)
      exact ⟨validT,(right_started validT right started).mpr both.2⟩
  next => exact ⟨valid,right⟩

theorem kept_pump (valid : Valid s) (right : Right s) {below : List Frame} {id : ℕ}
    {state : FetchState} {later : List (ℕ × FetchState)} (top : s.stack = .ordered :: below)
    (queue : s.orderedDynamic = (id,state) :: later) : Valid { s.note (.ran id true) with
        orderedDynamic := later
        stack := .code :: .ordered :: below } ∧
      (Right { s.note (.ran id true) with
        orderedDynamic := later
        stack := .code :: .ordered :: below } ↔ ∀ x, next s ≠ some (x,.module)) := by
  have there : (id,Kind.classic) ∈ due s.log ∧ id ∉ ran s.log := by
    apply queue_mem valid
    rw [queue]
    exact List.mem_cons_self
  have nodup := queue_nodup valid
  rw [queue,List.map_cons,List.nodup_cons] at nodup
  have validT : Valid { s.note (.ran id true) with
      orderedDynamic := later
      stack := .code :: .ordered :: below } := by
    refine valid_ran valid rfl (List.mem_map_of_mem there.1) rfl rfl rfl ?_ ?_ ?_
      (List.Subset.refl _)
    · intro n
      rw [top]
      exact List.Sublist.refl _
    · intro n rest inside
      rw [top]
      rcases List.mem_cons.mp inside with code | deeper
      · cases code
      · exact ⟨rest,deeper⟩
    · rw [queue,List.map_cons,List.filter_cons_of_neg (by simp)]
      apply (List.filter_eq_self.mpr ?_).symm
      intro x inside
      have other : x ≠ id := fun same => nodup.1 (same ▸ inside)
      simpa using other
  exact ⟨validT,(right_ran validT right rfl).trans (next_classic valid right queue)⟩

theorem kept_evaluate (valid : Valid s) (right : Right s) {id id' : ℕ} {inOrder : Bool}
    (found : (s.modules.find? fun m => m.1 == id) = some (id',inOrder)) : Valid { s.note (.ran id inOrder) with
        modules := s.modules.erase (id,inOrder)
        stack := .code :: s.stack } ∧
      (Right { s.note (.ran id inOrder) with
        modules := s.modules.erase (id,inOrder)
        stack := .code :: s.stack } ↔
        (inOrder = true → (next s).map Prod.fst = some id)) := by
  obtain rfl : id' = id := by simpa using List.find?_some found
  have there := List.mem_of_find?_eq_some found
  have frames : ∀ n rest, Frame.batch n rest ∈ Frame.code :: s.stack →
      ∃ rest', Frame.batch n rest' ∈ s.stack := by
    intro n rest inside
    rcases List.mem_cons.mp inside with code | deeper
    · cases code
    · exact ⟨rest,deeper⟩
  cases inOrder with
  | false =>
    refine ⟨?_,iff_of_true (right_of_silent right (silent_ran s.log id')) fun on => by cases on⟩
    exact valid_of_silent valid (silent_ran s.log id') rfl (List.Sublist.refl _) rfl
      (fun _ => List.Sublist.refl _) frames rfl List.erase_subset
  | true =>
    have module := valid.modules id' there
    have validT : Valid { s.note (.ran id' true) with
        modules := s.modules.erase (id',true)
        stack := .code :: s.stack } := by
      refine valid_ran valid rfl (List.mem_map_of_mem module) rfl rfl rfl
        (fun _ => List.Sublist.refl _) frames ?_ List.erase_subset
      apply (List.filter_eq_self.mpr ?_).symm
      intro x inside
      have other : x ≠ id' := by
        rintro rfl
        cases due_kind valid module (queue_mem valid inside).1
      simpa using other
    refine ⟨validT,(right_ran validT right rfl).trans ?_⟩
    exact ⟨fun first _ => first,fun first => first rfl⟩

theorem kept_step (valid : Valid s) (right : Right s) {action : Action}
    (taken : step s action = some t) : Valid t ∧ (Right t ↔ InTurn s action) := by
  cases action with
  | enter =>
    simp only [step] at taken
    split at taken
    next empty =>
      obtain rfl := Option.some.inj taken
      refine ⟨?_,iff_of_true (right_of_silent right (silent_refl _)) trivial⟩
      refine valid_of_silent valid (silent_refl _) rfl (List.Sublist.refl _) rfl ?_ ?_ rfl
        (List.Subset.refl _)
      · intro n
        rw [empty]
        exact List.Sublist.refl _
      · intro n rest there
        cases List.mem_singleton.mp there
    next => cases taken
  | leave =>
    simp only [step] at taken
    split at taken
    next below top =>
      obtain rfl := Option.some.inj taken
      exact ⟨valid_pop valid top,iff_of_true (right_of_silent right (silent_refl _)) trivial⟩
    next => cases taken
  | create script =>
    simp only [step] at taken
    split at taken
    next =>
      cases script with
      | none =>
        obtain rfl := Option.some.inj taken
        exact ⟨valid_grow valid,iff_of_true (right_of_silent right (silent_refl _)) trivial⟩
      | some script =>
        obtain rfl := Option.some.inj taken
        exact ⟨valid_create valid script,iff_of_true (right_of_silent right (silent_refl _)) trivial⟩
    next => cases taken
  | insert nodes place =>
    simp only [step] at taken
    split at taken
    next =>
      split at taken
      next =>
        obtain rfl := Option.some.inj taken
        have moved : Valid { s with document := insertAt s.document nodes place } :=
          valid_same valid rfl rfl rfl rfl rfl rfl rfl
        have rightM : Right { s with document := insertAt s.document nodes place } :=
          right_of_silent right (silent_refl _)
        exact ⟨valid_check moved,iff_of_true (right_check rightM moved) trivial⟩
      next => cases taken
    next => cases taken
  | remove nodes =>
    simp only [step] at taken
    split at taken
    next =>
      obtain rfl := Option.some.inj taken
      exact ⟨valid_same valid rfl rfl rfl rfl rfl rfl rfl,
        iff_of_true (right_of_silent right (silent_refl _)) trivial⟩
    next => cases taken
  | change id script hook =>
    simp only [step] at taken
    split at taken
    next =>
      obtain rfl := Option.some.inj taken
      have changed : Valid { s with
          scripts := fun other => if other = id then script else s.scripts other } :=
        valid_same valid rfl rfl rfl rfl rfl rfl rfl
      have rightC : Right { s with
          scripts := fun other => if other = id then script else s.scripts other } :=
        right_of_silent right (silent_refl _)
      cases hook with
      | false => exact ⟨changed,iff_of_true rightC trivial⟩
      | true =>
        obtain ⟨validT,rightT⟩ := kept_hook changed rightC id
        exact ⟨validT,iff_of_true rightT trivial⟩
    next => cases taken
  | turn =>
    simp only [step] at taken
    split at taken
    next n below top =>
      obtain rfl := Option.some.inj taken
      refine ⟨valid_pop valid top,iff_of_true (right_of_silent right (silent_refl _)) ?_⟩
      intro m id rest below' top'
      rw [top] at top'
      cases top'
    next n id rest below top =>
      obtain rfl := Option.some.inj taken
      obtain ⟨validT,exactly⟩ := kept_turn valid right top
      refine ⟨validT,exactly.trans ?_⟩
      constructor
      · intro inside m id' rest' below' top' waits
        rw [top] at top'
        cases top'
        exact inside waits
      · exact fun inTurn => inTurn n id rest below top
    next => cases taken
  | arrive id ok =>
    simp only [step] at taken
    split at taken
    next empty =>
      split at taken
      next => cases taken
      next found =>
        obtain rfl := Option.some.inj taken
        refine ⟨?_,iff_of_true (right_of_silent right (silent_refl _)) trivial⟩
        refine valid_of_silent valid (silent_refl _) rfl (List.Sublist.refl _) rfl ?_ ?_ ?_
          (List.Subset.refl _)
        · intro n
          rw [empty]
          exact List.Sublist.refl _
        · intro n rest there
          cases List.mem_singleton.mp there
        · rw [List.map_map]
          apply List.map_congr_left
          intro rec there
          by_cases same : rec.1 = id <;> simp [same]
      next found =>
        obtain rfl := Option.some.inj taken
        refine ⟨?_,iff_of_true (right_of_silent right (silent_ran s.log id)) trivial⟩
        refine valid_of_silent valid (silent_ran s.log id) rfl (List.Sublist.refl _) rfl ?_ ?_ rfl
          (List.Subset.refl _)
        · intro n
          rw [empty]
          exact List.Sublist.refl _
        · intro n rest there
          cases List.mem_singleton.mp there
    next => cases taken
  | pump =>
    simp only [step] at taken
    split at taken
    next below top =>
      split at taken
      next id state later queue =>
        split at taken
        next pending =>
          obtain rfl := Option.some.inj taken
          refine ⟨valid_pop valid top,iff_of_true (right_of_silent right (silent_refl _)) ?_⟩
          intro below' id' state' later' top' queue' settled
          rw [queue] at queue'
          cases queue'
          exact absurd pending settled
        next settled =>
          obtain rfl := Option.some.inj taken
          obtain ⟨validT,exactly⟩ := kept_pump valid right top queue
          refine ⟨validT,exactly.trans ?_⟩
          constructor
          · intro none_ below' id' state' later' top' queue' settled' x
            exact none_ x
          · exact fun inTurn => inTurn below id state later top queue settled
      next queue =>
        obtain rfl := Option.some.inj taken
        refine ⟨valid_pop valid top,iff_of_true (right_of_silent right (silent_refl _)) ?_⟩
        intro below' id' state' later' top' queue'
        rw [queue] at queue'
        cases queue'
    next => cases taken
  | evaluate id =>
    simp only [step] at taken
    split at taken
    next => cases taken
    next id' inOrder found =>
      obtain rfl := Option.some.inj taken
      obtain ⟨validT,exactly⟩ := kept_evaluate valid right found
      refine ⟨validT,exactly.trans ?_⟩
      obtain rfl : id' = id := by simpa using List.find?_some found
      rw [InTurn,found]
      exact ⟨fun first same => first (Prod.mk.inj (Option.some.inj same)).2,
        fun first on => first (by rw [on])⟩

end steps

section runs

theorem valid_start : Valid {} := by
  constructor <;> simp [starts,due,ran,remaining]

theorem right_start : Right {} := by
  constructor <;> simp [starts,due,ran]

/-- Every script is started at most once, while it is connected and in tree order, and the ordered
ones run in the order in which they were started, in exactly the runs where each comes in its
turn. -/
theorem runs_iff (actions : List Action) :
    Runs.Always step Right {} actions ↔ Runs.Guarded step InTurn {} actions := by
  refine @Runs.always_iff_guarded_unrefused _ _ step InTurn Valid Right ?_ ?_ actions _
    valid_start right_start
  · intro s action t valid right taken
    exact kept_step valid right taken
  · intro s action refused
    cases action with
    | turn =>
      intro n id rest below top
      simp only [step,top] at refused
      cases refused
    | pump =>
      intro below id state later top queue settled
      simp only [step,top,queue,if_neg settled] at refused
      cases refused
    | evaluate id =>
      intro found
      simp only [step,found] at refused
      cases refused
    | _ => trivial

/-- A script that takes the next of its batch out of the document: it is started all the same. -/
theorem started_detached : ¬ Runs.Always step Right {}
    [.enter,.create (some ⟨some .classic,none,true,true⟩),.create (some ⟨some .classic,none,true,true⟩),
      .insert [0,1] (some 0),.turn,.remove [1],.leave,.turn] := by
  intro always
  have final := Runs.always_final _ always rfl
  have wrong := final.connected 1 (some 0) false none (by decide)
  cases wrong

end runs

end Sharko.Script.DynamicScripts
