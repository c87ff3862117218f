import Mathlib.Data.List.Count
import Mathlib.Data.List.Nodup
import Mathlib.Data.List.Perm.Basic
import Mathlib.Logic.Function.Basic
import Sharko.Library.Runs

/-! `navigator.locks`: the locks of each name that are held and the requests that wait for one. A
callback runs in a microtask of its own and may ask for further locks; its lock is let go in the
microtask that follows on the settling of what it returned. -/

namespace Sharko.Script.WebLocks

open Library

inductive Mode where
  | shared
  | exclusive
  deriving DecidableEq

structure Request where
  id : ℕ
  mode : Mode
  deriving DecidableEq

structure LockState where
  held : List Request := []
  queue : List Request := []

structure Call where
  name : String
  mode : Mode := .exclusive
  ifAvailable : Bool := false
  callable : Bool := true

inductive Task where
  | callback (name : String) (id : ℕ)
  | unavailable (id : ℕ)
  | release (name : String) (id : ℕ)
  deriving DecidableEq

inductive Entry where
  | requested (name : String) (id : ℕ)
  | granted (name : String) (id : ℕ)
  | called (name : String) (id : ℕ)
  deriving DecidableEq

structure Page where
  locks : String → LockState := fun _ => {}
  microtasks : List Task := []
  running : List (String × ℕ) := []
  nextId : ℕ := 0
  log : List Entry := []

def grantable (held : List Request) (mode : Mode) : Bool :=
  held.isEmpty || (mode = .shared && held.all fun h => h.mode = .shared)

/-- The loop of `processLocks`: the locks held, those that still wait and those just granted. -/
def grant : List Request → List Request → List Request × List Request × List Request
  | held,[] => (held,[],[])
  | held,req :: queue =>
    if grantable held req.mode then
      let (held,queue,granted) := grant (held ++ [req]) queue
      (held,queue,req :: granted)
    else (held,req :: queue,[])

namespace Page

variable (page : Page)

def setLock (name : String) (st : LockState) : Page :=
  { page with locks := Function.update page.locks name st }

def processLocks (name : String) : Page :=
  let (held,queue,granted) := grant (page.locks name).held (page.locks name).queue
  { page.setLock name { held,queue } with
    microtasks := page.microtasks ++ granted.map fun req => .callback name req.id
    log := page.log ++ granted.map fun req => .granted name req.id }

def request (call : Call) : Page :=
  if !call.callable || call.name.startsWith "-" then page
  else
    let st := page.locks call.name
    let id := page.nextId
    let page := { page with nextId := id + 1 }
    if call.ifAvailable && !(st.queue.isEmpty && grantable st.held call.mode) then
      { page with microtasks := page.microtasks ++ [.unavailable id] }
    else
      let page := page.setLock call.name { st with queue := st.queue ++ [{ id,mode := call.mode }] }
      { page with log := page.log ++ [Entry.requested call.name id] }.processLocks call.name

def requests (calls : List Call) : Page := calls.foldl request page

def release (name : String) (id : ℕ) : Page :=
  let st := page.locks name
  (page.setLock name { st with held := st.held.eraseP fun h => h.id = id }).processLocks name

def onTask (calls : List Call) (pending : Bool) : Task → Page
  | .callback name id =>
    let page := { page with log := page.log ++ [Entry.called name id] }.requests calls
    if pending then { page with running := page.running ++ [(name,id)] }
    else { page with microtasks := page.microtasks ++ [Task.release name id] }
  | .unavailable _ => page.requests calls
  | .release name id => page.release name id

end Page

inductive Action where
  | request (call : Call)
  | microtask (calls : List Call) (pending : Bool)
  | settle (i : ℕ)

namespace Page

def step (page : Page) : Action → Option Page
  | .request call => some (page.request call)
  | .microtask calls pending =>
    match page.microtasks with
    | [] => none
    | task :: rest => some ({ page with microtasks := rest }.onTask calls pending task)
  | .settle i => page.running[i]?.map fun (name,id) =>
      { page with
        running := page.running.eraseIdx i
        microtasks := page.microtasks ++ [.release name id] }

end Page

def requested (name : String) (log : List Entry) : List ℕ :=
  log.filterMap fun
    | .requested n id => if n = name then some id else none
    | _ => none

def granted (name : String) (log : List Entry) : List ℕ :=
  log.filterMap fun
    | .granted n id => if n = name then some id else none
    | _ => none

/-- One lock alone, or none but shared ones. -/
def Compatible (held : List Request) : Prop := held.length ≤ 1 ∨ ∀ h ∈ held,h.mode = .shared

/-- What keeps a lock held: its callback is still to run, what it returned is still open, or its
release is on the way. -/
def Page.reasons (page : Page) (name : String) (id : ℕ) : ℕ :=
  page.microtasks.count (.callback name id) + page.running.count (name,id) +
    page.microtasks.count (.release name id)

structure Orderly (page : Page) : Prop where
  exclusion : ∀ name,Compatible (page.locks name).held
  inOrder : ∀ name,granted name page.log <+: requested name page.log
  waiting : ∀ name,requested name page.log =
    granted name page.log ++ (page.locks name).queue.map Request.id
  once : ∀ name id,.granted name id ∈ page.log →
    page.log.count (.called name id) + page.microtasks.count (.callback name id) = 1
  unasked : ∀ name id,.called name id ∈ page.log → .granted name id ∈ page.log
  unstuck : ∀ name,(page.locks name).held = [] → (page.locks name).queue = []
  reason : ∀ name,∀ h ∈ (page.locks name).held,page.reasons name h.id = 1

/-- What holds all the time; the callbacks in the hand have been taken up and not yet returned. -/
structure Sound (hand : List (String × ℕ)) (page : Page) : Prop where
  exclusion : ∀ name,Compatible (page.locks name).held
  waiting : ∀ name,requested name page.log =
    granted name page.log ++ (page.locks name).queue.map Request.id
  known : ∀ name,∀ id ∈ requested name page.log,id < page.nextId
  fresh : ∀ name,(requested name page.log).Nodup
  once : ∀ name id,page.log.count (.called name id) + page.microtasks.count (.callback name id) =
    (granted name page.log).count id
  reasons : ∀ name id,((page.locks name).held.map Request.id).count id =
    page.reasons name id + hand.count (name,id)
  held : ∀ name id,((page.locks name).held.map Request.id).count id ≤ (granted name page.log).count id

def Blocked (page : Page) (name : String) : Prop :=
  ∀ req ∈ (page.locks name).queue.head?,grantable (page.locks name).held req.mode = false

structure Invariant (page : Page) : Prop where
  sound : Sound [] page
  blocked : ∀ name,Blocked page name

section Grant

variable {held queue : List Request}

theorem Compatible.grant (compatible : Compatible held) : Compatible (grant held queue).1 := by
  induction queue generalizing held with
  | nil => exact compatible
  | cons req queue ih =>
    rw [WebLocks.grant]
    split
    · rename_i free
      refine ih ?_
      rw [grantable,Bool.or_eq_true] at free
      rcases free with none | shared
      · rw [List.isEmpty_iff] at none
        exact .inl (by simp [none])
      · right
        simp only [Bool.and_eq_true,decide_eq_true_eq,List.all_eq_true] at shared
        intro h member
        rcases List.mem_append.mp member with old | new
        · exact shared.2 h old
        · exact List.mem_singleton.mp new ▸ shared.1
    · exact compatible

theorem grant_held : (grant held queue).1 = held ++ (grant held queue).2.2 := by
  induction queue generalizing held with
  | nil => simp [grant]
  | cons req queue ih =>
    rw [grant]
    split
    · simp [ih]
    · simp

theorem grant_queue : queue = (grant held queue).2.2 ++ (grant held queue).2.1 := by
  induction queue generalizing held with
  | nil => simp [grant]
  | cons req queue ih =>
    rw [grant]
    split
    · exact congrArg (req :: ·) ih
    · simp

theorem grant_blocked :
    ∀ req ∈ (grant held queue).2.1.head?,grantable (grant held queue).1 req.mode = false := by
  induction queue generalizing held with
  | nil => simp [grant]
  | cons req queue ih =>
    rw [grant]
    split
    · exact ih
    · rename_i blocked
      simpa using blocked

end Grant

@[simp] theorem requested_append (name : String) (first second : List Entry) :
    requested name (first ++ second) = requested name first ++ requested name second :=
  List.filterMap_append

@[simp] theorem granted_append (name : String) (first second : List Entry) :
    granted name (first ++ second) = granted name first ++ granted name second :=
  List.filterMap_append

@[simp] theorem requested_grants (name other : String) (reqs : List Request) :
    requested name (reqs.map fun req => .granted other req.id) = [] := by
  simp [requested,List.filterMap_map]

theorem granted_grants_self (name : String) (reqs : List Request) :
    granted name (reqs.map fun req => .granted name req.id) = reqs.map Request.id := by
  simp [granted,List.filterMap_map]

theorem granted_grants_of_ne {name other : String} (differs : other ≠ name) (reqs : List Request) :
    granted name (reqs.map fun req => .granted other req.id) = [] := by
  simp [granted,List.filterMap_map,differs]

theorem mem_granted {name : String} {id : ℕ} {log : List Entry} :
    id ∈ granted name log ↔ .granted name id ∈ log := by
  rw [granted,List.mem_filterMap]
  constructor
  · rintro ⟨entry,member,is⟩
    cases entry with
    | granted n k =>
      obtain ⟨rfl,rfl⟩ : n = name ∧ k = id := by simpa using is
      exact member
    | requested => cases is
    | called => cases is
  · exact fun member => ⟨_,member,by simp⟩

namespace Page

variable {page : Page} {hand : List (String × ℕ)}

@[simp] theorem setLock_self (page : Page) (name : String) (st : LockState) :
    (page.setLock name st).locks name = st :=
  Function.update_self ..

theorem setLock_of_ne (page : Page) {name other : String} (st : LockState) (differs : other ≠ name) :
    (page.setLock name st).locks other = page.locks other :=
  Function.update_of_ne differs ..

theorem processLocks_locks_self (page : Page) (name : String) : (page.processLocks name).locks name =
      ⟨(grant (page.locks name).held (page.locks name).queue).1,
        (grant (page.locks name).held (page.locks name).queue).2.1⟩ :=
  setLock_self ..

theorem processLocks_locks_of_ne (page : Page) {name other : String} (differs : other ≠ name) :
    (page.processLocks name).locks other = page.locks other :=
  setLock_of_ne _ _ differs

theorem count_callbacks (name other : String) (id : ℕ) (reqs : List Request) :
    (reqs.map fun req => Task.callback name req.id).count (.callback other id) =
      if name = other then (reqs.map Request.id).count id else 0 := by
  induction reqs with
  | nil => simp
  | cons req reqs ih =>
    rw [List.map_cons,List.map_cons,List.count_cons,List.count_cons,ih]
    by_cases same : name = other <;> simp [same]

theorem processLocks_sound (sound : Sound hand page) (name : String) : Sound hand (page.processLocks name) := by
  obtain ⟨exclusion,waiting,known,fresh,once,reasons,held⟩ := sound
  have holds := @grant_held (page.locks name).held (page.locks name).queue
  have queues := @grant_queue (page.locks name).held (page.locks name).queue
  set now := (grant (page.locks name).held (page.locks name).queue).2.2 with isNow
  have log : (page.processLocks name).log = page.log ++ now.map fun req => .granted name req.id := rfl
  have tasks : (page.processLocks name).microtasks =
      page.microtasks ++ now.map fun req => .callback name req.id := rfl
  have asked : ∀ other,requested other (page.processLocks name).log = requested other page.log := by
    intro other
    rw [log,requested_append,requested_grants,List.append_nil]
  constructor
  · intro other
    by_cases same : other = name
    · subst same
      rw [processLocks_locks_self]
      exact (exclusion other).grant
    · rw [processLocks_locks_of_ne _ same]
      exact exclusion other
  · intro other
    rw [asked,log,granted_append,waiting]
    by_cases same : other = name
    · subst same
      rw [processLocks_locks_self,granted_grants_self,List.append_assoc,← List.map_append]
      exact congrArg (fun queue => _ ++ List.map Request.id queue) queues
    · rw [processLocks_locks_of_ne _ same,granted_grants_of_ne (Ne.symm same),List.append_nil]
  · intro other id member
    rw [asked] at member
    exact known other id member
  · intro other
    rw [asked]
    exact fresh other
  · intro other id
    have before := once other id
    have uncalled : (now.map fun req => Entry.granted name req.id).count (.called other id) = 0 :=
      List.count_eq_zero.mpr (by simp)
    rw [log,tasks,List.count_append,List.count_append,granted_append,List.count_append,uncalled,
      count_callbacks]
    by_cases same : name = other
    · subst same
      rw [if_pos rfl,granted_grants_self]
      omega
    · rw [if_neg same,granted_grants_of_ne same]
      simpa using before
  · intro other id
    have before := reasons other id
    have unreleased : (now.map fun req => Task.callback name req.id).count (.release other id) = 0 :=
      List.count_eq_zero.mpr (by simp)
    simp only [Page.reasons] at before ⊢
    rw [tasks,List.count_append,List.count_append,unreleased,count_callbacks]
    change _ = _ + page.running.count (other,id) + _ + _
    by_cases same : other = name
    · subst same
      rw [processLocks_locks_self,if_pos rfl]
      change (List.map Request.id (grant (page.locks other).held (page.locks other).queue).1).count id = _
      rw [holds,List.map_append,List.count_append]
      omega
    · rw [processLocks_locks_of_ne _ same,if_neg (Ne.symm same)]
      omega
  · intro other id
    have before := held other id
    rw [log,granted_append,List.count_append]
    by_cases same : other = name
    · subst same
      rw [processLocks_locks_self,granted_grants_self]
      change (List.map Request.id (grant (page.locks other).held (page.locks other).queue).1).count id ≤ _
      rw [holds,List.map_append,List.count_append]
      omega
    · rw [processLocks_locks_of_ne _ same]
      omega

theorem processLocks_blocked {name : String} (blocked : ∀ other,other ≠ name → Blocked page other)
    (other : String) : Blocked (page.processLocks name) other := by
  by_cases same : other = name
  · subst same
    rw [Blocked,processLocks_locks_self]
    exact grant_blocked
  · rw [Blocked,processLocks_locks_of_ne _ same]
    exact blocked other same

theorem request_sound (sound : Sound hand page) (call : Call) : Sound hand (page.request call) := by
  unfold request
  split
  · exact sound
  obtain ⟨exclusion,waiting,known,fresh,once,reasons,held⟩ := sound
  dsimp only
  split
  · refine ⟨exclusion,waiting,?_,fresh,?_,?_,held⟩
    · exact fun name id member => Nat.lt_succ_of_lt (known name id member)
    · simpa using once
    · simpa [Page.reasons] using reasons
  · refine processLocks_sound ?_ call.name
    set st : LockState := { page.locks call.name with
      queue := (page.locks call.name).queue ++ [{ id := page.nextId,mode := call.mode }] } with isSt
    have asked : ∀ name,requested name (page.log ++ [.requested call.name page.nextId]) =
        requested name page.log ++ if call.name = name then [page.nextId] else [] := by
      intro name
      rw [requested_append]
      by_cases same : call.name = name <;> simp [requested,same]
    have same : ∀ name,granted name (page.log ++ [.requested call.name page.nextId]) =
        granted name page.log := by simp [granted]
    have kept : ∀ name,((page.setLock call.name st).locks name).held = (page.locks name).held := by
      intro name
      by_cases here : name = call.name
      · subst here
        rw [setLock_self]
      · rw [setLock_of_ne _ _ here]
    constructor
    · exact fun name => (kept name).symm ▸ exclusion name
    · intro name
      change requested name (page.log ++ _) =
        granted name (page.log ++ _) ++ ((page.setLock call.name st).locks name).queue.map Request.id
      rw [asked,same,waiting]
      by_cases here : name = call.name
      · subst here
        rw [setLock_self,if_pos rfl,isSt,List.map_append,List.append_assoc]
        rfl
      · rw [setLock_of_ne _ _ here,if_neg (Ne.symm here),List.append_nil]
    · intro name id member
      change id ∈ requested name (page.log ++ _) at member
      rw [asked] at member
      rcases List.mem_append.mp member with old | new
      · exact Nat.lt_succ_of_lt (known name id old)
      · split at new
        · exact List.mem_singleton.mp new ▸ Nat.lt_succ_self _
        · cases new
    · intro name
      change (requested name (page.log ++ _)).Nodup
      rw [asked]
      split
      · refine List.nodup_append.mpr ⟨fresh name,List.nodup_singleton _,?_⟩
        rintro id old _ new rfl
        exact Nat.lt_irrefl _ (List.mem_singleton.mp new ▸ known name id old)
      · rw [List.append_nil]
        exact fresh name
    · intro name id
      have before := once name id
      change (page.log ++ _).count _ + page.microtasks.count _ = (granted name (page.log ++ _)).count id
      rw [same]
      simpa using before
    · exact fun name id => (kept name).symm ▸ reasons name id
    · intro name id
      change (((page.setLock call.name st).locks name).held.map Request.id).count id ≤
        (granted name (page.log ++ _)).count id
      rw [same,kept]
      exact held name id

theorem request_blocked (blocked : ∀ name,Blocked page name) (call : Call) (name : String) :
    Blocked (page.request call) name := by
  unfold request
  split
  · exact blocked name
  dsimp only
  split
  · exact blocked name
  · refine processLocks_blocked ?_ name
    intro other differs
    change Blocked (page.setLock call.name _) other
    rw [Blocked,setLock_of_ne _ _ differs]
    exact blocked other

theorem requests_sound (sound : Sound hand page) (blocked : ∀ name,Blocked page name)
    (calls : List Call) : Sound hand (page.requests calls) ∧ ∀ name,Blocked (page.requests calls) name := by
  induction calls generalizing page with
  | nil => exact ⟨sound,blocked⟩
  | cons call calls ih => exact ih (request_sound sound call) (request_blocked blocked call)

theorem release_invariant {name : String} {id : ℕ} (sound : Sound [(name,id)] page)
    (blocked : ∀ other,Blocked page other) : Invariant (page.release name id) := by
  obtain ⟨exclusion,waiting,known,fresh,once,reasons,held⟩ := sound
  have erased : ∀ l : List Request,(l.eraseP fun h => h.id = id).map Request.id =
      (l.map Request.id).erase id := by
    intro l
    rw [List.erase_eq_eraseP,List.eraseP_map]
    congr 2
    funext h
    by_cases same : id = h.id <;> simp [same,Ne.symm]
  constructor
  · refine processLocks_sound ?_ name
    constructor
    · intro other
      by_cases same : other = name
      · subst same
        rw [setLock_self]
        rcases exclusion other with alone | shared
        · exact .inl (Nat.le_trans List.eraseP_sublist.length_le alone)
        · exact .inr fun h member => shared h (List.mem_of_mem_eraseP member)
      · rw [setLock_of_ne _ _ same]
        exact exclusion other
    · intro other
      change requested other page.log = granted other page.log ++ _
      rw [waiting other]
      by_cases same : other = name
      · subst same
        rw [setLock_self]
      · rw [setLock_of_ne _ _ same]
    · exact known
    · exact fresh
    · exact once
    · intro other k
      have before := reasons other k
      change _ = page.reasons other k + _
      by_cases same : other = name
      · subst same
        rw [setLock_self,erased,List.count_nil]
        by_cases here : id = k
        · subst here
          rw [List.count_singleton_self] at before
          rw [List.count_erase_self]
          omega
        · rw [List.count_erase_of_ne (Ne.symm here),before,List.count_singleton]
          simp [here]
      · rw [setLock_of_ne _ _ same,before,List.count_singleton]
        simp [Ne.symm same]
    · intro other k
      change _ ≤ (granted other page.log).count k
      by_cases same : other = name
      · subst same
        rw [setLock_self,erased]
        exact Nat.le_trans (List.erase_sublist.count_le k) (held other k)
      · rw [setLock_of_ne _ _ same]
        exact held other k
  · refine processLocks_blocked ?_
    intro other differs
    rw [Blocked,setLock_of_ne _ _ differs]
    exact blocked other

theorem start_invariant : Invariant {} where
  sound := ⟨fun _ => .inl (Nat.zero_le _),fun _ => rfl,nofun,fun _ => List.nodup_nil,fun _ _ => rfl,
    fun _ _ => rfl,fun _ _ => Nat.zero_le _⟩
  blocked := nofun

theorem callback_invariant {name : String} {id : ℕ} {rest : List Task} (invariant : Invariant page)
    (first : page.microtasks = .callback name id :: rest) (calls : List Call) (pending : Bool) :
    Invariant ({ page with microtasks := rest }.onTask calls pending (.callback name id)) := by
  obtain ⟨⟨exclusion,waiting,known,fresh,once,reasons,held⟩,blocked⟩ := invariant
  have taken : Sound [(name,id)]
      { page with microtasks := rest,log := page.log ++ [Entry.called name id] } := by
    refine ⟨exclusion,?_,?_,?_,?_,?_,?_⟩
    · simpa [requested,granted] using waiting
    · simpa [requested] using known
    · simpa [requested] using fresh
    · intro other k
      have before := once other k
      rw [first] at before
      by_cases same : name = other ∧ id = k
      · obtain ⟨rfl,rfl⟩ := same
        simp [granted] at before ⊢
        omega
      · have others : Entry.called name id ≠ .called other k := by simpa using same
        have alsoOthers : Task.callback name id ≠ .callback other k := by simpa using same
        rw [List.count_cons_of_ne alsoOthers] at before
        simpa [granted,List.count_append,List.count_singleton,others] using before
    · intro other k
      have before := reasons other k
      simp only [Page.reasons,first] at before ⊢
      have release : Task.callback name id ≠ .release other k := by simp
      rw [List.count_cons_of_ne release,List.count_nil] at before
      by_cases same : name = other ∧ id = k
      · obtain ⟨rfl,rfl⟩ := same
        rw [List.count_cons_self] at before
        rw [List.count_singleton_self]
        omega
      · have others : Task.callback name id ≠ .callback other k := by simpa using same
        have pairs : (name,id) ≠ (other,k) := by simpa using same
        rw [List.count_cons_of_ne others] at before
        rw [List.count_cons_of_ne pairs,List.count_nil]
        omega
    · simpa [granted] using held
  obtain ⟨sound,still⟩ := requests_sound taken blocked calls
  unfold onTask
  dsimp only
  split
  · refine ⟨⟨sound.exclusion,sound.waiting,sound.known,sound.fresh,sound.once,?_,sound.held⟩,still⟩
    intro other k
    have before := sound.reasons other k
    simp only [Page.reasons,List.count_append,List.count_nil] at before ⊢
    omega
  · refine ⟨⟨sound.exclusion,sound.waiting,sound.known,sound.fresh,?_,?_,sound.held⟩,still⟩
    · simpa using sound.once
    · intro other k
      have before := sound.reasons other k
      simp only [Page.reasons,List.count_append,List.count_nil] at before ⊢
      by_cases same : name = other ∧ id = k
      · obtain ⟨rfl,rfl⟩ := same
        simp at before ⊢
        omega
      · have others : Task.release name id ≠ .release other k := by simpa using same
        have pairs : (name,id) ≠ (other,k) := by simpa using same
        rw [List.count_cons_of_ne pairs,List.count_nil] at before
        rw [List.count_cons_of_ne others]
        simp
        omega

theorem step_invariant (invariant : Invariant page) {action : Action} {next : Page}
    (taken : page.step action = some next) : Invariant next := by
  cases action with
  | request call =>
    cases taken
    exact ⟨request_sound invariant.sound call,request_blocked invariant.blocked call⟩
  | microtask calls pending =>
    rw [step] at taken
    split at taken
    · cases taken
    rename_i task rest first
    cases taken
    cases task with
    | callback name id => exact callback_invariant invariant first calls pending
    | unavailable id =>
      have sound : Sound [] { page with microtasks := rest } := by
        refine { invariant.sound with once := ?_,reasons := ?_ }
        · simpa [first] using invariant.sound.once
        · simpa [Page.reasons,first] using invariant.sound.reasons
      obtain ⟨sound,blocked⟩ := requests_sound sound invariant.blocked calls
      exact ⟨sound,blocked⟩
    | release name id =>
      refine release_invariant ?_ invariant.blocked
      refine { invariant.sound with once := ?_,reasons := ?_ }
      · simpa [first] using invariant.sound.once
      · intro other k
        have before := invariant.sound.reasons other k
        simp only [Page.reasons,first,List.count_nil] at before ⊢
        have callback : Task.release name id ≠ .callback other k := by simp
        rw [List.count_cons_of_ne callback] at before
        by_cases same : name = other ∧ id = k
        · obtain ⟨rfl,rfl⟩ := same
          rw [List.count_cons_self] at before
          rw [List.count_singleton_self]
          omega
        · have others : Task.release name id ≠ .release other k := by simpa using same
          have pairs : (name,id) ≠ (other,k) := by simpa using same
          rw [List.count_cons_of_ne others] at before
          rw [List.count_cons_of_ne pairs,List.count_nil]
          omega
  | settle i =>
    obtain ⟨⟨name,id⟩,found,rfl⟩ := Option.map_eq_some_iff.mp taken
    refine ⟨{ invariant.sound with once := ?_,reasons := ?_ },invariant.blocked⟩
    · simpa using invariant.sound.once
    · intro other k
      have before := invariant.sound.reasons other k
      have perm := (List.getElem_cons_eraseIdx_perm (List.getElem?_eq_some_iff.mp found).1).count_eq (other,k)
      rw [(List.getElem?_eq_some_iff.mp found).2,List.count_cons] at perm
      simp only [Page.reasons,List.count_append,List.count_nil] at before ⊢
      by_cases same : name = other ∧ id = k
      · obtain ⟨rfl,rfl⟩ := same
        simp at perm ⊢
        omega
      · have others : Task.release name id ≠ .release other k := by simpa using same
        have pairs : ((name,id) == (other,k)) = false := by simpa using same
        rw [pairs] at perm
        rw [List.count_cons_of_ne others]
        simp at perm ⊢
        omega

end Page

theorem Invariant.orderly_requests {page : Page} (invariant : Invariant page) : Orderly page := by
  obtain ⟨sound,blocked⟩ := invariant
  have nodup : ∀ name,(granted name page.log).Nodup := by
    intro name
    have fresh := sound.fresh name
    rw [sound.waiting] at fresh
    exact fresh.of_append_left
  constructor
  · exact sound.exclusion
  · exact fun name => ⟨_,(sound.waiting name).symm⟩
  · exact sound.waiting
  · intro name id member
    rw [sound.once name id]
    exact List.count_eq_one_of_mem (nodup name) (mem_granted.mpr member)
  · intro name id member
    have called : 0 < page.log.count (.called name id) := List.count_pos_iff.mpr member
    have once := sound.once name id
    exact mem_granted.mp (List.count_pos_iff.mp (by omega))
  · intro name none
    cases queue : (page.locks name).queue with
    | nil => rfl
    | cons req rest =>
      have refused := blocked name req (by simp [queue])
      simp [grantable,none] at refused
  · intro name h member
    have counted := sound.reasons name h.id
    rw [List.count_nil,Nat.add_zero] at counted
    have present : 0 < ((page.locks name).held.map Request.id).count h.id :=
      List.count_pos_iff.mpr (List.mem_map_of_mem member)
    have known := sound.held name h.id
    have most := List.nodup_iff_count_le_one.mp (nodup name) h.id
    omega

/-- Whatever is requested and in whatever order callbacks end, the locks of each name stay
compatible, go by turns, and none is waited for that is not held. -/
theorem Page.requests_orderly (actions : List Action) : Runs.Always Page.step Orderly {} actions :=
  Runs.always_of_invariant Page.step (fun _ _ _ invariant taken => Page.step_invariant invariant taken)
    (fun _ invariant => invariant.orderly_requests) Page.start_invariant

end Sharko.Script.WebLocks
