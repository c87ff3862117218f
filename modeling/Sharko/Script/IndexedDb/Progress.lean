import Sharko.Library.Runs
import Sharko.Script.IndexedDb.Requests
import Sharko.Script.IndexedDb.Simulation

/-! No transaction is left behind: in every state that a page can reach, an unfinished one has
its timer set, is going to be pumped, or waits for an earlier one that is unfinished too. -/

namespace Sharko.Script.IndexedDb

open Library

namespace World

def fresh (content : Content) (blobs : Blobs) (nextRow nextIndex nextStore seq : Nat) : World where
  content := content
  cursor _ := ⟨0,0,⟨0,none⟩,.next,none,false,none,none,none,none,none,false⟩
  blobs := blobs
  nextRow := nextRow
  nextIndex := nextIndex
  nextStore := nextStore
  nextCursor := 0
  nextItem := 0
  nextReq := 0
  txs := []
  tx _ := ⟨0,.readonly,none,.finished,[],[],none,false,[],false,0,false,none,false,none,0⟩
  nextTx := 0
  upgradeTx := none
  connections := ⟨fun _ => ⟨0,false,false,false,[]⟩,0,[],[],false,none,[]⟩
  tasks := []
  seq := seq
  frames := []
  log := []

variable (σ : World) (t : Nat)

/-- A finished transaction is going to be finalized, and pumps the others then. -/
def PumpPending : Prop := ∃ u,.aborted u ∈ σ.tasks ∨ ∃ frame ∈ σ.frames,frame.endsTx u = true

/-- The transaction waits for an earlier one that has not finished. -/
def WaitsFor (u : Nat) : Prop :=
  (∃ before after,σ.txs = before ++ u :: after ∧ t ∈ after) ∧
    conflicts (σ.tx u) (σ.tx t) = true ∧ (σ.tx u).state ≠ .finished

/-- Every unfinished transaction that its upgrade does not hold will go on. -/
def Lively : Prop :=
  ∀ t,t < σ.nextTx → (σ.tx t).state ≠ .finished → (σ.tx t).hold = false →
    .step t ∈ σ.tasks ∨ σ.PumpPending ∨ ∃ u,σ.WaitsFor t u

/-- The requests of each transaction are performed and answered in the order of their ids, in
which they were placed. -/
def Orderly : Prop :=
  ∀ t,(itemsOf σ.log .placed t).Pairwise (fun a b => a.id < b.id) ∧
    itemsOf σ.log .performed t <+: itemsOf σ.log .placed t ∧
    itemsOf σ.log .settled t <+: asking (itemsOf σ.log .placed t)

variable {σ t}

theorem itemsOf_ledger (stage : Stage) : itemsOf σ.ledger.log stage t = itemsOf σ.log stage t := by
  rw [show σ.ledger.log = σ.log.filter fun event => !event.isThrown from rfl,itemsOf,itemsOf,
    List.filterMap_filter]
  congr 1
  funext event
  cases event <;> rfl

/-- The ledger keeps what the two invariants say. -/
structure Kept (σ : World) : Prop where
  sound : σ.ledger.Sound
  ordered : σ.ledger.Ordered

theorem Kept.act {identifier : Text → Bool} {action : Action} {τ : World} (kept : σ.Kept)
    (acted : σ.act identifier action = some τ) : τ.Kept := by
  have moves := act_moves kept.sound acted
  have both : ∀ K,Ledger.Moves σ.ledger K → K.Sound ∧ K.Ordered := by
    intro K moves
    induction moves with
    | refl => exact ⟨kept.sound,kept.ordered⟩
    | tail _ move ih => exact ⟨ih.1.move move,ih.2.move ih.1.framed ih.1.driven move⟩
  exact ⟨(both _ moves).1,(both _ moves).2⟩

theorem kept_empty {Λ : Ledger} (nextTx : Λ.nextTx = 0) (txs : Λ.txs = []) (tasks : Λ.tasks = [])
    (frames : Λ.frames = []) (log : Λ.log = [])
    (unmade : ∀ t,(Λ.tx t).state = .finished ∧ (Λ.tx t).hold = false ∧ (Λ.tx t).scheduled = false ∧
      (Λ.tx t).queue = []) : Λ.Sound ∧ Λ.Ordered := by
  have items : ∀ stage t,itemsOf Λ.log stage t = [] := by
    intro stage t
    rw [log]
    rfl
  have working : ∀ t,Λ.working t = [] := by
    intro t
    rw [Ledger.working,frames]
    rfl
  have due : ∀ t,Λ.due t = [] := by
    intro t
    rw [Ledger.due,tasks]
    rfl
  have born : ∀ t,(Λ.tx t).hold = false := fun t => (unmade t).2.1
  have untimed : ∀ t,(Λ.tx t).scheduled = false := fun t => (unmade t).2.2.1
  refine ⟨⟨?_,?_,?_⟩,?_⟩
  · refine ⟨fun t _ => ⟨(unmade t).1,born t⟩,?_,?_,?_,?_,?_,?_⟩
    all_goals simp [frames,tasks,born]
  · refine ⟨?_,?_,?_,?_,?_,?_,?_,?_⟩
    all_goals simp [frames,tasks,txs,nextTx,untimed]
  · refine ⟨?_,?_⟩
    all_goals simp [frames]
  · refine { fresh := fun t _ => items .placed t,numbered := ?_,increasing := ?_,alone := ?_
             performed := ?_,settled := ?_,queued := ?_ }
    · simp [items]
    · simp [items]
    · simp [frames]
    · simp [items,working]
    · intro t
      rw [items,items,working,due,(unmade t).2.2.2]
      rfl
    · intro t open_
      exact absurd (.inl (unmade t).1) open_

theorem kept_fresh (content : Content) (blobs : Blobs) (nextRow nextIndex nextStore seq : Nat) :
    (fresh content blobs nextRow nextIndex nextStore seq).Kept := by
  obtain ⟨sound,ordered⟩ := kept_empty (Λ := (fresh content blobs nextRow nextIndex nextStore seq).ledger)
    rfl rfl rfl rfl rfl fun _ => ⟨rfl,rfl,rfl,rfl⟩
  exact ⟨sound,ordered⟩

theorem waits_of_blocked (mem : t ∈ σ.txs) (blocked : σ.canStart t = false) :
    ∃ u before after,σ.txs = before ++ u :: after ∧ t ∈ after ∧ conflicts (σ.tx u) (σ.tx t) = true := by
  have among : ∀ txs,t ∈ txs → σ.canStartAmong t txs = false →
      ∃ u before after,txs = before ++ u :: after ∧ t ∈ after ∧ conflicts (σ.tx u) (σ.tx t) = true := by
    intro txs mem blocked
    induction txs with
    | nil => cases mem
    | cons u rest ih =>
      rw [canStartAmong] at blocked
      split_ifs at blocked with same clash
      · exact ⟨u,[],rest,rfl,(List.mem_cons.mp mem).resolve_left (Ne.symm same),clash⟩
      · obtain ⟨v,before,after,split,later,clash⟩ :=
          ih ((List.mem_cons.mp mem).resolve_left (Ne.symm same)) blocked
        exact ⟨v,u :: before,after,congrArg (u :: ·) split,later,clash⟩
  exact among σ.txs mem blocked

theorem Kept.lively (kept : σ.Kept) : σ.Lively := by
  intro t made unfinished born
  have driven := kept.sound.driven
  have pumps : ∀ u,u ∈ σ.txs → σ.ledger.Over u → σ.PumpPending :=
    fun u listed isOver => ⟨u,driven.ending u listed isOver⟩
  by_cases isOver : σ.ledger.Over t
  · -- a clone hides that the transaction has finished
    obtain ⟨_,target,mem⟩ := isOver.resolve_left unfinished
    exact .inr (.inl (pumps t (kept.sound.rooted.listed _ mem rfl) isOver))
  · have listed := driven.listed t made isOver
    rcases driven.driven t listed born isOver with timed | waits | ⟨u,listed,isOver⟩
    · exact .inl (driven.timed t timed)
    · rw [canStart_ledger] at waits
      obtain ⟨u,before,after,split,later,clash⟩ := waits_of_blocked listed waits
      by_cases finished : (σ.tx u).state = .finished
      · exact .inr (.inl (pumps u (by simp [split]) (.inl finished)))
      · exact .inr (.inr ⟨u,⟨before,after,split,later⟩,clash,finished⟩)
    · exact .inr (.inl (pumps u listed isOver))

theorem Kept.orderly (kept : σ.Kept) : σ.Orderly := by
  intro t
  have increasing := kept.ordered.increasing t
  have performed := kept.ordered.performed t
  have settled := kept.ordered.settled t
  rw [itemsOf_ledger] at increasing
  rw [itemsOf_ledger,itemsOf_ledger] at performed settled
  refine ⟨increasing,(List.prefix_append _ _).trans performed,?_⟩
  rw [settled,List.append_assoc,List.append_assoc]
  exact List.prefix_append _ _

/-- In every state that a page can reach no transaction is stuck, and the requests of each were
served in the order they were placed. -/
theorem no_stuck_transaction {identifier : Text → Bool} {content : Content} {blobs : Blobs}
    {nextRow nextIndex nextStore seq : Nat} {actions : List Action} {σ : World}
    (ran : Runs.exec (act · identifier) (fresh content blobs nextRow nextIndex nextStore seq) actions =
      some σ) : σ.Lively ∧ σ.Orderly := by
  have kept : σ.Kept := Runs.exec_preserves (act · identifier)
    (fun _ _ _ kept _ acted => Kept.act kept acted) (kept_fresh ..) (Runs.guarded_true _ _ actions) ran
  exact ⟨kept.lively,kept.orderly⟩

namespace Sample

def store : StoreData where
  name := []
  keyPath := none
  autoIncrement := false
  nextKey := none
  rows := []
  indexes _ := none
  maintained := []
  deleted := false
  index _ := ⟨[],.one [],false,false,[],false,false⟩

def page : World := fresh ⟨none,fun _ => store⟩ (fun _ => ⟨.null,[]⟩) 0 0 0 0

def actions : List Action :=
  [.call (.openDb (some 1)),.turn none,.turn none,.turn none,.turn none
  ,.call (.createObjectStore 0 [115]),.reply (.keyPath none),.reply (.autoIncrement true)
  ,.call (.clear 0 0),.call (.query 0 ⟨0,none⟩ .count),.reply (.range none)
  ,.reply (.event false false),.turn none,.reply .done,.reply (.event false false)]

def upgrading : World := ((Runs.exec (act · fun _ => true) page actions).get (by rfl))

theorem upgrade_goes_on : (upgrading.tx 0).state = .active ∧ upgrading.nextTx = 1 ∧
    (itemsOf upgrading.log .placed 0).length = 2 ∧ upgrading.Lively ∧ upgrading.Orderly :=
  ⟨by rfl,by rfl,by rfl,no_stuck_transaction (Option.some_get (by rfl)).symm⟩

end Sample

end World

end Sharko.Script.IndexedDb
