import Sharko.Script.IndexedDb.Framed

/-! The moves leave no transaction behind: one that is not held by its upgrade and has not
finished has its timer set, or another transaction is in its way. -/

namespace Sharko.Script.IndexedDb

def Task.dueOf (t : Nat) : Task → Bool
  | .settle u _ => u = t
  | .aborted u => u = t
  | _ => false

namespace Ledger

variable (Λ : Ledger)

/-- Another transaction is in the way, or one that has finished but is not finalized. -/
def Blocked (t : Nat) : Prop := Λ.canStart t = false ∨ ∃ u ∈ Λ.txs,Λ.Over u

def Ending (t : Nat) : Prop :=
  .aborted t ∈ Λ.tasks ∨ ∃ frame ∈ Λ.frames,frame.endsTx t = true

structure Driven : Prop where
  nodup : Λ.txs.Nodup
  made : ∀ t ∈ Λ.txs,t < Λ.nextTx
  listed : ∀ t,t < Λ.nextTx → ¬Λ.Over t → t ∈ Λ.txs
  timed : ∀ t,(Λ.tx t).scheduled = true → .step t ∈ Λ.tasks
  driven : ∀ t ∈ Λ.txs,(Λ.tx t).hold = false → ¬Λ.Over t → (Λ.tx t).scheduled = true ∨ Λ.Blocked t
  due : ∀ task ∈ Λ.tasks,∀ t,task.dueOf t = true → Λ.Over t
  ended : ∀ frame ∈ Λ.frames,∀ t,frame.endsTx t = true → Λ.Over t
  ending : ∀ t ∈ Λ.txs,Λ.Over t → Λ.Ending t

variable {Λ} {K : Ledger} {t u : Nat}

/-! ### Finished transactions -/

theorem over_congr (state : (K.tx u).state = (Λ.tx u).state)
    (clones : ∀ target,Frame.cloning u target .finished ∈ K.frames ↔
      Frame.cloning u target .finished ∈ Λ.frames) : K.Over u ↔ Λ.Over u := by
  unfold Over
  rw [state]
  simp only [clones]

theorem over_ready (ready : Λ.Ready t) : Λ.Over t ↔ (Λ.tx t).state = .finished := by
  constructor
  · rintro (finished | ⟨_,target,mem⟩)
    · exact finished
    · have unmasked := ready.unmasked _ mem rfl
      cases unmasked
  · exact .inl

theorem over_idle (idle : Λ.frames = []) : Λ.Over t ↔ (Λ.tx t).state = .finished := by
  constructor
  · rintro (finished | ⟨_,target,mem⟩)
    · exact finished
    · rw [idle] at mem
      cases mem
  · exact .inl

/-! ### Moves that scheduling does not notice -/

theorem canStartAmong_congr (mode : ∀ u,(K.tx u).mode = (Λ.tx u).mode)
    (scope : ∀ u,(K.tx u).scope = (Λ.tx u).scope) (txs : List Nat) :
    K.canStartAmong t txs = Λ.canStartAmong t txs := by
  induction txs with
  | nil => rfl
  | cons u rest ih =>
    rw [canStartAmong,canStartAmong,ih]
    unfold Account.conflicts
    rw [mode,mode,scope,scope]

structure Calm (Λ K : Ledger) : Prop where
  txs : K.txs = Λ.txs
  nextTx : K.nextTx = Λ.nextTx
  mode : ∀ u,(K.tx u).mode = (Λ.tx u).mode
  scope : ∀ u,(K.tx u).scope = (Λ.tx u).scope
  hold : ∀ u,(K.tx u).hold = (Λ.tx u).hold
  isOver : ∀ u,K.Over u ↔ Λ.Over u
  scheduled : ∀ u,(Λ.tx u).scheduled = true → (K.tx u).scheduled = true
  timed : ∀ u,(K.tx u).scheduled = true → ((Λ.tx u).scheduled = true → .step u ∈ Λ.tasks) →
    .step u ∈ K.tasks
  due : ∀ task ∈ K.tasks,∀ u,task.dueOf u = true → task ∈ Λ.tasks
  ended : ∀ frame ∈ K.frames,∀ u,frame.endsTx u = true → Λ.Over u
  ending : ∀ u,Λ.Ending u → K.Ending u

theorem Calm.blocked (calm : Calm Λ K) (blocked : Λ.Blocked t) : K.Blocked t := by
  unfold Blocked canStart at *
  rw [calm.txs,canStartAmong_congr calm.mode calm.scope]
  refine blocked.imp_right ?_
  rintro ⟨u,mem,isOver⟩
  exact ⟨u,mem,(calm.isOver u).mpr isOver⟩

theorem Driven.calm (driven : Λ.Driven) (calm : Calm Λ K) : K.Driven where
  nodup := calm.txs ▸ driven.nodup
  made := by
    rw [calm.txs,calm.nextTx]
    exact driven.made
  listed t made unfinished := by
    rw [calm.nextTx] at made
    rw [calm.isOver] at unfinished
    exact calm.txs ▸ driven.listed t made unfinished
  timed t scheduled := calm.timed t scheduled (driven.timed t)
  driven t mem born unfinished := by
    rw [calm.txs] at mem
    rw [calm.hold] at born
    rw [calm.isOver] at unfinished
    exact (driven.driven t mem born unfinished).imp (calm.scheduled t) calm.blocked
  due task mem t of := (calm.isOver t).mpr (driven.due task (calm.due task mem t of) t of)
  ended frame mem t ends := (calm.isOver t).mpr (calm.ended frame mem t ends)
  ending t mem isOver := by
    rw [calm.txs] at mem
    rw [calm.isOver] at isOver
    exact calm.ending t (driven.ending t mem isOver)

theorem Calm.of_tasks (driven : Λ.Driven) (txs : K.txs = Λ.txs) (nextTx : K.nextTx = Λ.nextTx)
    (kind : ∀ u,(K.tx u).mode = (Λ.tx u).mode ∧ (K.tx u).scope = (Λ.tx u).scope ∧
      (K.tx u).hold = (Λ.tx u).hold ∧ (K.tx u).scheduled = (Λ.tx u).scheduled)
    (isOver : ∀ u,K.Over u ↔ Λ.Over u) (tasks : K.tasks = Λ.tasks)
    (frames : ∀ frame u,frame.endsTx u = true → (frame ∈ K.frames ↔ frame ∈ Λ.frames)) : Calm Λ K where
  txs := txs
  nextTx := nextTx
  mode u := (kind u).1
  scope u := (kind u).2.1
  hold u := (kind u).2.2.1
  isOver := isOver
  scheduled u timed := (kind u).2.2.2.trans timed
  timed u timed before := by
    rw [(kind u).2.2.2] at timed
    exact tasks ▸ before timed
  due task mem u of := tasks ▸ mem
  ended frame mem u ends := driven.ended frame ((frames frame u ends).mp mem) u ends
  ending u := by
    rintro (aborted | ⟨frame,mem,ends⟩)
    · exact .inl (tasks ▸ aborted)
    · exact .inr ⟨frame,(frames frame u ends).mpr mem,ends⟩

theorem kind_update {account : Account} (tx : K.tx = Function.update Λ.tx t account)
    (same : account.mode = (Λ.tx t).mode ∧ account.scope = (Λ.tx t).scope ∧
      account.hold = (Λ.tx t).hold ∧ account.scheduled = (Λ.tx t).scheduled) (u : Nat) :
    (K.tx u).mode = (Λ.tx u).mode ∧ (K.tx u).scope = (Λ.tx u).scope ∧
      (K.tx u).hold = (Λ.tx u).hold ∧ (K.tx u).scheduled = (Λ.tx u).scheduled := by
  rw [tx]
  by_cases other : u = t
  · subst other
    rw [Function.update_self]
    exact same
  · rw [Function.update_of_ne other]
    exact ⟨rfl,rfl,rfl,rfl⟩

theorem state_update {account : Account} (tx : K.tx = Function.update Λ.tx t account)
    (same : account.state = (Λ.tx t).state) (u : Nat) : (K.tx u).state = (Λ.tx u).state := by
  rw [tx]
  by_cases other : u = t
  · subst other
    rw [Function.update_self,same]
  · rw [Function.update_of_ne other]

theorem Framed.ready_of_top (framed : Λ.Framed) {frame : Frame} {rest : List Frame}
    (frames : Λ.frames = frame :: rest) (plain : frame.isCloning = false) : Λ.Ready frame.t where
  made := (framed.framed frame (by simp [frames])).1
  born := (framed.framed frame (by simp [frames])).2
  unmasked other mem of := by
    rw [frames] at mem
    rcases List.mem_cons.mp mem with rfl | below
    · exact plain
    · have shape := framed.shape
      rw [frames] at shape
      exact (List.pairwise_cons.mp shape).1 other below of.symm

theorem over_become (ready : Λ.Ready t) {state : TxState} (before : (Λ.tx t).state ≠ .finished)
    (after : state ≠ .finished) : (Λ.become t state).Over u ↔ Λ.Over u := by
  by_cases same : u = t
  · subst same
    rw [over_ready ready,over_ready (become_ready ready state),become,set_tx_self]
    exact iff_of_false after before
  · refine over_congr ?_ fun _ => Iff.rfl
    rw [become,set_tx_other _ same]

theorem over_push {frame : Frame} (plain : frame.isCloning = false) : (Λ.push frame).Over u ↔ Λ.Over u := by
  refine over_congr rfl ?_
  intro target
  simp only [push,List.mem_cons]
  refine or_iff_right ?_
  rintro rfl
  cases plain

theorem over_leave {frame : Frame} {rest : List Frame} (frames : Λ.frames = frame :: rest)
    (plain : frame.isCloning = false) : Λ.leave.Over u ↔ Λ.Over u := by
  refine over_congr rfl ?_
  intro target
  simp only [leave,frames,List.tail_cons,List.mem_cons]
  refine (or_iff_right ?_).symm
  rintro rfl
  cases plain

theorem over_mask (ready : Λ.Ready t) (target : Target) : (Λ.mask t target).Over u ↔ Λ.Over u := by
  by_cases same : u = t
  · subst same
    have masked : ((Λ.mask u target).tx u).state = .inactive := by
      rw [show (Λ.mask u target).tx = (Λ.set u { Λ.tx u with state := .inactive }).tx from rfl,set_tx_self]
    rw [over_ready ready]
    constructor
    · rintro (finished | ⟨_,other,mem⟩)
      · rw [masked] at finished
        cases finished
      · rcases List.mem_cons.mp mem with top | below
        · exact (Frame.cloning.inj top).2.2.symm
        · have unmasked := ready.unmasked _ below rfl
          cases unmasked
    · intro finished
      refine .inr ⟨masked,target,?_⟩
      rw [← finished]
      exact List.mem_cons_self
  · refine over_congr ?_ ?_
    · rw [show (Λ.mask t target).tx = (Λ.set t { Λ.tx t with state := .inactive }).tx from rfl,
        set_tx_other _ same]
    · intro other
      rw [show (Λ.mask t target).frames = .cloning t target (Λ.tx t).state :: Λ.frames from rfl,
        List.mem_cons]
      refine or_iff_right ?_
      intro top
      exact same (Frame.cloning.inj top).1

theorem over_unmask (framed : Λ.Framed) {target : Target} {prev : TxState} {rest : List Frame}
    (frames : Λ.frames = .cloning t target prev :: rest) : (Λ.unmask t prev).Over u ↔ Λ.Over u := by
  have below := framed.ready_of_leave frames
  have tx : (Λ.unmask t prev).tx = (Λ.set t { Λ.tx t with
      state := if (Λ.tx t).state = .inactive then prev else (Λ.tx t).state }).tx := rfl
  by_cases same : u = t
  · subst same
    have ready : (Λ.unmask u prev).Ready u :=
      ⟨below.made,by rw [tx,set_tx_self]; exact below.born,below.unmasked⟩
    rw [over_ready ready,tx,set_tx_self]
    dsimp only
    constructor
    · intro finished
      split_ifs at finished with inactive
      · exact .inr ⟨inactive,target,by simp [frames,finished]⟩
      · exact .inl finished
    · rintro (finished | ⟨inactive,other,mem⟩)
      · rw [if_neg (by simp [finished])]
        exact finished
      · rw [if_pos inactive]
        rw [frames] at mem
        rcases List.mem_cons.mp mem with top | later
        · exact (Frame.cloning.inj top).2.2.symm
        · have inside : Frame.cloning u other .finished ∈ Λ.leave.frames := by simp [leave,frames,later]
          have unmasked := below.unmasked _ inside rfl
          cases unmasked
  · refine over_congr ?_ ?_
    · rw [tx,set_tx_other _ same]
    · intro other
      rw [show (Λ.unmask t prev).frames = Λ.frames.tail from rfl,frames,List.mem_cons]
      refine (or_iff_right ?_).symm
      intro top
      exact same (Frame.cloning.inj top).1

theorem Quiet.isOver (quiet : Quiet Λ K) (u : Nat) : K.Over u ↔ Λ.Over u :=
  over_congr (quiet.state u) fun _ => by rw [quiet.frames]

theorem Quiet.mode (quiet : Quiet Λ K) (u : Nat) : (K.tx u).mode = (Λ.tx u).mode := by
  have same := congrArg Account.mode (quiet.tx u)
  exact same

theorem Quiet.scope (quiet : Quiet Λ K) (u : Nat) : (K.tx u).scope = (Λ.tx u).scope := by
  have same := congrArg Account.scope (quiet.tx u)
  exact same

theorem Quiet.kept (quiet : Quiet Λ K) {task : Task} (mem : task ∈ Λ.tasks) : task ∈ K.tasks := by
  obtain ⟨more,tasks,-⟩ := quiet.tasks
  rw [tasks]
  exact List.mem_append_left more mem

theorem Quiet.due (quiet : Quiet Λ K) {task : Task} (mem : task ∈ K.tasks) (of : task.dueOf u = true) :
    task ∈ Λ.tasks := by
  obtain ⟨more,tasks,kinds⟩ := quiet.tasks
  rw [tasks] at mem
  rcases List.mem_append.mp mem with before | now
  · exact before
  · rcases kinds task now with ⟨v,_,rfl⟩ | ⟨k,rfl⟩
    · cases of
    · cases of

theorem Quiet.ending (quiet : Quiet Λ K) (ending : Λ.Ending u) : K.Ending u := by
  rcases ending with aborted | ⟨frame,mem,ends⟩
  · exact .inl (quiet.kept aborted)
  · exact .inr ⟨frame,quiet.frames ▸ mem,ends⟩

theorem Quiet.calm (quiet : Quiet Λ K) (driven : Λ.Driven) (txs : K.txs = Λ.txs) : Calm Λ K where
  txs := txs
  nextTx := quiet.nextTx
  mode := quiet.mode
  scope := quiet.scope
  hold := quiet.hold
  isOver := quiet.isOver
  scheduled := quiet.scheduled
  timed u timed before := by
    rcases quiet.timed u timed with earlier | now
    · exact quiet.kept (before earlier)
    · exact now
  due task mem u of := quiet.due mem of
  ended frame mem u ends := driven.ended frame (quiet.frames ▸ mem) u ends
  ending u := quiet.ending

/-! ### Moves that begin or end a transaction -/

theorem canStartAmong_append {txs : List Nat} (mem : t ∈ txs) (more : List Nat) :
    Λ.canStartAmong t (txs ++ more) = Λ.canStartAmong t txs := by
  induction txs with
  | nil => cases mem
  | cons u rest ih =>
    rw [List.cons_append,canStartAmong,canStartAmong]
    by_cases same : u = t
    · rw [if_pos same,if_pos same]
    · have later : t ∈ rest := (List.mem_cons.mp mem).resolve_left fun h => same h.symm
      rw [if_neg same,if_neg same,ih later]

theorem canStartAmong_members {txs : List Nat} (at_ : K.tx t = Λ.tx t)
    (members : ∀ u ∈ txs,K.tx u = Λ.tx u) : K.canStartAmong t txs = Λ.canStartAmong t txs := by
  induction txs with
  | nil => rfl
  | cons u rest ih =>
    obtain ⟨first,later⟩ := List.forall_mem_cons.mp members
    rw [canStartAmong,canStartAmong,ih later,first,at_]

theorem Driven.add (framed : Λ.Framed) (driven : Λ.Driven) {account : Account} {task : Task}
    (txs : K.txs = Λ.txs ++ [Λ.nextTx]) (nextTx : K.nextTx = Λ.nextTx + 1)
    (tx : K.tx = Function.update Λ.tx Λ.nextTx account) (frames : K.frames = Λ.frames)
    (tasks : K.tasks = Λ.tasks ++ [task]) (fresh : ∀ u,task.dueOf u = false)
    (unfinished : account.state ≠ .finished) (timed : account.scheduled = true → task = .step Λ.nextTx)
    (going : account.hold = true ∨ account.scheduled = true) : K.Driven := by
  have self : K.tx Λ.nextTx = account := by rw [tx,Function.update_self]
  have other : ∀ u,u ≠ Λ.nextTx → K.tx u = Λ.tx u := fun u h => by rw [tx,Function.update_of_ne h]
  have earlier : ∀ u ∈ Λ.txs,u ≠ Λ.nextTx := fun u mem => (driven.made u mem).ne
  have begun : ¬K.Over Λ.nextTx := by
    rintro (finished | ⟨_,target,mem⟩)
    · rw [self] at finished
      exact unfinished finished
    · rw [frames] at mem
      exact (framed.framed _ mem).1.ne rfl
  have isOver : ∀ u,u ≠ Λ.nextTx → (K.Over u ↔ Λ.Over u) := fun u h =>
    over_congr (by rw [other u h]) fun _ => by rw [frames]
  refine ⟨?_,?_,?_,?_,?_,?_,?_,?_⟩
  · rw [txs]
    refine List.nodup_append.mpr ⟨driven.nodup,List.nodup_singleton _,?_⟩
    intro u mem v single
    exact List.mem_singleton.mp single ▸ earlier u mem
  · intro u mem
    rw [txs] at mem
    rw [nextTx]
    rcases List.mem_append.mp mem with before | now
    · exact Nat.lt_succ_of_lt (driven.made u before)
    · exact List.mem_singleton.mp now ▸ Nat.lt_succ_self _
  · intro u made open_
    rw [txs]
    by_cases same : u = Λ.nextTx
    · exact List.mem_append_right Λ.txs (List.mem_singleton.mpr same)
    · rw [isOver u same] at open_
      exact List.mem_append_left _ (driven.listed u (by omega) open_)
  · intro u scheduled
    rw [tasks]
    by_cases same : u = Λ.nextTx
    · subst same
      rw [self] at scheduled
      exact List.mem_append_right Λ.tasks (List.mem_singleton.mpr (timed scheduled).symm)
    · rw [other u same] at scheduled
      exact List.mem_append_left _ (driven.timed u scheduled)
  · intro u mem born open_
    by_cases same : u = Λ.nextTx
    · subst same
      rw [self] at born ⊢
      exact .inl (going.resolve_left (by simp [born]))
    · rw [txs] at mem
      have before : u ∈ Λ.txs := (List.mem_append.mp mem).resolve_right fun h => same (List.mem_singleton.mp h)
      rw [other u same] at born ⊢
      rw [isOver u same] at open_
      refine (driven.driven u before born open_).imp_right ?_
      unfold Blocked canStart
      rw [txs,canStartAmong_append before,
        canStartAmong_members (other u same) fun v mem => other v (earlier v mem)]
      refine Or.imp_right ?_
      rintro ⟨v,mem,isOver'⟩
      exact ⟨v,List.mem_append_left _ mem,(isOver v (earlier v mem)).mpr isOver'⟩
  · intro task' mem u of
    rw [tasks] at mem
    rcases List.mem_append.mp mem with before | now
    · have due := driven.due task' before u of
      by_cases same : u = Λ.nextTx
      · subst same
        cases task' with
        | settle v item =>
          cases of_decide_eq_true of
          exact absurd (framed.timed _ before _ rfl) (Nat.lt_irrefl _)
        | aborted v =>
          cases of_decide_eq_true of
          exact absurd (framed.timed _ before _ rfl) (Nat.lt_irrefl _)
        | step v | upgradeNeeded v | connection k => cases of
      · exact (isOver u same).mpr due
    · rw [List.mem_singleton.mp now,fresh u] at of
      cases of
  · intro frame mem u ends
    rw [frames] at mem
    have made := (framed.framed frame mem).1
    have of : frame.t = u := by
      cases frame with
      | completing v => exact of_decide_eq_true ends
      | aborting v => exact of_decide_eq_true ends
      | _ => cases ends
    exact (isOver u (of ▸ made.ne)).mpr (driven.ended frame mem u ends)
  · intro u mem isOver'
    by_cases same : u = Λ.nextTx
    · exact absurd (same ▸ isOver') begun
    · rw [txs] at mem
      have before : u ∈ Λ.txs := (List.mem_append.mp mem).resolve_right fun h => same (List.mem_singleton.mp h)
      rcases driven.ending u before ((isOver u same).mp isOver') with aborted | ⟨frame,mem,ends⟩
      · exact .inl (by rw [tasks]; exact List.mem_append_left _ aborted)
      · exact .inr ⟨frame,frames ▸ mem,ends⟩

theorem Driven.finish (driven : Λ.Driven) (txs : K.txs = Λ.txs) (nextTx : K.nextTx = Λ.nextTx)
    (others : ∀ u,u ≠ t → K.tx u = Λ.tx u) (scheduled : (K.tx t).scheduled = (Λ.tx t).scheduled)
    (isOver : ∀ u,K.Over u ↔ Λ.Over u ∨ u = t) (kept : ∀ task ∈ Λ.tasks,task ∈ K.tasks)
    (due : ∀ task ∈ K.tasks,∀ u,task.dueOf u = true → task ∈ Λ.tasks ∨ u = t)
    (frames : ∀ frame ∈ Λ.frames,frame ∈ K.frames)
    (ended : ∀ frame ∈ K.frames,∀ u,frame.endsTx u = true → frame ∈ Λ.frames ∨ u = t)
    (ends : K.Ending t) : K.Driven where
  nodup := txs ▸ driven.nodup
  made := by
    rw [txs,nextTx]
    exact driven.made
  listed u made unfinished := by
    rw [isOver,not_or] at unfinished
    exact txs ▸ driven.listed u (nextTx ▸ made) unfinished.1
  timed u timed := by
    refine kept _ (driven.timed u ?_)
    by_cases same : u = t
    · subst same
      exact scheduled ▸ timed
    · exact others u same ▸ timed
  driven u mem born unfinished := by
    rw [isOver,not_or] at unfinished
    rw [txs] at mem
    rw [others u unfinished.2] at born ⊢
    refine (driven.driven u mem born unfinished.1).imp_right ?_
    -- who waits for the transaction waits for its end now
    by_cases listed : t ∈ Λ.txs
    · intro _
      exact .inr ⟨t,txs ▸ listed,(isOver t).mpr (.inr rfl)⟩
    · have members : ∀ v ∈ Λ.txs,K.tx v = Λ.tx v :=
        fun v mem => others v fun same => listed (same ▸ mem)
      unfold Blocked canStart
      rw [txs,canStartAmong_members (others u unfinished.2) members]
      refine Or.imp_right ?_
      rintro ⟨v,mem,isOver'⟩
      exact ⟨v,mem,(isOver v).mpr (.inl isOver')⟩
  due task mem u of := by
    rw [isOver]
    exact (due task mem u of).imp_left fun before => driven.due task before u of
  ended frame mem u ends := by
    rw [isOver]
    exact (ended frame mem u ends).imp_left fun before => driven.ended frame before u ends
  ending u mem isOver' := by
    by_cases same : u = t
    · exact same ▸ ends
    · rw [isOver] at isOver'
      rw [txs] at mem
      rcases driven.ending u mem (isOver'.resolve_right same) with aborted | ⟨frame,mem,ends⟩
      · exact .inl (kept _ aborted)
      · exact .inr ⟨frame,frames frame mem,ends⟩

theorem dueOf_settlesOf {task : Task} {pending : List Item}
    (mem : task ∈ settlesOf pending t ++ [.aborted t]) (of : task.dueOf u = true) : u = t := by
  rcases List.mem_append.mp mem with settles | last
  · obtain ⟨item,-,rfl⟩ := List.mem_map.mp settles
    exact (of_decide_eq_true of).symm
  · rw [List.mem_singleton.mp last] at of
    exact (of_decide_eq_true of).symm

theorem over_abortTx (scope : Option (List Nat)) : (Λ.abortTx t scope).Over u ↔ Λ.Over u ∨ u = t := by
  by_cases finished : (Λ.tx t).state = .finished
  · rw [abortTx_finished Λ finished]
    constructor
    · exact .inl
    · rintro (isOver | rfl)
      · exact isOver
      · exact .inl finished
  · rw [abortTx_eq Λ finished]
    by_cases same : u = t
    · subst same
      refine iff_of_true (.inl ?_) (.inr rfl)
      rw [set_tx_self]
      rfl
    · rw [or_iff_left same]
      refine over_congr ?_ fun _ => Iff.rfl
      rw [set_tx_other _ same]

theorem Driven.abortTx (driven : Λ.Driven) (scope : Option (List Nat)) : (Λ.abortTx t scope).Driven := by
  have isOver := fun u => over_abortTx (Λ := Λ) (t := t) (u := u) scope
  by_cases finished : (Λ.tx t).state = .finished
  · rw [abortTx_finished Λ finished]
    exact driven
  · rw [abortTx_eq Λ finished] at isOver ⊢
    refine driven.finish (t := t) rfl rfl ?_ ?_ isOver ?_ ?_ (fun _ mem => mem) (fun _ mem _ _ => .inl mem)
      (.inl ?_)
    · intro u other
      rw [set_tx_other _ other]
    · rw [set_tx_self]
      rfl
    · intro task mem
      exact List.mem_append_left _ (List.mem_append_left _ mem)
    · intro task mem u of
      have found : task ∈ Λ.tasks ++ settlesOf (Λ.tx t).queue t ++ [.aborted t] := mem
      rw [List.append_assoc] at found
      exact (List.mem_append.mp found).imp_right fun new => dueOf_settlesOf new of
    · exact List.mem_append_right _ List.mem_cons_self

theorem Driven.complete (driven : Λ.Driven) (ready : Λ.Ready t) (scope : Option (List Nat)) :
    (Λ.complete t scope).Driven := by
  rw [complete_eq]
  have tx : ∀ u,Ledger.tx ((({ Λ with upgradeTx := Λ.upgradeAfter t }.set t (Λ.completedTx t scope)).record
      (.ended t false)).push (.completing t)) u =
      (({ Λ with upgradeTx := Λ.upgradeAfter t }.set t (Λ.completedTx t scope)).tx u) := fun _ => rfl
  refine driven.finish (t := t) rfl rfl ?_ ?_ ?_ (fun _ mem => mem) (fun _ mem _ _ => .inl mem) ?_ ?_ ?_
  · intro u other
    rw [tx,set_tx_other _ other]
  · rw [tx,set_tx_self]
    rfl
  · intro u
    rw [over_push rfl]
    by_cases same : u = t
    · subst same
      refine iff_of_true (.inl ?_) (.inr rfl)
      rw [show ∀ K : Ledger,∀ event,(K.record event).tx = K.tx from fun _ _ => rfl,set_tx_self]
      rfl
    · rw [or_iff_left same]
      refine over_congr ?_ fun _ => Iff.rfl
      rw [show ∀ K : Ledger,∀ event,(K.record event).tx = K.tx from fun _ _ => rfl,set_tx_other _ same]
  · intro frame mem
    exact List.mem_cons_of_mem _ mem
  · intro frame mem u ends
    rcases List.mem_cons.mp mem with rfl | before
    · exact .inr (of_decide_eq_true ends).symm
    · exact .inl before
  · exact .inr ⟨.completing t,List.mem_cons_self,by simp [Frame.endsTx]⟩

/-! ### Finalizing -/

theorem schedule_scheduled (t : Nat) : ((Λ.schedule t).tx t).scheduled = true := by
  unfold schedule
  split
  next timed => exact timed
  next => rw [set_tx_self]

theorem pump_scheduled (framed : Λ.Framed) (txs : List Nat) (mem : u ∈ txs)
    (unfinished : (Λ.tx u).state ≠ .finished) :
    ((txs.foldl (fun Λ t => if (Λ.tx t).state ≠ .finished then Λ.schedule t else Λ) Λ).tx u).scheduled =
      true := by
  induction txs generalizing Λ with
  | nil => cases mem
  | cons t rest ih =>
    rw [List.foldl_cons]
    have first : Quiet Λ (if (Λ.tx t).state ≠ .finished then Λ.schedule t else Λ) := by
      split_ifs with open_
      · refine schedule_quiet ?_
        by_contra late
        exact open_ (framed.unmade t (Nat.not_lt.mp late)).1
      · exact .refl Λ
    rcases List.mem_cons.mp mem with rfl | later
    · refine (pump_quiet (first.framed framed) rest).scheduled u ?_
      rw [if_pos unfinished]
      exact schedule_scheduled u
    · exact ih (first.framed framed) later (by rwa [first.state])

theorem finishUpgrade_txs (t : Nat) : (Λ.finishUpgrade t).txs = Λ.txs := by
  unfold finishUpgrade
  dsimp only
  split
  · rfl
  · split
    · rfl
    · split <;> rfl

theorem pump_txs (txs : List Nat) :
    (txs.foldl (fun Λ t => if (Λ.tx t).state ≠ .finished then Λ.schedule t else Λ) Λ).txs = Λ.txs := by
  induction txs generalizing Λ with
  | nil => rfl
  | cons t rest ih =>
    rw [List.foldl_cons,ih]
    split
    · unfold schedule
      split <;> rfl
    · rfl

theorem finalizeTx_txs (t : Nat) : (Λ.finalizeTx t).txs = Λ.txs.erase t := by
  have pumped : ∀ K : Ledger,K.pumpDb.txs = K.txs := fun K => pump_txs K.txs
  unfold finalizeTx
  dsimp only
  rw [show ∀ (K : Ledger) change,(K.connect change).txs = K.txs from fun _ _ => rfl,pumped,
    finishUpgrade_txs]

theorem finalizeTx_scheduled (framed : Λ.Framed) (mem : u ∈ Λ.txs.erase t)
    (unfinished : (Λ.tx u).state ≠ .finished) : ((Λ.finalizeTx t).tx u).scheduled = true := by
  have first : Quiet Λ { Λ with
      txs := Λ.txs.erase t
      connections := Λ.connections.removeTx (Λ.tx t).conn t } :=
    .of_tx rfl rfl rfl rfl ⟨[],by simp,by simp⟩
  have second := first.trans (finishUpgrade_quiet t)
  have listed : u ∈ (finishUpgrade { Λ with
      txs := Λ.txs.erase t
      connections := Λ.connections.removeTx (Λ.tx t).conn t } t).txs := by
    rw [finishUpgrade_txs]
    exact mem
  exact pump_scheduled (second.framed framed) _ listed (by rwa [second.state])

theorem Driven.finalize (framed : Λ.Framed) (driven : Λ.Driven) {frame : Frame} {rest : List Frame}
    (frames : Λ.frames = frame :: rest) (ends : frame.endsTx t = true)
    (isOver : (Λ.tx t).state = .finished) : (Λ.leave.finalizeTx t).Driven := by
  have plain : frame.isCloning = false := by
    cases frame with
    | cloning u target prev => cases ends
    | _ => rfl
  have quiet := finalizeTx_quiet framed.leave t
  have txs : (Λ.leave.finalizeTx t).txs = Λ.txs.erase t := finalizeTx_txs t
  have same : ∀ u,(Λ.leave.finalizeTx t).Over u ↔ Λ.Over u :=
    fun u => (quiet.isOver u).trans (over_leave frames plain)
  have rest_frames : (Λ.leave.finalizeTx t).frames = rest := by
    rw [quiet.frames,leave,frames,List.tail_cons]
  refine ⟨?_,?_,?_,?_,?_,?_,?_,?_⟩
  · rw [txs]
    exact driven.nodup.erase t
  · intro u mem
    rw [txs] at mem
    exact quiet.nextTx ▸ driven.made u (List.mem_of_mem_erase mem)
  · intro u made unfinished
    rw [same] at unfinished
    rw [quiet.nextTx] at made
    have other : u ≠ t := by
      rintro rfl
      exact unfinished (.inl isOver)
    rw [txs]
    exact (List.mem_erase_of_ne other).mpr (driven.listed u made unfinished)
  · intro u timed
    rcases quiet.timed u timed with before | now
    · exact quiet.kept (driven.timed u before)
    · exact now
  · intro u mem _ unfinished
    rw [txs] at mem
    rw [same] at unfinished
    exact .inl (finalizeTx_scheduled framed.leave mem fun finished => unfinished (.inl finished))
  · intro task mem u of
    exact (same u).mpr (driven.due task (quiet.due mem of) u of)
  · intro other mem u ends
    rw [rest_frames] at mem
    exact (same u).mpr (driven.ended other (frames ▸ List.mem_cons_of_mem frame mem) u ends)
  · intro u mem isOver'
    rw [txs] at mem
    rw [same] at isOver'
    obtain ⟨other,listed⟩ := (driven.nodup.mem_erase_iff).mp mem
    rcases driven.ending u listed isOver' with aborted | ⟨frame',mem',ends'⟩
    · exact .inl (quiet.kept aborted)
    · refine .inr ⟨frame',?_,ends'⟩
      rw [frames] at mem'
      rw [rest_frames]
      refine (List.mem_cons.mp mem').resolve_left ?_
      rintro rfl
      cases frame' with
      | completing v => exact other ((of_decide_eq_true ends').symm.trans (of_decide_eq_true ends))
      | aborting v => exact other ((of_decide_eq_true ends').symm.trans (of_decide_eq_true ends))
      | _ => cases ends

/-! ### Timers -/

theorem timer_other {task : Task} {tasks : List Task} (timer : Λ.tasks = task :: tasks)
    (other : task ≠ .step u) (before : Task.step u ∈ Λ.tasks) : Task.step u ∈ tasks := by
  rw [timer] at before
  exact (List.mem_cons.mp before).resolve_left fun same => other same.symm

theorem Driven.settle (driven : Λ.Driven) {item : Item} {tasks : List Task}
    (timer : Λ.tasks = .settle t item :: tasks) (outcome : Except DomError Result) :
    (Λ.settle t item outcome tasks).Driven := by
  refine driven.calm ⟨rfl,rfl,fun _ => rfl,fun _ => rfl,fun _ => rfl,
    fun u => over_congr rfl fun _ => Iff.rfl,fun _ timed => timed,?_,?_,driven.ended,?_⟩
  · intro u timed before
    exact timer_other timer nofun (before timed)
  · intro task mem u _
    exact timer ▸ List.mem_cons_of_mem _ mem
  · rintro u (aborted | frame)
    · rw [timer] at aborted
      exact .inl ((List.mem_cons.mp aborted).resolve_left nofun)
    · exact .inr frame

theorem Driven.endAborted (driven : Λ.Driven) {tasks : List Task}
    (timer : Λ.tasks = .aborted t :: tasks) (isOver : (Λ.tx t).state = .finished) :
    ({ Λ with tasks }.endAborted t).Driven := by
  rw [endAborted_eq]
  refine driven.calm ⟨rfl,rfl,fun _ => rfl,fun _ => rfl,fun _ => rfl,?_,fun _ timed => timed,?_,?_,?_,?_⟩
  · intro u
    rw [over_push rfl]
    exact over_congr rfl fun _ => Iff.rfl
  · intro u timed before
    exact timer_other timer nofun (before timed)
  · intro task mem u _
    exact timer ▸ List.mem_cons_of_mem _ mem
  · intro frame mem u ends
    rcases List.mem_cons.mp mem with rfl | before
    · exact .inl (of_decide_eq_true ends ▸ isOver)
    · exact driven.ended frame before u ends
  · rintro u (aborted | ⟨frame,mem,ends⟩)
    · rw [timer] at aborted
      rcases List.mem_cons.mp aborted with same | later
      · exact .inr ⟨.aborting t,List.mem_cons_self,by simp [Frame.endsTx,Task.aborted.inj same]⟩
      · exact .inl later
    · exact .inr ⟨frame,List.mem_cons_of_mem _ mem,ends⟩

theorem Driven.again (driven : Λ.Driven) {tasks : List Task} (timer : Λ.tasks = .step t :: tasks) :
    (Λ.again t tasks).Driven := by
  have tx : ∀ u,(Λ.again t tasks).tx u = (Λ.set t { Λ.tx t with scheduled := true }).tx u := fun _ => rfl
  have kinds : ∀ u,((Λ.again t tasks).tx u).mode = (Λ.tx u).mode ∧
      ((Λ.again t tasks).tx u).scope = (Λ.tx u).scope ∧ ((Λ.again t tasks).tx u).hold = (Λ.tx u).hold ∧
      ((Λ.again t tasks).tx u).state = (Λ.tx u).state := by
    intro u
    rw [tx]
    by_cases same : u = t
    · subst same
      rw [set_tx_self]
      exact ⟨rfl,rfl,rfl,rfl⟩
    · rw [set_tx_other _ same]
      exact ⟨rfl,rfl,rfl,rfl⟩
  refine driven.calm ⟨rfl,rfl,fun u => (kinds u).1,fun u => (kinds u).2.1,fun u => (kinds u).2.2.1,
    fun u => over_congr (kinds u).2.2.2 fun _ => Iff.rfl,?_,?_,?_,driven.ended,?_⟩
  · intro u timed
    rw [tx]
    by_cases same : u = t
    · subst same
      rw [set_tx_self]
    · rw [set_tx_other _ same]
      exact timed
  · intro u timed before
    by_cases same : u = t
    · subst same
      exact List.mem_append_right tasks List.mem_cons_self
    · rw [tx,set_tx_other _ same] at timed
      refine List.mem_append_left _ (timer_other timer ?_ (before timed))
      rintro ⟨⟩
      exact same rfl
  · intro task mem u of
    rcases List.mem_append.mp mem with before | now
    · exact timer ▸ List.mem_cons_of_mem _ before
    · rw [List.mem_singleton.mp now] at of
      cases of
  · rintro u (aborted | frame)
    · rw [timer] at aborted
      exact .inl (List.mem_append_left _ ((List.mem_cons.mp aborted).resolve_left nofun))
    · exact .inr frame

theorem Driven.rest (driven : Λ.Driven) {tasks : List Task} (timer : Λ.tasks = .step t :: tasks)
    (settled : Λ.Over t ∨ (Λ.tx t).hold = true ∨ Λ.canStart t = false) : (Λ.rest t tasks).Driven := by
  have tx : ∀ u,(Λ.rest t tasks).tx u = (Λ.set t { Λ.tx t with scheduled := false }).tx u := fun _ => rfl
  have kinds : ∀ u,((Λ.rest t tasks).tx u).mode = (Λ.tx u).mode ∧
      ((Λ.rest t tasks).tx u).scope = (Λ.tx u).scope ∧ ((Λ.rest t tasks).tx u).hold = (Λ.tx u).hold ∧
      ((Λ.rest t tasks).tx u).state = (Λ.tx u).state := by
    intro u
    rw [tx]
    by_cases same : u = t
    · subst same
      rw [set_tx_self]
      exact ⟨rfl,rfl,rfl,rfl⟩
    · rw [set_tx_other _ same]
      exact ⟨rfl,rfl,rfl,rfl⟩
  have isOver : ∀ u,(Λ.rest t tasks).Over u ↔ Λ.Over u :=
    fun u => over_congr (kinds u).2.2.2 fun _ => Iff.rfl
  have blocked : ∀ u,Λ.Blocked u → (Λ.rest t tasks).Blocked u := by
    intro u
    unfold Blocked canStart
    rw [canStartAmong_congr (fun u => (kinds u).1) fun u => (kinds u).2.1]
    refine Or.imp_right ?_
    rintro ⟨v,mem,isOver'⟩
    exact ⟨v,mem,(isOver v).mpr isOver'⟩
  refine ⟨driven.nodup,driven.made,?_,?_,?_,?_,?_,?_⟩
  · intro u made unfinished
    rw [isOver] at unfinished
    exact driven.listed u made unfinished
  · intro u timed
    by_cases same : u = t
    · subst same
      rw [tx,set_tx_self] at timed
      cases timed
    · rw [tx,set_tx_other _ same] at timed
      refine timer_other timer ?_ (driven.timed u timed)
      rintro ⟨⟩
      exact same rfl
  · intro u mem born unfinished
    rw [(kinds u).2.2.1] at born
    rw [isOver] at unfinished
    by_cases same : u = t
    · subst same
      rcases settled with finished | held | waits
      · exact absurd finished unfinished
      · rw [born] at held
        cases held
      · exact .inr (blocked u (.inl waits))
    · rw [tx,set_tx_other _ same]
      exact (driven.driven u mem born unfinished).imp_right (blocked u)
  · intro task mem u of
    exact (isOver u).mpr (driven.due task (timer ▸ List.mem_cons_of_mem _ mem) u of)
  · intro frame mem u ends
    exact (isOver u).mpr (driven.ended frame mem u ends)
  · intro u mem isOver'
    rcases driven.ending u mem ((isOver u).mp isOver') with aborted | frame
    · rw [timer] at aborted
      exact .inl ((List.mem_cons.mp aborted).resolve_left nofun)
    · exact .inr frame

theorem Framed.held_of_releasing (framed : Λ.Framed) {tasks : List Task}
    (timer : Λ.tasks = .upgradeNeeded t :: tasks) : (Λ.tx t).hold = true := by
  have count := framed.releasing t
  rw [timer,List.countP_cons_of_pos (by simp [Task.releases])] at count
  by_contra free
  rw [if_neg free] at count
  exact Nat.succ_ne_zero _ count

theorem schedule_txs (t : Nat) : (Λ.schedule t).txs = Λ.txs := by
  unfold schedule
  split <;> rfl

theorem Driven.release (framed : Λ.Framed) (driven : Λ.Driven) {tasks : List Task} (idle : Λ.frames = [])
    (timer : Λ.tasks = .upgradeNeeded t :: tasks) : ({ Λ with tasks }.upgradeNeeded t).Driven := by
  have made : t < Λ.nextTx := framed.timed (.upgradeNeeded t) (by simp [timer]) t rfl
  have inactive := framed.held t (framed.held_of_releasing timer)
  generalize account : { Λ.tx t with state := .active,hold := false } = freed
  generalize connections : (Ledger.deliver { Λ with tasks } (Λ.tx t).conn).connections = k
  let M : Ledger := { Λ with tasks,connections := k }.set t freed
  have result : { Λ with tasks }.upgradeNeeded t = (M.schedule t).push (.upgrading t) := by
    rw [show M = ({ Λ with tasks,connections := k }).set t freed from rfl,← connections,← account]
    rfl
  have quiet : Quiet M (M.schedule t) := schedule_quiet made
  have self : M.tx t = freed := set_tx_self _ t freed
  have other : ∀ u,u ≠ t → M.tx u = Λ.tx u := fun u h => set_tx_other _ h freed
  have mode : ∀ u,((M.schedule t).tx u).mode = (Λ.tx u).mode := by
    intro u
    rw [quiet.mode]
    by_cases same : u = t
    · rw [same,self,← account]
    · rw [other u same]
  have scope : ∀ u,((M.schedule t).tx u).scope = (Λ.tx u).scope := by
    intro u
    rw [quiet.scope]
    by_cases same : u = t
    · rw [same,self,← account]
    · rw [other u same]
  have isOver : ∀ u,((M.schedule t).push (.upgrading t)).Over u ↔ Λ.Over u := by
    intro u
    rw [over_push rfl,quiet.isOver]
    by_cases same : u = t
    · subst same
      rw [over_idle (Λ := M) idle,over_idle idle,self,inactive,← account]
      exact iff_of_false nofun nofun
    · exact over_congr (by rw [other u same]) fun _ => Iff.rfl
  have unfinished : ¬Λ.Over t := by
    rw [over_idle idle,inactive]
    nofun
  have blocked : ∀ u,Λ.Blocked u → ((M.schedule t).push (.upgrading t)).Blocked u := by
    intro u
    unfold Blocked canStart
    rw [canStartAmong_congr (K := (M.schedule t).push (.upgrading t)) mode scope,show ((M.schedule t).push (.upgrading t)).txs = Λ.txs from
      schedule_txs (Λ := M) t]
    refine Or.imp_right ?_
    rintro ⟨v,mem,isOver'⟩
    exact ⟨v,mem,(isOver v).mpr isOver'⟩
  have txs : ((M.schedule t).push (.upgrading t)).txs = Λ.txs := schedule_txs (Λ := M) t
  have kept : ∀ task ∈ tasks,task ∈ (M.schedule t).tasks := fun task mem => quiet.kept mem
  rw [result]
  refine ⟨?_,?_,?_,?_,?_,?_,?_,?_⟩
  · rw [txs]
    exact driven.nodup
  · intro u mem
    rw [txs] at mem
    exact quiet.nextTx ▸ driven.made u mem
  · intro u made open_
    rw [isOver] at open_
    rw [txs]
    exact driven.listed u (quiet.nextTx ▸ made) open_
  · intro u timed
    rcases quiet.timed u timed with before | now
    · by_cases same : u = t
      · rw [same] at before ⊢
        rw [self,← account] at before
        exact kept _ (timer_other timer nofun (driven.timed t before))
      · rw [other u same] at before
        exact kept _ (timer_other timer nofun (driven.timed u before))
    · exact now
  · intro u mem born open_
    rw [isOver] at open_
    rw [txs] at mem
    by_cases same : u = t
    · rw [same]
      exact .inl (schedule_scheduled (Λ := M) t)
    · have before : (Λ.tx u).hold = false := by
        rw [← other u same,← quiet.hold u]
        exact born
      refine (driven.driven u mem before open_).imp (fun timed => ?_) (blocked u)
      exact quiet.scheduled u (by rw [other u same]; exact timed)
  · intro task mem u of
    rw [isOver]
    exact driven.due task (timer ▸ List.mem_cons_of_mem _ (quiet.due mem of)) u of
  · intro frame mem u ends
    rw [show ((M.schedule t).push (.upgrading t)).frames = .upgrading t :: (M.schedule t).frames from rfl,
      quiet.frames,show M.frames = Λ.frames from rfl,idle] at mem
    rw [List.mem_singleton.mp mem] at ends
    cases ends
  · intro u mem isOver'
    rw [txs] at mem
    rw [isOver] at isOver'
    rcases driven.ending u mem isOver' with aborted | ⟨frame,mem,ends⟩
    · rw [timer] at aborted
      exact .inl (kept _ ((List.mem_cons.mp aborted).resolve_left nofun))
    · rw [idle] at mem
      cases mem

/-! ### Moves -/

theorem Driven.connect (driven : Λ.Driven) (change : Connections × List ConnTask) :
    (Λ.connect change).Driven := driven.calm ((connect_quiet change).calm driven rfl)

theorem Driven.update (driven : Λ.Driven) {account : Account} (tx : K.tx = Function.update Λ.tx t account)
    (same : account.mode = (Λ.tx t).mode ∧ account.scope = (Λ.tx t).scope ∧
      account.hold = (Λ.tx t).hold ∧ account.scheduled = (Λ.tx t).scheduled)
    (state : account.state = (Λ.tx t).state) (txs : K.txs = Λ.txs) (nextTx : K.nextTx = Λ.nextTx)
    (tasks : K.tasks = Λ.tasks) (frames : K.frames = Λ.frames) : K.Driven := by
  refine driven.calm (.of_tasks driven txs nextTx (kind_update tx same) ?_ tasks ?_)
  · intro u
    exact over_congr (state_update tx state u) fun _ => by rw [frames]
  · intro frame u _
    rw [frames]

theorem Driven.record (driven : Λ.Driven) (event : Event) : (Λ.record event).Driven :=
  driven.calm (.of_tasks driven rfl rfl (fun _ => ⟨rfl,rfl,rfl,rfl⟩) (fun _ => over_congr rfl fun _ => Iff.rfl)
    rfl fun _ _ _ => Iff.rfl)

theorem Driven.become (driven : Λ.Driven) (ready : Λ.Ready t) {state : TxState}
    (before : (Λ.tx t).state ≠ .finished) (after : state ≠ .finished) : (Λ.become t state).Driven :=
  driven.calm (.of_tasks driven rfl rfl (kind_update rfl ⟨rfl,rfl,rfl,rfl⟩)
    (fun _ => over_become ready before after) rfl fun _ _ _ => Iff.rfl)

theorem Driven.push (driven : Λ.Driven) {frame : Frame} (plain : frame.isCloning = false)
    (going : ∀ u,frame.endsTx u = false) : (Λ.push frame).Driven := by
  refine driven.calm (.of_tasks driven rfl rfl (fun _ => ⟨rfl,rfl,rfl,rfl⟩) (fun _ => over_push plain) rfl ?_)
  intro other u ends
  refine ⟨fun mem => (List.mem_cons.mp mem).resolve_left ?_,List.mem_cons_of_mem frame⟩
  rintro rfl
  rw [going u] at ends
  cases ends

theorem Driven.leave (driven : Λ.Driven) {frame : Frame} {rest : List Frame}
    (frames : Λ.frames = frame :: rest) (plain : frame.isCloning = false)
    (going : ∀ u,frame.endsTx u = false) : Λ.leave.Driven := by
  refine driven.calm (.of_tasks driven rfl rfl (fun _ => ⟨rfl,rfl,rfl,rfl⟩) (fun _ => over_leave frames plain)
    rfl ?_)
  intro other u ends
  rw [Ledger.leave,frames]
  refine ⟨List.mem_cons_of_mem frame,fun mem => (List.mem_cons.mp mem).resolve_left ?_⟩
  rintro rfl
  rw [going u] at ends
  cases ends

theorem Frame.isPlain_cloning {frame : Frame} (plain : frame.isPlain = true) : frame.isCloning = false := by
  cases frame with
  | cloning t target prev => cases plain
  | _ => rfl

theorem Frame.isPlain_endsTx {frame : Frame} (plain : frame.isPlain = true) (u : Nat) :
    frame.endsTx u = false := by
  cases frame with
  | completing t | aborting t => cases plain
  | _ => rfl

theorem Driven.performed (driven : Λ.Driven) {item : Item} {mark : Nat} {rest : List Frame}
    (frames : Λ.frames = .running t item mark :: rest) (outcome : Except DomError Result) :
    (Λ.performed t item outcome).Driven :=
  (driven.record (.performed t item outcome)).leave frames rfl fun _ => rfl

def newTx (c : Nat) (mode : Mode) (scope : Option (List Nat)) : Account where
  conn := c
  mode := mode
  scope := scope
  state := .active
  queue := []
  versions := []
  aborted := false
  scheduled := true
  hold := false
  openReq := none
  oldVersion := 0

theorem create_eq (c : Nat) (mode : Mode) (scope : Option (List Nat)) :
    (Λ.createTx c mode scope).schedule Λ.nextTx = { Λ with
      txs := Λ.txs ++ [Λ.nextTx]
      nextTx := Λ.nextTx + 1
      connections := Λ.connections.addTx c Λ.nextTx
      tasks := Λ.tasks ++ [Task.step Λ.nextTx] }.set Λ.nextTx (newTx c mode scope) := by
  unfold schedule newTx
  simp [createTx,Ledger.set,later]

theorem Driven.create (framed : Λ.Framed) (driven : Λ.Driven) (c : Nat) (mode : Mode)
    (scope : Option (List Nat)) : ((Λ.createTx c mode scope).schedule Λ.nextTx).Driven := by
  rw [create_eq]
  exact driven.add framed rfl rfl rfl rfl rfl (fun _ => rfl) nofun (fun _ => rfl) (.inr rfl)

theorem Driven.turn (driven : Λ.Driven) {task : ConnTask} {tasks : List Task}
    (timer : Λ.tasks = .connection task :: tasks) : Driven { Λ with tasks } := by
  refine driven.calm ⟨rfl,rfl,fun _ => rfl,fun _ => rfl,fun _ => rfl,fun _ => over_congr rfl fun _ => Iff.rfl,
    fun _ timed => timed,?_,?_,driven.ended,?_⟩
  · intro u timed before
    exact timer_other timer nofun (before timed)
  · intro task mem u _
    exact timer ▸ List.mem_cons_of_mem _ mem
  · rintro u (aborted | frame)
    · rw [timer] at aborted
      exact .inl ((List.mem_cons.mp aborted).resolve_left nofun)
    · exact .inr frame

theorem Driven.upgrade (framed : Λ.Framed) (driven : Λ.Driven) (req c version : Nat) :
    (Λ.upgrade req c version).Driven := by
  cases database : Λ.database with
  | none =>
    unfold Ledger.upgrade
    rw [database]
    exact driven
  | some old =>
    rw [upgrade_eq Λ database]
    exact driven.add framed rfl rfl rfl rfl rfl (fun _ => rfl) nofun nofun (.inl rfl)

theorem connectionTask_txs (task : ConnTask) : (Λ.connectionTask task).txs = Λ.txs ∨
    ∃ req c version,Λ.connectionTask task = Λ.upgrade req c version := by
  unfold connectionTask runOpen runDelete
  cases task with
  | closed =>
    cases Λ.connections.processing with
    | none => exact .inl rfl
    | some p =>
      dsimp only
      cases p.request with
      | openDb req version => exact .inr ⟨req,p.conn,p.version,rfl⟩
      | deleteDb req => exact .inl rfl
  | opened req found => cases found <;> exact .inl rfl
  | _ =>
    left
    dsimp only
    repeat' split
    all_goals rfl

theorem Driven.move (framed : Λ.Framed) (driven : Λ.Driven) (move : Λ.Move K) : K.Driven := by
  cases move with
  | request request => exact (driven.record _).connect _
  | close c => exact driven.connect _
  | create c mode scope made delivered free staying kind => exact driven.create framed c mode (some scope)
  | place t op req ready =>
    exact driven.update (t := t) rfl ⟨rfl,rfl,rfl,rfl⟩ rfl rfl rfl rfl rfl
  | schedule t made => exact driven.calm ((schedule_quiet made).calm driven (schedule_txs t))
  | become t state ready before after => exact driven.become ready before after
  | remember t n => exact driven.update (t := t) rfl ⟨rfl,rfl,rfl,rfl⟩ rfl rfl rfl rfl rfl
  | rollback t item mark rest frames =>
    exact driven.update (t := t) rfl ⟨rfl,rfl,rfl,rfl⟩ rfl rfl rfl rfl rfl
  | abort t scope made born => exact driven.abortTx scope
  | enter frame ready listed plain => exact driven.push (Frame.isPlain_cloning plain) (Frame.isPlain_endsTx plain)
  | leave frame rest frames plain =>
    exact driven.leave frames (Frame.isPlain_cloning plain) (Frame.isPlain_endsTx plain)
  | mask t target ready listed =>
    refine driven.calm (.of_tasks driven rfl rfl (kind_update rfl ⟨rfl,rfl,rfl,rfl⟩)
      (fun _ => over_mask ready target) rfl ?_)
    intro other u ends
    refine ⟨fun mem => (List.mem_cons.mp mem).resolve_left ?_,List.mem_cons_of_mem _⟩
    rintro rfl
    cases ends
  | unmask t target prev rest frames =>
    refine driven.calm (.of_tasks driven rfl rfl (kind_update rfl ⟨rfl,rfl,rfl,rfl⟩)
      (fun _ => over_unmask framed frames) rfl ?_)
    intro other u ends
    rw [show (Λ.unmask t prev).frames = Λ.frames.tail from rfl,frames]
    refine ⟨List.mem_cons_of_mem _,fun mem => (List.mem_cons.mp mem).resolve_left ?_⟩
    rintro rfl
    cases ends
  | again t tasks timer => exact driven.again timer
  | rest t tasks timer settled => exact driven.rest timer settled
  | start t item queue idle made born unfinished next =>
    have taken : (Λ.set t { Λ.tx t with queue }).Driven :=
      driven.update (t := t) rfl ⟨rfl,rfl,rfl,rfl⟩ rfl rfl rfl rfl rfl
    exact taken.push rfl fun _ => rfl
  | finish t item mark rest frames outcome silent => exact driven.performed frames outcome
  | fire t item mark rest frames outcome error asks =>
    have left := driven.performed frames outcome
    have below := framed.ready_of_leave frames
    have ready : (Λ.performed t item outcome).Ready t := ⟨below.made,below.born,below.unmasked⟩
    unfold Ledger.fire
    dsimp only
    split_ifs with inactive
    · have active : ((Λ.performed t item outcome).become t .active).Driven :=
        left.become ready (by rw [inactive]; nofun) nofun
      exact (active.record (.settled t item outcome)).push rfl fun _ => rfl
    · exact (left.record (.settled t item outcome)).push rfl fun _ => rfl
  | fail t item mark rest frames outcome scope doomed =>
    have left := driven.performed frames outcome
    unfold Ledger.fail
    dsimp only
    split_ifs
    · exact left.abortTx scope
    · have queued : ((Λ.performed t item outcome).set t { (Λ.performed t item outcome).tx t with
          queue := item :: ((Λ.performed t item outcome).tx t).queue }).Driven :=
        left.update (t := t) rfl ⟨rfl,rfl,rfl,rfl⟩ rfl rfl rfl rfl rfl
      exact queued.abortTx scope
  | complete t scope idle made born => exact driven.complete (ready_of_idle idle made born) scope
  | finalize t frame rest frames ends isOver => exact driven.finalize framed frames ends isOver
  | settle t item tasks idle timer outcome => exact driven.settle timer outcome
  | endAborted t tasks idle timer isOver => exact driven.endAborted timer isOver
  | release t tasks idle timer => exact driven.release framed idle timer
  | connection task tasks idle timer =>
    have turned := driven.turn timer
    have framed' := framed.turn timer fun _ => rfl
    rcases connectionTask_quiet (Λ := { Λ with tasks }) task with quiet | ⟨req,c,version,same⟩
    · rcases connectionTask_txs (Λ := { Λ with tasks }) task with txs | ⟨req,c,version,same⟩
      · exact turned.calm (quiet.calm turned txs)
      · rw [same]
        exact turned.upgrade framed' req c version
    · rw [same]
      exact turned.upgrade framed' req c version

end Ledger

end Sharko.Script.IndexedDb
