import Sharko.Script.IndexedDb.Moves

/-! The moves keep the frames and timers in shape: they are of transactions that are there,
only the top frame of a transaction makes a clone, and an upgrade that is held waits for one
timer. -/

namespace Sharko.Script.IndexedDb

def Task.releases (t : Nat) : Task → Bool
  | .upgradeNeeded u => u = t
  | _ => false

def Account.core (account : Account) : Account := { account with scheduled := false,openReq := none }

namespace Ledger

structure Framed (Λ : Ledger) : Prop where
  unmade : ∀ t,Λ.nextTx ≤ t → (Λ.tx t).state = .finished ∧ (Λ.tx t).hold = false
  framed : ∀ frame ∈ Λ.frames,frame.t < Λ.nextTx ∧ (Λ.tx frame.t).hold = false
  shape : Λ.frames.Pairwise fun a b => a.t = b.t → b.isCloning = false
  masked : ∀ frame ∈ Λ.frames,frame.isCloning = true →
    (Λ.tx frame.t).state = .inactive ∨ (Λ.tx frame.t).state = .finished
  timed : ∀ task ∈ Λ.tasks,∀ t,task.t? = some t → t < Λ.nextTx
  held : ∀ t,(Λ.tx t).hold = true → (Λ.tx t).state = .inactive
  releasing : ∀ t,Λ.tasks.countP (Task.releases t) = if (Λ.tx t).hold = true then 1 else 0

variable {Λ K : Ledger} {t : Nat}

def Adds (Λ K : Ledger) : Prop :=
  ∃ more,K.tasks = Λ.tasks ++ more ∧
    ∀ task ∈ more,(∀ u,task.t? = some u → u < Λ.nextTx) ∧ ∀ u,task.releases u = false

theorem Adds.same (tasks : K.tasks = Λ.tasks) : Adds Λ K := ⟨[],by simp [tasks],by simp⟩

theorem Adds.timed (adds : Adds Λ K) (framed : Λ.Framed) :
    ∀ task ∈ K.tasks,∀ t,task.t? = some t → t < Λ.nextTx := by
  obtain ⟨more,tasks,kinds⟩ := adds
  intro task mem u of
  rw [tasks] at mem
  rcases List.mem_append.mp mem with before | now
  · exact framed.timed task before u of
  · exact (kinds task now).1 u of

theorem Adds.releasing (adds : Adds Λ K) (u : Nat) :
    K.tasks.countP (Task.releases u) = Λ.tasks.countP (Task.releases u) := by
  obtain ⟨more,tasks,kinds⟩ := adds
  have none_new : more.countP (Task.releases u) = 0 := by
    rw [List.countP_eq_zero]
    intro task mem
    rw [(kinds task mem).2 u]
    exact Bool.false_ne_true
  rw [tasks,List.countP_append,none_new,add_zero]

theorem Framed.touch (framed : Λ.Framed) (nextTx : K.nextTx = Λ.nextTx)
    (frames : K.frames = Λ.frames) (adds : Adds Λ K) (others : ∀ u,u ≠ t → (K.tx u).state = (Λ.tx u).state)
    (hold : ∀ u,(K.tx u).hold = (Λ.tx u).hold)
    (unmasked : (∀ frame ∈ Λ.frames,frame.t = t → frame.isCloning = false) ∨
      (K.tx t).state = .inactive ∨ (K.tx t).state = .finished)
    (kept : (Λ.tx t).hold = true → (K.tx t).state = .inactive)
    (made : t < Λ.nextTx ∨ (K.tx t).state = (Λ.tx t).state) : K.Framed where
  unmade u late := by
    rw [nextTx] at late
    have before := framed.unmade u late
    rw [hold]
    by_cases same : u = t
    · subst same
      rcases made with made | kept
      · exact absurd made (Nat.not_lt.mpr late)
      · exact ⟨kept.trans before.1,before.2⟩
    · exact ⟨(others u same).trans before.1,before.2⟩
  framed frame mem := by
    rw [nextTx,hold]
    exact framed.framed frame (frames ▸ mem)
  shape := frames ▸ framed.shape
  masked frame mem cloning := by
    rw [frames] at mem
    by_cases same : frame.t = t
    · rcases unmasked with none | masked
      · rw [none frame mem same] at cloning
        cases cloning
      · exact same ▸ masked
    · rw [others frame.t same]
      exact framed.masked frame mem cloning
  timed := by
    rw [nextTx]
    exact adds.timed framed
  held u held := by
    rw [hold] at held
    by_cases same : u = t
    · subst same
      exact kept held
    · exact (others u same).trans (framed.held u held)
  releasing u := by
    rw [adds.releasing,hold]
    exact framed.releasing u

theorem Framed.same (framed : Λ.Framed) (nextTx : K.nextTx = Λ.nextTx)
    (frames : K.frames = Λ.frames) (adds : Adds Λ K)
    (states : ∀ u,(K.tx u).state = (Λ.tx u).state) (hold : ∀ u,(K.tx u).hold = (Λ.tx u).hold) : K.Framed where
  unmade u late := by
    rw [states,hold]
    exact framed.unmade u (nextTx ▸ late)
  framed frame mem := by
    rw [nextTx,hold]
    exact framed.framed frame (frames ▸ mem)
  shape := frames ▸ framed.shape
  masked frame mem := by
    rw [states]
    exact framed.masked frame (frames ▸ mem)
  timed := by
    rw [nextTx]
    exact adds.timed framed
  held u := by
    rw [states,hold]
    exact framed.held u
  releasing u := by
    rw [adds.releasing,hold]
    exact framed.releasing u

theorem Framed.push (framed : Λ.Framed) (frame : Frame) (ready : Λ.Ready frame.t)
    (masked : frame.isCloning = true →
      (Λ.tx frame.t).state = .inactive ∨ (Λ.tx frame.t).state = .finished) : (Λ.push frame).Framed where
  unmade := framed.unmade
  framed other mem := by
    rcases List.mem_cons.mp mem with rfl | before
    · exact ⟨ready.made,ready.born⟩
    · exact framed.framed other before
  shape := List.pairwise_cons.mpr ⟨fun other mem same => ready.unmasked other mem same.symm,framed.shape⟩
  masked other mem := by
    rcases List.mem_cons.mp mem with rfl | before
    · exact masked
    · exact framed.masked other before
  timed := framed.timed
  held := framed.held
  releasing := framed.releasing

theorem Framed.leave (framed : Λ.Framed) : Λ.leave.Framed where
  unmade := framed.unmade
  framed frame mem := framed.framed frame (List.mem_of_mem_tail mem)
  shape := framed.shape.sublist (List.tail_sublist Λ.frames)
  masked frame mem := framed.masked frame (List.mem_of_mem_tail mem)
  timed := framed.timed
  held := framed.held
  releasing := framed.releasing

theorem Framed.turn (framed : Λ.Framed) {task : Task} {tasks : List Task} (timer : Λ.tasks = task :: tasks)
    (quiet : ∀ u,task.releases u = false) : Framed { Λ with tasks } where
  unmade := framed.unmade
  framed := framed.framed
  shape := framed.shape
  masked := framed.masked
  timed other mem := framed.timed other (timer ▸ List.mem_cons_of_mem task mem)
  held := framed.held
  releasing u := by
    have count := framed.releasing u
    rw [timer,List.countP_cons_of_neg (by simp [quiet u])] at count
    exact count

theorem Framed.ready_of_active (framed : Λ.Framed) (active : (Λ.tx t).state = .active) : Λ.Ready t where
  made := by
    by_contra late
    rw [(framed.unmade t (Nat.not_lt.mp late)).1] at active
    cases active
  born := by
    by_contra held
    rw [framed.held t (by simpa using held)] at active
    cases active
  unmasked frame mem of := by
    by_contra cloning
    have masked := framed.masked frame mem (by simpa using cloning)
    rw [of,active] at masked
    rcases masked with inactive | finished
    · cases inactive
    · cases finished

theorem Framed.ready_of_leave (framed : Λ.Framed) {frame : Frame} {rest : List Frame}
    (frames : Λ.frames = frame :: rest) : Λ.leave.Ready frame.t where
  made := (framed.framed frame (by simp [frames])).1
  born := (framed.framed frame (by simp [frames])).2
  unmasked other mem of := by
    have below : other ∈ rest := by simpa [Ledger.leave,frames] using mem
    have shape := framed.shape
    rw [frames] at shape
    exact (List.pairwise_cons.mp shape).1 other below of.symm

theorem ready_of_idle (idle : Λ.frames = []) (made : t < Λ.nextTx) (born : (Λ.tx t).hold = false) : Λ.Ready t :=
  ⟨made,born,by simp [idle]⟩

/-- Timers of transactions and connections are added. -/
structure Quiet (Λ K : Ledger) : Prop where
  nextTx : K.nextTx = Λ.nextTx
  nextItem : K.nextItem = Λ.nextItem
  frames : K.frames = Λ.frames
  tx : ∀ u,(K.tx u).core = (Λ.tx u).core
  scheduled : ∀ u,(Λ.tx u).scheduled = true → (K.tx u).scheduled = true
  timed : ∀ u,(K.tx u).scheduled = true → (Λ.tx u).scheduled = true ∨ .step u ∈ K.tasks
  tasks : ∃ more,K.tasks = Λ.tasks ++ more ∧
    ∀ task ∈ more,(∃ u,u < Λ.nextTx ∧ task = .step u) ∨ ∃ k,task = .connection k

theorem Quiet.of_tx (nextTx : K.nextTx = Λ.nextTx) (nextItem : K.nextItem = Λ.nextItem)
    (frames : K.frames = Λ.frames) (tx : K.tx = Λ.tx) (tasks : ∃ more,K.tasks = Λ.tasks ++ more ∧
      ∀ task ∈ more,(∃ u,u < Λ.nextTx ∧ task = .step u) ∨ ∃ k,task = .connection k) : Quiet Λ K where
  nextTx := nextTx
  nextItem := nextItem
  frames := frames
  tx u := by rw [tx]
  scheduled u timed := by rwa [tx]
  timed u timed := .inl (by rwa [← tx])
  tasks := tasks

theorem Quiet.refl (Λ : Ledger) : Quiet Λ Λ := .of_tx rfl rfl rfl rfl ⟨[],by simp,by simp⟩

theorem Quiet.trans {M : Ledger} (first : Quiet Λ K) (second : Quiet K M) : Quiet Λ M := by
  obtain ⟨more,tasks,kinds⟩ := first.tasks
  obtain ⟨more',tasks',kinds'⟩ := second.tasks
  refine ⟨second.nextTx.trans first.nextTx,second.nextItem.trans first.nextItem,
    second.frames.trans first.frames,fun u => (second.tx u).trans (first.tx u),
    fun u timed => second.scheduled u (first.scheduled u timed),?_,more ++ more',
    by rw [tasks',tasks,List.append_assoc],?_⟩
  · intro u timed
    rcases second.timed u timed with before | now
    · refine (first.timed u before).imp_right ?_
      intro mem
      rw [tasks']
      exact List.mem_append_left more' mem
    · exact .inr now
  intro task mem
  rcases List.mem_append.mp mem with before | now
  · exact kinds task before
  · exact first.nextTx ▸ kinds' task now

theorem Quiet.state (quiet : Quiet Λ K) (u : Nat) : (K.tx u).state = (Λ.tx u).state := by
  have same := congrArg Account.state (quiet.tx u)
  exact same

theorem Quiet.hold (quiet : Quiet Λ K) (u : Nat) : (K.tx u).hold = (Λ.tx u).hold := by
  have same := congrArg Account.hold (quiet.tx u)
  exact same

theorem Quiet.queue (quiet : Quiet Λ K) (u : Nat) : (K.tx u).queue = (Λ.tx u).queue := by
  have same := congrArg Account.queue (quiet.tx u)
  exact same

theorem Quiet.adds (quiet : Quiet Λ K) : Adds Λ K := by
  obtain ⟨more,tasks,kinds⟩ := quiet.tasks
  refine ⟨more,tasks,?_⟩
  intro task mem
  rcases kinds task mem with ⟨u,made,rfl⟩ | ⟨k,rfl⟩
  · refine ⟨?_,fun _ => rfl⟩
    intro v of
    cases of
    exact made
  · exact ⟨by simp [Task.t?],fun _ => rfl⟩

theorem Quiet.framed (quiet : Quiet Λ K) (framed : Λ.Framed) : K.Framed :=
  framed.same quiet.nextTx quiet.frames quiet.adds quiet.state quiet.hold

theorem Quiet.ready (quiet : Quiet Λ K) (ready : Λ.Ready t) : K.Ready t :=
  ⟨quiet.nextTx ▸ ready.made,(quiet.hold t).trans ready.born,quiet.frames ▸ ready.unmasked⟩

theorem connect_quiet (change : Connections × List ConnTask) : Quiet Λ (Λ.connect change) := by
  refine .of_tx rfl rfl rfl rfl ⟨change.2.map .connection,rfl,?_⟩
  intro task mem
  obtain ⟨k,-,rfl⟩ := List.mem_map.mp mem
  exact .inr ⟨k,rfl⟩

theorem set_quiet {account : Account} (core : account.core = (Λ.tx t).core)
    (scheduled : account.scheduled = (Λ.tx t).scheduled) : Quiet Λ (Λ.set t account) := by
  have same : ∀ u,((Λ.set t account).tx u).core = (Λ.tx u).core ∧
      ((Λ.set t account).tx u).scheduled = (Λ.tx u).scheduled := by
    intro u
    by_cases other : u = t
    · subst other
      rw [set_tx_self]
      exact ⟨core,scheduled⟩
    · rw [set_tx_other _ other]
      exact ⟨rfl,rfl⟩
  refine ⟨rfl,rfl,rfl,fun u => (same u).1,?_,?_,[],by simp [set],by simp⟩
  · intro u timed
    rw [(same u).2]
    exact timed
  · intro u timed
    rw [(same u).2] at timed
    exact .inl timed

theorem schedule_quiet (made : t < Λ.nextTx) : Quiet Λ (Λ.schedule t) := by
  unfold schedule
  split
  · exact .refl Λ
  · refine ⟨rfl,rfl,rfl,?_,?_,?_,[.step t],rfl,?_⟩
    · intro u
      by_cases same : u = t
      · subst same
        rw [set_tx_self]
        rfl
      · rw [set_tx_other _ same]
        rfl
    · intro u timed
      by_cases same : u = t
      · subst same
        rw [set_tx_self]
      · rw [set_tx_other _ same]
        exact timed
    · intro u timed
      by_cases same : u = t
      · subst same
        exact .inr (List.mem_append_right Λ.tasks List.mem_cons_self)
      · rw [set_tx_other _ same] at timed
        exact .inl timed
    · intro task mem
      exact .inl ⟨t,made,List.mem_singleton.mp mem⟩

theorem pump_quiet (framed : Λ.Framed) (txs : List Nat) :
    Quiet Λ (txs.foldl (fun Λ t => if (Λ.tx t).state ≠ .finished then Λ.schedule t else Λ) Λ) := by
  induction txs generalizing Λ with
  | nil => exact .refl Λ
  | cons t rest ih =>
    rw [List.foldl_cons]
    split
    next unfinished =>
      have made : t < Λ.nextTx := by
        by_contra late
        exact unfinished (framed.unmade t (Nat.not_lt.mp late)).1
      have first := schedule_quiet made
      exact first.trans (ih (first.framed framed))
    next => exact ih framed

theorem finishUpgrade_quiet (t : Nat) : Quiet Λ (Λ.finishUpgrade t) := by
  unfold finishUpgrade
  dsimp only
  split
  · exact .refl Λ
  · have first : Quiet Λ (Λ.set t { Λ.tx t with openReq := none }) := set_quiet rfl rfl
    split
    · exact first.trans ((connect_quiet _).trans (connect_quiet _))
    · split
      · exact first.trans (connect_quiet _)
      · exact first.trans (connect_quiet _)

theorem finalizeTx_quiet (framed : Λ.Framed) (t : Nat) : Quiet Λ (Λ.finalizeTx t) := by
  have first : Quiet Λ { Λ with
      txs := Λ.txs.erase t
      connections := Λ.connections.removeTx (Λ.tx t).conn t } :=
    Quiet.of_tx rfl rfl rfl rfl ⟨[],by simp,by simp⟩
  have second := first.trans (finishUpgrade_quiet t)
  exact (second.trans (pump_quiet (second.framed framed) _)).trans (connect_quiet _)

theorem Framed.set (framed : Λ.Framed) {account : Account} (ready : Λ.Ready t)
    (hold : account.hold = (Λ.tx t).hold) : (Λ.set t account).Framed := by
  refine framed.touch (t := t) rfl rfl (.same rfl) ?_ ?_ (.inl ready.unmasked) ?_ (.inl ready.made)
  · intro u other
    rw [set_tx_other _ other]
  · intro u
    by_cases same : u = t
    · subst same
      rw [set_tx_self,hold]
    · rw [set_tx_other _ same]
  · intro held
    rw [ready.born] at held
    cases held

theorem Framed.set_same (framed : Λ.Framed) {account : Account}
    (state : account.state = (Λ.tx t).state) (hold : account.hold = (Λ.tx t).hold) :
    (Λ.set t account).Framed := by
  refine framed.same rfl rfl (.same rfl) ?_ ?_
  · intro u
    by_cases same : u = t
    · subst same
      rw [set_tx_self,state]
    · rw [set_tx_other _ same]
  · intro u
    by_cases same : u = t
    · subst same
      rw [set_tx_self,hold]
    · rw [set_tx_other _ same]

theorem Framed.record (framed : Λ.Framed) (event : Event) : (Λ.record event).Framed :=
  framed.same rfl rfl (.same rfl) (fun _ => rfl) fun _ => rfl

theorem settlesOf_kinds (made : t < Λ.nextTx) (pending : List Item) :
    ∀ task ∈ settlesOf pending t ++ [.aborted t],
      (∀ u,task.t? = some u → u < Λ.nextTx) ∧ ∀ u,task.releases u = false := by
  intro task mem
  rcases List.mem_append.mp mem with settles | last
  · obtain ⟨item,-,rfl⟩ := List.mem_map.mp settles
    refine ⟨?_,fun _ => rfl⟩
    intro u of
    cases of
    exact made
  · rw [List.mem_singleton.mp last]
    refine ⟨?_,fun _ => rfl⟩
    intro u of
    cases of
    exact made

theorem Framed.abortTx (framed : Λ.Framed) (made : t < Λ.nextTx) (born : (Λ.tx t).hold = false)
    (scope : Option (List Nat)) : (Λ.abortTx t scope).Framed := by
  by_cases isOver : (Λ.tx t).state = .finished
  · rw [abortTx_finished Λ isOver]
    exact framed
  · rw [abortTx_eq Λ isOver]
    refine framed.touch (t := t) rfl rfl ⟨_,List.append_assoc _ _ _,settlesOf_kinds made _⟩ ?_ ?_ ?_ ?_
      (.inl made)
    · intro u other
      rw [set_tx_other _ other]
    · intro u
      by_cases same : u = t
      · subst same
        rw [set_tx_self]
        rfl
      · rw [set_tx_other _ same]
    · rw [set_tx_self]
      exact .inr (.inr rfl)
    · intro held
      rw [born] at held
      cases held

theorem Framed.complete (framed : Λ.Framed) (ready : Λ.Ready t) (scope : Option (List Nat)) :
    (Λ.complete t scope).Framed := by
  rw [complete_eq]
  have unset : Framed { Λ with upgradeTx := Λ.upgradeAfter t } :=
    framed.same rfl rfl (.same rfl) (fun _ => rfl) fun _ => rfl
  have ended : ({ Λ with upgradeTx := Λ.upgradeAfter t }.set t (Λ.completedTx t scope)).Framed :=
    unset.set ⟨ready.made,ready.born,ready.unmasked⟩ rfl
  have isOver := ended.record (.ended t false)
  refine isOver.push (.completing t) ⟨ready.made,?_,ready.unmasked⟩ nofun
  rw [show ∀ K : Ledger,∀ event,(K.record event).tx = K.tx from fun _ _ => rfl]
  dsimp only [Frame.t]
  rw [set_tx_self]
  exact ready.born

theorem Framed.create (framed : Λ.Framed) (c : Nat) (mode : Mode) (scope : Option (List Nat)) :
    (Λ.createTx c mode scope).Framed where
  unmade u late := by
    have other : u ≠ Λ.nextTx := Nat.ne_of_gt late
    simp only [createTx,Function.update_of_ne other]
    exact framed.unmade u (Nat.le_of_lt late)
  framed frame mem := by
    have before := framed.framed frame mem
    have other : frame.t ≠ Λ.nextTx := before.1.ne
    simp only [createTx,Function.update_of_ne other]
    exact ⟨Nat.lt_succ_of_lt before.1,before.2⟩
  shape := framed.shape
  masked frame mem := by
    have other : frame.t ≠ Λ.nextTx := (framed.framed frame mem).1.ne
    simp only [createTx,Function.update_of_ne other]
    exact framed.masked frame mem
  timed task mem u of := Nat.lt_succ_of_lt (framed.timed task mem u of)
  held u := by
    by_cases same : u = Λ.nextTx
    · subst same
      simp [createTx]
    · simp only [createTx,Function.update_of_ne same]
      exact framed.held u
  releasing u := by
    by_cases same : u = Λ.nextTx
    · subst same
      have unheld := (framed.unmade Λ.nextTx le_rfl).2
      simpa [createTx,unheld] using framed.releasing Λ.nextTx
    · simp only [createTx,Function.update_of_ne same]
      exact framed.releasing u

theorem Framed.release (framed : Λ.Framed) {tasks : List Task} (idle : Λ.frames = [])
    (timer : Λ.tasks = .upgradeNeeded t :: tasks) : ({ Λ with tasks }.upgradeNeeded t).Framed := by
  have made : t < Λ.nextTx := framed.timed (.upgradeNeeded t) (by simp [timer]) t rfl
  have released : ∀ k,Framed ({ Λ with tasks,connections := k }.set t
      { Λ.tx t with state := .active,hold := false }) := by
    intro k
    refine ⟨?_,?_,framed.shape,?_,?_,?_,?_⟩
    · intro u late
      have other : u ≠ t := (made.trans_le late).ne'
      rw [set_tx_other _ other]
      exact framed.unmade u late
    · intro frame mem
      have none : frame ∈ Λ.frames := mem
      rw [idle] at none
      cases none
    · intro frame mem
      have none : frame ∈ Λ.frames := mem
      rw [idle] at none
      cases none
    · intro task mem u of
      exact framed.timed task (timer ▸ List.mem_cons_of_mem _ mem) u of
    · intro u held
      by_cases same : u = t
      · subst same
        rw [set_tx_self] at held
        cases held
      · rw [set_tx_other _ same] at held ⊢
        exact framed.held u held
    · intro u
      have count := framed.releasing u
      rw [timer] at count
      by_cases same : u = t
      · subst same
        rw [set_tx_self]
        rw [List.countP_cons_of_pos (by simp [Task.releases])] at count
        split_ifs at count
        exact Nat.succ.inj count
      · rw [set_tx_other _ same]
        rw [List.countP_cons_of_neg (by simp [Task.releases,Ne.symm same])] at count
        exact count
  have ready : ∀ k,Ready ({ Λ with tasks,connections := k }.set t
      { Λ.tx t with state := .active,hold := false }) t := by
    intro k
    exact ready_of_idle idle made (by rw [set_tx_self])
  have quiet : ∀ k,Quiet ({ Λ with tasks,connections := k }.set t
      { Λ.tx t with state := .active,hold := false })
      (({ Λ with tasks,connections := k }.set t
        { Λ.tx t with state := .active,hold := false }).schedule t) := fun k => schedule_quiet made
  have last := fun k => ((quiet k).framed (released k)).push (.upgrading t) ((quiet k).ready (ready k)) nofun
  exact last (Ledger.deliver { Λ with tasks } (Λ.tx t).conn).connections

theorem Framed.upgrade (framed : Λ.Framed) (req c version : Nat) : (Λ.upgrade req c version).Framed := by
  cases database : Λ.database with
  | none =>
    unfold Ledger.upgrade
    rw [database]
    exact framed
  | some old =>
    rw [upgrade_eq Λ database]
    have fresh : ∀ frame ∈ Λ.frames,frame.t ≠ Λ.nextTx := fun frame mem => (framed.framed frame mem).1.ne
    refine ⟨?_,?_,framed.shape,?_,?_,?_,?_⟩
    · intro u late
      have later : Λ.nextTx + 1 ≤ u := late
      rw [set_tx_other _ (by omega)]
      exact framed.unmade u (by omega)
    · intro frame mem
      rw [set_tx_other _ (fresh frame mem)]
      have before := framed.framed frame mem
      exact ⟨Nat.lt_succ_of_lt before.1,before.2⟩
    · intro frame mem
      rw [set_tx_other _ (fresh frame mem)]
      exact framed.masked frame mem
    · intro task mem u of
      rcases List.mem_append.mp mem with before | now
      · exact Nat.lt_succ_of_lt (framed.timed task before u of)
      · rw [List.mem_singleton.mp now] at of
        cases of
        exact Nat.lt_succ_self _
    · intro u held
      by_cases same : u = Λ.nextTx
      · subst same
        rw [set_tx_self]
        rfl
      · rw [set_tx_other _ same] at held ⊢
        exact framed.held u held
    · intro u
      rw [show Ledger.tasks _ = Λ.tasks ++ [.upgradeNeeded Λ.nextTx] from rfl,List.countP_append,
        framed.releasing u]
      by_cases same : u = Λ.nextTx
      · subst same
        rw [set_tx_self,(framed.unmade Λ.nextTx le_rfl).2]
        simp [Task.releases,heldTx]
      · rw [set_tx_other _ same]
        simp [Task.releases,Ne.symm same]

theorem later_quiet (k : ConnTask) : Quiet Λ (Λ.later (.connection k)) :=
  .of_tx rfl rfl rfl rfl ⟨[.connection k],rfl,fun _ mem => .inr ⟨k,List.mem_singleton.mp mem⟩⟩

theorem connectionTask_quiet (task : ConnTask) : Quiet Λ (Λ.connectionTask task) ∨
    ∃ req c version,Λ.connectionTask task = Λ.upgrade req c version := by
  have recorded : ∀ (M K : Ledger) (event : Event),Quiet (M.record event) K → Quiet M K :=
    fun M K event quiet => ⟨quiet.nextTx,quiet.nextItem,quiet.frames,quiet.tx,quiet.scheduled,quiet.timed,
      quiet.tasks⟩
  unfold connectionTask
  cases task with
  | run =>
    left
    cases Λ.connections.processing with
    | none => exact .refl Λ
    | some p =>
      refine recorded Λ _ (.started p.request) ?_
      dsimp only
      cases p.request with
      | openDb req version =>
        dsimp only
        unfold runOpen
        dsimp only
        have opened : ∀ database change,Quiet (Λ.record (.started (.openDb req version)))
            ({ Λ.record (.started (.openDb req version)) with database }.connect change) := by
          intro database change
          exact .of_tx rfl rfl rfl rfl (connect_quiet change).tasks
        cases (Λ.record (.started (.openDb req version))).database with
        | none =>
          dsimp only
          split_ifs
          · exact opened _ _
          · exact opened _ _
          · exact opened _ _
        | some current =>
          dsimp only
          split_ifs
          · exact connect_quiet _
          · exact connect_quiet _
          · exact connect_quiet _
      | deleteDb req =>
        dsimp only
        unfold runDelete
        split
        · exact connect_quiet _
        · exact connect_quiet _
  | versionChange c =>
    left
    cases Λ.connections.processing with
    | none => exact .refl Λ
    | some p =>
      dsimp only
      split_ifs
      · exact .of_tx rfl rfl rfl rfl (later_quiet .afterVersionChange).tasks
      · exact .of_tx rfl rfl rfl rfl ⟨[],by simp,by simp⟩
  | afterVersionChange =>
    left
    cases Λ.connections.processing with
    | none => exact .refl Λ
    | some p =>
      dsimp only
      split_ifs
      · exact connect_quiet _
      · exact (later_quiet .blocked).trans (connect_quiet _)
  | closed =>
    cases Λ.connections.processing with
    | none => exact .inl (.refl Λ)
    | some p =>
      dsimp only
      cases p.request with
      | openDb req version => exact .inr ⟨req,p.conn,p.version,rfl⟩
      | deleteDb req => exact .inl (.of_tx rfl rfl rfl rfl (connect_quiet _).tasks)
  | blocked => exact .inl (.refl Λ)
  | deleted req => exact .inl (.of_tx rfl rfl rfl rfl ⟨[],by simp [record],by simp⟩)
  | opened req found =>
    left
    cases found with
    | none => exact .of_tx rfl rfl rfl rfl ⟨[],by simp [record],by simp⟩
    | some c => exact .of_tx rfl rfl rfl rfl ⟨[],by simp [record,deliver],by simp⟩

theorem Framed.performed (framed : Λ.Framed) (item : Item) (outcome : Except DomError Result) :
    (Λ.performed t item outcome).Framed :=
  (framed.record _).leave

theorem Framed.again (framed : Λ.Framed) {tasks : List Task} (timer : Λ.tasks = .step t :: tasks) :
    (Λ.again t tasks).Framed := by
  have made : t < Λ.nextTx := framed.timed (.step t) (by simp [timer]) t rfl
  have turned := framed.turn timer fun _ => rfl
  have added : Framed { Λ with tasks := tasks ++ [.step t] } := by
    refine turned.same rfl rfl ⟨[.step t],rfl,?_⟩ (fun _ => rfl) fun _ => rfl
    intro task mem
    rw [List.mem_singleton.mp mem]
    refine ⟨?_,fun _ => rfl⟩
    intro u of
    cases of
    exact made
  exact added.set_same rfl rfl

theorem Framed.become (framed : Λ.Framed) (ready : Λ.Ready t) (state : TxState) :
    (Λ.become t state).Framed := framed.set ready (by rfl)

theorem become_ready (ready : Λ.Ready t) (state : TxState) : (Λ.become t state).Ready t :=
  ⟨ready.made,by rw [Ledger.become,set_tx_self]; exact ready.born,ready.unmasked⟩

theorem Framed.move (framed : Λ.Framed) (move : Λ.Move K) : K.Framed := by
  cases move with
  | request request => exact (connect_quiet _).framed (framed.record _)
  | close c => exact (connect_quiet _).framed framed
  | create c mode scope =>
    have created := framed.create c mode (some scope)
    exact (schedule_quiet (Nat.lt_succ_self _)).framed created
  | place t op req ready =>
    have numbered : Framed { Λ with nextItem := Λ.nextItem + 1 } :=
      framed.same rfl rfl (.same rfl) (fun _ => rfl) fun _ => rfl
    exact (numbered.record _).set_same (by rfl) (by rfl)
  | schedule t made => exact (schedule_quiet made).framed framed
  | become t state ready => exact framed.become ready state
  | remember t n => exact framed.set_same (by rfl) (by rfl)
  | rollback t item mark rest frames =>
    have undone : ∀ database,Framed { Λ with database } :=
      fun database => framed.same rfl rfl (.same rfl) (fun _ => rfl) fun _ => rfl
    exact (undone _).set_same (by rfl) (by rfl)
  | abort t scope made born => exact framed.abortTx made born scope
  | enter frame ready listed plain =>
    refine framed.push frame ready ?_
    intro cloning
    cases frame <;> simp [Frame.isPlain,Frame.isCloning] at plain cloning
  | leave frame rest frames plain => exact framed.leave
  | mask t target ready listed =>
    refine (framed.become ready .inactive).push (.cloning t target (Λ.tx t).state) (become_ready ready _) ?_
    intro _
    rw [Ledger.become,Frame.t,set_tx_self]
    exact .inl rfl
  | unmask t target prev rest frames => exact framed.leave.become (framed.ready_of_leave frames) _
  | again t tasks timer => exact framed.again timer
  | rest t tasks timer settled => exact (framed.turn timer fun _ => rfl).set_same (by rfl) (by rfl)
  | start t item queue idle made born =>
    have taken : (Λ.set t { Λ.tx t with queue }).Framed := framed.set_same (by rfl) (by rfl)
    refine taken.push (.running t item (Λ.tx t).versions.length) ?_ (by rintro ⟨⟩)
    exact ready_of_idle idle made (by rw [Frame.t,set_tx_self]; exact born)
  | finish t item mark rest frames outcome => exact framed.performed item outcome
  | fire t item mark rest frames outcome error =>
    have left : (Λ.performed t item outcome).Framed := framed.performed item outcome
    have below := framed.ready_of_leave frames
    have ready : (Λ.performed t item outcome).Ready t := ⟨below.made,below.born,below.unmasked⟩
    have fired : ∀ M : Ledger,M.Framed → M.Ready t →
        ((M.record (.settled t item outcome)).push (.dispatched t error)).Framed :=
      fun M framed ready => (framed.record _).push (.dispatched t error)
        ⟨ready.made,ready.born,ready.unmasked⟩ (by rintro ⟨⟩)
    unfold Ledger.fire
    dsimp only
    split_ifs
    · exact fired _ (left.become ready .active) (become_ready ready .active)
    · exact fired _ left ready
  | fail t item mark rest frames outcome scope =>
    have left : (Λ.performed t item outcome).Framed := framed.performed item outcome
    have below := framed.ready_of_leave frames
    have ready : (Λ.performed t item outcome).Ready t := ⟨below.made,below.born,below.unmasked⟩
    unfold Ledger.fail
    dsimp only
    split_ifs
    · exact left.abortTx ready.made ready.born scope
    · have queued : ((Λ.performed t item outcome).set t { (Λ.performed t item outcome).tx t with
          queue := item :: ((Λ.performed t item outcome).tx t).queue }).Framed :=
        left.set_same (by rfl) (by rfl)
      exact queued.abortTx ready.made (by rw [set_tx_self]; exact ready.born) scope
  | complete t scope idle made born => exact framed.complete (ready_of_idle idle made born) scope
  | finalize t frame rest frames ends => exact (finalizeTx_quiet framed.leave t).framed framed.leave
  | settle t item tasks idle timer outcome => exact (framed.turn timer fun _ => rfl).record _
  | endAborted t tasks idle timer isOver =>
    rw [endAborted_eq]
    have made : t < Λ.nextTx := framed.timed (.aborted t) (by simp [timer]) t rfl
    have born : (Λ.tx t).hold = false := by
      by_contra held
      rw [framed.held t (by simpa using held)] at isOver
      cases isOver
    have turned := framed.turn timer fun _ => rfl
    have unset : ∀ upgradeTx,Framed { Λ with tasks,upgradeTx } :=
      fun upgradeTx => turned.same rfl rfl (.same rfl) (fun _ => rfl) fun _ => rfl
    exact ((unset _).record _).push (.aborting t) (ready_of_idle idle made born) (by rintro ⟨⟩)
  | release t tasks idle timer => exact framed.release idle timer
  | connection task tasks idle timer =>
    have turned := framed.turn timer fun _ => rfl
    rcases connectionTask_quiet task with quiet | ⟨req,c,version,same⟩
    · exact quiet.framed turned
    · rw [same]
      exact turned.upgrade req c version

end Ledger

end Sharko.Script.IndexedDb
