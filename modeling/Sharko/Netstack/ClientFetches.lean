import Sharko.Netstack.Client

/-! The completion callbacks of the client: every fetch answers its own exactly once,
unless an abort takes it out of the table first. -/

namespace Sharko.Netstack.Client
open Library

def Event.completes (id : Nat) : Event → Bool
  | .done response => response.id == id
  | _ => false

def Call.registered : Call → Bool
  | .fetch _ _ .started => false
  | .fetch _ _ .connected => false
  | .fetch _ _ _ => true
  | _ => false

/-- `on_message` has not been told of the disconnect. -/
def Reader.online : Reader → Bool
  | .idle => true
  | .response _ => true
  | .report _ _ => true
  | _ => false

namespace IpcShared
variable {s s' : IpcShared}

def queued (s : IpcShared) (id : Nat) : Nat := (s.jobs.map NetResponse.id).count id

def invoked (s : IpcShared) (id : Nat) : Nat := s.trace.countP (Event.completes id)

def removals (s : IpcShared) (id : Nat) : Nat := s.trace.count (.removed id)

def balance (s : IpcShared) (id : Nat) : Nat :=
  (if id ∈ s.pending then 1 else 0) + s.queued id + s.invoked id + s.removals id

structure Accounted (s : IpcShared) : Prop where
  fresh : ∀ id, s.nextId ≤ id → s.calls id = .none
  balance : ∀ id, s.balance id = if (s.calls id).registered then 1 else 0
  connected : s.connected = s.reader.online
  done : s.reader = .done → ∀ id url progress, s.calls id = .fetch url progress .returned →
    id ∉ s.pending
  response : ∀ response, s.reader = .response response → response ∈ s.received
  answers : ∀ response, response ∈ s.jobs ∨ .done response ∈ s.trace →
    response ∈ s.received ∨ response.error.isSome

theorem callbacksRun_balance (response : NetResponse) (id : Nat) :
    (s.callbacksRun response).balance id = s.balance id + if response.id = id then 1 else 0 := by
  have jobs : (s.callbacksRun response).queued id = s.queued id + if response.id = id then 1 else 0 := by
    simp only [queued,callbacksRun,Multiset.map_cons,Multiset.count_cons,eq_comm]
  show (if id ∈ s.pending then 1 else 0) + (s.callbacksRun response).queued id + s.invoked id +
    s.removals id = _
  rw [jobs]
  unfold balance
  omega

theorem answer_balance (response : NetResponse) (id : Nat) : (s.answer response).balance id = s.balance id := by
  unfold answer
  split_ifs with inside
  · rw [callbacksRun_balance]
    by_cases same : response.id = id
    · subst same
      simp [balance,queued,invoked,removals,inside]
      omega
    · simp [balance,queued,invoked,removals,same,Ne.symm same]
  · rfl

theorem answer_pending (response : NetResponse) (id : Nat) :
    id ∈ (s.answer response).pending ↔ id ∈ s.pending ∧ id ≠ response.id := by
  unfold answer
  split_ifs with inside
  · simp [callbacksRun,and_comm]
  · constructor
    · intro member
      refine ⟨member,?_⟩
      rintro rfl
      exact inside member
    · exact And.left

theorem fetchInner_balance {next : IpcShared} {id : Nat} {url : String} {progress : Bool} {sent : Sent}
    {stage stage' : FetchStage} (moved : s.fetchInner id url progress sent stage = some (next,stage'))
    (unregistered : (Call.fetch url progress stage).registered = false → id ∉ s.pending) (other : Nat) :
    next.balance other + (if other = id ∧ (Call.fetch url progress stage).registered then 1 else 0) =
      s.balance other + if other = id ∧ (Call.fetch url progress stage').registered then 1 else 0 := by
  cases stage with
  | started =>
    simp only [fetchInner] at moved
    split_ifs at moved
    · cases moved
      simp [Call.registered]
    · cases moved
      rw [callbacksRun_balance]
      simp [Call.registered,disconnectedResponse,errorResponse,eq_comm]
  | connected =>
    cases moved
    by_cases same : other = id
    · subst same
      have absent := unregistered rfl
      simp [Call.registered,balance,queued,invoked,removals,absent]
      omega
    · simp [Call.registered,balance,queued,invoked,removals,same]
  | pending =>
    simp only [fetchInner] at moved
    cases moved
    cases progress <;> rfl
  | registered =>
    cases sent <;> cases moved <;> rfl
  | tooLarge =>
    cases moved
    rfl
  | refused =>
    cases moved
    rw [answer_balance]
    rfl
  | sent ok =>
    simp only [fetchInner] at moved
    split_ifs at moved <;> cases moved <;> rfl
  | unanswered =>
    cases moved
    rw [answer_balance]
    rfl
  | returned => cases moved

/-- What a section of `fetch_inner` leaves as it was, and what it may add. -/
structure FetchFrame (s next : IpcShared) (id : Nat) : Prop where
  connected : next.connected = s.connected
  reader : next.reader = s.reader
  trace : next.trace = s.trace
  received : next.received = s.received
  sockets : next.sockets = s.sockets
  told : next.told = s.told
  aborting : next.aborting = s.aborting
  leaving : next.leaving = s.leaving
  nextId : next.nextId = s.nextId
  jobs : ∀ response ∈ next.jobs, response ∈ s.jobs ∨ response.error.isSome
  pending : ∀ other, other ≠ id → (other ∈ next.pending ↔ other ∈ s.pending)

theorem callbacksRun_frame (response : NetResponse) (error : response.error.isSome) :
    FetchFrame s (s.callbacksRun response) response.id := by
  refine ⟨rfl,rfl,rfl,rfl,rfl,rfl,rfl,rfl,rfl,?_,fun _ _ => Iff.rfl⟩
  intro r member
  rcases Multiset.mem_cons.mp member with rfl | old
  · exact .inr error
  · exact .inl old

theorem answer_frame (response : NetResponse) (error : response.error.isSome) :
    FetchFrame s (s.answer response) response.id := by
  have pending : ∀ other, other ≠ response.id → (other ∈ (s.answer response).pending ↔ other ∈ s.pending) := by
    intro other different
    rw [answer_pending]
    simp [different]
  unfold answer at pending ⊢
  split_ifs at pending ⊢
  · refine ⟨rfl,rfl,rfl,rfl,rfl,rfl,rfl,rfl,rfl,?_,pending⟩
    have taken : FetchFrame {s with pending := s.pending.erase response.id} _ _ :=
      callbacksRun_frame response error
    exact taken.jobs
  · exact ⟨rfl,rfl,rfl,rfl,rfl,rfl,rfl,rfl,rfl,fun r member => .inl member,pending⟩

theorem fetchInner_frame {next : IpcShared} {id : Nat} {url : String} {progress : Bool} {sent : Sent}
    {stage stage' : FetchStage} (moved : s.fetchInner id url progress sent stage = some (next,stage')) :
    FetchFrame s next id := by
  have unchanged : FetchFrame s s id :=
    ⟨rfl,rfl,rfl,rfl,rfl,rfl,rfl,rfl,rfl,fun r member => .inl member,fun _ _ => Iff.rfl⟩
  cases stage with
  | started =>
    simp only [fetchInner] at moved
    split_ifs at moved
    · cases moved
      exact unchanged
    · cases moved
      exact callbacksRun_frame (disconnectedResponse id) rfl
  | connected =>
    cases moved
    refine ⟨rfl,rfl,rfl,rfl,rfl,rfl,rfl,rfl,rfl,fun r member => .inl member,?_⟩
    intro other different
    simp [different]
  | pending =>
    simp only [fetchInner] at moved
    cases moved
    cases progress
    · exact unchanged
    · exact ⟨rfl,rfl,rfl,rfl,rfl,rfl,rfl,rfl,rfl,fun r member => .inl member,fun _ _ => Iff.rfl⟩
  | registered =>
    cases sent with
    | ok =>
      cases moved
      exact ⟨rfl,rfl,rfl,rfl,rfl,rfl,rfl,rfl,rfl,fun r member => .inl member,fun _ _ => Iff.rfl⟩
    | tooLarge =>
      cases moved
      exact unchanged
    | failed =>
      cases moved
      exact unchanged
  | tooLarge =>
    cases moved
    exact ⟨rfl,rfl,rfl,rfl,rfl,rfl,rfl,rfl,rfl,fun r member => .inl member,fun _ _ => Iff.rfl⟩
  | refused =>
    cases moved
    exact answer_frame (tooBigResponse id url) rfl
  | sent ok =>
    simp only [fetchInner] at moved
    split_ifs at moved <;> cases moved <;> exact unchanged
  | unanswered =>
    cases moved
    exact answer_frame (disconnectedResponse id) rfl
  | returned => cases moved

theorem fetchInner_returned {next : IpcShared} {id : Nat} {url : String} {progress : Bool} {sent : Sent}
    {stage : FetchStage} (moved : s.fetchInner id url progress sent stage = some (next,.returned))
    (unregistered : (Call.fetch url progress stage).registered = false → id ∉ s.pending) :
    id ∉ next.pending ∨ s.connected = true := by
  cases stage with
  | started =>
    simp only [fetchInner] at moved
    split_ifs at moved with online
    · cases moved
    · cases moved
      exact .inl (unregistered rfl)
  | connected => cases moved
  | pending => cases moved
  | registered => cases sent <;> cases moved
  | tooLarge => cases moved
  | refused =>
    cases moved
    exact .inl fun member => ((answer_pending _ _).mp member).2 rfl
  | sent ok =>
    simp only [fetchInner] at moved
    split_ifs at moved with fine
    · exact .inr (Bool.and_eq_true_iff.mp fine).2
    · cases moved
  | unanswered =>
    cases moved
    exact .inl fun member => ((answer_pending _ _).mp member).2 rfl
  | returned => cases moved

theorem Accounted.absent (ok : Accounted s) {id : Nat} (unregistered : (s.calls id).registered = false) :
    id ∉ s.pending := by
  intro inside
  have total := ok.balance id
  simp only [unregistered,IpcShared.balance,inside,if_true] at total
  simp at total

theorem Accounted.fetchInner (ok : Accounted s) {next : IpcShared} {id : Nat} {url : String}
    {progress : Bool} {sent : Sent} {stage stage' : FetchStage} (call : s.calls id = .fetch url progress stage)
    (moved : s.fetchInner id url progress sent stage = some (next,stage')) :
    Accounted {next with calls := Function.update s.calls id (.fetch url progress stage')} := by
  have frame := fetchInner_frame moved
  have unregistered : (Call.fetch url progress stage).registered = false → id ∉ s.pending := by
    rw [← call]
    exact ok.absent
  refine ⟨?_,?_,?_,?_,?_,?_⟩
  · intro other beyond
    simp only [frame.nextId] at beyond
    by_cases same : other = id
    · subst same
      rw [ok.fresh other beyond] at call
      cases call
    · simpa [same] using ok.fresh other beyond
  · intro other
    have change := fetchInner_balance moved unregistered other
    have before := ok.balance other
    show next.balance other =
      if (Function.update s.calls id (.fetch url progress stage') other).registered then 1 else 0
    by_cases same : other = id
    · subst same
      rw [call] at before
      simp only [true_and,Function.update_self] at change ⊢
      omega
    · simp only [same,false_and,if_false,Nat.add_zero] at change
      rw [change,before,Function.update_of_ne same]
  · show next.connected = next.reader.online
    rw [frame.connected,frame.reader]
    exact ok.connected
  · intro done other url' progress' returned
    simp only [frame.reader] at done
    by_cases same : other = id
    · subst same
      simp only [Function.update_self,Call.fetch.injEq] at returned
      obtain ⟨rfl,rfl,rfl⟩ := returned
      refine (fetchInner_returned moved unregistered).resolve_right ?_
      rw [ok.connected,done]
      simp [Reader.online]
    · simp only [Function.update_of_ne same] at returned
      have absent := ok.done done other url' progress' returned
      simpa [frame.pending other same] using absent
  · intro response reading
    simp only [frame.reader] at reading
    simpa [frame.received] using ok.response response reading
  · intro response answered
    simp only [frame.trace,frame.received] at answered ⊢
    rcases answered with queued | ran
    · rcases frame.jobs response queued with old | error
      · exact ok.answers response (.inl old)
      · exact .inr error
    · exact ok.answers response (.inr ran)

theorem wsOpen_frame {next : IpcShared} {id : Nat} {sent : Sent} {stage stage' : SocketStage}
    (moved : s.wsOpen id sent stage = some (next,stage')) :
    ∃ sockets told, next = {s with sockets := sockets, told := told} := by
  cases stage with
  | started =>
    simp only [wsOpen] at moved
    split_ifs at moved <;> cases moved <;> exact ⟨_,_,rfl⟩
  | connected =>
    cases moved
    exact ⟨_,_,rfl⟩
  | registered =>
    simp only [wsOpen] at moved
    split_ifs at moved <;> cases moved <;> exact ⟨_,_,rfl⟩
  | unsent =>
    simp only [wsOpen] at moved
    split_ifs at moved <;> cases moved <;> exact ⟨_,_,rfl⟩
  | returned => cases moved

theorem Accounted.recalled (ok : Accounted s) {id bound : Nat} {call : Call}
    (before : (s.calls id).registered = false) (after : call.registered = false)
    (within : s.nextId ≤ bound) (inside : id < bound) :
    Accounted {s with nextId := bound, calls := Function.update s.calls id call} := by
  refine ⟨?_,?_,ok.connected,?_,ok.response,ok.answers⟩
  · intro other beyond
    have different : other ≠ id := by
      rintro rfl
      exact Nat.not_le_of_lt inside beyond
    simp only [Function.update_of_ne different]
    exact ok.fresh other (Nat.le_trans within beyond)
  · intro other
    have same := ok.balance other
    show s.balance other = if (Function.update s.calls id call other).registered then 1 else 0
    by_cases equal : other = id
    · subst equal
      rw [same,Function.update_self,before,after]
    · rw [same,Function.update_of_ne equal]
  · intro done other url progress returned
    by_cases equal : other = id
    · subst equal
      simp only [Function.update_self] at returned
      rw [returned] at after
      cases after
    · simp only [Function.update_of_ne equal] at returned
      exact ok.done done other url progress returned

theorem overtake_online (id : Nat) : (s.overtake id).online = s.reader.online := by
  unfold overtake
  cases s.reader <;> rfl

theorem overtake_done {id : Nat} (done : s.overtake id = .done) : s.reader = .done := by
  unfold overtake at done
  cases reader : s.reader <;> rw [reader] at done <;> first | rfl | cases done

theorem overtake_response {id : Nat} {response : NetResponse} (reading : s.overtake id = .response response) :
    s.reader = .response response := by
  unfold overtake at reading
  cases reader : s.reader <;> rw [reader] at reading <;> first | exact reading | cases reading

theorem Accounted.onMessage (ok : Accounted s) (idle : s.reader = .idle) (message : Option Message) :
    Accounted (s.onMessage message) := by
  have online : s.connected = true := by
    rw [ok.connected,idle]
    rfl
  cases message with
  | none =>
    exact ⟨ok.fresh,ok.balance,rfl,by simp [IpcShared.onMessage],by simp [IpcShared.onMessage],ok.answers⟩
  | some message =>
    cases message with
    | response response =>
      refine ⟨ok.fresh,ok.balance,online,by simp [IpcShared.onMessage],?_,?_⟩
      · intro r reading
        cases reading
        exact List.mem_cons_self
      · intro r answered
        exact (ok.answers r answered).imp_left (List.mem_cons_of_mem _)
    | progress report =>
      simp only [IpcShared.onMessage]
      split_ifs
      · exact ⟨ok.fresh,ok.balance,online,by simp,by simp,ok.answers⟩
      · exact ok
    | ws id event =>
      simp only [IpcShared.onMessage]
      split_ifs <;> cases event <;>
        exact ⟨ok.fresh,ok.balance,ok.connected,ok.done,ok.response,ok.answers⟩

theorem Accounted.readerAdvances (ok : Accounted s) (taken : s.readerAdvances = some s') : Accounted s' := by
  have connected := ok.connected
  cases reader : s.reader with
  | idle => simp [IpcShared.readerAdvances,reader] at taken
  | done => simp [IpcShared.readerAdvances,reader] at taken
  | response response =>
    simp only [IpcShared.readerAdvances,reader,Option.some.injEq] at taken
    subst taken
    rw [reader] at connected
    have fields : (s.answer response).trace = s.trace ∧ (s.answer response).received = s.received ∧
        (s.answer response).connected = s.connected ∧ (s.answer response).calls = s.calls ∧
        (s.answer response).nextId = s.nextId := by
      unfold IpcShared.answer
      split_ifs <;> exact ⟨rfl,rfl,rfl,rfl,rfl⟩
    obtain ⟨trace,received,link,calls,nextId⟩ := fields
    refine ⟨?_,?_,?_,by simp,by simp,?_⟩
    · simpa only [calls,nextId] using ok.fresh
    · intro id
      show (s.answer response).balance id = _
      rw [answer_balance,ok.balance id]
      simp only [calls]
    · simp only [link,connected]
      rfl
    · simp only [trace,received]
      intro r answered
      rcases answered with queued | ran
      · unfold IpcShared.answer at queued
        split_ifs at queued
        · rcases Multiset.mem_cons.mp queued with rfl | old
          · exact .inl (ok.response r reader)
          · exact ok.answers r (.inl old)
        · exact ok.answers r (.inl queued)
      · exact ok.answers r (.inr ran)
  | report report overtaken =>
    simp only [IpcShared.readerAdvances,reader,Option.some.injEq] at taken
    subst taken
    rw [reader] at connected
    refine ⟨ok.fresh,?_,connected,by simp,by simp,?_⟩
    · intro id
      rw [← ok.balance id]
      simp [IpcShared.balance,queued,invoked,removals,Event.completes]
    · intro r answered
      exact ok.answers r (by simpa using answered)
  | lost =>
    simp only [IpcShared.readerAdvances,reader,Option.some.injEq] at taken
    subst taken
    rw [reader] at connected
    exact ⟨ok.fresh,ok.balance,connected,by simp,by simp,ok.answers⟩
  | progressCleared =>
    simp only [IpcShared.readerAdvances,reader,Option.some.injEq] at taken
    subst taken
    rw [reader] at connected
    exact ⟨ok.fresh,ok.balance,connected,by simp,by simp,ok.answers⟩
  | socketsDrained =>
    simp only [IpcShared.readerAdvances,reader,Option.some.injEq] at taken
    subst taken
    rw [reader] at connected
    refine ⟨ok.fresh,?_,connected,by simp,by simp,?_⟩
    · intro id
      rw [← ok.balance id]
      have ids : (s.pending.val.map disconnectedResponse).map NetResponse.id = s.pending.val := by
        rw [Multiset.map_map]
        exact Multiset.map_id _
      simp only [IpcShared.balance,queued,invoked,removals,Multiset.map_add,Multiset.count_add,ids,
        Multiset.count_eq_of_nodup s.pending.nodup,Finset.mem_val,Finset.notMem_empty,if_false]
      omega
    · intro r answered
      rcases answered with queued | ran
      · rcases Multiset.mem_add.mp queued with old | drained
        · exact ok.answers r (.inl old)
        · obtain ⟨id,_,rfl⟩ := Multiset.mem_map.mp drained
          exact .inr rfl
      · exact ok.answers r (.inr ran)

theorem Accounted.abortPending (ok : Accounted s) {id : Nat} (inside : id ∈ s.pending)
    (aborting leaving : Multiset Nat) : Accounted {s with
      pending := s.pending.erase id
      aborting := aborting
      leaving := leaving
      trace := .removed id :: s.trace} := by
  refine ⟨ok.fresh,?_,ok.connected,?_,ok.response,?_⟩
  · intro other
    rw [← ok.balance other]
    by_cases same : other = id
    · subst same
      simp [IpcShared.balance,queued,invoked,removals,Event.completes,inside]
      omega
    · simp [IpcShared.balance,queued,invoked,removals,Event.completes,same,Ne.symm same]
  · intro done other url progress returned member
    exact ok.done done other url progress returned (Finset.mem_of_mem_erase member)
  · intro r answered
    exact ok.answers r (by simpa using answered)

theorem Accounted.run (ok : Accounted s) {response : NetResponse} (waiting : response ∈ s.jobs) :
    Accounted {s with
      jobs := s.jobs.erase response
      reader := s.overtake response.id
      trace := .done response :: s.trace} := by
  refine ⟨ok.fresh,?_,?_,?_,?_,?_⟩
  · intro id
    rw [← ok.balance id]
    have taken : s.queued id = (if id = response.id then 1 else 0) +
        ((s.jobs.erase response).map NetResponse.id).count id := by
      rw [queued,← Multiset.cons_erase waiting,Multiset.map_cons,Multiset.count_cons,
        Multiset.cons_erase waiting]
      omega
    have ran : List.countP (Event.completes id) (.done response :: s.trace) =
        s.invoked id + if id = response.id then 1 else 0 := by
      by_cases same : id = response.id
      · simp [invoked,Event.completes,same]
      · simp [invoked,Event.completes,same,Ne.symm same]
    have kept : List.count (.removed id) (.done response :: s.trace) = s.removals id := by
      simp [removals]
    show (if id ∈ s.pending then 1 else 0) + ((s.jobs.erase response).map NetResponse.id).count id +
      List.countP (Event.completes id) (.done response :: s.trace) +
      List.count (.removed id) (.done response :: s.trace) = s.balance id
    rw [ran,kept]
    unfold IpcShared.balance
    omega
  · simp only [overtake_online]
    exact ok.connected
  · exact fun done => ok.done (overtake_done done)
  · exact fun r reading => ok.response r (overtake_response reading)
  · intro r answered
    rcases answered with queued | ran
    · exact ok.answers r (.inl (Multiset.mem_of_mem_erase queued))
    · rcases List.mem_cons.mp ran with same | old
      · cases same
        exact ok.answers response (.inl waiting)
      · exact ok.answers r (.inr old)

theorem step_accounted (ok : Accounted s) {a : Action} (taken : s.step a = some s') : Accounted s' := by
  cases a with
  | fetch url progress =>
    cases taken
    exact ok.recalled (by rw [ok.fresh _ (Nat.le_refl _)]; rfl) rfl (Nat.le_succ _) (Nat.lt_succ_self _)
  | wsOpen =>
    cases taken
    exact ok.recalled (by rw [ok.fresh _ (Nat.le_refl _)]; rfl) rfl (Nat.le_succ _) (Nat.lt_succ_self _)
  | advance id sent =>
    rcases advance_cases taken with ⟨url,progress,stage,next,stage',call,moved,rfl⟩ | ⟨stage,next,stage',call,moved,rfl⟩
    · exact ok.fetchInner call moved
    · have inside : id < s.nextId := by
        by_contra beyond
        rw [ok.fresh id (Nat.le_of_not_lt beyond)] at call
        cases call
      have kept : Accounted {s with nextId := s.nextId, calls := Function.update s.calls id (.socket stage')} :=
        ok.recalled (by rw [call]; rfl) rfl (Nat.le_refl _) inside
      obtain ⟨sockets,told,rfl⟩ := wsOpen_frame moved
      exact ⟨kept.fresh,kept.balance,kept.connected,kept.done,kept.response,kept.answers⟩
  | abort id =>
    cases taken
    exact ⟨ok.fresh,ok.balance,ok.connected,ok.done,ok.response,ok.answers⟩
  | abortPending id =>
    simp only [step] at taken
    split_ifs at taken with absent inside
    · cases taken
      exact ok.abortPending inside _ _
    · cases taken
      exact ⟨ok.fresh,ok.balance,ok.connected,ok.done,ok.response,ok.answers⟩
  | abortReturns id =>
    simp only [step] at taken
    split_ifs at taken
    cases taken
    refine ⟨ok.fresh,?_,?_,?_,?_,?_⟩
    · intro other
      rw [← ok.balance other]
      simp [IpcShared.balance,queued,invoked,removals,Event.completes]
    · simp only [overtake_online]
      exact ok.connected
    · exact fun done => ok.done (overtake_done done)
    · exact fun r reading => ok.response r (overtake_response reading)
    · intro r answered
      exact ok.answers r (by simpa using answered)
  | wsClose id =>
    cases taken
    exact ok
  | read message =>
    simp only [step] at taken
    split_ifs at taken with idle
    cases taken
    exact ok.onMessage idle message
  | readerAdvances => exact ok.readerAdvances taken
  | run response =>
    simp only [step] at taken
    split_ifs at taken with absent
    cases taken
    exact ok.run absent

theorem new_accounted : Accounted new := by
  refine ⟨fun _ _ => rfl,?_,rfl,by simp [new],by simp [new],by simp [new]⟩
  intro id
  simp [balance,queued,invoked,removals,new,Call.registered]

end IpcShared

end Sharko.Netstack.Client
