import Sharko.Netstack.ClientFetches

/-! The events of the client's WebSockets: `Closed` comes once and last, and to every
socket that the disconnect finds. -/

namespace Sharko.Netstack.Client
open Library
open WebSocket (WsEvent)

def closes : WsEvent → Bool
  | .closed _ _ _ => true
  | _ => false

def Call.joined : Call → Bool
  | .socket .started => false
  | .socket .connected => false
  | .socket _ => true
  | _ => false

def Reader.drained : Reader → Bool
  | .socketsDrained => true
  | .done => true
  | _ => false

namespace IpcShared
variable {s s' : IpcShared}

structure Told (s : IpcShared) : Prop where
  quiet : ∀ id, (s.calls id).joined = false → id ∉ s.sockets ∧ s.told id = []
  joined : ∀ id, (s.calls id).joined = true → (id ∉ s.sockets ↔ ∃ e ∈ s.told id, closes e = true)
  last : ∀ id, ∀ e ∈ (s.told id).dropLast, closes e = false

def Unregistered (s : IpcShared) : Prop :=
  s.reader.drained → ∀ id, s.calls id = .socket .returned → id ∉ s.sockets

theorem Told.open (ok : Told s) {id : Nat} (inside : id ∈ s.sockets) : ∀ e ∈ s.told id, closes e = false := by
  cases joined : (s.calls id).joined with
  | false => exact absurd inside (ok.quiet id joined).1
  | true =>
    intro e member
    by_contra closed
    exact (ok.joined id joined).mpr ⟨e,member,by simpa using closed⟩ inside

theorem Told.call (ok : Told s) {id : Nat} (call : Call) (same : call.joined = (s.calls id).joined)
    {next : IpcShared} (sockets : next.sockets = s.sockets) (told : next.told = s.told)
    (calls : next.calls = Function.update s.calls id call) : Told next := by
  have joined : ∀ other, (next.calls other).joined = (s.calls other).joined := by
    intro other
    rw [calls]
    by_cases equal : other = id
    · subst equal
      rw [Function.update_self,same]
    · rw [Function.update_of_ne equal]
  refine ⟨?_,?_,?_⟩
  · intro other
    rw [joined other,sockets,told]
    exact ok.quiet other
  · intro other
    rw [joined other,sockets,told]
    exact ok.joined other
  · rw [told]
    exact ok.last

theorem dropLast_tell {events more : List WsEvent} (quiet : ∀ e ∈ events, closes e = false)
    (last : ∀ e ∈ more.dropLast, closes e = false) : ∀ e ∈ (events ++ more).dropLast, closes e = false := by
  intro e member
  cases more with
  | nil =>
    rw [List.append_nil] at member
    exact quiet e (List.dropLast_subset _ member)
  | cons first rest =>
    rw [List.dropLast_append_of_ne_nil (by simp)] at member
    rcases List.mem_append.mp member with old | new
    · exact quiet e old
    · exact last e new

theorem Told.close (ok : Told s) {id : Nat} (call : Call) {events : List WsEvent} {next : IpcShared}
    (quiet : ∀ e ∈ s.told id, closes e = false) (last : ∀ e ∈ events.dropLast, closes e = false)
    (closed : ∃ e ∈ events, closes e = true) (joined : call.joined = true)
    (sockets : next.sockets = s.sockets.erase id)
    (told : next.told = Function.update s.told id (s.told id ++ events))
    (calls : next.calls = Function.update s.calls id call) : Told next := by
  refine ⟨?_,?_,?_⟩
  · intro other unjoined
    rw [calls] at unjoined
    by_cases equal : other = id
    · subst equal
      rw [Function.update_self,joined] at unjoined
      cases unjoined
    · rw [Function.update_of_ne equal] at unjoined
      rw [sockets,told,Function.update_of_ne equal]
      obtain ⟨absent,silent⟩ := ok.quiet other unjoined
      exact ⟨fun member => absent (Finset.mem_of_mem_erase member),silent⟩
  · intro other joined'
    rw [calls] at joined'
    rw [sockets,told]
    by_cases equal : other = id
    · subst equal
      obtain ⟨e,member,ends⟩ := closed
      rw [Function.update_self]
      exact iff_of_true (Finset.notMem_erase _ _) ⟨e,List.mem_append_right _ member,ends⟩
    · rw [Function.update_of_ne equal] at joined' ⊢
      rw [← ok.joined other joined']
      simp [equal]
  · intro other
    rw [told]
    by_cases equal : other = id
    · subst equal
      rw [Function.update_self]
      exact dropLast_tell quiet last
    · rw [Function.update_of_ne equal]
      exact ok.last other

theorem disconnectedEvents_last : ∀ e ∈ disconnectedEvents.dropLast, closes e = false := by
  simp [disconnectedEvents,closes]

theorem disconnectedEvents_close : ∃ e ∈ disconnectedEvents, closes e = true :=
  ⟨.closed 1006 "" false,by simp [disconnectedEvents],rfl⟩

theorem Told.wsOpen (ok : Told s) {next : IpcShared} {id : Nat} {sent : Sent} {stage stage' : SocketStage}
    (call : s.calls id = .socket stage) (moved : s.wsOpen id sent stage = some (next,stage')) :
    Told {next with calls := Function.update s.calls id (.socket stage')} := by
  cases stage with
  | started =>
    obtain ⟨absent,silent⟩ := ok.quiet id (by rw [call]; rfl)
    simp only [IpcShared.wsOpen] at moved
    split_ifs at moved
    · cases moved
      exact ok.call (.socket .connected) (by rw [call]; rfl) rfl rfl rfl
    · cases moved
      refine ok.close (.socket .returned) (by simp [silent]) disconnectedEvents_last
        disconnectedEvents_close rfl ?_ rfl rfl
      exact (Finset.erase_eq_of_notMem absent).symm
  | connected =>
    obtain ⟨absent,silent⟩ := ok.quiet id (by rw [call]; rfl)
    cases moved
    refine ⟨?_,?_,ok.last⟩
    · intro other unjoined
      by_cases equal : other = id
      · subst equal
        simp [Call.joined] at unjoined
      · simp only [Function.update_of_ne equal] at unjoined
        simpa [equal] using ok.quiet other unjoined
    · intro other joined
      by_cases equal : other = id
      · subst equal
        simp [silent]
      · simp only [Function.update_of_ne equal] at joined
        simpa [equal] using ok.joined other joined
  | registered =>
    simp only [IpcShared.wsOpen] at moved
    split_ifs at moved <;> cases moved <;> exact ok.call _ (by rw [call]; rfl) rfl rfl rfl
  | unsent =>
    simp only [IpcShared.wsOpen] at moved
    split_ifs at moved with inside
    · cases moved
      exact ok.close _ (ok.open inside) disconnectedEvents_last disconnectedEvents_close rfl rfl rfl rfl
    · cases moved
      exact ok.call _ (by rw [call]; rfl) rfl rfl rfl
  | returned => cases moved

theorem Told.onMessage (ok : Told s) (message : Option Message) : Told (s.onMessage message) := by
  cases message with
  | none => exact ⟨ok.quiet,ok.joined,ok.last⟩
  | some message =>
    cases message with
    | response response => exact ⟨ok.quiet,ok.joined,ok.last⟩
    | progress report =>
      simp only [IpcShared.onMessage]
      split_ifs
      · exact ⟨ok.quiet,ok.joined,ok.last⟩
      · exact ok
    | ws id event =>
      by_cases inside : id ∈ s.sockets
      · have opened := ok.open inside
        have joined : (s.calls id).joined = true := by
          by_contra unjoined
          exact (ok.quiet id (by simpa using unjoined)).1 inside
        have calls : s.calls = Function.update s.calls id (s.calls id) := (Function.update_eq_self _ _).symm
        have heard : closes event = false → Told (s.tell id [event]) := by
          intro open'
          refine ⟨?_,?_,?_⟩
          · intro other unjoined
            obtain ⟨absent,silent⟩ := ok.quiet other unjoined
            refine ⟨absent,?_⟩
            have different : other ≠ id := by
              rintro rfl
              exact absent inside
            simpa [tell,different] using silent
          · intro other joined'
            by_cases equal : other = id
            · subst equal
              refine iff_of_false (fun absent => absent inside) ?_
              rintro ⟨e,member,closed⟩
              simp only [tell,Function.update_self,List.mem_append,List.mem_singleton] at member
              rcases member with old | rfl
              · rw [opened e old] at closed
                cases closed
              · rw [open'] at closed
                cases closed
            · simpa [tell,equal] using ok.joined other joined'
          · intro other
            by_cases equal : other = id
            · subst equal
              simp only [tell,Function.update_self]
              exact dropLast_tell opened (by simp)
            · simpa [tell,equal] using ok.last other
        cases event with
        | closed code reason clean =>
          simp only [IpcShared.onMessage,inside,if_true]
          have last : ∀ e ∈ [WsEvent.closed code reason clean].dropLast, closes e = false := by simp
          exact ok.close (s.calls id) opened last ⟨_,List.mem_singleton.mpr rfl,rfl⟩ joined rfl rfl calls
        | opened protocol extensions =>
          simp only [IpcShared.onMessage,inside,if_true]
          exact heard rfl
        | message data =>
          simp only [IpcShared.onMessage,inside,if_true]
          exact heard rfl
        | sent len =>
          simp only [IpcShared.onMessage,inside,if_true]
          exact heard rfl
        | error text =>
          simp only [IpcShared.onMessage,inside,if_true]
          exact heard rfl
      · cases event with
        | closed code reason clean =>
          simp only [IpcShared.onMessage,inside,if_false]
          refine ⟨?_,?_,ok.last⟩
          · simpa only [Finset.erase_eq_of_notMem inside] using ok.quiet
          · simpa only [Finset.erase_eq_of_notMem inside] using ok.joined
        | _ =>
          simp only [IpcShared.onMessage,inside,if_false]
          exact ok

theorem Told.readerAdvances (ok : Told s) (taken : s.readerAdvances = some s') : Told s' := by
  cases reader : s.reader with
  | idle => simp [IpcShared.readerAdvances,reader] at taken
  | done => simp [IpcShared.readerAdvances,reader] at taken
  | response response =>
    simp only [IpcShared.readerAdvances,reader,Option.some.injEq] at taken
    subst taken
    unfold IpcShared.answer
    split_ifs <;> exact ⟨ok.quiet,ok.joined,ok.last⟩
  | progressCleared =>
    simp only [IpcShared.readerAdvances,reader,Option.some.injEq] at taken
    subst taken
    refine ⟨?_,?_,?_⟩
    · intro id unjoined
      obtain ⟨absent,silent⟩ := ok.quiet id unjoined
      simp [absent,silent]
    · intro id joined
      simp only [Finset.notMem_empty,not_false_eq_true,true_iff]
      split_ifs with inside
      · obtain ⟨e,member,closed⟩ := disconnectedEvents_close
        exact ⟨e,List.mem_append_right _ member,closed⟩
      · exact (ok.joined id joined).mp inside
    · intro id
      simp only
      split_ifs with inside
      · exact dropLast_tell (ok.open inside) disconnectedEvents_last
      · exact ok.last id
  | _ =>
    simp only [IpcShared.readerAdvances,reader,Option.some.injEq] at taken
    subst taken
    exact ⟨ok.quiet,ok.joined,ok.last⟩

/-- A call that is not a socket on its return changes nothing for the others. -/
theorem Unregistered.call (ok : Unregistered s) {id : Nat} {call : Call} {next : IpcShared}
    (reader : next.reader = s.reader) (calls : next.calls = Function.update s.calls id call)
    (others : ∀ other, other ≠ id → other ∈ next.sockets → other ∈ s.sockets)
    (returned : next.reader.drained → call = .socket .returned → id ∉ next.sockets) : Unregistered next := by
  intro drained other call'
  by_cases equal : other = id
  · subst equal
    rw [calls,Function.update_self] at call'
    exact returned drained call'
  · rw [calls,Function.update_of_ne equal] at call'
    rw [reader] at drained
    exact fun member => ok drained other call' (others other equal member)

end IpcShared

end Sharko.Netstack.Client
