import Sharko.Script.IndexedDb.Stack

/-! Every step of the engine is a sequence of moves of its ledger. -/

namespace Sharko.Script.IndexedDb

open Ledger (Moves Move)

theorem bind_ok {α β : Type} {x : Except DomError α} {f : α → Except DomError β} {r : β} :
    x >>= f = .ok r ↔ ∃ a,x = .ok a ∧ f a = .ok r := by
  cases x with
  | error e => simp [bind,Except.bind]
  | ok a => simp [bind,Except.bind]

namespace World

variable {σ τ : World} {t : Nat}

/-! ### Requests -/

theorem ledger_setTx_same {tx : Tx} (same : tx.account = (σ.tx t).account) :
    (σ.setTx t tx).ledger = σ.ledger := by
  rw [ledger_setTx,same]
  exact congrArg (fun tx => { σ.ledger with tx }) (Function.update_eq_self t σ.ledger.tx)

theorem ledger_grant (source : Source) : (σ.grant t source).ledger = σ.ledger := ledger_setTx_same rfl

theorem placeItem_moves (ready : σ.ledger.Ready t) (op : Op) (req : Option Nat) :
    Moves σ.ledger (σ.placeItem t op req).ledger := by
  rw [ledger_placeItem]
  exact (Relation.ReflTransGen.single (.place t op req ready)).tail (.schedule t ready.made)

theorem execute_moves (ready : σ.ledger.Ready t) (op : Op) : Moves σ.ledger (σ.execute t op).ledger :=
  placeItem_moves (σ := { σ with nextReq := σ.nextReq + 1 }) ready op _

theorem moveCursor_moves (ready : σ.ledger.Ready t) (id : Nat) (key pk : Option Key) (count : Nat) :
    Moves σ.ledger (σ.moveCursor t id key pk count).ledger := by
  have placed : ∀ cursor op req,Moves σ.ledger ({ σ with cursor }.placeItem t op req).ledger :=
    fun cursor => placeItem_moves (σ := { σ with cursor }) ready
  exact placed _ _ _

theorem runQuery_moves (ready : σ.ledger.Ready t) (source : Source) (range : Option KeyRange)
    (query : Query) : Moves σ.ledger (σ.runQuery t source range query).ledger := by
  have opened : ∀ cursor nextCursor op,
      Moves σ.ledger ({ σ with cursor,nextCursor }.execute t op).ledger :=
    fun cursor nextCursor => execute_moves (σ := { σ with cursor,nextCursor }) ready
  cases query with
  | openCursor dir keyOnly => exact opened _ _ _
  | get keyOnly => exact execute_moves ready _
  | getAll kind dir limit => exact execute_moves ready _
  | count => exact execute_moves ready _
  | delete => exact execute_moves ready _

theorem push_moves {frame : Frame} (ready : σ.ledger.Ready frame.t) (listed : frame.t ∈ σ.txs)
    (plain : frame.isPlain = true) : Moves σ.ledger (σ.push frame).ledger :=
  .single (.enter frame ready listed plain)

theorem cloneInTx_moves (ready : σ.ledger.Ready t) (listed : t ∈ σ.txs) (target : Target) :
    Moves σ.ledger (σ.cloneInTx t target).ledger := by
  have same : (σ.cloneInTx t target).ledger = σ.ledger.mask t target := by
    unfold cloneInTx
    rw [show ∀ (τ : World) frame,(τ.push frame).ledger = τ.ledger.push frame from fun _ _ => rfl,ledger_setTx]
    rfl
  rw [same]
  exact .single (.mask t target ready listed)

theorem endClone_moves {target : Target} {prev : TxState} {rest : List Frame}
    (frames : σ.frames = .cloning t target prev :: rest) :
    ({ σ with frames := rest }.endClone t prev).ledger = σ.ledger.unmask t prev := by
  have leave : { σ with frames := rest }.ledger = σ.ledger.leave := by
    simp [ledger,Ledger.leave,frames]
  unfold endClone Ledger.unmask
  rw [show (σ.ledger.tx t).state = (σ.tx t).state from rfl]
  split
  · rw [ledger_setTx,leave]
    rfl
  · rw [leave]
    exact (congrArg (fun tx => { σ.ledger.leave with tx }) (Function.update_eq_self t σ.ledger.tx)).symm

/-! ### Schema changes -/

theorem rename_version (content : Content) (change : (Text → Option Nat) → Text → Option Nat) (s : Nat)
    (store : StoreData) : ((content.rename change).setStore s store).database.map Database.version =
      content.database.map Database.version := by
  simp [Content.setStore,Content.rename,Function.comp_def]

theorem setStore_version (content : Content) (s : Nat) (store : StoreData) :
    (content.setStore s store).database.map Database.version = content.database.map Database.version := rfl

theorem ledger_changed {content : Content} {undo : Undo} (version : undo.version = none)
    (database : content.database.map Database.version = σ.content.database.map Database.version) :
    (σ.changed t content undo).ledger = σ.ledger.rememberAll t 1 := by
  unfold changed Ledger.rememberAll
  rw [ledger_setTx]
  simp [ledger,Ledger.set,Tx.account,database,version]

theorem remember_ready {Λ : Ledger} (ready : Λ.Ready t) (n : Nat) : (Λ.rememberAll t n).Ready t :=
  ⟨ready.made,by rw [Ledger.rememberAll,Ledger.set_tx_self]; exact ready.born,ready.unmasked⟩

theorem addStore_moves (ready : σ.ledger.Ready t) (name : Text) (kp : Option KeyPath)
    (autoIncrement : Bool) : Moves σ.ledger (σ.addStore t name kp autoIncrement).ledger := by
  unfold addStore
  dsimp only
  rw [ledger_grant,ledger_changed rfl (rename_version ..)]
  exact .single (.remember t 1 ready.made)

theorem addIndex_moves (ready : σ.ledger.Ready t) (s : Nat) (name : Text) (kp : KeyPath)
    (unique multiEntry : Bool) : Moves σ.ledger (σ.addIndex t s name kp unique multiEntry).ledger := by
  unfold addIndex
  dsimp only
  rw [ledger_grant,ledger_placeItem,ledger_changed rfl (setStore_version ..)]
  have ready' := remember_ready ready 1
  exact ((Relation.ReflTransGen.single (.remember t 1 ready.made)).tail (.place t _ _ ready')).tail
    (.schedule t ready'.made)

theorem removeStore_moves (ready : σ.ledger.Ready t) (name : Text) (s : Nat) :
    Moves σ.ledger (σ.removeStore t name s).ledger := by
  unfold removeStore
  rw [ledger_changed rfl (rename_version ..)]
  exact .single (.remember t 1 ready.made)

theorem removeIndex_moves (ready : σ.ledger.Ready t) (s : Nat) (name : Text) (i : Nat) :
    Moves σ.ledger (σ.removeIndex t s name i).ledger := by
  unfold removeIndex
  dsimp only
  rw [ledger_placeItem,ledger_changed rfl (setStore_version ..)]
  have ready' := remember_ready ready 1
  exact ((Relation.ReflTransGen.single (.remember t 1 ready.made)).tail (.place t _ _ ready')).tail
    (.schedule t ready'.made)

theorem renameStoreTo_moves (ready : σ.ledger.Ready t) (s : Nat) (name : Text) :
    Moves σ.ledger (σ.renameStoreTo t s name).ledger := by
  unfold renameStoreTo
  dsimp only
  rw [ledger_changed rfl (rename_version ..)]
  exact .single (.remember t 1 ready.made)

theorem renameIndexTo_moves (ready : σ.ledger.Ready t) (s i : Nat) (name : Text) :
    Moves σ.ledger (σ.renameIndexTo t s i name).ledger := by
  unfold renameIndexTo
  dsimp only
  rw [ledger_changed rfl (setStore_version ..)]
  exact .single (.remember t 1 ready.made)

/-! ### Calls -/

theorem settleCall_moves {Λ : Ledger} {call : Except DomError World} (throws : Moves Λ σ.ledger)
    (returns : ∀ τ,call = .ok τ → Moves Λ τ.ledger) : Moves Λ (σ.settleCall call).ledger := by
  cases call with
  | ok τ => exact returns τ rfl
  | error error =>
    unfold settleCall
    rw [ledger_thrown]
    exact throws

theorem preflight_active {source : Source} {method : String} {write : Bool}
    (passed : σ.preflight t source method write = .ok ()) : (σ.tx t).state = .active := by
  unfold preflight at passed
  dsimp only at passed
  split_ifs at passed with _ inactive
  · simpa using inactive

theorem cursorCheck_active {c : Cursor} {method : String} {needsIndex : Bool}
    (passed : σ.cursorCheck c method needsIndex = .ok ()) : (σ.tx c.tx).state = .active := by
  unfold cursorCheck at passed
  dsimp only at passed
  split_ifs at passed with inactive
  · simpa using inactive

theorem cursorWrite_active {c : Cursor} {method verb : String}
    (passed : σ.cursorWrite c method verb = .ok ()) : (σ.tx c.tx).state = .active := by
  unfold cursorWrite at passed
  dsimp only at passed
  split_ifs at passed with inactive
  all_goals simpa using inactive

theorem upgradeOf_active {c : Nat} {method : String} (passed : σ.upgradeOf c method = .ok t) :
    (σ.tx t).state = .active := by
  unfold upgradeOf at passed
  dsimp only at passed
  split at passed
  · cases passed
  · split_ifs at passed with _ inactive
    cases passed
    simpa using inactive

theorem schemaCheck_active {s : Nat} {method : String} (passed : σ.schemaCheck t s method = .ok ()) :
    (σ.tx t).state = .active := by
  unfold schemaCheck at passed
  dsimp only at passed
  split_ifs at passed with _ _ inactive
  · simpa using inactive

theorem enqueue_moves (nextReq : Nat) (request : ConnRequest) :
    Moves σ.ledger (({ σ with nextReq }.record (.requested request)).connect
      (σ.connections.enqueueConn request)).ledger := by
  rw [ledger_connect,ledger_record _ rfl]
  exact .single (.request request)

theorem hasConn_iff {c : Nat} : σ.hasConn c = true ↔
    c < σ.ledger.connections.nextConn ∧ (σ.ledger.connections.conn c).delivered = true := by
  simp [hasConn,ledger]

theorem hasTx_iff : σ.hasTx t = true ↔ t < σ.ledger.nextTx ∧ (σ.ledger.tx t).hold = false := by
  simp [hasTx,ledger,Tx.account]

theorem transaction_moves {c : Nat} {names : List Text} {mode : Mode} (known : σ.hasConn c = true)
    (passed : σ.transaction c names mode = .ok τ) : Moves σ.ledger τ.ledger := by
  obtain ⟨made,delivered⟩ := hasConn_iff.mp known
  unfold transaction at passed
  split_ifs at passed with upgrading closing versionchange
  · split at passed
    · cases passed
    · split_ifs at passed
  · split at passed
    · cases passed
    next scope _ =>
      split_ifs at passed
      cases passed
      rw [ledger_schedule,ledger_createTx]
      refine .single (.create c mode scope made delivered ?_ (Bool.eq_false_iff.mpr closing) versionchange)
      intro t running same
      refine upgrading ?_
      rw [show σ.upgradeTx = some t from running]
      exact decide_eq_true same

theorem commit_moves (framed : σ.ledger.Framed) (passed : σ.commit t = .ok τ) : Moves σ.ledger τ.ledger := by
  unfold commit at passed
  split_ifs at passed with inactive
  cases passed
  have active : (σ.ledger.tx t).state = .active := not_not.mp inactive
  have ready := framed.ready_of_active active
  rw [ledger_schedule,ledger_setTx]
  exact (Relation.ReflTransGen.single (.become t .committing ready (by rw [active]; nofun) nofun)).tail
    (.schedule t ready.made)

theorem abort_moves (known : σ.hasTx t = true) (passed : σ.abort t = .ok τ) : Moves σ.ledger τ.ledger := by
  obtain ⟨made,born⟩ := hasTx_iff.mp known
  unfold abort at passed
  dsimp only at passed
  split_ifs at passed with isOver
  cases passed
  obtain ⟨scope,same⟩ := σ.ledger_abortTx t none
  rw [same]
  exact .single (.abort t scope made born)

theorem objectStore_moves {name : Text} (passed : σ.objectStore t name = .ok τ) : Moves σ.ledger τ.ledger := by
  unfold objectStore at passed
  dsimp only at passed
  split_ifs at passed
  split at passed
  · cases passed
  · cases passed
    rw [ledger_grant]

theorem index_moves {s : Nat} {name : Text} (passed : σ.index t s name = .ok τ) : Moves σ.ledger τ.ledger := by
  unfold index at passed
  dsimp only at passed
  split_ifs at passed
  split at passed
  · cases passed
  · cases passed
    rw [ledger_grant]

theorem query_moves (sound : σ.ledger.Sound) {source : Source} {query : Query}
    (passed : σ.query t source query = .ok τ) : Moves σ.ledger τ.ledger := by
  obtain ⟨_,checked,done⟩ := bind_ok.mp passed
  cases done
  exact push_moves (sound.framed.ready_of_active (preflight_active checked)) (sound.listed (preflight_active checked)) rfl

theorem clear_moves (framed : σ.ledger.Framed) {s : Nat} (passed : σ.clear t s = .ok τ) :
    Moves σ.ledger τ.ledger := by
  obtain ⟨_,checked,done⟩ := bind_ok.mp passed
  cases done
  exact execute_moves (framed.ready_of_active (preflight_active checked)) _

theorem put_moves (sound : σ.ledger.Sound) {s : Nat} {noOverwrite keyGiven : Bool}
    (passed : σ.put t s noOverwrite keyGiven = .ok τ) : Moves σ.ledger τ.ledger := by
  obtain ⟨_,checked,done⟩ := bind_ok.mp passed
  have ready := sound.framed.ready_of_active (preflight_active checked)
  have listed := sound.listed (preflight_active checked)
  split_ifs at done
  · cases done
    exact push_moves ready listed rfl
  · cases done
    exact cloneInTx_moves ready listed _

theorem advance_moves (framed : σ.ledger.Framed) {id count : Nat}
    (passed : σ.advance id count = .ok τ) : Moves σ.ledger τ.ledger := by
  unfold advance at passed
  split_ifs at passed
  obtain ⟨_,checked,done⟩ := bind_ok.mp passed
  cases done
  exact moveCursor_moves (framed.ready_of_active (cursorCheck_active checked)) ..

theorem continueTo_moves (sound : σ.ledger.Sound) {id : Nat} {keyGiven : Bool}
    (passed : σ.continueTo id keyGiven = .ok τ) : Moves σ.ledger τ.ledger := by
  obtain ⟨_,checked,done⟩ := bind_ok.mp passed
  have ready := sound.framed.ready_of_active (cursorCheck_active checked)
  have listed := sound.listed (cursorCheck_active checked)
  split_ifs at done
  · cases done
    exact push_moves ready listed rfl
  · cases done
    exact moveCursor_moves ready ..

theorem continuePrimaryKey_moves (sound : σ.ledger.Sound) {id : Nat}
    (passed : σ.continuePrimaryKey id = .ok τ) : Moves σ.ledger τ.ledger := by
  obtain ⟨_,checked,done⟩ := bind_ok.mp passed
  cases done
  exact push_moves (sound.framed.ready_of_active (cursorCheck_active checked)) (sound.listed (cursorCheck_active checked)) rfl

theorem update_moves (sound : σ.ledger.Sound) {id : Nat} (passed : σ.update id = .ok τ) :
    Moves σ.ledger τ.ledger := by
  obtain ⟨_,checked,done⟩ := bind_ok.mp passed
  cases done
  exact cloneInTx_moves (sound.framed.ready_of_active (cursorWrite_active checked)) (sound.listed (cursorWrite_active checked)) _

theorem deleteAt_moves (framed : σ.ledger.Framed) {id : Nat} (passed : σ.deleteAt id = .ok τ) :
    Moves σ.ledger τ.ledger := by
  obtain ⟨_,checked,done⟩ := bind_ok.mp passed
  split at done
  · cases done
    exact .refl
  · cases done
    exact execute_moves (framed.ready_of_active (cursorWrite_active checked)) _

theorem createObjectStore_moves (sound : σ.ledger.Sound) {c : Nat} {name : Text}
    (passed : σ.createObjectStore c name = .ok τ) : Moves σ.ledger τ.ledger := by
  obtain ⟨t,checked,done⟩ := bind_ok.mp passed
  cases done
  exact push_moves (sound.framed.ready_of_active (upgradeOf_active checked)) (sound.listed (upgradeOf_active checked)) rfl

theorem deleteObjectStore_moves (framed : σ.ledger.Framed) {c : Nat} {name : Text}
    (passed : σ.deleteObjectStore c name = .ok τ) : Moves σ.ledger τ.ledger := by
  obtain ⟨t,checked,done⟩ := bind_ok.mp passed
  split at done
  · cases done
  · cases done
    exact removeStore_moves (framed.ready_of_active (upgradeOf_active checked)) ..

theorem renameStore_moves (framed : σ.ledger.Framed) {s : Nat} {name : Text}
    (passed : σ.renameStore t s name = .ok τ) : Moves σ.ledger τ.ledger := by
  unfold renameStore at passed
  dsimp only at passed
  split_ifs at passed with _ _ inactive
  · cases passed
    exact .refl
  · cases passed
    exact renameStoreTo_moves (framed.ready_of_active (not_not.mp inactive)) ..

theorem createIndex_moves {identifier : Text → Bool} (sound : σ.ledger.Sound) {s : Nat} {name : Text}
    {kp : KeyPath} (passed : σ.createIndex identifier t s name kp = .ok τ) : Moves σ.ledger τ.ledger := by
  obtain ⟨_,checked,done⟩ := bind_ok.mp passed
  split_ifs at done
  cases done
  exact push_moves (sound.framed.ready_of_active (schemaCheck_active checked)) (sound.listed (schemaCheck_active checked)) rfl

theorem deleteIndex_moves (framed : σ.ledger.Framed) {s : Nat} {name : Text}
    (passed : σ.deleteIndex t s name = .ok τ) : Moves σ.ledger τ.ledger := by
  obtain ⟨_,checked,done⟩ := bind_ok.mp passed
  split at done
  · cases done
  · cases done
    exact removeIndex_moves (framed.ready_of_active (schemaCheck_active checked)) ..

theorem renameIndex_moves (framed : σ.ledger.Framed) {s i : Nat} {name : Text}
    (passed : σ.renameIndex t s i name = .ok τ) : Moves σ.ledger τ.ledger := by
  unfold renameIndex at passed
  dsimp only at passed
  split_ifs at passed with _ inactive
  · cases passed
    exact .refl
  · cases passed
    exact renameIndexTo_moves (framed.ready_of_active (not_not.mp inactive)) ..

theorem call_moves {identifier : Text → Bool} (sound : σ.ledger.Sound) {call : Call}
    {result : Except DomError World} (called : σ.call identifier call = some result) :
    Moves σ.ledger (σ.settleCall result).ledger := by
  refine settleCall_moves .refl ?_
  rintro τ rfl
  unfold World.call at called
  cases call with
  | openDb version =>
    dsimp only at called
    split_ifs at called
    cases called
    exact enqueue_moves _ _
  | deleteDb =>
    cases called
    exact enqueue_moves _ _
  | close c =>
    dsimp only at called
    split_ifs at called with known
    cases called
    obtain ⟨made,delivered⟩ := hasConn_iff.mp known
    exact .single (.close c made delivered)
  | transaction c names mode =>
    dsimp only at called
    split_ifs at called with known
    exact transaction_moves known (Option.some.inj called)
  | abort t =>
    dsimp only at called
    split_ifs at called with known
    exact abort_moves known (Option.some.inj called)
  | objectStore t name =>
    dsimp only at called
    split_ifs at called
    exact objectStore_moves (Option.some.inj called)
  | index t s name =>
    dsimp only at called
    split_ifs at called
    exact index_moves (Option.some.inj called)
  | commit t =>
    dsimp only at called
    split_ifs at called
    exact commit_moves sound.framed (Option.some.inj called)
  | query t source query =>
    dsimp only at called
    split_ifs at called
    exact query_moves sound (Option.some.inj called)
  | clear t s =>
    dsimp only at called
    split_ifs at called
    exact clear_moves sound.framed (Option.some.inj called)
  | put t s noOverwrite keyGiven =>
    dsimp only at called
    split_ifs at called
    exact put_moves sound (Option.some.inj called)
  | advance id count =>
    dsimp only at called
    split_ifs at called
    exact advance_moves sound.framed (Option.some.inj called)
  | «continue» id keyGiven =>
    dsimp only at called
    split_ifs at called
    exact continueTo_moves sound (Option.some.inj called)
  | continuePrimaryKey id =>
    dsimp only at called
    split_ifs at called
    exact continuePrimaryKey_moves sound (Option.some.inj called)
  | update id =>
    dsimp only at called
    split_ifs at called
    exact update_moves sound (Option.some.inj called)
  | deleteAt id =>
    dsimp only at called
    split_ifs at called
    exact deleteAt_moves sound.framed (Option.some.inj called)
  | createObjectStore c name =>
    dsimp only at called
    split_ifs at called
    exact createObjectStore_moves sound (Option.some.inj called)
  | deleteObjectStore c name =>
    dsimp only at called
    split_ifs at called
    exact deleteObjectStore_moves sound.framed (Option.some.inj called)
  | renameStore t s name =>
    dsimp only at called
    split_ifs at called
    exact renameStore_moves sound.framed (Option.some.inj called)
  | createIndex t s name kp =>
    dsimp only at called
    split_ifs at called
    exact createIndex_moves sound (Option.some.inj called)
  | deleteIndex t s name =>
    dsimp only at called
    split_ifs at called
    exact deleteIndex_moves sound.framed (Option.some.inj called)
  | renameIndex t s i name =>
    dsimp only at called
    split_ifs at called
    exact renameIndex_moves sound.framed (Option.some.inj called)

/-! ### Replies -/

theorem ledger_leave {frame : Frame} {rest : List Frame} (frames : σ.frames = frame :: rest) :
    { σ with frames := rest }.ledger = σ.ledger.leave := by
  simp [ledger,Ledger.leave,frames]

theorem placeRecord_moves (ready : σ.ledger.Ready t) (target : Target) (key : Option Key) (value : Value) :
    Moves σ.ledger (σ.placeRecord t target key value).ledger := by
  cases target with
  | put s noOverwrite given => exact execute_moves ready _
  | update id => exact execute_moves ready _

theorem perform_database (op : Op) :
    (σ.perform op).content.database.map Database.version = σ.content.database.map Database.version := by
  cases op <;> rfl

theorem perform_undo (op : Op) :
    (σ.perform op).undo.map Undo.version = List.replicate (σ.perform op).undo.length none := by
  refine List.eq_replicate_iff.mpr ⟨List.length_map _,?_⟩
  intro version mem
  obtain ⟨undo,inside,rfl⟩ := List.mem_map.mp mem
  cases op with
  | get source range keyOnly | getAll source kind range dir limit | count source range
  | iterate id key pk count => cases inside
  | delete s range | record s value key noOverwrite | populate s i | unmaintain s i =>
    obtain ⟨u,-,rfl⟩ := List.mem_map.mp inside
    rfl

theorem ledger_dispatchAt {Λ : Ledger} {item : Item} {outcome : Except DomError Result}
    (performed : σ.ledger = Λ.performed t item outcome) (error : Option DomError) :
    (σ.dispatchAt t item outcome error).ledger = Λ.fire t item outcome error := by
  have fired : ∀ τ : World,((τ.record (.settled t item outcome)).push (.dispatched t error)).ledger =
      (τ.ledger.record (.settled t item outcome)).push (.dispatched t error) := by
    intro τ
    rw [← ledger_record τ rfl]
    rfl
  unfold dispatchAt Ledger.fire
  dsimp only
  rw [fired,← performed,show (σ.ledger.tx t).state = (σ.tx t).state from rfl]
  split
  · rw [ledger_setTx]
    rfl
  · rfl

theorem ledger_fail {Λ : Ledger} {item : Item} {outcome : Except DomError Result}
    (performed : σ.ledger = Λ.performed t item outcome) (error : DomError) : ∃ scope,((if item.req = none then σ
      else σ.setTx t { σ.tx t with queue := item :: (σ.tx t).queue }).abortTx t (some error)).ledger =
        Λ.fail t item outcome scope := by
  unfold Ledger.fail
  dsimp only
  rw [← performed]
  split
  · exact σ.ledger_abortTx t (some error)
  · obtain ⟨scope,same⟩ := (σ.setTx t { σ.tx t with queue := item :: (σ.tx t).queue }).ledger_abortTx t
      (some error)
    refine ⟨scope,?_⟩
    rw [same,ledger_setTx]
    rfl

theorem ledger_runOp (item : Item) : ∃ n, (σ.runOp t item).ledger = (σ.ledger.rememberAll t n).record
      (.performed t item (σ.perform item.op).outcome) := by
  have undo := perform_undo (σ := σ) item.op
  have database := perform_database (σ := σ) item.op
  refine ⟨(σ.perform item.op).undo.length,?_⟩
  unfold runOp Ledger.rememberAll
  dsimp only
  rw [ledger_record _ rfl,ledger_setTx]
  simp [ledger,Ledger.set,Tx.account,database,undo]

theorem runItem_moves {item : Item} {mark : Nat} {rest : List Frame}
    (framed : σ.ledger.Framed) (frames : σ.frames = .running t item mark :: rest) :
    Moves σ.ledger ({ σ with frames := rest }.runItem t item mark).ledger := by
  have made : t < σ.ledger.nextTx :=
    (framed.framed (.running t item mark) (by simp [ledger,frames])).1
  obtain ⟨n,ran⟩ := ledger_runOp (σ := { σ with frames := rest }) (t := t) item
  rw [ledger_leave frames] at ran
  unfold runItem
  dsimp only
  generalize (World.perform { σ with frames := rest } item.op).outcome = outcome at ran ⊢
  generalize World.runOp { σ with frames := rest } t item = τ at ran ⊢
  have left : τ.ledger = (σ.ledger.rememberAll t n).performed t item outcome := ran
  have remembered : Move σ.ledger (σ.ledger.rememberAll t n) := .remember t n made
  have running : (σ.ledger.rememberAll t n).frames = .running t item mark :: rest := frames
  split
  next =>
    split
    next silent =>
      rw [left]
      exact (Relation.ReflTransGen.single remembered).tail (.finish t item mark rest running _ silent)
    next asks =>
      rw [ledger_dispatchAt left]
      exact (Relation.ReflTransGen.single remembered).tail (.fire t item mark rest running _ none asks)
  next error =>
    have undone : (τ.rollback t mark).ledger =
        ((σ.ledger.rememberAll t n).rollback t mark).performed t item (.error error) := by
      rw [ledger_rollback,left]
      rfl
    have rolled := (Relation.ReflTransGen.single remembered).tail (.rollback t item mark rest running)
    have running' : ((σ.ledger.rememberAll t n).rollback t mark).frames = .running t item mark :: rest :=
      frames
    split
    next doomed =>
      obtain ⟨scope,same⟩ := ledger_fail undone error
      rw [same]
      refine rolled.tail (.fail t item mark rest running' _ scope ?_)
      have state : (((σ.ledger.rememberAll t n).rollback t mark).tx t).state =
          ((τ.rollback t mark).tx t).state := by
        have same := congrArg (fun Λ => (Ledger.tx Λ t).state) undone
        exact same.symm
      rw [state]
      exact doomed
    next going =>
      rw [ledger_dispatchAt undone]
      exact rolled.tail (.fire t item mark rest running' _ (some error) (not_or.mp going).1)

theorem ledger_pendingAbort (error : Option DomError) :
    (σ.setTx t { σ.tx t with pendingAbort := error }).ledger = σ.ledger := ledger_setTx_same rfl

theorem afterEvent_ledger (error : Option DomError) (threw canceled : Bool) :
    (σ.afterEvent t error threw canceled).ledger = σ.ledger := by
  unfold afterEvent
  cases error with
  | none =>
    dsimp only
    split_ifs
    · rfl
    · exact ledger_pendingAbort _
    · rfl
  | some error =>
    split_ifs
    · rfl
    · exact ledger_pendingAbort _
    · rfl
    · exact ledger_pendingAbort _

theorem resume_plain {identifier : Text → Bool} {frame : Frame} {reply : Reply}
    (plain : frame.isPlain = true) (ready : σ.ledger.Ready frame.t) (listed : frame.t ∈ σ.txs)
    (resumed : σ.resume identifier frame reply = some τ) : Moves σ.ledger τ.ledger := by
  unfold resume at resumed
  split at resumed
  case h_1 | h_3 | h_4 | h_10 | h_11 => cases plain
  case h_2 t error threw canceled =>
    cases resumed
    rw [afterEvent_ledger]
  case h_5 t threw canceled =>
    cases resumed
    split_ifs
    · rw [ledger_pendingAbort]
    · exact .refl
  case h_6 t source query range =>
    split_ifs at resumed
    cases resumed
    exact runQuery_moves ready ..
  case h_8 t s noOverwrite k =>
    cases resumed
    exact cloneInTx_moves ready listed _
  case h_12 t target value =>
    split at resumed
    · cases resumed
    · cases resumed
      refine settleCall_moves .refl ?_
      intro τ done
      obtain ⟨key,_,placed⟩ := bind_ok.mp done
      cases placed
      exact placeRecord_moves ready ..
  case h_14 t id k =>
    cases resumed
    refine settleCall_moves .refl ?_
    intro τ done
    obtain ⟨_,_,moved⟩ := bind_ok.mp done
    cases moved
    exact moveCursor_moves ready ..
  case h_15 t id k pk =>
    cases resumed
    refine settleCall_moves .refl ?_
    intro τ done
    obtain ⟨_,_,moved⟩ := bind_ok.mp done
    cases moved
    exact moveCursor_moves ready ..
  case h_17 t s name kp unique multiEntry =>
    cases resumed
    refine settleCall_moves .refl ?_
    intro τ done
    split at done
    · cases done
    · cases done
      exact addIndex_moves ready ..
  case h_19 t name kp =>
    cases resumed
    refine settleCall_moves .refl ?_
    intro τ done
    split_ifs at done
    cases done
    exact push_moves ready listed rfl
  case h_21 t name kp v =>
    cases resumed
    refine settleCall_moves .refl ?_
    intro τ done
    split_ifs at done
    cases done
    exact addStore_moves ready ..
  case h_23 => cases resumed
  all_goals
    cases resumed
    exact .refl

theorem resume_cloning {identifier : Text → Bool} {target : Target} {prev : TxState} {rest : List Frame}
    {reply : Reply} (sound : σ.ledger.Sound) (frames : σ.frames = .cloning t target prev :: rest)
    (resumed : { σ with frames := rest }.resume identifier (.cloning t target prev) reply = some τ) :
    Moves σ.ledger τ.ledger := by
  have unmasked := endClone_moves frames
  have moved : Moves σ.ledger (World.endClone { σ with frames := rest } t prev).ledger := by
    rw [unmasked]
    exact .single (.unmask t target prev rest frames)
  have below : σ.ledger.leave.Ready t := sound.framed.ready_of_leave frames
  have ready : (World.endClone { σ with frames := rest } t prev).ledger.Ready t := by
    rw [unmasked]
    refine ⟨below.made,?_,below.unmasked⟩
    rw [show (σ.ledger.unmask t prev).tx = (σ.ledger.become t _).tx from rfl,Ledger.become,
      Ledger.set_tx_self]
    exact below.born
  have listed : t ∈ (World.endClone { σ with frames := rest } t prev).ledger.txs := by
    rw [unmasked]
    exact sound.rooted.listed (.cloning t target prev) (by simp [ledger,frames]) rfl
  unfold resume at resumed
  cases reply with
  | clone value =>
    dsimp only at resumed
    split_ifs at resumed
    · cases resumed
      exact moved.trans (placeRecord_moves ready ..)
    · cases resumed
      exact moved.trans (push_moves ready listed rfl)
  | failed =>
    cases resumed
    exact moved
  | _ => cases resumed

theorem resume_ending {identifier : Text → Bool} {frame : Frame} {rest : List Frame} {reply : Reply}
    (sound : σ.ledger.Sound) (frames : σ.frames = frame :: rest) (ends : frame.endsTx t = true)
    (resumed : { σ with frames := rest }.resume identifier frame reply = some τ) :
    Moves σ.ledger τ.ledger := by
  have plain : frame.isCloning = false := by
    cases frame with
    | cloning => cases ends
    | _ => rfl
  have of : frame.t = t := by
    cases frame with
    | completing u => exact of_decide_eq_true ends
    | aborting u => exact of_decide_eq_true ends
    | _ => cases ends
  have ready : σ.ledger.Ready t := of ▸ sound.framed.ready_of_top frames plain
  have isOver := (Ledger.over_ready ready).mp (sound.driven.ended frame (by simp [ledger,frames]) t ends)
  have finalized : (World.finalizeTx { σ with frames := rest } t).ledger = σ.ledger.leave.finalizeTx t := by
    rw [ledger_finalizeTx,ledger_leave frames]
  have moved : Moves σ.ledger (World.finalizeTx { σ with frames := rest } t).ledger := by
    rw [finalized]
    exact .single (.finalize t frame rest frames ends isOver)
  unfold resume at resumed
  cases frame with
  | completing u =>
    cases of_decide_eq_true ends
    cases reply with
    | event threw canceled =>
      cases resumed
      exact moved
    | _ => cases resumed
  | aborting u =>
    cases of_decide_eq_true ends
    cases reply with
    | event threw canceled =>
      cases resumed
      exact moved
    | _ => cases resumed
  | _ => cases ends

theorem leave_moves {frame : Frame} {rest : List Frame} (frames : σ.frames = frame :: rest)
    (plain : frame.isPlain = true) : Moves σ.ledger (World.ledger { σ with frames := rest }) := by
  rw [ledger_leave frames]
  exact .single (.leave frame rest frames plain)

theorem resume_moves {identifier : Text → Bool} {frame : Frame} {rest : List Frame} {reply : Reply}
    (sound : σ.ledger.Sound) (frames : σ.frames = frame :: rest)
    (resumed : { σ with frames := rest }.resume identifier frame reply = some τ) :
    Moves σ.ledger τ.ledger := by
  have listed : ∀ {frame : Frame},σ.frames = frame :: rest → frame.isEnding = false → frame.t ∈ σ.txs :=
    fun frames plain => sound.rooted.listed _ (by simp [ledger,frames]) plain
  cases frame with
  | running t item mark =>
    cases reply with
    | done =>
      cases resumed
      exact runItem_moves sound.framed frames
    | _ => cases resumed
  | completing t => exact resume_ending sound frames (decide_eq_true rfl) resumed
  | aborting t => exact resume_ending sound frames (decide_eq_true rfl) resumed
  | cloning t target prev => exact resume_cloning sound frames resumed
  | _ =>
    have below : σ.ledger.leave.Ready _ := sound.framed.ready_of_leave frames
    rw [← ledger_leave frames] at below
    exact (leave_moves frames rfl).trans (resume_plain rfl below (listed frames rfl) resumed)

/-! ### Timers -/

theorem ledger_upgradeNeeded : (σ.upgradeNeeded t).ledger = σ.ledger.upgradeNeeded t := by
  have pushed : ∀ (τ : World) (frame : Frame),(τ.push frame).ledger = τ.ledger.push frame := fun _ _ => rfl
  unfold upgradeNeeded Ledger.upgradeNeeded
  dsimp only
  rw [pushed,ledger_schedule,ledger_setTx]
  rfl

theorem rest_schedule (Λ : Ledger) (tasks : List Task) {account : Account}
    (unset : account.scheduled = false) : ((Λ.rest t tasks).set t account).schedule t =
      { Λ with tasks := tasks ++ [Task.step t] }.set t { account with scheduled := true } := by
  unfold Ledger.schedule
  rw [Ledger.set_tx_self,unset]
  simp [Ledger.rest,Ledger.set,Ledger.later]

theorem rest_abortTx {Λ : Ledger} {tasks : List Task} (unfinished : (Λ.tx t).state ≠ .finished)
    (timer : Λ.tasks = .step t :: tasks) (scope : Option (List Nat)) : ∃ later,
      (Λ.abortTx t scope).tasks = .step t :: later ∧
      (Λ.rest t tasks).abortTx t scope = (Λ.abortTx t scope).rest t later := by
  have unfinished' : ((Λ.rest t tasks).tx t).state ≠ .finished := by
    rw [Ledger.rest,Ledger.set_tx_self]
    exact unfinished
  refine ⟨tasks ++ Ledger.settlesOf (Λ.tx t).queue t ++ [.aborted t],?_,?_⟩
  · rw [Ledger.abortTx_eq _ unfinished,timer]
    rfl
  · rw [Ledger.abortTx_eq _ unfinished,Ledger.abortTx_eq _ unfinished']
    simp [Ledger.rest,Ledger.set,Ledger.abortedTx,Ledger.abortedDatabase,Ledger.abortedConnections]

theorem rest_complete (Λ : Ledger) (tasks : List Task) (scope : Option (List Nat)) :
    (Λ.rest t tasks).complete t scope = (Λ.complete t scope).rest t tasks := by
  rw [Ledger.complete_eq,Ledger.complete_eq]
  simp [Ledger.rest,Ledger.set,Ledger.completedTx,Ledger.upgradeAfter,Ledger.record,Ledger.push]

theorem rest_canStart (Λ : Ledger) (tasks : List Task) : (Λ.rest t tasks).canStart t = Λ.canStart t := by
  have kind : ∀ u,((Λ.rest t tasks).tx u).mode = (Λ.tx u).mode ∧
      ((Λ.rest t tasks).tx u).scope = (Λ.tx u).scope := by
    intro u
    rw [Ledger.rest]
    by_cases same : u = t
    · subst same
      rw [Ledger.set_tx_self]
      exact ⟨rfl,rfl⟩
    · rw [Ledger.set_tx_other _ same]
      exact ⟨rfl,rfl⟩
  exact Ledger.canStartAmong_congr (fun u => (kind u).1) (fun u => (kind u).2) Λ.txs

theorem work_moves {Λ : Ledger} {tasks : List Task} (idle : Λ.frames = []) (made : t < Λ.nextTx)
    (born : (Λ.tx t).hold = false) (unfinished : (Λ.tx t).state ≠ .finished)
    (timer : Λ.tasks = .step t :: tasks) (rests : σ.ledger = Λ.rest t tasks)
    (backend : Option DomError) : Moves Λ (σ.work t backend).ledger := by
  have ready := Ledger.ready_of_idle idle made born
  have account : σ.ledger.tx t = { Λ.tx t with scheduled := false } := by
    rw [rests,Ledger.rest,Ledger.set_tx_self]
  have aborted : ∀ scope,Moves Λ ((Λ.rest t tasks).abortTx t scope) := by
    intro scope
    obtain ⟨later,timer',same⟩ := rest_abortTx unfinished timer scope
    rw [same]
    exact (Relation.ReflTransGen.single (.abort t scope made born)).tail
      (.rest t later timer' (.inl ((Ledger.over_abortTx scope).mpr (.inr rfl))))
  unfold work
  dsimp only
  split
  next error _ =>
    obtain ⟨scope,same⟩ := (σ.setTx t { σ.tx t with pendingAbort := none }).ledger_abortTx t (some error)
    rw [same,ledger_pendingAbort,rests]
    exact aborted scope
  next =>
    split
    next waits =>
      rw [rests]
      refine .single (.rest t tasks timer (.inr (.inr ?_)))
      rw [← rest_canStart Λ tasks,← rests,canStart_ledger]
      simpa using waits
    next =>
      split
      next empty =>
        split
        next committing =>
          obtain ⟨scope,same | same⟩ := σ.ledger_commitTx t backend
          · rw [same,rests]
            exact aborted scope
          · rw [same,rests,rest_complete]
            have state : (Λ.tx t).state = .committing := by
              have same := congrArg Account.state account
              exact same.symm.trans committing
            have queue : (Λ.tx t).queue = [] := by
              have same := congrArg Account.queue account
              exact same.symm.trans empty
            refine (Relation.ReflTransGen.single (.complete t scope idle made born state queue)).tail
              (.rest t tasks ?_ (.inl (.inl ?_)))
            · rw [Ledger.complete_eq]
              exact timer
            · rw [Ledger.complete_eq]
              exact congrArg Account.state (Ledger.set_tx_self _ t _)
        next going =>
          have same : ((σ.setTx t { σ.tx t with state := .committing }).schedule t).ledger =
              (Λ.become t .committing).again t tasks := by
            have changed : Tx.account { σ.tx t with state := .committing } =
                { Λ.tx t with scheduled := false,state := .committing } :=
              congrArg (fun account : Account => { account with state := .committing }) account
            rw [ledger_schedule,ledger_setTx,rests,changed,rest_schedule Λ tasks rfl]
            simp [Ledger.again,Ledger.become,Ledger.set]
          rw [same]
          exact (Relation.ReflTransGen.single (.become t .committing ready unfinished (by rintro ⟨⟩))).tail
            (.again t tasks timer)
      next item queue next =>
        have queued : (Λ.tx t).queue = item :: queue := by
          have same := congrArg Account.queue account
          exact same.symm.trans next
        have same : (((σ.setTx t { σ.tx t with queue }).schedule t).push
            (.running t item (σ.tx t).undo.length)).ledger = (Λ.again t tasks).start t item queue := by
          have changed : Tx.account { σ.tx t with queue } = { Λ.tx t with scheduled := false,queue } :=
            congrArg (fun account : Account => { account with queue }) account
          have mark : (σ.tx t).undo.length = (Λ.tx t).versions.length := by
            have same := congrArg (fun account => (Account.versions account).length) account
            rw [← List.length_map (f := Undo.version)]
            exact same
          rw [show ∀ (τ : World) frame,(τ.push frame).ledger = τ.ledger.push frame from fun _ _ => rfl,
            ledger_schedule,ledger_setTx,rests,changed,rest_schedule Λ tasks rfl,mark]
          simp [Ledger.again,Ledger.start,Ledger.set]
        rw [same]
        refine (Relation.ReflTransGen.single (.again t tasks timer)).tail
          (.start t item queue idle made ?_ ?_ ?_)
        all_goals rw [Ledger.again,Ledger.set_tx_self]
        · exact born
        · exact unfinished
        · exact queued

theorem step_moves {tasks : List Task} (framed : σ.ledger.Framed) (idle : σ.frames = [])
    (timer : σ.tasks = .step t :: tasks) (backend : Option DomError) :
    Moves σ.ledger ({ σ with tasks }.run backend (.step t)).ledger := by
  have made : t < σ.ledger.nextTx := framed.timed (.step t) (by simp [ledger,timer]) t rfl
  unfold run
  dsimp only
  generalize resting : World.setTx { σ with tasks } t { σ.tx t with scheduled := false } = ρ
  have rests : ρ.ledger = σ.ledger.rest t tasks := by
    rw [← resting,ledger_setTx]
    rfl
  have account : ρ.ledger.tx t = { σ.ledger.tx t with scheduled := false } := by
    rw [rests,Ledger.rest,Ledger.set_tx_self]
  have state : (ρ.tx t).state = (σ.ledger.tx t).state := congrArg Account.state account
  have hold : (ρ.tx t).hold = (σ.ledger.tx t).hold := congrArg Account.hold account
  unfold step
  dsimp only
  split
  next isOver =>
    rw [state,hold] at isOver
    rw [rests]
    exact .single (.rest t tasks timer (isOver.imp .inl .inl))
  next going =>
    rw [state,hold,not_or] at going
    obtain ⟨unfinished,free⟩ := going
    have born := Bool.eq_false_iff.mpr free
    have ready := Ledger.ready_of_idle idle made born
    split
    next late =>
      have same : ((ρ.setTx t { ρ.tx t with state := .inactive }).schedule t).ledger =
          (σ.ledger.become t .inactive).again t tasks := by
        have changed : Tx.account { ρ.tx t with state := .inactive } =
            { σ.ledger.tx t with scheduled := false,state := .inactive } :=
          congrArg (fun account : Account => { account with state := .inactive }) account
        rw [ledger_schedule,ledger_setTx,rests,changed,rest_schedule σ.ledger tasks rfl]
        simp [Ledger.again,Ledger.become,Ledger.set]
      rw [same]
      exact (Relation.ReflTransGen.single (.become t .inactive ready unfinished (by rintro ⟨⟩))).tail
        (.again t tasks timer)
    next =>
      split
      next active =>
        have rests' : (ρ.setTx t { ρ.tx t with state := .inactive }).ledger =
            (σ.ledger.become t .inactive).rest t tasks := by
          have changed : Tx.account { ρ.tx t with state := .inactive } =
              { σ.ledger.tx t with scheduled := false,state := .inactive } :=
            congrArg (fun account : Account => { account with state := .inactive }) account
          rw [ledger_setTx,rests,changed]
          simp [Ledger.rest,Ledger.become,Ledger.set]
        refine Relation.ReflTransGen.head (.become t .inactive ready unfinished (by rintro ⟨⟩)) ?_
        refine work_moves (Λ := σ.ledger.become t .inactive) idle made ?_ ?_ timer rests' backend
        all_goals rw [Ledger.become,Ledger.set_tx_self]
        · exact born
        · rintro ⟨⟩
      next => exact work_moves idle made born unfinished timer rests backend

theorem run_moves {task : Task} {tasks : List Task} (sound : σ.ledger.Sound)
    (idle : σ.frames = []) (timer : σ.tasks = task :: tasks) (backend : Option DomError) :
    Moves σ.ledger ({ σ with tasks }.run backend task).ledger := by
  have due : ∀ t,task.dueOf t = true → (σ.ledger.tx t).state = .finished := by
    intro t of
    exact (Ledger.over_idle idle).mp (sound.driven.due task (by simp [ledger,timer]) t of)
  cases task with
  | step t => exact step_moves sound.framed idle timer backend
  | settle t item =>
    unfold run
    dsimp only
    rw [ledger_record _ rfl]
    exact .single (.settle t item tasks idle timer _)
  | aborted t =>
    have same : (World.run { σ with tasks } backend (.aborted t)).ledger =
        Ledger.endAborted { σ.ledger with tasks } t := by
      unfold run Ledger.endAborted
      dsimp only
      rw [show ∀ (τ : World) frame,(τ.push frame).ledger = τ.ledger.push frame from fun _ _ => rfl,
        ledger_record _ rfl,show (σ.ledger.tx t).mode = (σ.tx t).mode from rfl]
      split <;> rfl
    rw [same]
    exact .single (.endAborted t tasks idle timer (due t (decide_eq_true rfl)))
  | upgradeNeeded t =>
    unfold run
    dsimp only
    rw [ledger_upgradeNeeded]
    exact .single (.release t tasks idle timer)
  | connection task =>
    unfold run
    dsimp only
    rw [ledger_connectionTask]
    exact .single (.connection task tasks idle timer)

/-! ### Runs -/

theorem act_moves {identifier : Text → Bool} {action : Action} (sound : σ.ledger.Sound) (acted : σ.act identifier action = some τ) :
    Moves σ.ledger τ.ledger := by
  unfold act at acted
  cases action with
  | call call =>
    obtain ⟨result,called,rfl⟩ := Option.map_eq_some_iff.mp acted
    exact call_moves sound called
  | reply reply =>
    dsimp only at acted
    split at acted
    · cases acted
    next frame rest frames => exact resume_moves sound frames acted
  | turn backend =>
    dsimp only at acted
    split at acted
    next task rest idle timer =>
      cases acted
      exact run_moves sound idle timer backend
    next => cases acted
  | pageTimer =>
    cases acted
    exact .refl
  | touch blobs =>
    cases acted
    exact .refl

end World

end Sharko.Script.IndexedDb
