import Sharko.Script.IndexedDb.Scheduling

/-! The stack of frames: the event at the end of a transaction is the lowest, and the other
frames are of transactions that are not finalized. -/

namespace Sharko.Script.IndexedDb

def Frame.isEnding (frame : Frame) : Bool := frame.endsTx frame.t

theorem Frame.isEnding_of {frame : Frame} {t : Nat} (ends : frame.endsTx t = true) :
    frame.isEnding = true ∧ frame.t = t := by
  cases frame with
  | completing u | aborting u => exact ⟨decide_eq_true rfl,of_decide_eq_true ends⟩
  | _ => cases ends

namespace Ledger

structure Rooted (Λ : Ledger) : Prop where
  based : Λ.frames.Pairwise fun a _ => a.isEnding = false
  listed : ∀ frame ∈ Λ.frames,frame.isEnding = false → frame.t ∈ Λ.txs

variable {Λ K : Ledger} {t : Nat}

theorem Driven.listed_of_active (driven : Λ.Driven) (framed : Λ.Framed)
    (active : (Λ.tx t).state = .active) : t ∈ Λ.txs := by
  have ready := framed.ready_of_active active
  refine driven.listed t ready.made ?_
  rw [over_ready ready,active]
  nofun

theorem Driven.listed_of_idle (driven : Λ.Driven) (idle : Λ.frames = []) (made : t < Λ.nextTx)
    (unfinished : (Λ.tx t).state ≠ .finished) : t ∈ Λ.txs := by
  refine driven.listed t made ?_
  rw [over_idle idle]
  exact unfinished

theorem Rooted.of (rooted : Λ.Rooted) (frames : K.frames = Λ.frames) (txs : ∀ t ∈ Λ.txs,t ∈ K.txs) :
    K.Rooted where
  based := frames ▸ rooted.based
  listed frame mem plain := txs _ (rooted.listed frame (frames ▸ mem) plain)

theorem Rooted.leave (rooted : Λ.Rooted) (frames : K.frames = Λ.frames.tail) (txs : K.txs = Λ.txs) :
    K.Rooted where
  based := frames ▸ rooted.based.tail
  listed frame mem plain := by
    rw [frames] at mem
    exact txs ▸ rooted.listed frame (List.mem_of_mem_tail mem) plain

theorem Rooted.push (rooted : Λ.Rooted) {frame : Frame} (frames : K.frames = frame :: Λ.frames)
    (txs : K.txs = Λ.txs) (bottom : frame.isEnding = true → Λ.frames = [])
    (listed : frame.isEnding = false → frame.t ∈ Λ.txs) : K.Rooted where
  based := by
    rw [frames]
    refine List.pairwise_cons.mpr ⟨?_,rooted.based⟩
    intro other below
    by_contra ends
    rw [bottom (by simpa using ends)] at below
    cases below
  listed other mem plain := by
    rw [frames] at mem
    rw [txs]
    rcases List.mem_cons.mp mem with rfl | below
    · exact listed plain
    · exact rooted.listed other below plain

theorem Rooted.bottom (rooted : Λ.Rooted) {frame : Frame} {rest : List Frame}
    (frames : Λ.frames = frame :: rest) (ends : frame.isEnding = true) : rest = [] := by
  have based := rooted.based
  rw [frames] at based
  cases rest with
  | nil => rfl
  | cons below rest =>
    rw [(List.pairwise_cons.mp based).1 below List.mem_cons_self] at ends
    cases ends

theorem Frame.isPlain_isEnding {frame : Frame} (plain : frame.isPlain = true) : frame.isEnding = false :=
  Frame.isPlain_endsTx plain frame.t

theorem Quiet.rooted (quiet : Quiet Λ K) (rooted : Λ.Rooted) (txs : K.txs = Λ.txs) : K.Rooted :=
  rooted.of quiet.frames (by simp [txs])

theorem Rooted.abortTx (rooted : Λ.Rooted) (t : Nat) (scope : Option (List Nat)) :
    (Λ.abortTx t scope).Rooted := by
  by_cases finished : (Λ.tx t).state = .finished
  · rw [abortTx_finished Λ finished]
    exact rooted
  · rw [abortTx_eq Λ finished]
    exact rooted.of rfl fun _ mem => mem

theorem Rooted.upgrade (rooted : Λ.Rooted) (req c version : Nat) : (Λ.upgrade req c version).Rooted := by
  cases database : Λ.database with
  | none =>
    unfold Ledger.upgrade
    rw [database]
    exact rooted
  | some old =>
    rw [upgrade_eq Λ database]
    exact rooted.of rfl fun _ mem => List.mem_append_left _ mem

theorem Rooted.move (framed : Λ.Framed) (driven : Λ.Driven) (rooted : Λ.Rooted) (move : Λ.Move K) :
    K.Rooted := by
  cases move with
  | request request => exact rooted.of rfl fun _ mem => mem
  | close c => exact rooted.of rfl fun _ mem => mem
  | create c mode scope =>
    rw [create_eq]
    exact rooted.of rfl fun _ mem => List.mem_append_left _ mem
  | place t op req ready => exact rooted.of rfl fun _ mem => mem
  | schedule t made => exact (schedule_quiet made).rooted rooted (schedule_txs t)
  | become t state => exact rooted.of rfl fun _ mem => mem
  | remember t n => exact rooted.of rfl fun _ mem => mem
  | rollback t item mark => exact rooted.of rfl fun _ mem => mem
  | abort t scope => exact rooted.abortTx t scope
  | enter frame ready listed plain =>
    refine rooted.push rfl rfl (fun ends => ?_) fun _ => listed
    rw [Frame.isPlain_isEnding plain] at ends
    cases ends
  | leave frame rest frames plain => exact rooted.leave rfl rfl
  | mask t target ready listed => exact rooted.push rfl rfl (by rintro ⟨⟩) fun _ => listed
  | unmask t target prev rest frames => exact rooted.leave rfl rfl
  | again t tasks timer => exact rooted.of rfl fun _ mem => mem
  | rest t tasks timer => exact rooted.of rfl fun _ mem => mem
  | start t item queue idle made born unfinished next =>
    exact rooted.push rfl rfl (by rintro ⟨⟩) fun _ => driven.listed_of_idle idle made unfinished
  | finish t item mark rest frames outcome => exact rooted.leave rfl rfl
  | fire t item mark rest frames outcome error asks =>
    have left : (Λ.performed t item outcome).Rooted := rooted.leave rfl rfl
    have listed : t ∈ Λ.txs := rooted.listed (.running t item mark) (by simp [frames]) rfl
    unfold Ledger.fire
    dsimp only
    split_ifs
    · exact left.push rfl rfl (by rintro ⟨⟩) fun _ => listed
    · exact left.push rfl rfl (by rintro ⟨⟩) fun _ => listed
  | fail t item mark rest frames outcome scope =>
    have left : (Λ.performed t item outcome).Rooted := rooted.leave rfl rfl
    unfold Ledger.fail
    dsimp only
    split_ifs
    · exact left.abortTx t scope
    · refine Rooted.abortTx ?_ t scope
      exact left.of rfl fun _ mem => mem
  | complete t scope idle made born committing =>
    rw [complete_eq]
    exact rooted.push rfl rfl (fun _ => idle) fun plain => absurd plain (by simp [Frame.isEnding,Frame.endsTx,Frame.t])
  | finalize t frame rest frames ends =>
    have below : Λ.leave.frames = [] := by
      rw [Ledger.leave,frames]
      exact rooted.bottom frames (Frame.isEnding_of ends).1
    have idle : (Λ.leave.finalizeTx t).frames = [] := (finalizeTx_quiet framed.leave t).frames.trans below
    constructor
    · rw [idle]
      exact List.Pairwise.nil
    · rw [idle]
      exact fun _ member => absurd member List.not_mem_nil
  | settle t item tasks idle timer outcome => exact rooted.of rfl fun _ mem => mem
  | endAborted t tasks idle timer isOver =>
    rw [endAborted_eq]
    exact rooted.push rfl rfl (fun _ => idle) fun plain => absurd plain (by simp [Frame.isEnding,Frame.endsTx,Frame.t])
  | release t tasks idle timer =>
    have made : t < Λ.nextTx := framed.timed (.upgradeNeeded t) (by simp [timer]) t rfl
    have inactive := framed.held t (framed.held_of_releasing timer)
    have listed : t ∈ Λ.txs := driven.listed_of_idle idle made (by rw [inactive]; rintro ⟨⟩)
    have freed : ∀ k account,Rooted (({ Λ with tasks,connections := k }.set t account).schedule t) := by
      intro k account
      have held : Rooted ({ Λ with tasks,connections := k }.set t account) := rooted.of rfl fun _ mem => mem
      exact (schedule_quiet (Λ := { Λ with tasks,connections := k }.set t account) made).rooted held (schedule_txs t)
    exact (freed _ _).push rfl rfl (by rintro ⟨⟩) fun _ => (schedule_txs t).symm ▸ listed
  | connection task tasks idle timer =>
    have turned : Rooted { Λ with tasks } := rooted.of rfl fun _ mem => mem
    rcases connectionTask_quiet (Λ := { Λ with tasks }) task with quiet | ⟨req,c,version,same⟩
    · rcases connectionTask_txs (Λ := { Λ with tasks }) task with txs | ⟨req,c,version,same⟩
      · exact quiet.rooted turned txs
      · rw [same]
        exact turned.upgrade req c version
    · rw [same]
      exact turned.upgrade req c version

structure Sound (Λ : Ledger) : Prop where
  framed : Λ.Framed
  driven : Λ.Driven
  rooted : Λ.Rooted

theorem Sound.move (sound : Λ.Sound) (move : Λ.Move K) : K.Sound :=
  ⟨sound.framed.move move,sound.driven.move sound.framed move,
    sound.rooted.move sound.framed sound.driven move⟩

theorem Sound.listed (sound : Λ.Sound) (active : (Λ.tx t).state = .active) : t ∈ Λ.txs :=
  sound.driven.listed_of_active sound.framed active

end Ledger

end Sharko.Script.IndexedDb
