import Sharko.Session.Processes
import Sharko.Session.SameDocument

/-! Messages that are still on their way from a renderer when the browser goes to
another document. The browser applies a title, a URL or a pushed entry to the
entry it is at, and nothing in the message says which document sent it. -/

namespace Sharko.Session
open Library.Runs Engine.Navigation

/-- Only entries of the document are new or changed, and the entries of other documents up
to the current one are as they were. -/
structure TouchesOnly (document : Option Nat) (before after : Tab) : Prop where
  own : ∀ (i : Nat) e, after.history[i]? = some e → before.history[i]? = some e ∨ some e.docSeq = document
  others : ∀ (i : Nat) e, i ≤ before.historyIndex → before.history[i]? = some e →
    some e.docSeq ≠ document → after.history[i]? = some e

def Describes : FromRenderer → Prop
  | .title _ => True
  | .urlChanged _ => True
  | .historyPush _ _ => True
  | .openUrl _ _ _ _ _ _ => False
  | .historyGo _ => False

def Repeats (tab : Tab) (cur : HistoryEntry) : FromRenderer → Prop
  | .title t => cur.title = t
  | .urlChanged u => cur.url = u
  | .historyPush url true => cur.url = url
  | .historyPush url false =>
    tab.history[tab.historyIndex + 1]? = some ⟨url,cur.title,cur.docSeq,cur.docIndex + 1⟩
  | .openUrl _ _ _ _ _ _ => True
  | .historyGo _ => True

/-- What a delivered message about its document does to every tab. -/
def KeepsToDocument (s : System) (action : System.Action) (next : System) : Prop :=
  match action with
  | .deliver p _ => ∀ process msg document rest, s.processes p = some process →
      process.outbox = (msg,document) :: rest → Describes msg →
      ∀ id tab after, s.browser.tabs id = some tab → next.browser.tabs id = some after →
        TouchesOnly document tab after
  | _ => True

/-- A message about a document is processed while the tab is at an entry of that document,
or says nothing new; or it comes from a process that was replaced. -/
def Timely (s : System) (action : System.Action) : Prop :=
  match action with
  | .deliver p _ => ∀ process msg document rest, s.processes p = some process →
      process.outbox = (msg,document) :: rest →
      ∀ tab cur, s.browser.tabs process.tab = some tab → tab.epoch = process.epoch →
        tab.current = some cur → some cur.docSeq = document ∨ Repeats tab cur msg
  | _ => True

theorem touchesOnly_refl (document : Option Nat) {before after : Tab}
    (same : after.history = before.history) : TouchesOnly document before after where
  own i e found := by
    rw [same] at found
    exact .inl found
  others i e _ found _ := by
    rw [same]
    exact found

theorem touchesOnly_modify_iff (document : Option Nat) {before after : Tab}
    (change : HistoryEntry → HistoryEntry) (docs : ∀ e, (change e).docSeq = e.docSeq)
    (shape : after.history = before.history.modify before.historyIndex change) :
    TouchesOnly document before after ↔
      ∀ cur, before.current = some cur → some cur.docSeq = document ∨ change cur = cur := by
  constructor
  · intro touches cur current
    by_cases owned : some cur.docSeq = document
    · exact .inl owned
    · have kept := touches.others before.historyIndex cur (Nat.le_refl _) current owned
      have found : before.history[before.historyIndex]? = some cur := current
      rw [shape,List.getElem?_modify,found] at kept
      exact .inr (by simpa using kept)
  · intro timely
    have lookup (i : Nat) (away : i ≠ before.historyIndex) : after.history[i]? = before.history[i]? := by
      rw [shape,List.getElem?_modify]
      simp [Ne.symm away]
    have here (cur : HistoryEntry) (found : before.history[before.historyIndex]? = some cur) :
        after.history[before.historyIndex]? = some (change cur) := by
      rw [shape,List.getElem?_modify,found]
      simp
    constructor
    · intro i e found
      by_cases at' : i = before.historyIndex
      · subst i
        cases old : before.history[before.historyIndex]? with
        | none =>
          rw [shape,List.getElem?_modify,old] at found
          simp at found
        | some cur =>
          cases found.symm.trans (here cur old)
          rcases timely cur old with owned | same
          · exact .inr ((docs cur).symm ▸ owned)
          · exact .inl (by rw [same])
      · exact .inl ((lookup i at').symm.trans found)
    · intro i e _ found foreign
      by_cases at' : i = before.historyIndex
      · subst i
        rcases timely e found with owned | same
        · exact absurd owned foreign
        · rw [here e found,same]
      · exact (lookup i at').trans found

theorem push_lookup {before : Tab} {cur : HistoryEntry} (current : before.current = some cur)
    (entry : HistoryEntry) (i : Nat) : (before.place entry false).history[i]? =
      if i ≤ before.historyIndex then before.history[i]?
      else if i = before.historyIndex + 1 then some entry else none := by
  have inside := (List.getElem?_eq_some_iff.mp current).1
  have size : (before.history.take (before.historyIndex + 1)).length = before.historyIndex + 1 := by
    rw [List.length_take]
    omega
  simp only [Tab.place,Bool.false_eq_true,if_false]
  split
  · rename_i kept
    rw [List.getElem?_append_left (by omega),List.getElem?_take_of_lt (by omega)]
  · rename_i beyond
    rw [List.getElem?_append_right (by omega),size]
    split
    · rename_i last
      simp [last]
    · rename_i past
      exact List.getElem?_eq_none (by simp; omega)

theorem touchesOnly_push_iff (document : Option Nat) {before after : Tab} {cur : HistoryEntry}
    (current : before.current = some cur) (entry : HistoryEntry) (doc : entry.docSeq = cur.docSeq)
    (shape : after.history = (before.place entry false).history) : TouchesOnly document before after ↔
      some cur.docSeq = document ∨ before.history[before.historyIndex + 1]? = some entry := by
  have lookup (i : Nat) := push_lookup current entry i
  constructor
  · intro touches
    have added : after.history[before.historyIndex + 1]? = some entry := by
      rw [shape,lookup,if_neg (by omega),if_pos rfl]
    rcases touches.own _ entry added with there | owned
    · exact .inr there
    · exact .inl (doc ▸ owned)
  · intro timely
    constructor
    · intro i e found
      rw [shape,lookup] at found
      split at found
      · exact .inl found
      · split at found
        · rename_i last
          cases Option.some.inj found
          rw [last]
          rcases timely with owned | there
          · exact .inr (doc.symm ▸ owned)
          · exact .inl there
        · contradiction
    · intro i e upTo found _
      rw [shape,lookup,if_pos upTo]
      exact found

theorem receive_touchesOnly_iff (b : Browser) (id : TabId) (tab : Tab) (spawned : Bool)
    {msg : FromRenderer} (describes : Describes msg) (document : Option Nat) :
    (∀ after, (b.receive id tab spawned msg).tabs id = some after → TouchesOnly document tab after) ↔
      ∀ cur, tab.current = some cur → some cur.docSeq = document ∨ Repeats tab cur msg := by
  have written {other : Tab} : (∀ after, (b.setTab id other).tabs id = some after →
      TouchesOnly document tab after) ↔ TouchesOnly document tab other := by
    simp [Browser.setTab]
  cases msg with
  | title t =>
    apply written.trans
    apply (touchesOnly_modify_iff document (fun e => {e with title := t}) (fun _ => rfl) rfl).trans
    apply forall₂_congr
    intro cur _
    apply or_congr_right
    cases cur
    simp [Repeats,eq_comm]
  | urlChanged u =>
    apply written.trans
    apply (touchesOnly_modify_iff document (fun e => {e with url := u}) (fun _ => rfl) rfl).trans
    apply forall₂_congr
    intro cur _
    apply or_congr_right
    cases cur
    simp [Repeats,eq_comm]
  | historyPush url replace =>
    unfold Browser.receive
    cases current : tab.current with
    | none => exact written.trans (iff_of_true (touchesOnly_refl document rfl) nofun)
    | some cur =>
      apply written.trans
      simp only [Option.some.injEq,forall_eq']
      cases replace with
      | false => exact touchesOnly_push_iff document current _ rfl rfl
      | true =>
        have shape : (tab.place ⟨url,cur.title,cur.docSeq,cur.docIndex⟩ true).history =
            tab.history.modify tab.historyIndex fun e => {e with url := url} := by
          apply List.ext_getElem?
          intro i
          rw [List.getElem?_modify]
          by_cases here : tab.historyIndex = i
          · subst i
            have found : tab.history[tab.historyIndex]? = some cur := current
            rw [found]
            apply (List.getElem?_set_self (List.getElem?_eq_some_iff.mp found).1).trans
            simp
          · simp [Tab.place,here]
        refine Iff.trans (touchesOnly_modify_iff document (fun e => {e with url := url}) (fun _ => rfl) shape) ?_
        rw [current]
        simp only [Option.some.injEq,forall_eq']
        apply or_congr_right
        cases cur
        simp [Repeats,eq_comm]
  | openUrl => exact describes.elim
  | historyGo => exact describes.elim

theorem receive_other (b : Browser) {id other : TabId} (apart : other ≠ id) (tab : Tab) (spawned : Bool)
    {msg : FromRenderer} (describes : Describes msg) :
    (b.receive id tab spawned msg).tabs other = b.tabs other := by
  cases msg with
  | title t => exact Function.update_of_ne apart _ _
  | urlChanged u => exact Function.update_of_ne apart _ _
  | historyPush url replace =>
    unfold Browser.receive
    cases tab.current with
    | none => exact Function.update_of_ne apart _ _
    | some cur => exact Function.update_of_ne apart _ _
  | openUrl => exact describes.elim
  | historyGo => exact describes.elim

theorem follow_browser (s : System) (id : TabId) (after : Browser) : (s.follow id after).browser = after := by
  unfold System.follow
  split
  · split
    · unfold System.post
      split <;> rfl
    · rfl
  · rfl
  · rfl

theorem deliver_step (crate : Crate) {s next : System} {p : ProcessId} {spawned : Bool}
    {process : Process} {msg : FromRenderer} {document : Option Nat} {rest : List (FromRenderer × Option Nat)}
    (present : s.processes p = some process) (waiting : process.outbox = (msg,document) :: rest)
    (taken : s.step crate (.deliver p spawned) = some next) :
    next.browser = s.browser.processEvent process.tab process.epoch (some msg) spawned := by
  simp only [System.step,present,waiting,Option.some.injEq] at taken
  rw [← taken]
  exact follow_browser _ _ _

theorem processEvent_stale {b : Browser} {id : TabId} {epoch : Nat} {msg : Option FromRenderer} {spawned : Bool}
    (stale : ∀ tab, b.tabs id = some tab → tab.epoch ≠ epoch) : b.processEvent id epoch msg spawned = b := by
  unfold Browser.processEvent
  split
  · rfl
  · rename_i tab present
    rw [if_pos (stale tab present)]

theorem processEvent_current {b : Browser} {id : TabId} {epoch : Nat} {tab : Tab}
    (present : b.tabs id = some tab) (now : tab.epoch = epoch) (msg : FromRenderer) (spawned : Bool) :
    b.processEvent id epoch (some msg) spawned = b.receive id tab spawned msg := by
  unfold Browser.processEvent
  rw [present]
  simp [now]

theorem keepsToDocument_iff (crate : Crate) {s next : System} {action : System.Action}
    (taken : s.step crate action = some next) : KeepsToDocument s action next ↔ Timely s action := by
  cases action with
  | deliver p spawned =>
    unfold KeepsToDocument Timely
    apply forall_congr'
    intro process
    apply forall_congr'
    intro msg
    apply forall_congr'
    intro document
    apply forall_congr'
    intro rest
    apply forall₂_congr
    intro running waiting
    have moved := deliver_step crate running waiting taken
    by_cases stale : ∀ tab, s.browser.tabs process.tab = some tab → tab.epoch ≠ process.epoch
    · apply iff_of_true
      · intro _ id tab after before found
        rw [moved,processEvent_stale stale] at found
        cases before.symm.trans found
        exact touchesOnly_refl document rfl
      · intro tab cur present now
        exact absurd now (stale tab present)
    · push Not at stale
      obtain ⟨tab,present,now⟩ := stale
      rw [moved,processEvent_current present now]
      have timely : (∀ tab' cur, s.browser.tabs process.tab = some tab' → tab'.epoch = process.epoch →
          tab'.current = some cur → some cur.docSeq = document ∨ Repeats tab' cur msg) ↔
          ∀ cur, tab.current = some cur → some cur.docSeq = document ∨ Repeats tab cur msg := by
        constructor
        · intro every cur
          exact every tab cur present now
        · intro here tab' cur present' _
          cases present.symm.trans present'
          exact here cur
      rw [timely]
      by_cases describes : Describes msg
      · rw [← receive_touchesOnly_iff s.browser process.tab tab spawned describes document]
        constructor
        · intro keeps after found
          exact keeps describes process.tab tab after present found
        · intro touches _ id before after old found
          by_cases same : id = process.tab
          · subst id
            cases present.symm.trans old
            exact touches after found
          · rw [receive_other s.browser same tab spawned describes] at found
            cases old.symm.trans found
            exact touchesOnly_refl document rfl
      · apply iff_of_true
        · intro described
          exact absurd described describes
        · intro cur _
          apply Or.inr
          cases msg <;> first | trivial | exact absurd trivial describes
  | user => exact Iff.rfl
  | send => exact Iff.rfl
  | work => exact Iff.rfl
  | lose => exact Iff.rfl

/-- In every run of the browser and its renderers, every message about a document touches
only entries of the document that sent it, exactly if every message is processed in time. -/
theorem messages_keep_to_document_iff (crate : Crate) (actions : List System.Action) :
    Each (System.step crate) KeepsToDocument System.new actions ↔
      Guarded (System.step crate) Timely System.new actions := by
  apply each_iff_guarded
  · intro s action next taken
    exact keepsToDocument_iff crate taken
  · intro s action refused
    cases action with
    | deliver p spawned =>
      intro process msg document rest present waiting
      simp [System.step,present,waiting] at refused
    | user => trivial
    | send => trivial
    | work => trivial
    | lose => trivial

namespace Sample

/-- The page of the first tab has changed its title, and the user goes to another site. -/
def retitling : List System.Action :=
  [.user (.newTab "http://a/" true),
    .work 0 (.handle ""),
    .work 0 (.respond ⟨"http://a/",none⟩ "A"),
    .deliver 0 true,
    .deliver 0 true,
    .work 0 (.frame "A (1)"),
    .user (.navigate 1 "http://b/")]

theorem retitling_leaves :
    ((exec (System.step crate) System.new retitling).bind fun s => s.browser.tabs 1).map Tab.history =
      some [⟨"http://a/","A",1,0⟩,⟨"http://b/","",2,0⟩] := by
  decide

theorem retitling_sends :
    ((exec (System.step crate) System.new retitling).bind fun s => s.processes 0).map Process.outbox =
      some [(.title "A (1)",some 1)] := by
  decide

theorem retitled_history : ((exec (System.step crate) System.new (retitling ++ [.deliver 0 true])).bind fun s =>
        s.browser.tabs 1).map Tab.history = some [⟨"http://a/","A",1,0⟩,⟨"http://b/","A (1)",2,0⟩] := by
  decide

/-- The title of the document that was left is given to the entry of the new one. -/
theorem late_title_hits_next_document :
    ¬ Each (System.step crate) KeepsToDocument System.new (retitling ++ [.deliver 0 true]) := by
  intro each
  obtain ⟨tab,present,before⟩ := Option.map_eq_some_iff.mp retitling_leaves
  obtain ⟨s,ran,present⟩ := Option.bind_eq_some_iff.mp present
  obtain ⟨process,waiting,sent⟩ := Option.map_eq_some_iff.mp retitling_sends
  obtain ⟨_,ran',waiting⟩ := Option.bind_eq_some_iff.mp waiting
  cases ran.symm.trans ran'
  obtain ⟨tab',present',after⟩ := Option.map_eq_some_iff.mp retitled_history
  obtain ⟨next,reached,present'⟩ := Option.bind_eq_some_iff.mp present'
  obtain ⟨_,ran',reached⟩ := exec_append_success (System.step crate) reached
  cases ran.symm.trans ran'
  obtain ⟨_,taken,done⟩ := exec_cons_success (System.step crate) reached
  cases done
  have keeps := each_at (System.step crate) each ran taken
  have touches := keeps process _ _ _ waiting sent trivial 1 tab tab' present present'
  have own := touches.own 1 ⟨"http://b/","A (1)",2,0⟩ (by rw [after]; rfl)
  rw [before] at own
  revert own
  decide

end Sample
end Sharko.Session
