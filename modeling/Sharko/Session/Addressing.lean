import Sharko.Library.Runs
import Sharko.Session.History
import Sharko.Session.Numbering

/-! What the document number and the index of a history entry address: the index
of the current entry is valid, the entries of one document stay together, and
(document, index) names one entry. Leaving a document and entering it again
renumbers a single entry, so this holds exactly as long as no renumbering, push
or replacement runs into an entry that is still there. -/

namespace Sharko.Session
open Library.Runs Sharko.Session.Numbering

def Tab.labels (tab : Tab) : List (Label Nat) := tab.history.map fun e => (e.docSeq,e.docIndex)

structure Addressed (tab : Tab) : Prop where
  index : tab.history ≠ [] → tab.historyIndex < tab.history.length
  contiguous : Contiguous tab.labels
  distinct : Distinct tab.labels

def WellNumbered (tab : Tab) : Prop := Contiguous tab.labels ∧ Distinct tab.labels

def Below (next : Nat) (tab : Tab) : Prop := ∀ e ∈ tab.history, e.docSeq < next

def PushAllowed (tab : Tab) : Prop :=
  ∀ cur, tab.current = some cur →
    ∀ i : Nat, i ≤ tab.historyIndex → tab.labels[i]? ≠ some (cur.docSeq,cur.docIndex + 1)

def OpenAllowed (tab : Tab) (url method : String) (replace : Bool) : Prop :=
  if Browser.sameDoc tab url method then replace = false → PushAllowed tab
  else replace = true → ¬ Inside tab.labels tab.historyIndex

def GoAllowed (tab : Tab) (delta : Int) : Prop :=
  ∀ cur entry, tab.current = some cur →
    tab.history[((tab.historyIndex : Int) + delta).toNat]? = some entry →
    0 ≤ (tab.historyIndex : Int) + delta → entry.docSeq ≠ cur.docSeq →
    ∀ i : Nat, i ≠ ((tab.historyIndex : Int) + delta).toNat → tab.labels[i]? ≠ some (entry.docSeq,0)

def MessageAllowed (tab : Tab) : FromRenderer → Prop
  | .openUrl url method _ _ inNewTab replace => inNewTab = false → OpenAllowed tab url method replace
  | .historyGo delta => GoAllowed tab delta
  | .historyPush _ replace => replace = false → PushAllowed tab
  | .title _ => True
  | .urlChanged _ => True

/-- The step confuses no two entries: a pushed number is not taken, an entry that is
replaced by another document does not split its own, and a document that is entered
again has no other entry numbered 0. -/
def Allowed (b : Browser) : Browser.Input → Prop
  | .navigate id url => ∀ tab, b.tabs id = some tab → OpenAllowed tab url "GET" false
  | .go id delta => ∀ tab, b.tabs id = some tab → GoAllowed tab delta
  | .renderer id epoch (some msg) _ =>
    ∀ tab, b.tabs id = some tab → tab.epoch = epoch → MessageAllowed tab msg
  | .renderer _ _ none _ => True
  | .newTab _ _ => True
  | .respawnTab _ _ _ => True
  | .closeTab _ => True
  | .reload _ => True
  | .stop _ => True

theorem labels_lookup {tab : Tab} {i : Nat} {e : HistoryEntry} (found : tab.history[i]? = some e) :
    tab.labels[i]? = some (e.docSeq,e.docIndex) := by
  simp [Tab.labels,found]

theorem labels_fresh {tab : Tab} {next : Nat} (below : Below next tab) : Fresh next tab.labels := by
  intro a member
  obtain ⟨e,inside,rfl⟩ := List.mem_map.mp member
  exact Nat.ne_of_lt (below e inside)

theorem labels_modify (entries : List HistoryEntry) (i : Nat) (f : HistoryEntry → HistoryEntry)
    (same : ∀ e, ((f e).docSeq,(f e).docIndex) = (e.docSeq,e.docIndex)) :
    (entries.modify i f).map (fun e => (e.docSeq,e.docIndex)) = entries.map fun e => (e.docSeq,e.docIndex) := by
  apply List.ext_getElem?
  intro j
  rw [List.getElem?_map,List.getElem?_map,List.getElem?_modify]
  cases entries[j]? with
  | none => rfl
  | some e =>
    by_cases here : i = j
    · simpa [here] using same e
    · simp [here]

theorem wellNumbered_of_labels {tab other : Tab} (same : other.labels = tab.labels) :
    WellNumbered other ↔ WellNumbered tab := by
  unfold WellNumbered
  rw [same]

theorem place_labels (tab : Tab) (entry : HistoryEntry) (replace : Bool) : (tab.place entry replace).labels =
      if replace then tab.labels.set tab.historyIndex (entry.docSeq,entry.docIndex)
      else tab.labels.take (tab.historyIndex + 1) ++ [(entry.docSeq,entry.docIndex)] := by
  cases replace <;> simp [Tab.place,Tab.labels,List.map_set,List.map_take]

theorem place_index {tab : Tab} (valid : tab.historyIndex < tab.history.length)
    (entry : HistoryEntry) (replace : Bool) :
    (tab.place entry replace).historyIndex < (tab.place entry replace).history.length := by
  cases replace
  · simp [Tab.place]
  · simpa [Tab.place] using valid

theorem place_below {tab : Tab} {next : Nat} (below : Below next tab) (entry : HistoryEntry)
    (small : entry.docSeq < next) (replace : Bool) : Below next (tab.place entry replace) := by
  intro e member
  cases replace
  · simp only [Tab.place,Bool.false_eq_true,if_false,List.mem_append,List.mem_singleton] at member
    rcases member with old | rfl
    · exact below e (List.mem_of_mem_take old)
    · exact small
  · simp only [Tab.place,if_true] at member
    rcases List.mem_or_eq_of_mem_set member with old | rfl
    · exact below e old
    · exact small

theorem take_last {tab : Tab} {cur : HistoryEntry} (current : tab.current = some cur) :
    (tab.labels.take (tab.historyIndex + 1)).getLast? = some (cur.docSeq,cur.docIndex) := by
  have found := labels_lookup current
  have bound := (List.getElem?_eq_some_iff.mp found).1
  rw [List.getLast?_eq_getElem?,List.length_take,Nat.min_eq_left bound,List.getElem?_take]
  simpa using found

theorem push_wellNumbered {tab : Tab} (numbered : WellNumbered tab) {cur : HistoryEntry}
    (current : tab.current = some cur) (entry : HistoryEntry) (doc : entry.docSeq = cur.docSeq)
    (number : entry.docIndex = cur.docIndex + 1) : WellNumbered (tab.place entry false) ↔ PushAllowed tab := by
  have joined : Contiguous (tab.labels.take (tab.historyIndex + 1) ++ [(entry.docSeq,entry.docIndex)]) := by
    apply (numbered.1.take _).append
    intro a last
    rw [take_last current] at last
    exact .inl (by rw [← Option.some.inj last]; exact doc)
  unfold WellNumbered
  rw [place_labels]
  simp only [Bool.false_eq_true,if_false,joined,true_and,(numbered.2.take _).append_iff]
  rw [doc,number]
  constructor
  · intro absent cur' current' i bound found
    have same : cur' = cur := Option.some.inj (current'.symm.trans current)
    apply absent i
    rw [List.getElem?_take_of_lt (by omega),← same]
    exact found
  · intro allowed i found
    have ⟨bound,old⟩ := take_lookup found
    exact allowed cur current i (by omega) old

theorem renew_wellNumbered {tab : Tab} (numbered : WellNumbered tab) {cur : HistoryEntry}
    (current : tab.current = some cur) (entry : HistoryEntry) (doc : entry.docSeq = cur.docSeq)
    (number : entry.docIndex = cur.docIndex) : WellNumbered (tab.place entry true) := by
  have same : (tab.place entry true).labels = tab.labels := by
    rw [place_labels,if_pos rfl,doc,number]
    have found := labels_lookup current
    have bound := (List.getElem?_eq_some_iff.mp found).1
    apply List.ext_getElem?
    intro i
    by_cases here : i = tab.historyIndex
    · subst i
      rw [List.getElem?_set_self bound]
      exact found.symm
    · simpa using set_other here
  exact (wellNumbered_of_labels same).mpr numbered

theorem append_new_wellNumbered {tab : Tab} (numbered : WellNumbered tab) {next : Nat}
    (below : Below next tab) (entry : HistoryEntry) (doc : entry.docSeq = next) :
    WellNumbered (tab.place entry false) := by
  have fresh := labels_fresh below
  have kept : Fresh next (tab.labels.take (tab.historyIndex + 1)) :=
    fun a member => fresh a (List.mem_of_mem_take member)
  unfold WellNumbered
  rw [place_labels]
  simp only [Bool.false_eq_true,if_false,doc]
  exact ⟨(numbered.1.take _).append fun _ _ => .inr kept,
    ((numbered.2.take _).append_iff).mpr fun i => kept.not_last _ i⟩

theorem exchange_wellNumbered {tab : Tab} (numbered : WellNumbered tab) {next : Nat}
    (below : Below next tab) (entry : HistoryEntry) (doc : entry.docSeq = next) :
    WellNumbered (tab.place entry true) ↔ ¬ Inside tab.labels tab.historyIndex := by
  have fresh := labels_fresh below
  unfold WellNumbered
  rw [place_labels,if_pos rfl,doc,numbered.1.exchange_iff fresh]
  exact and_iff_left (numbered.2.exchange fresh _ _)

theorem enter_labels (tab : Tab) (target : Nat) (entry : HistoryEntry) (next : Nat)
    (found : tab.history[target]? = some entry) : (Browser.enterDocument tab target entry next).labels =
      restart tab.labels entry.docSeq next target := by
  apply List.ext_getElem?
  intro i
  by_cases present : ∃ e, tab.history[i]? = some e
  · obtain ⟨e,lookup⟩ := present
    rw [restart_at (labels_lookup lookup)]
    by_cases here : i = target
    · subst i
      have same : e = entry := Option.some.inj (lookup.symm.trans found)
      simp [Browser.enterDocument,Tab.labels,found]
    · simp only [Browser.enterDocument,Tab.labels,List.getElem?_map,List.getElem?_modify,lookup,
        Option.map_some,Ne.symm here,here,if_false,relabel]
      split <;> rfl
  · have absent : tab.history.length ≤ i := by
      rw [← List.getElem?_eq_none_iff]
      exact Option.eq_none_iff_forall_ne_some.mpr fun e lookup => present ⟨e,lookup⟩
    rw [List.getElem?_eq_none (by simpa [Browser.enterDocument,Tab.labels] using absent),
      List.getElem?_eq_none (by simpa [restart,Tab.labels] using absent)]

theorem enter_wellNumbered {tab : Tab} (numbered : WellNumbered tab) {next : Nat}
    (below : Below next tab) {target : Nat} {entry : HistoryEntry} (found : tab.history[target]? = some entry) :
    WellNumbered (Browser.enterDocument tab target entry next) ↔
      ∀ i : Nat, i ≠ target → tab.labels[i]? ≠ some (entry.docSeq,0) := by
  have fresh := labels_fresh below
  have current := labels_lookup found
  unfold WellNumbered
  rw [enter_labels tab target entry next found,numbered.2.restart_iff fresh current]
  exact and_iff_right (numbered.1.restart fresh current rfl)

theorem enter_below {tab : Tab} {next : Nat} (below : Below next tab) {target : Nat} {entry : HistoryEntry} :
    Below (next + 1) (Browser.enterDocument tab target entry next) := by
  intro e member
  obtain ⟨i,lookup⟩ := List.mem_iff_getElem?.mp member
  simp only [Browser.enterDocument,List.getElem?_modify,List.getElem?_map] at lookup
  cases present : tab.history[i]? with
  | none => simp [present] at lookup
  | some old =>
    have small := below old (List.mem_of_getElem? present)
    simp only [present,Option.map_some] at lookup
    split_ifs at lookup with owned here here <;> cases Option.some.inj lookup <;> simp <;> omega

structure Numbered (b : Browser) : Prop where
  index : ∀ id tab, b.tabs id = some tab → tab.history ≠ [] → tab.historyIndex < tab.history.length
  below : ∀ id tab, b.tabs id = some tab → Below b.nextDocSeq tab

def AllWellNumbered (b : Browser) : Prop := ∀ id tab, b.tabs id = some tab → WellNumbered tab

/-- What a step may do to the browser: exchange one tab, and number new documents. -/
structure Exchanged (b next : Browser) (id : TabId) (tab : Tab) : Prop where
  tabs : next.tabs = Function.update b.tabs id (some tab)
  numbers : b.nextDocSeq ≤ next.nextDocSeq

theorem Exchanged.lookup {b next : Browser} {id : TabId} {tab : Tab} (step : Exchanged b next id tab)
    {other : TabId} {found : Tab} (present : next.tabs other = some found) :
    (other = id ∧ found = tab) ∨ b.tabs other = some found := by
  rw [step.tabs] at present
  by_cases same : other = id
  · subst other
    rw [Function.update_self] at present
    exact .inl ⟨rfl,(Option.some.inj present).symm⟩
  · rw [Function.update_of_ne same] at present
    exact .inr present

theorem Exchanged.numbered {b next : Browser} {id : TabId} {tab : Tab} (step : Exchanged b next id tab)
    (numbered : Numbered b) (index : tab.history ≠ [] → tab.historyIndex < tab.history.length)
    (below : Below next.nextDocSeq tab) : Numbered next where
  index := by
    intro other found present
    rcases step.lookup present with ⟨_,rfl⟩ | old
    · exact index
    · exact numbered.index other found old
  below := by
    intro other found present
    rcases step.lookup present with ⟨_,rfl⟩ | old
    · exact below
    · exact fun e member => Nat.lt_of_lt_of_le (numbered.below other found old e member) step.numbers

theorem Exchanged.wellNumbered {b next : Browser} {id : TabId} {tab : Tab}
    (step : Exchanged b next id tab) (all : AllWellNumbered b) : AllWellNumbered next ↔ WellNumbered tab := by
  constructor
  · intro every
    exact every id tab (by rw [step.tabs,Function.update_self])
  · intro numbered other found present
    rcases step.lookup present with ⟨_,rfl⟩ | old
    · exact numbered
    · exact all other found old

theorem setTab_exchanged (b : Browser) (id : TabId) (tab : Tab) : Exchanged b (b.setTab id tab) id tab :=
  ⟨rfl,Nat.le_refl _⟩

theorem exchange_same_labels {b next : Browser} {id : TabId} {tab other : Tab}
    (present : b.tabs id = some tab) (numbered : Numbered b) (step : Exchanged b next id other)
    (labels : other.labels = tab.labels)
    (index : tab.historyIndex < tab.history.length → other.historyIndex < tab.history.length) :
    Numbered next ∧ (AllWellNumbered b → AllWellNumbered next) := by
  have size : other.history.length = tab.history.length := by
    simpa [Tab.labels] using congrArg List.length labels
  refine ⟨step.numbered numbered ?_ ?_,?_⟩
  · intro nonempty
    have nonempty' : tab.history ≠ [] := by
      rw [← List.length_pos_iff,← size,List.length_pos_iff]
      exact nonempty
    rw [size]
    exact index (numbered.index id tab present nonempty')
  · intro e member
    have inside : (e.docSeq,e.docIndex) ∈ tab.labels := by
      rw [← labels]
      exact List.mem_map_of_mem member
    obtain ⟨old,member',same⟩ := List.mem_map.mp inside
    have := numbered.below id tab present old member'
    have docs : old.docSeq = e.docSeq := congrArg Prod.fst same
    exact Nat.lt_of_lt_of_le (docs ▸ this) step.numbers
  · intro all
    exact (step.wellNumbered all).mpr ((wellNumbered_of_labels labels).mpr (all id tab present))

theorem sameDoc_current {tab : Tab} {url method : String} (same : Browser.sameDoc tab url method = true) :
    ∃ cur, tab.current = some cur := by
  cases current : tab.current with
  | none => simp [Browser.sameDoc,current] at same
  | some cur => exact ⟨cur,rfl⟩

theorem current_isSome {tab : Tab} (index : tab.history ≠ [] → tab.historyIndex < tab.history.length)
    (nonempty : tab.history ≠ []) : ∃ cur, tab.current = some cur :=
  ⟨_,List.getElem?_eq_getElem (index nonempty)⟩

def opened (tab : Tab) (url method : String) (replace : Bool) (next : Nat) : Tab :=
  let entry := Browser.openEntry tab url method replace next
  if tab.history.isEmpty then {tab with history := [entry], historyIndex := 0} else tab.place entry replace

theorem opened_numbered {tab : Tab} {next : Nat} (below : Below next tab)
    (index : tab.history ≠ [] → tab.historyIndex < tab.history.length) (url method : String) (replace : Bool) :
    (opened tab url method replace next).historyIndex < (opened tab url method replace next).history.length ∧
      Below (if Browser.sameDoc tab url method then next else next + 1)
        (opened tab url method replace next) := by
  have small : (Browser.openEntry tab url method replace next).docSeq <
      if Browser.sameDoc tab url method then next else next + 1 := by
    cases same : Browser.sameDoc tab url method with
    | false => simp [Browser.openEntry,same]
    | true =>
      obtain ⟨cur,current⟩ := sameDoc_current same
      simpa [Browser.openEntry,same,current] using below cur (List.mem_of_getElem? current)
  have wider : Below (if Browser.sameDoc tab url method then next else next + 1) tab := by
    intro e member
    have := below e member
    split <;> omega
  unfold opened
  by_cases empty : tab.history = []
  · simp only [empty,List.isEmpty_nil,if_true]
    exact ⟨by simp,by intro e member; rw [List.mem_singleton.mp member]; exact small⟩
  · simp only [List.isEmpty_iff,empty,if_false]
    exact ⟨place_index (index empty) _ _,place_below wider _ small _⟩

theorem singleton_wellNumbered (tab : Tab) (entry : HistoryEntry) :
    WellNumbered {tab with history := [entry], historyIndex := 0} := by
  have only {i : Nat} {a : Label Nat} (found : [(entry.docSeq,entry.docIndex)][i]? = some a) : i = 0 := by
    have := (List.getElem?_eq_some_iff.mp found).1
    simpa using this
  constructor
  · intro i j k a b c ij jk fi fj fk
    have := only fj
    omega
  · intro i j a fi fj
    rw [only fi,only fj]

theorem opened_wellNumbered {tab : Tab} {next : Nat} (below : Below next tab)
    (numbered : WellNumbered tab) (url method : String) (replace : Bool) :
    WellNumbered (opened tab url method replace next) ↔ OpenAllowed tab url method replace := by
  unfold OpenAllowed
  cases same : Browser.sameDoc tab url method with
  | true =>
    obtain ⟨cur,current⟩ := sameDoc_current same
    have nonempty : tab.history ≠ [] := by
      intro empty
      simp [Tab.current,empty] at current
    have shape : opened tab url method replace next =
        tab.place (Browser.openEntry tab url method replace next) replace := by
      simp [opened,nonempty]
    rw [shape,if_pos rfl]
    cases replace with
    | true =>
      have kept := renew_wellNumbered numbered current
        (Browser.openEntry tab url method true next)
        (by simp [Browser.openEntry,current,same]) (by simp [Browser.openEntry,current,same])
      simp [kept]
    | false =>
      rw [push_wellNumbered numbered current _ (by simp [Browser.openEntry,current,same])
        (by simp [Browser.openEntry,current,same])]
      simp
  | false =>
    have doc : (Browser.openEntry tab url method replace next).docSeq = next := by
      simp [Browser.openEntry,same]
    rw [if_neg (by simp)]
    by_cases empty : tab.history = []
    · have outside : ¬ Inside tab.labels tab.historyIndex := by
        rintro ⟨i,k,a,b,c,_,_,found,_⟩
        simp [Tab.labels,empty] at found
      simp only [opened,empty,List.isEmpty_nil,if_true]
      exact iff_of_true (singleton_wellNumbered _ _) fun _ => outside
    · have shape : opened tab url method replace next =
          tab.place (Browser.openEntry tab url method replace next) replace := by
        simp [opened,empty]
      rw [shape]
      cases replace with
      | true => simpa using exchange_wellNumbered numbered below _ doc
      | false => simpa using append_new_wellNumbered numbered below _ doc

theorem openUrl_exchanged {b : Browser} {id : TabId} {tab : Tab} (present : b.tabs id = some tab)
    (url method : String) (body : Option (List UInt8)) (contentType : Option String) (replace : Bool) :
    ∃ shown, Exchanged b (b.openUrl id url method body contentType replace) id shown ∧
      shown.history = (opened tab url method replace b.nextDocSeq).history ∧
      shown.historyIndex = (opened tab url method replace b.nextDocSeq).historyIndex ∧
      (b.openUrl id url method body contentType replace).nextDocSeq =
        if Browser.sameDoc tab url method then b.nextDocSeq else b.nextDocSeq + 1 := by
  unfold Browser.openUrl
  rw [present]
  refine ⟨_,⟨rfl,?_⟩,?_,?_,rfl⟩
  · simp only
    split <;> omega
  · simp [Tab.send,opened]
  · simp [Tab.send,opened]

theorem openUrl_kept {b : Browser} (numbered : Numbered b) {id : TabId}
    {tab : Tab} (present : b.tabs id = some tab) (url method : String) (body : Option (List UInt8))
    (contentType : Option String) (replace : Bool) :
    Numbered (b.openUrl id url method body contentType replace) ∧ (AllWellNumbered b →
        (AllWellNumbered (b.openUrl id url method body contentType replace) ↔
          OpenAllowed tab url method replace)) := by
  obtain ⟨shown,step,entries,index,next⟩ := openUrl_exchanged present url method body contentType replace
  have valid := numbered.index id tab present
  have below := numbered.below id tab present
  obtain ⟨inside,small⟩ := opened_numbered below valid url method replace
  have labels : shown.labels = (opened tab url method replace b.nextDocSeq).labels := by
    simp [Tab.labels,entries]
  refine ⟨step.numbered numbered ?_ ?_,?_⟩
  · intro _
    rw [entries,index]
    exact inside
  · intro e member
    rw [next]
    exact small e (entries ▸ member)
  · intro all
    rw [step.wellNumbered all,wellNumbered_of_labels labels,
      opened_wellNumbered below (all id tab present)]

theorem receive_push_kept {b : Browser} (numbered : Numbered b) {id : TabId}
    {tab : Tab} (present : b.tabs id = some tab) (spawned : Bool) (url : String) (replace : Bool) :
    Numbered (b.receive id tab spawned (.historyPush url replace)) ∧ (AllWellNumbered b →
        (AllWellNumbered (b.receive id tab spawned (.historyPush url replace)) ↔
          (replace = false → PushAllowed tab))) := by
  have valid := numbered.index id tab present
  have below := numbered.below id tab present
  unfold Browser.receive
  cases current : tab.current with
  | none =>
    have allowed : PushAllowed tab := by
      intro cur found
      rw [current] at found
      contradiction
    have kept := exchange_same_labels present numbered (setTab_exchanged b id {tab with url := url})
      rfl fun valid => valid
    exact ⟨kept.1,fun all => iff_of_true (kept.2 all) fun _ => allowed⟩
  | some cur =>
    have nonempty : tab.history ≠ [] := by
      intro empty
      simp [Tab.current,empty] at current
    let entry : HistoryEntry :=
      ⟨url,cur.title,cur.docSeq,if replace then cur.docIndex else cur.docIndex + 1⟩
    have step := setTab_exchanged b id {tab.place entry replace with url := url}
    have labels : Tab.labels {tab.place entry replace with url := url} = (tab.place entry replace).labels := rfl
    refine ⟨step.numbered numbered ?_ ?_,?_⟩
    · intro _
      exact place_index (valid nonempty) entry replace
    · exact place_below below entry (below cur (List.mem_of_getElem? current)) replace
    · intro all
      rw [step.wellNumbered all,wellNumbered_of_labels labels]
      cases replace with
      | true => simp [renew_wellNumbered (all id tab present) current entry rfl rfl]
      | false =>
        rw [push_wellNumbered (all id tab present) current entry rfl rfl]
        simp

theorem go_kept {b : Browser} (numbered : Numbered b) {id : TabId}
    {tab : Tab} (present : b.tabs id = some tab) (delta : Int) : Numbered (b.go id delta) ∧
      (AllWellNumbered b → (AllWellNumbered (b.go id delta) ↔ GoAllowed tab delta)) := by
  have valid := numbered.index id tab present
  have below := numbered.below id tab present
  unfold Browser.go
  rw [present]
  simp only
  split_ifs with reloaded outside
  · have kept := exchange_same_labels present numbered (setTab_exchanged b id (tab.send .reload))
      rfl fun valid => valid
    refine ⟨kept.1,fun all => iff_of_true (kept.2 all) ?_⟩
    intro cur entry current found _ other
    subst delta
    simp only [Int.add_zero,Int.toNat_natCast] at found
    have same : cur = entry := Option.some.inj (current.symm.trans found)
    exact absurd (congrArg HistoryEntry.docSeq same.symm) other
  · refine ⟨numbered,fun all => iff_of_true all ?_⟩
    intro cur entry _ found nonneg
    have := (List.getElem?_eq_some_iff.mp found).1
    omega
  · have inside : ((tab.historyIndex : Int) + delta).toNat < tab.history.length := by omega
    have nonempty : tab.history ≠ [] := by
      intro empty
      simp [empty] at inside
    obtain ⟨cur,current⟩ := current_isSome valid nonempty
    have found := List.getElem?_eq_getElem inside
    generalize tab.history[((tab.historyIndex : Int) + delta).toNat] = entry at found
    rw [current,found]
    simp only
    split_ifs with same
    · let moved : Tab := {tab with historyIndex := ((tab.historyIndex : Int) + delta).toNat, url := entry.url}
      have step := setTab_exchanged b id (moved.send (.historyTraverse entry.url entry.docIndex))
      have kept := exchange_same_labels present numbered step rfl fun _ => inside
      refine ⟨kept.1,fun all => iff_of_true (kept.2 all) ?_⟩
      intro cur' entry' current' found' _ other
      have sameCur : cur' = cur := Option.some.inj (current'.symm.trans current)
      have sameEntry : entry' = entry := Option.some.inj (found'.symm.trans found)
      exact absurd (sameEntry ▸ sameCur ▸ same) other
    · let entered := Browser.enterDocument tab ((tab.historyIndex : Int) + delta).toNat entry b.nextDocSeq
      let sent := entered.send (.navigate entry.url "GET" none none)
      have step : Exchanged b {b.setTab id sent with nextDocSeq := b.nextDocSeq + 1} id sent :=
        ⟨rfl,Nat.le_succ _⟩
      refine ⟨step.numbered numbered ?_ ?_,?_⟩
      · intro _
        simpa [sent,entered,Tab.send,Browser.enterDocument] using inside
      · exact enter_below below
      · intro all
        have labels : sent.labels = entered.labels := rfl
        rw [step.wellNumbered all,wellNumbered_of_labels labels,
          enter_wellNumbered (all id tab present) below found]
        constructor
        · intro free cur' entry' current' found' _ _
          have sameEntry : entry' = entry := Option.some.inj (found'.symm.trans found)
          rw [sameEntry]
          exact free
        · intro allowed
          exact allowed cur entry current found (by omega) same

theorem newTab_kept {b : Browser} (numbered : Numbered b) (url : String) (spawned : Bool) :
    Numbered (b.newTab url spawned) ∧ (AllWellNumbered b → AllWellNumbered (b.newTab url spawned)) := by
  let bumped := {b with nextTab := b.nextTab + 1}
  have numbered' : Numbered bumped := ⟨numbered.index,numbered.below⟩
  have same : AllWellNumbered b → AllWellNumbered bumped := id
  unfold Browser.newTab
  simp only
  by_cases ok : spawned = true
  · let tab : Tab := ⟨b.nextTab,0,url,"",false,false,[],0,[]⟩
    have step := setTab_exchanged bumped b.nextTab tab
    have empty : WellNumbered tab := by
      constructor
      · intro i j k a _ _ _ _ found
        simp [Tab.labels,tab] at found
      · intro i j a found
        simp [Tab.labels,tab] at found
    have start := step.numbered numbered' (by intro h; exact absurd rfl h) (by intro e member; cases member)
    have started (all : AllWellNumbered b) := (step.wellNumbered (same all)).mpr empty
    have fresh : Browser.sameDoc tab url "GET" = false := by
      simp [Browser.sameDoc,Tab.current,tab]
    have opened : (bumped.setTab b.nextTab tab).tabs b.nextTab = some tab := by
      rw [step.tabs,Function.update_self]
    have kept := openUrl_kept start opened url "GET" none none false
    rw [if_pos ok]
    split_ifs with blank
    · exact ⟨start,started⟩
    · exact ⟨kept.1,fun all => (kept.2 (started all)).mpr (by simp [OpenAllowed,fresh])⟩
  · rw [if_neg ok]
    exact ⟨numbered',same⟩

theorem receive_kept {b : Browser} (numbered : Numbered b) {id : TabId}
    {tab : Tab} (present : b.tabs id = some tab) (spawned : Bool) (msg : FromRenderer) :
    Numbered (b.receive id tab spawned msg) ∧ (AllWellNumbered b →
        (AllWellNumbered (b.receive id tab spawned msg) ↔ MessageAllowed tab msg)) := by
  have relabelled (f : HistoryEntry → HistoryEntry)
      (same : ∀ e, ((f e).docSeq,(f e).docIndex) = (e.docSeq,e.docIndex)) (other : Tab)
      (entries : other.history = tab.history.modify tab.historyIndex f)
      (index : other.historyIndex = tab.historyIndex) :
      Numbered (b.setTab id other) ∧ (AllWellNumbered b → AllWellNumbered (b.setTab id other)) := by
    apply exchange_same_labels present numbered (setTab_exchanged b id other)
    · unfold Tab.labels
      rw [entries]
      exact labels_modify tab.history tab.historyIndex f same
    · intro inside
      rw [index]
      exact inside
  cases msg with
  | title t =>
    have kept := relabelled (fun e => {e with title := t}) (fun _ => rfl) {tab with
      title := t
      history := tab.history.modify tab.historyIndex fun e => {e with title := t}} rfl rfl
    exact ⟨kept.1,fun all => iff_of_true (kept.2 all) trivial⟩
  | urlChanged u =>
    have kept := relabelled (fun e => {e with url := u}) (fun _ => rfl) {tab with
      url := u
      history := tab.history.modify tab.historyIndex fun e => {e with url := u}} rfl rfl
    exact ⟨kept.1,fun all => iff_of_true (kept.2 all) trivial⟩
  | openUrl url method body contentType inNewTab replace =>
    cases inNewTab with
    | true =>
      have kept := newTab_kept numbered url spawned
      exact ⟨kept.1,fun all => iff_of_true (kept.2 all) (by simp [MessageAllowed])⟩
    | false =>
      have kept := openUrl_kept numbered present url method body contentType replace
      exact ⟨kept.1,fun all => (kept.2 all).trans (by simp [MessageAllowed])⟩
  | historyGo delta => exact go_kept numbered present delta
  | historyPush url replace => exact receive_push_kept numbered present spawned url replace

/-- Every step keeps the numbers small; it keeps every tab well numbered exactly if it is
allowed. -/
theorem step_kept {b : Browser} (numbered : Numbered b) (input : Browser.Input) : Numbered (b.step input) ∧
      (AllWellNumbered b → (AllWellNumbered (b.step input) ↔ Allowed b input)) := by
  have exchanged (id : TabId) (tab other : Tab) (present : b.tabs id = some tab)
      (entries : other.history = tab.history) (index : other.historyIndex = tab.historyIndex) :
      Numbered (b.setTab id other) ∧ (AllWellNumbered b → AllWellNumbered (b.setTab id other)) := by
    apply exchange_same_labels present numbered (setTab_exchanged b id other)
    · unfold Tab.labels
      rw [entries]
    · intro inside
      rw [index]
      exact inside
  cases input with
  | newTab url spawned =>
    have kept := newTab_kept numbered url spawned
    exact ⟨kept.1,fun all => iff_of_true (kept.2 all) trivial⟩
  | respawnTab id html spawned =>
    suffices kept : Numbered (b.respawnTab id html spawned) ∧
        (AllWellNumbered b → AllWellNumbered (b.respawnTab id html spawned)) from
      ⟨kept.1,fun all => iff_of_true (kept.2 all) trivial⟩
    unfold Browser.respawnTab
    cases present : b.tabs id with
    | none => exact ⟨numbered,fun all => all⟩
    | some tab =>
      cases spawned with
      | true => exact exchanged id tab _ present rfl rfl
      | false => exact ⟨numbered,fun all => all⟩
  | closeTab id =>
    have before {other : TabId} {tab : Tab} (found : (b.closeTab id).tabs other = some tab) :
        b.tabs other = some tab := by
      unfold Browser.closeTab at found
      by_cases same : other = id
      · subst other
        simp at found
      · simpa [Function.update_of_ne same] using found
    refine ⟨⟨fun other tab found => numbered.index other tab (before found),
      fun other tab found => numbered.below other tab (before found)⟩,fun all => iff_of_true ?_ trivial⟩
    intro other tab found
    exact all other tab (before found)
  | navigate id url =>
    cases present : b.tabs id with
    | none =>
      have same : b.step (.navigate id url) = b := by
        simp [Browser.step,Browser.navigate,Browser.openUrl,present]
      rw [same]
      exact ⟨numbered,fun all => iff_of_true all fun tab found => absurd (present.symm.trans found) (by simp)⟩
    | some tab =>
      have kept := openUrl_kept numbered present url "GET" none none false
      refine ⟨kept.1,fun all => (kept.2 all).trans ?_⟩
      simp [Allowed,present]
  | go id delta =>
    cases present : b.tabs id with
    | none =>
      have same : b.step (.go id delta) = b := by
        simp [Browser.step,Browser.go,present]
      rw [same]
      exact ⟨numbered,fun all => iff_of_true all fun tab found => absurd (present.symm.trans found) (by simp)⟩
    | some tab =>
      have kept := go_kept numbered present delta
      refine ⟨kept.1,fun all => (kept.2 all).trans ?_⟩
      simp [Allowed,present]
  | reload id =>
    suffices kept : Numbered (b.reload id) ∧ (AllWellNumbered b → AllWellNumbered (b.reload id)) from
      ⟨kept.1,fun all => iff_of_true (kept.2 all) trivial⟩
    unfold Browser.reload
    cases present : b.tabs id with
    | none => exact ⟨numbered,fun all => all⟩
    | some tab => exact exchanged id tab _ present rfl rfl
  | stop id =>
    suffices kept : Numbered (b.stop id) ∧ (AllWellNumbered b → AllWellNumbered (b.stop id)) from
      ⟨kept.1,fun all => iff_of_true (kept.2 all) trivial⟩
    unfold Browser.stop
    cases present : b.tabs id with
    | none => exact ⟨numbered,fun all => all⟩
    | some tab => exact exchanged id tab _ present rfl rfl
  | renderer id epoch msg spawned =>
    show Numbered (b.processEvent id epoch msg spawned) ∧
      (AllWellNumbered b →
        (AllWellNumbered (b.processEvent id epoch msg spawned) ↔ Allowed b (.renderer id epoch msg spawned)))
    unfold Browser.processEvent
    cases present : b.tabs id with
    | none =>
      refine ⟨numbered,fun all => iff_of_true all ?_⟩
      cases msg with
      | none => trivial
      | some m => exact fun tab found => absurd (present.symm.trans found) (by simp)
    | some tab =>
      simp only
      split_ifs with late
      · refine ⟨numbered,fun all => iff_of_true all ?_⟩
        cases msg with
        | none => trivial
        | some m =>
          intro tab' found current
          cases present.symm.trans found
          exact absurd current late
      · cases msg with
        | none =>
          have kept := exchanged id tab {tab with crashed := true, loading := false} present rfl rfl
          exact ⟨kept.1,fun all => iff_of_true (kept.2 all) trivial⟩
        | some m =>
          have kept := receive_kept numbered present spawned m
          refine ⟨kept.1,fun all => (kept.2 all).trans ?_⟩
          have now : tab.epoch = epoch := by simpa using late
          simp [Allowed,present,now]

def AllAddressed (b : Browser) : Prop := ∀ id tab, b.tabs id = some tab → Addressed tab

theorem allAddressed_iff {b : Browser} (numbered : Numbered b) : AllAddressed b ↔ AllWellNumbered b := by
  constructor
  · intro all id tab present
    exact ⟨(all id tab present).contiguous,(all id tab present).distinct⟩
  · intro all id tab present
    exact ⟨numbered.index id tab present,(all id tab present).1,(all id tab present).2⟩

def Browser.next (b : Browser) (input : Browser.Input) : Option Browser := some (b.step input)

theorem new_numbered : Numbered Browser.new where
  index _ _ present := absurd present nofun
  below _ _ present := absurd present nofun

/-- All along a run of the browser, the current index is valid, the entries of one
document are contiguous and no two of them carry the same index, exactly if every
step of the run is allowed. -/
theorem history_addressing (inputs : List Browser.Input) : Always Browser.next AllAddressed Browser.new inputs ↔
      Guarded Browser.next Allowed Browser.new inputs := by
  have kept (b : Browser) (input : Browser.Input) (next : Browser) (numbered : Numbered b)
      (addressed : AllAddressed b) (taken : Browser.next b input = some next) :
      Numbered next ∧ (AllAddressed next ↔ Allowed b input) := by
    cases Option.some.inj taken
    have step := step_kept numbered input
    have exactly := step.2 ((allAddressed_iff numbered).mp addressed)
    exact ⟨step.1,(allAddressed_iff step.1).trans exactly⟩
  exact always_iff_guarded Browser.next kept (fun _ _ => rfl) inputs Browser.new new_numbered
    fun id tab present => absurd present nofun

def reentering : List Browser.Input :=
  [.newTab "https://a.test/" true,
    .renderer 1 0 (some (.historyPush "https://a.test/1" false)) true,
    .renderer 1 0 (some (.historyPush "https://a.test/2" false)) true,
    .navigate 1 "https://b.test/",
    .go 1 (-2)]

theorem reentering_labels :
    (((exec Browser.next Browser.new reentering).bind fun b => b.tabs 1).map Tab.labels) =
      some [(3,0),(3,0),(3,2),(2,0)] := by
  decide

/-- Three entries of one document, another document, and two entries back: the
middle entry is renumbered 0, like the first. -/
theorem reentered_document_confused : ¬ Always Browser.next AllAddressed Browser.new reentering := by
  intro always
  obtain ⟨tab,present,labels⟩ := Option.map_eq_some_iff.mp reentering_labels
  obtain ⟨b,ran,present⟩ := Option.bind_eq_some_iff.mp present
  have distinct := ((always_final Browser.next always ran) 1 tab present).distinct
  rw [labels] at distinct
  exact absurd (distinct 0 1 (3,0) rfl rfl) (by decide)

end Sharko.Session
