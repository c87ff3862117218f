import Mathlib.Data.List.Basic
import Mathlib.Logic.Function.Basic
import Sharko.Library.Runs

/-! `history.state` of one document. The page keeps the states by the index of their entry and
notices by the URL that an index has got a new entry; the entries themselves are the host's. -/

namespace Sharko.Script.HistoryState

open Library

/-- An absolute URL: what comes before `#`, and the fragment. -/
structure Url where
  page : List Nat
  fragment : Option (List Nat)
  deriving DecidableEq

/-- What `N.urlParse` tells of an origin; none is the opaque `null`. -/
structure Parts where
  origin : Option (List Nat)
  protocol : List Nat
  deriving DecidableEq

structure Hist (α : Type) where
  current : Option α
  states : Nat → Option (Option α)
  urls : Nat → Option Url

structure Host where
  entries : List Url
  index : Nat

structure Page (α : Type) where
  url : Url
  /-- The runtime's own count: the index of the current entry and the number of entries. -/
  history : Nat × Nat
  hist : Hist α
  host : Host

variable {α : Type}

namespace Host

variable (host : Host)

def historyPush (url : Url) (replace : Bool) : Host :=
  if replace then { host with entries := host.entries.set host.index url }
  else { entries := host.entries.take (host.index + 1) ++ [url],index := host.index + 1 }

end Host

namespace Hist

variable (hist : Hist α)

def pruneHistoryFrom (idx : Nat) : Hist α :=
  { hist with
    states := fun k => if k ≥ idx then none else hist.states k
    urls := fun k => if k ≥ idx then none else hist.urls k }

def historyAfterPush (idx : Nat) (url : Url) (state : Option α) (replace : Bool) : Hist α :=
  let hist := if replace then hist else hist.pruneHistoryFrom (idx + 1)
  { current := state
    states := Function.update hist.states idx (some state)
    urls := Function.update hist.urls idx (some url) }

def onPopState (now : Url) (idx : Nat) : Hist α :=
  let hist := match hist.urls idx with
    | some known => if known ≠ now then hist.pruneHistoryFrom idx else hist
    | none => hist
  { hist with
    urls := Function.update hist.urls idx (some now)
    current := (hist.states idx).getD none }

end Hist

/-- What the page and its user do to the session history of the document. -/
inductive Action (α : Type) where
  /-- `pushState` and `replaceState`. No data is a value that cannot be cloned; the URL may be
  left out, or may not parse. -/
  | updateHistory (data : Option (Option α)) (url : Option (Option Url)) (replace : Bool)
  | navigateTo (target : Url) (replace : Bool)
  | followLink (target : Url)
  | go (delta : Int)

namespace Hist

variable {hist : Hist α} {now : Url} {idx : Nat}

theorem onPopState_filed : (hist.onPopState now idx).urls idx = some now := by
  simp [onPopState]

variable (hist now idx) in
theorem onPopState_cases :
    ((∀ known,hist.urls idx = some known → known = now) ∧ (hist.onPopState now idx).states = hist.states ∧
      (hist.onPopState now idx).urls = Function.update hist.urls idx (some now)) ∨
    ((∃ known,hist.urls idx = some known ∧ known ≠ now) ∧
      (hist.onPopState now idx).states = (hist.pruneHistoryFrom idx).states ∧
      (hist.onPopState now idx).urls = Function.update (hist.pruneHistoryFrom idx).urls idx (some now)) := by
  unfold onPopState
  cases found : hist.urls idx with
  | none => exact .inl ⟨nofun,rfl,rfl⟩
  | some known =>
    by_cases same : known = now
    · refine .inl ⟨?_,?_⟩
      · rintro other ⟨⟩
        exact same
      · simp [same]
    · exact .inr ⟨⟨known,rfl,same⟩,by simp [same],by simp [same]⟩

theorem onPopState_below {i : Nat} (below : i < idx) :
    (hist.onPopState now idx).states i = hist.states i ∧ (hist.onPopState now idx).urls i = hist.urls i := by
  have other : i ≠ idx := Nat.ne_of_lt below
  rcases onPopState_cases hist now idx with ⟨-,states,urls⟩ | ⟨-,states,urls⟩
  · rw [states,urls,Function.update_of_ne other]
    exact ⟨rfl,rfl⟩
  · rw [states,urls,Function.update_of_ne other]
    simp [pruneHistoryFrom,Nat.not_le.mpr below]

theorem onPopState_at (unknown : hist.urls idx = none → hist.states idx = none) :
    ((hist.onPopState now idx).states idx).getD none =
      if hist.urls idx = some now then (hist.states idx).getD none else none := by
  rcases onPopState_cases hist now idx with ⟨same,states,-⟩ | ⟨⟨known,found,other⟩,states,-⟩
  · rw [states]
    cases found : hist.urls idx with
    | none =>
      rw [unknown found]
      rfl
    | some known => rw [if_pos (congrArg some (same known found))]
  · rw [states,if_neg fun h => other (Option.some.inj (found.symm.trans h))]
    simp [pruneHistoryFrom]

theorem onPopState_known (known : ∀ i,hist.urls i = none → hist.states i = none) (i : Nat)
    (unknown : (hist.onPopState now idx).urls i = none) : (hist.onPopState now idx).states i = none := by
  have other : i ≠ idx := by
    rintro rfl
    rw [onPopState_filed] at unknown
    cases unknown
  rcases onPopState_cases hist now idx with ⟨-,states,urls⟩ | ⟨-,states,urls⟩
  · rw [urls,Function.update_of_ne other] at unknown
    rw [states]
    exact known i unknown
  · rw [urls,Function.update_of_ne other] at unknown
    rw [states]
    simp only [pruneHistoryFrom] at unknown ⊢
    split
    next => rfl
    next early =>
      rw [if_neg early] at unknown
      exact known i unknown

end Hist

namespace Page

variable (page : Page α)

def sameDocumentNavigation (url : Url) (replace : Bool) : Page α :=
  { page with
    url
    history := if replace then page.history else (page.history.1 + 1,page.history.1 + 2)
    host := page.host.historyPush url replace }

def historyAfterPush (state : Option α) (replace : Bool) : Page α :=
  { page with hist := page.hist.historyAfterPush page.history.1 page.url state replace }

def refuses (p cur : Parts) : Bool := p.origin ≠ cur.origin ∨ (p.origin = none ∧ p.protocol ≠ cur.protocol)

def updateHistory (parts : Url → Parts) (data : Option (Option α)) (url : Option (Option Url))
    (replace : Bool) : Page α :=
  match data with
  | none => page
  | some state =>
    match url with
    | none => (page.sameDocumentNavigation page.url replace).historyAfterPush state replace
    | some none => page
    | some (some target) =>
      if refuses (parts target) (parts page.url) then page
      else (page.sameDocumentNavigation target replace).historyAfterPush state replace

def sameDocument (target : Url) : Bool := target.fragment.isSome ∧ target.page = page.url.page

def fragmentNavigate (target : Url) (replace : Bool) : Page α :=
  let replace := replace || page.url = target
  (page.sameDocumentNavigation target replace).historyAfterPush none replace

def firePopstate : Page α := { page with hist := page.hist.onPopState page.url page.history.1 }

def followFragment (target : Url) : Page α :=
  if page.url = target then page else (page.sameDocumentNavigation target false).firePopstate

def historyTraversed (url : Url) (index : Nat) : Page α :=
  { page with url,history := (index,max page.history.2 (index + 1)) }.firePopstate

def go (delta : Int) : Option (Page α) :=
  if delta = 0 then none
  else
    let target := (page.host.index : Int) + delta
    if target < 0 then none
    else
      match page.host.entries[target.toNat]? with
      | none => none
      | some url =>
        some ({ page with host := { page.host with index := target.toNat } }.historyTraversed url
          target.toNat)

/-- A step of the document; none where it leaves the document or does nothing to it. -/
def act (parts : Url → Parts) : Action α → Option (Page α)
  | .updateHistory data url replace => some (page.updateHistory parts data url replace)
  | .navigateTo target replace =>
    if page.sameDocument target then some (page.fragmentNavigate target replace) else none
  | .followLink target => if page.sameDocument target then some (page.followFragment target) else none
  | .go delta => page.go delta

def loaded (url : Url) : Page α where
  url := url
  history := (0,1)
  hist := ⟨none,fun _ => none,fun _ => none⟩
  host := ⟨[url],0⟩

end Page

structure Entry (α : Type) where
  url : Url
  state : Option α

structure Session (α : Type) where
  entries : List (Entry α)
  index : Nat

namespace Session

variable (session : Session α)

def current : Option (Entry α) := session.entries[session.index]?

def add (entry : Entry α) : Session α :=
  { entries := session.entries.take (session.index + 1) ++ [entry],index := session.index + 1 }

def replace (entry : Entry α) : Session α :=
  { session with entries := session.entries.set session.index entry }

def enter (entry : Entry α) (replace : Bool) : Session α :=
  if replace then session.replace entry else session.add entry

end Session

/-- A document and the entries that its session history ought to have. -/
structure World (α : Type) where
  page : Page α
  session : Session α

namespace World

def follow (parts : Url → Parts) (session : Session α) (url : Url) : Action α → Session α
  | .updateHistory none _ _ => session
  | .updateHistory (some state) none replace => session.enter ⟨url,state⟩ replace
  | .updateHistory (some _) (some none) _ => session
  | .updateHistory (some state) (some (some target)) replace =>
    if Page.refuses (parts target) (parts url) then session else session.enter ⟨target,state⟩ replace
  | .navigateTo target replace => session.enter ⟨target,none⟩ (replace || url = target)
  | .followLink target => if url = target then session else session.add ⟨target,none⟩
  | .go delta => { session with index := ((session.index : Int) + delta).toNat }

def act (parts : Url → Parts) (σ : World α) (action : Action α) : Option (World α) :=
  (σ.page.act parts action).map fun page => ⟨page,follow parts σ.session σ.page.url action⟩

def loaded (url : Url) : World α := ⟨.loaded url,⟨[⟨url,none⟩],0⟩⟩

variable (σ : World α)

def StateBelongs : Prop := σ.session.current.map Entry.state = some σ.page.hist.current

/-- A followed link makes no entry at an index for which a state is kept with its URL. -/
def Unremembered : Action α → Prop
  | .followLink target => σ.page.sameDocument target → σ.page.url ≠ target →
    σ.page.hist.urls (σ.page.history.1 + 1) = some target →
    (σ.page.hist.states (σ.page.history.1 + 1)).getD none = none
  | _ => True

/-- The page, its host and the session history agree, and what is kept for an entry is its own. -/
structure Matches : Prop where
  entries : σ.page.host.entries = σ.session.entries.map Entry.url
  index : σ.page.host.index = σ.session.index
  count : σ.page.history.1 = σ.session.index
  url : σ.session.current.map Entry.url = some σ.page.url
  known : ∀ i,σ.page.hist.urls i = none → σ.page.hist.states i = none
  urls : ∀ (i : Nat) entry u,σ.session.entries[i]? = some entry → σ.page.hist.urls i = some u → u = entry.url
  states : ∀ (i : Nat) entry,σ.session.entries[i]? = some entry →
    (σ.page.hist.states i).getD none = entry.state

variable {σ}

theorem Matches.below (kept : σ.Matches) : σ.session.index < σ.session.entries.length := by
  have current := kept.url
  unfold Session.current at current
  by_contra late
  rw [List.getElem?_eq_none (Nat.not_lt.mp late)] at current
  cases current

theorem add_get {session : Session α} (below : session.index < session.entries.length) (entry : Entry α)
    (i : Nat) : (session.add entry).entries[i]? =
      if i = session.index + 1 then some entry
      else if i ≤ session.index then session.entries[i]? else none := by
  have length : (session.entries.take (session.index + 1)).length = session.index + 1 := by
    rw [List.length_take]
    omega
  unfold Session.add
  dsimp only
  rcases Nat.lt_trichotomy i (session.index + 1) with before | same | after
  · rw [List.getElem?_append_left (by omega),List.getElem?_take_of_lt before,if_neg (by omega),
      if_pos (by omega)]
  · rw [List.getElem?_append_right (by omega),length,same,Nat.sub_self,if_pos rfl]
    rfl
  · rw [List.getElem?_eq_none (by simp; omega),if_neg (by omega),if_neg (by omega)]

theorem replace_get {session : Session α} (below : session.index < session.entries.length)
    (entry : Entry α) (i : Nat) : (session.replace entry).entries[i]? =
      if i = session.index then some entry else session.entries[i]? := by
  unfold Session.replace
  dsimp only
  by_cases same : i = session.index
  · rw [same,if_pos rfl,List.getElem?_set_self below]
  · rw [if_neg same,List.getElem?_set_ne (Ne.symm same)]

theorem Matches.current (kept : σ.Matches) (following : σ.page.hist.current =
    (σ.page.hist.states σ.session.index).getD none) : σ.StateBelongs := by
  unfold StateBelongs
  cases found : σ.session.current with
  | none =>
    have url := kept.url
    rw [found] at url
    cases url
  | some entry => rw [following,kept.states σ.session.index entry found]; rfl

theorem Matches.replace (kept : σ.Matches) (url : Url) (state : Option α) :
    Matches ⟨(σ.page.sameDocumentNavigation url true).historyAfterPush state true,
      σ.session.replace ⟨url,state⟩⟩ where
  entries := by
    have same := kept.entries
    simp only [Page.historyAfterPush,Page.sameDocumentNavigation,Host.historyPush,Session.replace,
      if_true,List.map_set,same,kept.index]
  index := kept.index
  count := kept.count
  url := by
    have found := replace_get kept.below ⟨url,state⟩ σ.session.index
    rw [if_pos rfl] at found
    exact congrArg (Option.map Entry.url) found
  known i unknown := by
    simp only [Page.historyAfterPush,Page.sameDocumentNavigation,Hist.historyAfterPush,if_true] at unknown ⊢
    by_cases same : i = σ.page.history.1
    · rw [same,Function.update_self] at unknown
      cases unknown
    · rw [Function.update_of_ne same] at unknown ⊢
      exact kept.known i unknown
  urls i entry u found filed := by
    rw [replace_get kept.below] at found
    simp only [Page.historyAfterPush,Page.sameDocumentNavigation,Hist.historyAfterPush,if_true,
      kept.count] at filed
    by_cases same : i = σ.session.index
    · rw [if_pos same] at found
      rw [same,Function.update_self] at filed
      cases found
      exact (Option.some.inj filed).symm
    · rw [if_neg same] at found
      rw [Function.update_of_ne same] at filed
      exact kept.urls i entry u found filed
  states i entry found := by
    rw [replace_get kept.below] at found
    simp only [Page.historyAfterPush,Page.sameDocumentNavigation,Hist.historyAfterPush,if_true,kept.count]
    by_cases same : i = σ.session.index
    · rw [if_pos same] at found
      rw [same,Function.update_self]
      cases found
      rfl
    · rw [if_neg same] at found
      rw [Function.update_of_ne same]
      exact kept.states i entry found

theorem Matches.pushed (kept : σ.Matches) (url : Url) (state : Option α) :
    (σ.page.host.historyPush url false).entries = (σ.session.add ⟨url,state⟩).entries.map Entry.url := by
  have same := kept.entries
  simp [Host.historyPush,Session.add,same,kept.index]

theorem Matches.added (kept : σ.Matches) (url : Url) (state : Option α) :
    (σ.session.add ⟨url,state⟩).current.map Entry.url = some url := by
  have found := add_get kept.below ⟨url,state⟩ (σ.session.index + 1)
  rw [if_pos rfl] at found
  exact congrArg (Option.map Entry.url) found

theorem Matches.add (kept : σ.Matches) (url : Url) (state : Option α) :
    Matches ⟨(σ.page.sameDocumentNavigation url false).historyAfterPush state false,
      σ.session.add ⟨url,state⟩⟩ where
  entries := kept.pushed url state
  index := congrArg (· + 1) kept.index
  count := congrArg (· + 1) kept.count
  url := kept.added url state
  known i unknown := by
    simp only [Page.historyAfterPush,Page.sameDocumentNavigation,Hist.historyAfterPush,
      Hist.pruneHistoryFrom] at unknown ⊢
    by_cases same : i = σ.page.history.1 + 1
    · simp [same] at unknown
    · simp only [Bool.false_eq_true,if_false,Function.update_of_ne same] at unknown ⊢
      split
      next => rfl
      next early =>
        rw [if_neg early] at unknown
        exact kept.known i unknown
  urls i entry u found filed := by
    rw [add_get kept.below] at found
    simp only [Page.historyAfterPush,Page.sameDocumentNavigation,Hist.historyAfterPush,
      Hist.pruneHistoryFrom,Bool.false_eq_true,if_false,kept.count] at filed
    by_cases same : i = σ.session.index + 1
    · rw [if_pos same] at found
      rw [same,Function.update_self] at filed
      cases found
      exact (Option.some.inj filed).symm
    · rw [if_neg same] at found
      rw [Function.update_of_ne same] at filed
      split at found
      next early =>
        rw [if_neg (by omega)] at filed
        exact kept.urls i entry u found filed
      next => cases found
  states i entry found := by
    rw [add_get kept.below] at found
    simp only [Page.historyAfterPush,Page.sameDocumentNavigation,Hist.historyAfterPush,
      Hist.pruneHistoryFrom,Bool.false_eq_true,if_false,kept.count]
    by_cases same : i = σ.session.index + 1
    · rw [if_pos same] at found
      rw [same,Function.update_self]
      cases found
      rfl
    · rw [if_neg same] at found
      rw [Function.update_of_ne same]
      split at found
      next early =>
        rw [if_neg (by omega)]
        exact kept.states i entry found
      next => cases found

theorem Matches.enter (kept : σ.Matches) (url : Url) (state : Option α) (replace : Bool) :
    Matches ⟨(σ.page.sameDocumentNavigation url replace).historyAfterPush state replace,
      σ.session.enter ⟨url,state⟩ replace⟩ := by
  cases replace with
  | true => exact kept.replace url state
  | false => exact kept.add url state

theorem enter_current (kept : σ.Matches) (url : Url) (state : Option α) (replace : Bool) :
    StateBelongs ⟨(σ.page.sameDocumentNavigation url replace).historyAfterPush state replace,
      σ.session.enter ⟨url,state⟩ replace⟩ := by
  refine (kept.enter url state replace).current ?_
  have count := (kept.enter url state replace).count
  rw [← count]
  simp [Page.historyAfterPush,Hist.historyAfterPush]

theorem Matches.follow (kept : σ.Matches) (target : Url) :
    let page := (σ.page.sameDocumentNavigation target false).firePopstate
    let session := σ.session.add ⟨target,none⟩
    (page.hist.current = if σ.page.hist.urls (σ.page.history.1 + 1) = some target then
      (σ.page.hist.states (σ.page.history.1 + 1)).getD none else none) ∧
    (page.hist.current = none → Matches ⟨page,session⟩) := by
  intro page session
  have current : page.hist.current =
      ((σ.page.hist.onPopState target (σ.page.history.1 + 1)).states (σ.page.history.1 + 1)).getD none := rfl
  constructor
  · rw [current,Hist.onPopState_at (kept.known _)]
  · intro forgotten
    rw [current] at forgotten
    exact {
      entries := kept.pushed target none
      index := congrArg (· + 1) kept.index
      count := congrArg (· + 1) kept.count
      url := kept.added target none
      known := Hist.onPopState_known kept.known
      urls := by
        intro i entry u found filed
        rw [add_get kept.below] at found
        by_cases same : i = σ.session.index + 1
        · rw [if_pos same] at found
          have here : page.hist.urls i = some target := by
            rw [same,← kept.count]
            exact Hist.onPopState_filed
          rw [here] at filed
          cases found
          exact (Option.some.inj filed).symm
        · rw [if_neg same] at found
          split at found
          next early =>
            have below : i < σ.page.history.1 + 1 := by
              rw [kept.count]
              omega
            have stays : (σ.page.hist.onPopState target (σ.page.history.1 + 1)).urls i = σ.page.hist.urls i :=
              (Hist.onPopState_below below).2
            exact kept.urls i entry u found (stays.symm.trans filed)
          next => cases found
      states := by
        intro i entry found
        rw [add_get kept.below] at found
        by_cases same : i = σ.session.index + 1
        · rw [if_pos same] at found
          cases found
          rw [same,← kept.count]
          exact forgotten
        · rw [if_neg same] at found
          split at found
          next early =>
            have below : i < σ.page.history.1 + 1 := by
              rw [kept.count]
              omega
            have stays : (σ.page.hist.onPopState target (σ.page.history.1 + 1)).states i =
              σ.page.hist.states i := (Hist.onPopState_below below).1
            exact (congrArg (fun state => state.getD none) stays).trans (kept.states i entry found)
          next => cases found }

theorem Matches.traverse (kept : σ.Matches) {target : Nat} {entry : Entry α}
    (found : σ.session.entries[target]? = some entry) :
    let page := { σ.page with host := { σ.page.host with index := target } }.historyTraversed entry.url target
    Matches ⟨page,{ σ.session with index := target }⟩ ∧
      StateBelongs ⟨page,{ σ.session with index := target }⟩ := by
  intro page
  have same : ∀ known,σ.page.hist.urls target = some known → known = entry.url :=
    fun known filed => kept.urls target entry known found filed
  have calm : page.hist.states = σ.page.hist.states ∧
      page.hist.urls = Function.update σ.page.hist.urls target (some entry.url) := by
    rcases Hist.onPopState_cases σ.page.hist entry.url target with ⟨-,states,urls⟩ | ⟨⟨known,filed,other⟩,-⟩
    · exact ⟨states,urls⟩
    · exact absurd (same known filed) other
  have matched : Matches ⟨page,{ σ.session with index := target }⟩ := {
    entries := kept.entries
    index := rfl
    count := rfl
    url := congrArg (Option.map Entry.url) found
    known := Hist.onPopState_known kept.known
    urls := by
      intro i other u found' filed
      rw [show Hist.urls _ = Function.update σ.page.hist.urls target (some entry.url) from calm.2] at filed
      by_cases here : i = target
      · subst here
        rw [Function.update_self] at filed
        cases Option.some.inj (found'.symm.trans found)
        exact (Option.some.inj filed).symm
      · rw [Function.update_of_ne here] at filed
        exact kept.urls i other u found' filed
    states := by
      intro i other found'
      rw [show Hist.states _ = σ.page.hist.states from calm.1]
      exact kept.states i other found' }
  refine ⟨matched,matched.current rfl⟩

theorem Matches.step {parts : Url → Parts} {action : Action α} {τ : World α} (kept : σ.Matches)
    (belongs : σ.StateBelongs) (acted : σ.act parts action = some τ) :
    (τ.StateBelongs → τ.Matches) ∧ (τ.StateBelongs ↔ σ.Unremembered action) := by
  have holds : ∀ {τ : World α} {action},σ.Unremembered action → τ.Matches → τ.StateBelongs →
      (τ.StateBelongs → τ.Matches) ∧ (τ.StateBelongs ↔ σ.Unremembered action) :=
    fun allowed matched current => ⟨fun _ => matched,iff_of_true current allowed⟩
  obtain ⟨page,stepped,rfl⟩ := Option.map_eq_some_iff.mp acted
  cases action with
  | updateHistory data url replace =>
    cases Option.some.inj stepped
    cases data with
    | none => exact holds trivial kept belongs
    | some state =>
      cases url with
      | none => exact holds trivial (kept.enter _ _ _) (enter_current kept _ _ _)
      | some parsed =>
        cases parsed with
        | none => exact holds trivial kept belongs
        | some target =>
          by_cases refused : Page.refuses (parts target) (parts σ.page.url) = true
          · have stays : World.mk (σ.page.updateHistory parts (some state) (some (some target)) replace)
                (World.follow parts σ.session σ.page.url (.updateHistory (some state) (some (some target)) replace)) =
                σ := by
              simp [Page.updateHistory,World.follow,refused]
            rw [stays]
            exact holds trivial kept belongs
          · have enters : World.mk (σ.page.updateHistory parts (some state) (some (some target)) replace)
                (World.follow parts σ.session σ.page.url (.updateHistory (some state) (some (some target)) replace)) =
                ⟨(σ.page.sameDocumentNavigation target replace).historyAfterPush state replace,
                  σ.session.enter ⟨target,state⟩ replace⟩ := by
              simp [Page.updateHistory,World.follow,refused]
            rw [enters]
            exact holds trivial (kept.enter _ _ _) (enter_current kept _ _ _)
  | navigateTo target replace =>
    unfold Page.act at stepped
    dsimp only at stepped
    split_ifs at stepped
    cases stepped
    exact holds trivial (kept.enter target none _) (enter_current kept target none _)
  | followLink target =>
    unfold Page.act Page.followFragment at stepped
    dsimp only at stepped
    split_ifs at stepped with inside unchanged
    · cases stepped
      have stays : World.mk σ.page (World.follow parts σ.session σ.page.url (.followLink target)) = σ := by
        simp [World.follow,unchanged]
      rw [stays]
      exact holds (fun _ other => absurd unchanged other) kept belongs
    · cases stepped
      have adds : World.follow parts σ.session σ.page.url (.followLink target) =
          σ.session.add ⟨target,none⟩ := by
        simp [World.follow,unchanged]
      rw [adds]
      obtain ⟨current,matched⟩ := kept.follow target
      have added : (σ.session.add ⟨target,none⟩).current.map Entry.state = some none := by
        have found := add_get kept.below ⟨target,none⟩ (σ.session.index + 1)
        rw [if_pos rfl] at found
        exact congrArg (Option.map Entry.state) found
      have exactly : StateBelongs ⟨(σ.page.sameDocumentNavigation target false).firePopstate,
          σ.session.add ⟨target,none⟩⟩ ↔
          ((σ.page.sameDocumentNavigation target false).firePopstate).hist.current = none := by
        unfold StateBelongs
        rw [added]
        exact ⟨fun same => (Option.some.inj same).symm,fun forgotten => congrArg some forgotten.symm⟩
      constructor
      · exact fun belongs => matched (exactly.mp belongs)
      · rw [exactly,current]
        split
        next known => exact ⟨fun forgotten _ _ _ => forgotten,fun allowed => allowed inside unchanged known⟩
        next unknown => exact ⟨fun _ _ _ known => absurd known unknown,fun _ => rfl⟩
  | go delta =>
    unfold Page.act Page.go at stepped
    dsimp only at stepped
    split_ifs at stepped with leaves before
    split at stepped
    · cases stepped
    next url listed =>
      cases stepped
      rw [kept.entries,List.getElem?_map,Option.map_eq_some_iff] at listed
      obtain ⟨entry,found,rfl⟩ := listed
      have reached := kept.traverse found
      have goes : World.follow parts σ.session σ.page.url (.go delta) =
          { σ.session with index := ((σ.page.host.index : Int) + delta).toNat } := by
        simp [World.follow,kept.index]
      rw [goes]
      exact holds trivial reached.1 reached.2

theorem matches_loaded (url : Url) : (loaded (α := α) url).Matches ∧ (loaded (α := α) url).StateBelongs := by
  refine ⟨⟨rfl,rfl,rfl,rfl,fun _ _ => rfl,nofun,?_⟩,rfl⟩
  intro i entry found
  cases i with
  | zero => cases found; rfl
  | succ n => cases found

theorem unremembered_of_refused {parts : Url → Parts} {action : Action α}
    (refused : σ.act parts action = none) : σ.Unremembered action := by
  cases action with
  | updateHistory data url replace => exact trivial
  | navigateTo target replace => exact trivial
  | go delta => exact trivial
  | followLink target =>
    intro inside
    simp [act,Page.act,inside] at refused

/-- `history.state` belongs to the current entry all along a session exactly if no link is
followed to an entry at an index for which a state is kept with the same URL. -/
theorem state_belongs_iff (parts : Url → Parts) (url : Url) (actions : List (Action α)) :
    Runs.Always (act parts) StateBelongs (loaded url) actions ↔
      Runs.Guarded (act parts) Unremembered (loaded url) actions := by
  obtain ⟨matched,belongs⟩ := matches_loaded (α := α) url
  have kept : ∀ (σ : World α) action τ,(σ.StateBelongs → σ.Matches) → σ.StateBelongs →
      σ.act parts action = some τ → (τ.StateBelongs → τ.Matches) ∧ (τ.StateBelongs ↔ σ.Unremembered action) :=
    fun σ action τ invariant holds acted => (invariant holds).step holds acted
  exact Runs.always_iff_guarded_unrefused (act parts) kept (fun σ action => unremembered_of_refused) actions
    (loaded url) (fun _ => matched) belongs

namespace Sample

def home : Url := ⟨[],none⟩

def section_ : Url := ⟨[],some [1]⟩

def parts : Url → Parts := fun _ => ⟨none,[]⟩

def actions : List (Action Nat) :=
  [.updateHistory (some (some 1)) (some (some section_)) false,.go (-1),.followLink section_]

/-- The entry of the link is found with the state of the entry it has replaced. -/
theorem state_of_the_discarded_entry : ¬ Runs.Always (act parts) StateBelongs (loaded home) actions ∧
      (Runs.exec (act parts) (loaded home) actions).map
        (fun σ => (σ.page.hist.current,σ.session.current.map Entry.state)) = some (some 1,some none) := by
  refine ⟨?_,rfl⟩
  intro always
  have final := Runs.always_final (act parts) always rfl
  have same : (some none : Option (Option Nat)) = some (some 1) := final
  cases Option.some.inj same

end Sample

end World

end Sharko.Script.HistoryState
