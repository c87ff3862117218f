import Mathlib
import Sharko.Library.Text

/-! The session history of the browser process (`crates/browser/src/lib.rs`):
tabs, their entries, and every call or renderer message that changes them. A
tab's `sent` is what its `IpcSender` was handed, oldest first; timings, frames
and the console of a tab do not touch its history and are left out. A `spawned`
argument tells whether the renderer process of a new tab could be started. -/

namespace Sharko.Session
open Library

abbrev TabId := Nat

inductive ToRenderer where
  | navigate (url method : String) (body : Option (List UInt8)) (contentType : Option String)
  | loadHtml (url html : String)
  | stop
  | reload
  | historyTraverse (url : String) (index : Nat)
  | shutdown
deriving DecidableEq

inductive FromRenderer where
  | title (title : String)
  | urlChanged (url : String)
  | openUrl (url method : String) (body : Option (List UInt8)) (contentType : Option String)
      (newTab replace : Bool)
  | historyGo (delta : Int)
  | historyPush (url : String) (replace : Bool)
deriving DecidableEq

structure HistoryEntry where
  url : String
  title : String
  docSeq : Nat
  docIndex : Nat
deriving DecidableEq

def urlWithoutFragment (u : String) : Option String :=
  if Text.startsWith u "about:" then none else some (Text.before u '#')

def sameDocument (a b : String) : Bool :=
  match urlWithoutFragment a,urlWithoutFragment b with
  | some x,some y => x == y
  | _,_ => false

structure Tab where
  id : TabId
  epoch : Nat
  url : String
  title : String
  loading : Bool
  crashed : Bool
  history : List HistoryEntry
  historyIndex : Nat
  sent : List ToRenderer
deriving DecidableEq

structure Browser where
  tabs : TabId → Option Tab
  nextTab : TabId
  nextDocSeq : Nat

def Browser.new : Browser := ⟨fun _ => none,1,1⟩

def Tab.current (tab : Tab) : Option HistoryEntry := tab.history[tab.historyIndex]?

def Tab.send (tab : Tab) (msg : ToRenderer) : Tab := {tab with sent := tab.sent ++ [msg]}

def Tab.place (tab : Tab) (entry : HistoryEntry) (replace : Bool) : Tab :=
  if replace then {tab with history := tab.history.set tab.historyIndex entry}
  else
    let kept := tab.history.take (tab.historyIndex + 1) ++ [entry]
    {tab with history := kept, historyIndex := kept.length - 1}

namespace Browser

def setTab (b : Browser) (id : TabId) (tab : Tab) : Browser :=
  {b with tabs := Function.update b.tabs id (some tab)}

def sameDoc (tab : Tab) (url method : String) : Bool :=
  Text.eqIgnoreAsciiCase method "GET" && Text.contains url '#' &&
    tab.current.any (fun c => sameDocument c.url url)

def openEntry (tab : Tab) (url method : String) (replace : Bool) (nextSeq : Nat) : HistoryEntry :=
  match tab.current,sameDoc tab url method with
  | some c,true => ⟨url,c.title,c.docSeq,if replace then c.docIndex else c.docIndex + 1⟩
  | _,_ => ⟨url,"",nextSeq,0⟩

def openUrl (b : Browser) (id : TabId) (url method : String) (body : Option (List UInt8))
    (contentType : Option String) (replace : Bool) : Browser :=
  match b.tabs id with
  | none => b
  | some tab =>
    let same := sameDoc tab url method
    let entry := openEntry tab url method replace b.nextDocSeq
    let placed := if tab.history.isEmpty then {tab with history := [entry], historyIndex := 0}
      else tab.place entry replace
    let shown := {placed with url := url, loading := if same then placed.loading else true}
    {b.setTab id (shown.send (.navigate url method body contentType)) with
      nextDocSeq := if same then b.nextDocSeq else b.nextDocSeq + 1}

def navigate (b : Browser) (id : TabId) (url : String) : Browser :=
  b.openUrl id url "GET" none none false

def newTab (b : Browser) (url : String) (spawned : Bool) : Browser :=
  let id := b.nextTab
  let b := {b with nextTab := b.nextTab + 1}
  if spawned then
    let b := b.setTab id ⟨id,0,url,"",false,false,[],0,[]⟩
    if url.isEmpty then b else b.navigate id url
  else b

def respawnTab (b : Browser) (id : TabId) (html : Option String) (spawned : Bool) : Browser :=
  match b.tabs id with
  | none => b
  | some tab =>
    if spawned then
      let tab := {tab with epoch := (tab.epoch + 1) % 2 ^ 32, crashed := false, sent := []}
      b.setTab id (tab.send (match html with
        | some html => .loadHtml tab.url html
        | none => .navigate tab.url "GET" none none))
    else b

def closeTab (b : Browser) (id : TabId) : Browser :=
  {b with tabs := Function.update b.tabs id none}

def enterDocument (tab : Tab) (target : Nat) (entry : HistoryEntry) (newSeq : Nat) : Tab :=
  -- The old same-document entries of the loaded document become entries of a new one.
  let relabelled := tab.history.map fun e => if e.docSeq = entry.docSeq then {e with docSeq := newSeq} else e
  {tab with
    history := relabelled.modify target fun e => {e with docIndex := 0}
    historyIndex := target
    url := entry.url
    loading := true}

def go (b : Browser) (id : TabId) (delta : Int) : Browser :=
  match b.tabs id with
  | none => b
  | some tab =>
    if delta = 0 then b.setTab id (tab.send .reload)
    else
      let target := (tab.historyIndex : Int) + delta
      if target < 0 ∨ (tab.history.length : Int) ≤ target then b
      else
        match tab.current,tab.history[target.toNat]? with
        | some cur,some entry =>
          if entry.docSeq = cur.docSeq then
            let moved := {tab with historyIndex := target.toNat, url := entry.url}
            b.setTab id (moved.send (.historyTraverse entry.url entry.docIndex))
          else
            let entered := enterDocument tab target.toNat entry b.nextDocSeq
            {b.setTab id (entered.send (.navigate entry.url "GET" none none)) with
              nextDocSeq := b.nextDocSeq + 1}
        | _,_ => b

def reload (b : Browser) (id : TabId) : Browser :=
  match b.tabs id with
  | none => b
  | some tab => b.setTab id ({tab with loading := true}.send .reload)

def stop (b : Browser) (id : TabId) : Browser :=
  match b.tabs id with
  | none => b
  | some tab => b.setTab id ({tab with loading := false}.send .stop)

def receive (b : Browser) (id : TabId) (tab : Tab) (spawned : Bool) : FromRenderer → Browser
  | .title t => b.setTab id {tab with
      title := t
      history := tab.history.modify tab.historyIndex fun e => {e with title := t}}
  | .urlChanged u => b.setTab id {tab with
      url := u
      history := tab.history.modify tab.historyIndex fun e => {e with url := u}}
  | .openUrl url method body contentType inNewTab replace =>
    if inNewTab then b.newTab url spawned else b.openUrl id url method body contentType replace
  | .historyGo delta => b.go id delta
  | .historyPush url replace =>
    match tab.current with
    | some cur =>
      let entry := ⟨url,cur.title,cur.docSeq,if replace then cur.docIndex else cur.docIndex + 1⟩
      b.setTab id {tab.place entry replace with url := url}
    | none => b.setTab id {tab with url := url}

def processEvent (b : Browser) (id : TabId) (epoch : Nat) (msg : Option FromRenderer)
    (spawned : Bool) : Browser :=
  match b.tabs id with
  | none => b
  | some tab =>
    if tab.epoch ≠ epoch then b
    else match msg with
      | some m => b.receive id tab spawned m
      | none => b.setTab id {tab with crashed := true, loading := false}

inductive Input where
  | newTab (url : String) (spawned : Bool)
  | respawnTab (id : TabId) (html : Option String) (spawned : Bool)
  | closeTab (id : TabId)
  | navigate (id : TabId) (url : String)
  | go (id : TabId) (delta : Int)
  | reload (id : TabId)
  | stop (id : TabId)
  | renderer (id : TabId) (epoch : Nat) (msg : Option FromRenderer) (spawned : Bool)
deriving DecidableEq

def step (b : Browser) : Input → Browser
  | .newTab url spawned => b.newTab url spawned
  | .respawnTab id html spawned => b.respawnTab id html spawned
  | .closeTab id => b.closeTab id
  | .navigate id url => b.navigate id url
  | .go id delta => b.go id delta
  | .reload id => b.reload id
  | .stop id => b.stop id
  | .renderer id epoch msg spawned => b.processEvent id epoch msg spawned

end Browser
end Sharko.Session
