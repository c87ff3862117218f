import Sharko.Engine.Navigation
import Sharko.Library.Runs

/-! The browser process together with the renderer processes of its tabs. The
commands of a tab wait for its renderer in the order they were sent; so do the
messages of a renderer, tagged with its tab and epoch, for the browser. Every
waiting command and message carries the document it belongs to: the one the tab
showed when the command was sent, the one the page was asked for when it sent the
message. The code has no such tag. -/

namespace Sharko.Session
open Engine.Navigation

abbrev ProcessId := Nat

structure Process where
  tab : TabId
  epoch : Nat
  running : Bool
  renderer : Renderer
  inbox : List (ToRenderer × Option Nat)
  outbox : List (FromRenderer × Option Nat)
deriving DecidableEq

namespace Process

inductive Action where
  | handle (title : String)
  | respond (response : Response) (title : String)
  | frame (title : String)
  | script (msg : FromRenderer)
  | crash
deriving DecidableEq

def sends (process : Process) (after : Renderer × List FromRenderer) : Process :=
  {process with
    renderer := after.1
    outbox := process.outbox ++ after.2.map fun msg => (msg,after.1.page.bind Page.document)}

/-- None: the process cannot do this now. -/
def act (crate : Crate) (process : Process) : Action → Option Process
  | .handle title =>
    match process.inbox with
    | [] => none
    | (msg,document) :: rest =>
      match crate.handleBrowser process.renderer document title msg with
      | some after => some ({process with inbox := rest}.sends after)
      | none => some {process with inbox := rest, running := false}
  | .respond response title =>
    if process.renderer.navRequest.isSome then
      some (process.sends (process.renderer.respond response title))
    else none
  | .frame title => some (process.sends (process.renderer.produceFrame title))
  | .script msg =>
    match process.renderer.page,msg with
    | none,_ => none
    -- Titles are reported with the frames only.
    | some _,.title _ => none
    | some _,msg => some (process.sends (process.renderer,[msg]))
  | .crash => some {process with running := false}

end Process

structure System where
  browser : Browser
  serving : TabId → Option ProcessId
  processes : ProcessId → Option Process
  started : ProcessId

namespace System

def new : System := ⟨Browser.new,fun _ => none,fun _ => none,0⟩

def setProcess (s : System) (p : ProcessId) (process : Option Process) : System :=
  {s with processes := Function.update s.processes p process}

def shownDocument (tab : Tab) : Option Nat := tab.current.map HistoryEntry.docSeq

def spawn (s : System) (id : TabId) (tab : Tab) (after : Browser) : System where
  browser := after
  serving := Function.update s.serving id (some s.started)
  processes := Function.update s.processes s.started
    (some ⟨id,tab.epoch,true,Renderer.new,tab.sent.map fun msg => (msg,shownDocument tab),[]⟩)
  started := s.started + 1

def post (s : System) (id : TabId) (handed : Nat) (tab : Tab) (after : Browser) : System :=
  match s.serving id with
  | some p =>
    {s with
      browser := after
      processes := Function.update s.processes p ((s.processes p).map fun process =>
        {process with
          inbox := process.inbox ++ (tab.sent.drop handed).map fun msg => (msg,shownDocument tab)})}
  | none => {s with browser := after}

/-- After a step of the browser that sends to one tab. A tab that is new or has a new epoch
has a new process. -/
def follow (s : System) (id : TabId) (after : Browser) : System :=
  match s.browser.tabs id,after.tabs id with
  | some before,some tab =>
    if before.epoch = tab.epoch then s.post id before.sent.length tab after else s.spawn id tab after
  | none,some tab => s.spawn id tab after
  | _,none => {s with browser := after}

def opensTab : Option FromRenderer → Bool
  | some (.openUrl _ _ _ _ inNewTab _) => inNewTab
  | _ => false

def recipient (b : Browser) : Browser.Input → TabId
  | .newTab _ _ => b.nextTab
  | .respawnTab id _ _ => id
  | .closeTab id => id
  | .navigate id _ => id
  | .go id _ => id
  | .reload id => id
  | .stop id => id
  | .renderer id _ msg _ => if opensTab msg then b.nextTab else id

def apply (s : System) (input : Browser.Input) : System :=
  s.follow (recipient s.browser input) (s.browser.step input)

inductive Action where
  | user (input : Browser.Input)
  | send (id : TabId) (msg : ToRenderer)
  | work (p : ProcessId) (action : Process.Action)
  | deliver (p : ProcessId) (spawned : Bool)
  | lose (p : ProcessId)
deriving DecidableEq

variable (crate : Crate)

def step (s : System) : Action → Option System
  | .user (.renderer _ _ _ _) => none
  | .user input => some (s.apply input)
  | .send id msg =>
    (s.browser.tabs id).map fun tab => s.follow id (s.browser.setTab id (tab.send msg))
  | .work p action =>
    match s.processes p with
    | none => none
    | some process =>
      if process.running then (process.act crate action).map fun next => s.setProcess p (some next)
      else none
  | .deliver p spawned =>
    match s.processes p with
    | none => none
    | some process =>
      match process.outbox with
      | [] => none
      | (msg,_) :: rest =>
        some ((s.setProcess p (some {process with outbox := rest})).apply
          (.renderer process.tab process.epoch (some msg) spawned))
  | .lose p =>
    match s.processes p with
    | none => none
    | some process =>
      if process.running = false ∧ process.outbox = [] then
        some ((s.setProcess p none).apply (.renderer process.tab process.epoch none false))
      else none

end System
end Sharko.Session
