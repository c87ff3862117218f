import Sharko.Session.History

/-! Navigation inside a renderer process (`crates/engine/src/renderer.rs`): which
commands of the browser load a document, which stay inside the current one, and
what the renderer reports about it. Of the page only its URL and the title it
reported last are kept. The `document` fields are not in the code: they say for
which of the browser's documents a navigation was asked. -/

namespace Sharko.Engine.Navigation
open Library Session

structure Url where
  asStr : String
  /-- The serialization after `set_fragment(None)`, which is what `==` compares. -/
  base : String
  fragment : Option String
deriving DecidableEq

/-- The `url` crate. -/
structure Crate where
  parse : String → Option Url

def EndsClean (text : String) : Prop :=
  Text.contains text '#' = true ∨ ∀ c, text.toList.getLast? = some c → 0x20 < c.toNat

instance (text : String) : Decidable (EndsClean text) :=
  match last : text.toList.getLast? with
  | none => isTrue (.inr (by simp [last]))
  | some c => decidable_of_iff (Text.contains text '#' = true ∨ 0x20 < c.toNat) (by simp [EndsClean,last])

structure Crate.Laws (crate : Crate) : Prop where
  fragment : ∀ text url, crate.parse text = some url →
    (url.fragment.isSome ↔ Text.contains text '#' = true)
  base : ∀ left right, EndsClean left → EndsClean right → Text.before left '#' = Text.before right '#' →
    (crate.parse left).map Url.base = (crate.parse right).map Url.base

structure Page where
  url : String
  lastTitle : String
  document : Option Nat
deriving DecidableEq

structure Renderer where
  page : Option Page
  generation : Nat
  /-- The generation of the document fetch whose response is awaited. -/
  navRequest : Option Nat
  pendingNavUrl : Option String
  pendingDocument : Option Nat
deriving DecidableEq

def Renderer.new : Renderer := ⟨none,0,none,none,none⟩

structure Response where
  url : String
  error : Option String
deriving DecidableEq

def Renderer.loadHtml (r : Renderer) (url title : String) (document : Option Nat) :
    Renderer × List FromRenderer :=
  ({r with page := some ⟨url,title,document⟩},[.urlChanged url,.title title])

/-- Same-document fragment navigation: both URLs are valid, equal up to the fragment,
the new one has a fragment and is not the current one. -/
def Crate.fragmentOnly (crate : Crate) (page : Option Page) (url method : String) : Bool :=
  Text.eqIgnoreAsciiCase method "GET" &&
    match page,crate.parse url with
    | some page,some new =>
      match crate.parse page.url with
      | some cur => cur.base == new.base && new.fragment.isSome && cur.asStr != new.asStr
      | none => false
    | _,_ => false

def Crate.navigate (crate : Crate) (r : Renderer) (url method : String) (document : Option Nat) :
    Renderer × List FromRenderer :=
  match r.page,crate.fragmentOnly r.page url method with
  | some page,true =>
    ({r with page := some {page with url := url, document := document}},[.urlChanged url])
  | _,_ =>
    let started := {r with navRequest := none, generation := r.generation + 1}
    if url = "about:blank" ∨ url.isEmpty then started.loadHtml "about:blank" "" document
    else
      ({started with
        navRequest := some started.generation
        pendingNavUrl := some url
        pendingDocument := document},[])

def Renderer.respond (r : Renderer) (response : Response) (title : String) : Renderer × List FromRenderer :=
  if r.navRequest = some r.generation then
    let requested := r.pendingNavUrl.getD ""
    let url := if response.error.isSome ∨ response.url.isEmpty then requested else response.url
    {r with navRequest := none, pendingNavUrl := none}.loadHtml url title r.pendingDocument
  else (r,[])

/-- None: the loop ends. `document` is the browser's for the command, `title` that of the
document the command may parse. -/
def Crate.handleBrowser (crate : Crate) (r : Renderer) (document : Option Nat) (title : String) :
    ToRenderer → Option (Renderer × List FromRenderer)
  | .navigate url method _ _ => some (crate.navigate r url method document)
  | .loadHtml url _ => some ({r with generation := r.generation + 1}.loadHtml url title document)
  | .stop =>
    if r.navRequest.isSome then some ({r with navRequest := none, generation := r.generation + 1},[])
    else some (r,[])
  | .reload =>
    match r.page with
    | some page => some (crate.navigate r page.url "GET" page.document)
    | none => some (r,[])
  | .historyTraverse url _ =>
    match r.page with
    | some page => some ({r with page := some {page with url := url}},[.urlChanged url])
    | none => some (r,[])
  | .shutdown => none

def Renderer.produceFrame (r : Renderer) (title : String) : Renderer × List FromRenderer :=
  match r.page with
  | some page =>
    if title = page.lastTitle then (r,[])
    else ({r with page := some {page with lastTitle := title}},[.title title])
  | none => (r,[])

end Sharko.Engine.Navigation
