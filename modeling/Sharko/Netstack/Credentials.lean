import Sharko.Netstack.Redirects

/-! On which hops of a redirected fetch the cookies of the user are used: the credentials mode
is one flag from the first URL on. -/

namespace Sharko.Netstack.Redirects

open Library Cache.Policy Headers
open Cache hiding Url
open Fetch hiding Crates Hop

section
variable (crates : Crates) (config : NetConfig)

def Allowed (document : Url) (mode : RequestCredentials) (chain : List Url) : Prop :=
  match mode with
  | .omit => False
  | .include_ => True
  | .sameOrigin => ∀ url ∈ chain,sameOrigin crates url document = true

def Consults (hop : Hop) (world : World) : Prop :=
  let plain := requestHeaders crates config hop world
  let control := requestControl plain
  let mode := effectiveMode hop.cacheMode plain control
  isCacheable hop mode = true ∧ (mode ≠ .reload ∨ ∃ net,world.net = some net ∧ net.status ≠ 304 ∧
    (maybeStore (hop.filed crates) (finalHeaders mode plain) control net world.requestTime
      world.responseTime).isSome)

def Quiet (hop : Hop) (world : World) : Prop :=
  (∀ cookie,world.cookies hop.url = some cookie → isHeaderValue cookie = false) ∧
    ¬ Consults crates config hop world

variable {crates config}

theorem revalidateInBackground_sent {hop : Hop} {headers sent : HeaderMap} {stored : StoredResponse}
    {world : World} (listed : sent ∈ (revalidateInBackground crates hop headers stored world).2) :
    sent = networkHeaders headers (some stored) := by
  unfold revalidateInBackground at listed
  split at listed
  · cases listed
  · exact List.mem_singleton.mp listed
  · exact List.mem_singleton.mp listed

theorem fetchHop_requests (hop : Hop) (world : World) : ∃ mode, (fetchHop crates config hop world).headers =
      finalHeaders mode (requestHeaders crates config hop world) ∧
    ∀ headers ∈ (fetchHop crates config hop world).sent,∃ revalidating,
      headers = networkHeaders (finalHeaders mode (requestHeaders crates config hop world)) revalidating := by
  refine ⟨effectiveMode hop.cacheMode (requestHeaders crates config hop world)
    (requestControl (requestHeaders crates config hop world)),?_⟩
  unfold fetchHop
  dsimp only
  split
  · refine ⟨rfl,fun headers listed => ?_⟩
    dsimp only at listed
    split at listed
    · exact ⟨_,revalidateInBackground_sent listed⟩
    · cases listed
  · split
    · exact ⟨rfl,fun headers listed => by cases listed⟩
    · split
      · exact ⟨rfl,fun headers listed => ⟨_,List.mem_singleton.mp listed⟩⟩
      · exact ⟨rfl,fun headers listed => ⟨_,List.mem_singleton.mp listed⟩⟩

theorem redirect_plain {hop : Hop} (plain : Plain hop.headers) (status : UInt16) (next : Url) :
    Plain (hop.redirect crates status next).headers := by
  have kept : ∀ {keeps : String × String → Bool},Plain (hop.headers.filter keeps) :=
    fun h listed => plain h (List.mem_filter.mp listed).1
  have fewer : ∀ {headers : HeaderMap},Plain headers → Plain (headers.filter fun h => h.1 != "authorization") :=
    fun plain h listed => plain h (List.mem_filter.mp listed).1
  unfold Hop.redirect
  dsimp only
  split_ifs
  · exact kept
  · exact plain
  · exact fewer kept
  · exact fewer plain
  · exact kept
  · exact plain
  · exact fewer kept
  · exact fewer plain

theorem redirect_credentials (hop : Hop) (status : UInt16) (next : Url) :
    (hop.redirect crates status next).credentials = hop.credentials := by
  unfold Hop.redirect
  dsimp only
  split_ifs <;> rfl

theorem nextHop_from {follow : Bool} {visit : Visit} {next : Hop}
    (led : nextHop crates follow visit = some next) : ∃ status url,["http","https"].contains url.scheme = true ∧
      next = visit.hop.redirect crates status url := by
  unfold nextHop at led
  obtain ⟨⟨status,headers⟩,-,led⟩ := Option.bind_eq_some_iff.mp led
  dsimp only at led
  split at led
  · cases led
  · obtain ⟨location,-,led⟩ := Option.bind_eq_some_iff.mp led
    obtain ⟨url,-,led⟩ := Option.bind_eq_some_iff.mp led
    split at led
    next web => exact ⟨status,url,web,(Option.some.inj led).symm⟩
    next => cases led

theorem fetchHop_hop (hop : Hop) (world : World) :
    (fetchHop crates config hop world).hop = hop ∧ (fetchHop crates config hop world).world = world := by
  unfold fetchHop
  dsimp only
  split
  · exact ⟨rfl,rfl⟩
  · split
    · exact ⟨rfl,rfl⟩
    · split
      · exact ⟨rfl,rfl⟩
      · exact ⟨rfl,rfl⟩

theorem followHops_visits {follow : Bool} {hop : Hop} (plain : Plain hop.headers) (redirects : Nat)
    (worlds : List World) : ∀ visit ∈ followHops crates config follow hop redirects worlds,
      visit = fetchHop crates config visit.hop visit.world ∧ Plain visit.hop.headers ∧
        visit.hop.credentials = hop.credentials := by
  induction worlds generalizing hop redirects with
  | nil =>
    intro visit listed
    rw [followHops] at listed
    cases listed
  | cons world rest ih =>
    intro visit listed
    have here : visit = fetchHop crates config hop world → visit = fetchHop crates config visit.hop visit.world ∧
        Plain visit.hop.headers ∧ visit.hop.credentials = hop.credentials := by
      intro same
      have own : visit.hop = hop := by
        rw [same]
        exact (fetchHop_hop hop world).1
      have own' : visit.world = world := by
        rw [same]
        exact (fetchHop_hop hop world).2
      rw [own,own']
      exact ⟨same,plain,rfl⟩
    unfold followHops at listed
    dsimp only at listed
    split at listed
    · exact here (List.mem_singleton.mp listed)
    next next led =>
      split at listed
      · exact here (List.mem_singleton.mp listed)
      · rcases List.mem_cons.mp listed with same | later
        · exact here same
        · obtain ⟨status,url,-,rfl⟩ := nextHop_from led
          rw [(fetchHop_hop hop world).1] at later
          obtain ⟨own,plain',same⟩ := ih (redirect_plain plain status url) _ visit later
          exact ⟨own,plain',same.trans (redirect_credentials hop status url)⟩

theorem fetch_visits (request : NetRequest) (worlds : List World) :
    ∀ visit ∈ fetch crates config request worlds,visit = fetchHop crates config visit.hop visit.world ∧
      Plain visit.hop.headers ∧ visit.hop.credentials = request.credentials := by
  intro visit listed
  unfold fetch httpFetch at listed
  split at listed
  · split at listed
    · cases listed
    · exact followHops_visits (plain_iff.mpr (sanitize_cookie request.headers)) 0 worlds visit listed
  · cases listed

variable (crates config) in
/-- What the scripts of the document fetch, asynchronously or not. -/
def fetchOf (document : Url) (ask : Ask) (sync : Bool) (worlds : List World) : List Visit :=
  fetch crates config (if sync then nFetchSync crates document ask else nFetch crates document ask) worlds

end

namespace Sample

def home : Url := ⟨"https",some (.domain "a.test"),"/",none⟩

def abroad : Url := ⟨"https",some (.domain "b.test"),"/",none⟩

def origin (url : Url) : Option Origin :=
  match url.host with
  | some (.domain name) => some ⟨url.scheme,name,443⟩
  | _ => none

def crates : Crates where
  origin := origin
  originText := fun o => (o.map fun o => o.scheme ++ "://" ++ o.host).getD "null"
  text := fun url => (((origin url).map fun o => o.scheme ++ "://" ++ o.host).getD "") ++ url.rest
  target := fun url => (((origin url).map fun o => o.scheme ++ "://" ++ o.host).getD "") ++ url.rest
  withoutUserinfo := id
  join := fun _ text => if text = "https://b.test/" then some abroad else none
  parse := fun _ => none
  registrableDomain := some
  parseHttpDate := fun _ => none

def config : NetConfig := ⟨"*/*","*/*","","","Sharko","de"⟩

/-- `fetch("/")` with the default credentials mode. -/
def ask : Ask := ⟨"GET",home,[],none,"cors",.sameOrigin,"default","follow",""⟩

def world (net : NetResult) : World :=
  ⟨fun url => if url = abroad then some "sid=1" else none,none,0,0,0,some net,none⟩

def worlds : List World :=
  [world ⟨302,"HTTP/1.1",[("location","https://b.test/")],[]⟩,world ⟨200,"HTTP/1.1",[],[]⟩]

theorem visited : (fetchOf crates config home ask false worlds).map
    (fun visit => (visit.hop.url,containsKey visit.headers "cookie")) = [(home,false),(abroad,true)] := by
  rfl

end Sample

end Sharko.Netstack.Redirects
