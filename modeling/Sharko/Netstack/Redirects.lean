import Sharko.Netstack.Headers

/-! Requests of scripts and the hops of a fetch (`crates/script/src/natives/misc.rs` and
`crates/netstack/src/fetch.rs`). What the cookie jar, the cache and the network answer to a
hop is up to the world. -/

namespace Sharko.Netstack.Redirects

open Library Cache.Policy Headers
open Cache hiding Url
open Fetch hiding Crates Hop

inductive RequestCredentials where
  | omit | sameOrigin | include_
deriving DecidableEq

structure NetRequest where
  url : Url
  method : String
  headers : List (String × String)
  body : Option (List UInt8)
  destination : Destination
  referrer : Option Url
  credentials : Bool
  followRedirects : Bool
  cacheMode : CacheMode
deriving DecidableEq

/-- What a script asks for, once its URL is resolved. -/
structure Ask where
  method : String
  url : Url
  headers : List (String × String)
  body : Option (List UInt8)
  mode : String
  credentials : RequestCredentials
  cache : String
  redirect : String
  dest : String

section
variable (crates : Crates) (config : NetConfig)

def sendCredentials (document : Url) (mode : RequestCredentials) (url : Url) : Bool :=
  match mode with
  | .omit => false
  | .include_ => true
  | .sameOrigin => sameOrigin crates url document

def destinationOf (mode dest : String) : Destination :=
  if mode = "navigate" then .document
  else if dest = "script" then .script
  else if dest = "style" then .style
  else if dest = "image" then .image
  else if dest = "font" then .font
  else if dest = "video" ∨ dest = "audio" then .media
  else if dest = "iframe" ∨ dest = "frame" then .iframe
  else .fetch

def cacheModeOf (cache : String) : CacheMode :=
  if cache = "no-store" then .noStore
  else if cache = "reload" then .reload
  else if cache = "no-cache" then .noCache
  else if cache = "force-cache" then .forceCache
  else if cache = "only-if-cached" then .onlyIfCached
  else .default

def nFetch (document : Url) (ask : Ask) : NetRequest :=
  let destination := destinationOf ask.mode ask.dest
  { url := ask.url
    method := ask.method
    headers := if ["cors","no-cors","same-origin"].contains ask.mode ∧ ask.mode ≠ modeFor destination
      then ask.headers ++ [("sec-fetch-mode",ask.mode)] else ask.headers
    body := ask.body
    destination
    referrer := some document
    credentials := sendCredentials crates document ask.credentials ask.url
    followRedirects := ask.redirect = "" ∨ ask.redirect = "follow"
    cacheMode := cacheModeOf ask.cache }

def nFetchSync (document : Url) (ask : Ask) : NetRequest :=
  { url := ask.url
    method := ask.method
    headers := ask.headers
    body := ask.body
    destination := .fetch
    referrer := some document
    credentials := sendCredentials crates document ask.credentials ask.url
    followRedirects := true
    cacheMode := .default }

structure Hop where
  url : Url
  method : Method
  headers : HeaderMap
  body : Option (List UInt8)
  destination : Destination
  referrer : Option Url
  credentials : Bool
  cacheMode : CacheMode
deriving DecidableEq

namespace Hop

def filed (hop : Hop) : Fetch.Hop :=
  ⟨⟨crates.target hop.url,hop.url.fragment⟩,hop.method,hop.credentials,hop.cacheMode⟩

def redirect (hop : Hop) (status : UInt16) (next : Url) : Hop :=
  let next := if next.fragment = none ∧ hop.url.fragment.isSome then { next with fragment := hop.url.fragment }
    else next
  let toGet := ((status = 301 ∨ status = 302) ∧ hop.method = .post) ∨
    (status = 303 ∧ hop.method ≠ .get ∧ hop.method ≠ .head)
  let bodiless := if toGet then
      { hop with
        method := .get
        body := none
        headers := hop.headers.filter fun h =>
          !(["content-type","content-encoding","content-language","content-location"].contains h.1) }
    else hop
  let headers := if sameOrigin crates hop.url next then bodiless.headers
    else bodiless.headers.filter fun h => h.1 != "authorization"
  { bodiless with headers,url := next }

end Hop

def isRedirect (status : UInt16) : Bool := [301,302,303,307,308].contains status

def methodOf (name : String) : Option Method :=
  [("GET",Method.get),("HEAD",.head),("OPTIONS",.options),("POST",.post),("PUT",.put),("DELETE",.delete),
    ("PATCH",.patch)].lookup name

def parseMethod (raw : String) : Option Method :=
  let raw := Text.trim raw
  let upper := String.ofList (raw.toList.map Char.toUpper)
  let name := if ["DELETE","GET","HEAD","OPTIONS","POST","PUT"].contains upper then upper else raw
  if raw = "" then some .get
  else if ["CONNECT","TRACE","TRACK"].contains upper then none
  else (methodOf name).orElse fun _ => if name.toList.all isTokenChar then some (.other name) else none

/-- What the world answers to one hop. -/
structure World where
  cookies : Url → Option String
  stored : Option StoredResponse
  now : SystemTime
  requestTime : SystemTime
  responseTime : SystemTime
  net : Option NetResult
  background : Option (Option NetResult)

structure Visit where
  hop : Hop
  world : World
  headers : HeaderMap
  accesses : List Action
  sent : List HeaderMap
  response : Option (UInt16 × List (String × String))

def requestHeaders (hop : Hop) (world : World) : HeaderMap :=
  let headers := applyDefaults crates config hop.headers hop.url hop.method hop.destination hop.referrer
  if hop.credentials then
    match world.cookies hop.url with
    | some cookie => if isHeaderValue cookie then insertCookie headers cookie else headers
    | none => headers
  else headers

def useStored (mode : CacheMode) (stored : StoredResponse) (control : CacheControl) (now : SystemTime) :
    Bool × Bool :=
  match mode with
  | .forceCache | .onlyIfCached => (true,false)
  | .noCache => (false,false)
  | _ =>
    match evaluate crates.parseHttpDate stored control now with
    | .fresh => (true,false)
    | .staleWhileRevalidate => (true,true)
    | .stale => (false,false)

def isCacheable (hop : Hop) (mode : CacheMode) : Bool := hop.method = .get ∧ mode ≠ .noStore

def revalidateInBackground (hop : Hop) (headers : HeaderMap) (stored : StoredResponse) (world : World) :
    List Action × List HeaderMap :=
  match world.background with
  | none => ([],[])
  | some none => ([],[networkHeaders headers (some stored)])
  | some (some net) =>
    (if net.status = 304 then
        [storeRevalidated (hop.filed crates) headers stored net.headers world.requestTime world.responseTime]
      else (maybeStore (hop.filed crates) headers CacheControl.empty net world.requestTime
        world.responseTime).toList,
      [networkHeaders headers (some stored)])

def invalidateAfterUnsafe (url : Url) (headers : HeaderMap) : List Action :=
  let invalidated := url :: ["location","content-location"].filterMap fun name =>
    ((findHeader (headersToVec headers) name).bind fun value => crates.join url (Text.trim value)).filter
      fun target => sameOrigin crates target url
  invalidated.map fun target => .invalidate ⟨crates.target target,target.fragment⟩

def fileAnswer (hop : Hop) (headers : HeaderMap) (control : CacheControl) (mode : CacheMode)
    (revalidating : Option StoredResponse) (net : NetResult) (world : World) :
    List Action × (UInt16 × List (String × String)) :=
  match revalidating.filter fun _ => net.status = 304 with
  | some stored =>
    ([storeRevalidated (hop.filed crates) headers stored net.headers world.requestTime world.responseTime],
      (stored.status,(revalidated stored net.headers world.requestTime world.responseTime).headers))
  | none =>
    let invalidations := if !isSafe hop.method && decide (200 ≤ net.status ∧ net.status < 400)
      then invalidateAfterUnsafe crates hop.url net.headers else []
    let filed := if isCacheable hop mode ∧ net.status ≠ 304 then
        (maybeStore (hop.filed crates) headers control net world.requestTime world.responseTime).toList
      else []
    (invalidations ++ filed,(net.status,headersToVec net.headers))

def fetchHop (hop : Hop) (world : World) : Visit :=
  let plain := requestHeaders crates config hop world
  let control := requestControl plain
  let mode := effectiveMode hop.cacheMode plain control
  let headers := finalHeaders mode plain
  let looks := isCacheable hop mode ∧ mode ≠ .reload
  let lookup : List Action := if looks then [.lookup (hop.filed crates).url hop.credentials headers] else []
  let stored := if looks then world.stored else none
  match stored.filter fun stored => (useStored crates mode stored control world.now).1 with
  | some stored =>
    let later := if (useStored crates mode stored control world.now).2
      then revalidateInBackground crates hop headers stored world else ([],[])
    ⟨hop,world,headers,lookup ++ later.1,later.2,some (stored.status,stored.headers)⟩
  | none =>
    if mode = .onlyIfCached then ⟨hop,world,headers,lookup,[],none⟩
    else
      let revalidating := stored.filter fun stored => !(validators stored.headers).isEmpty
      let sent := [networkHeaders headers revalidating]
      match world.net with
      | none => ⟨hop,world,headers,lookup,sent,none⟩
      | some net =>
        let answer := fileAnswer crates hop headers control mode revalidating net world
        ⟨hop,world,headers,lookup ++ answer.1,sent,some answer.2⟩

def maxRedirects : Nat := 20

def nextHop (follow : Bool) (visit : Visit) : Option Hop := do
  let (status,headers) ← visit.response
  if !follow || !isRedirect status then none
  else do
    let location ← findHeader headers "location"
    let next ← crates.join visit.hop.url (Text.trim location)
    if ["http","https"].contains next.scheme then some (visit.hop.redirect crates status next) else none

def followHops (follow : Bool) (hop : Hop) (redirects : Nat) : List World → List Visit
  | [] => []
  | world :: rest =>
    let visit := fetchHop crates config hop world
    match nextHop crates follow visit with
    | none => [visit]
    | some next =>
      if redirects + 1 > maxRedirects then [visit] else visit :: followHops follow next (redirects + 1) rest

def referrerOf (request : NetRequest) (supplied : Option String) : Option Url :=
  match request.referrer with
  | some referrer => some referrer
  | none => (supplied.filter fun r => r ≠ "" ∧ r ≠ "no-referrer" ∧ r ≠ "client").bind crates.parse

def httpFetch (request : NetRequest) (worlds : List World) : List Visit :=
  match parseMethod request.method with
  | none => []
  | some method =>
    let (headers,supplied) := sanitize request.headers
    followHops crates config request.followRedirects
      { url := request.url
        method
        headers
        body := request.body
        destination := request.destination
        referrer := referrerOf crates request supplied
        credentials := request.credentials
        cacheMode := request.cacheMode } 0 worlds

def fetch (request : NetRequest) (worlds : List World) : List Visit :=
  if ["http","https"].contains request.url.scheme then httpFetch crates config request worlds else []

end

end Sharko.Netstack.Redirects
