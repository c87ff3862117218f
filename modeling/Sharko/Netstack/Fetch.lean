import Sharko.Netstack.Cache.System
import Sharko.Netstack.Cache.Policy

/-! The fetch pipeline over the cache (`crates/netstack/src/fetch.rs`): the lookup,
the network exchange and the store of a request are separate steps of its task.
What the network answers, when, and which task moves next is up to the action; the
functions of the `httpdate` and `url` crates are arguments. A task runs at most one
critical section of the cache in a step. -/

namespace Sharko.Netstack.Fetch
open Library Cache Policy

structure Crates where
  digest128 : List UInt8 → Key
  parseHttpDate : String → Option SystemTime
  join : Url → String → Option Url
  sameOrigin : Url → Url → Bool

inductive Method where
  | get | head | options | trace | post | put | delete | patch
  | other (name : String)
deriving DecidableEq

inductive CacheMode where
  | default | noStore | reload | noCache | forceCache | onlyIfCached
deriving DecidableEq

structure Hop where
  url : Url
  method : Method
  credentials : Bool
  cacheMode : CacheMode
deriving DecidableEq

structure NetResult where
  status : UInt16
  version : String
  headers : HeaderMap
  body : List UInt8
deriving DecidableEq

def isSafe : Method → Bool
  | .get | .head | .options | .trace => true
  | _ => false

def containsKey (headers : HeaderMap) (name : String) : Bool := headers.any fun h => h.1 == name

def insertHeader (headers : HeaderMap) (name value : String) : HeaderMap :=
  (headers.filter fun h => h.1 != name) ++ [(name,value)]

def isHeaderValue (value : String) : Bool :=
  value.toList.all fun c => (32 ≤ c.toNat && c.toNat < 127) || c == '\t'

def hasConditionalHeaders (headers : HeaderMap) : Bool :=
  ["if-modified-since","if-none-match","if-unmodified-since","if-match","if-range"].any
    (containsKey headers)

def headersToVec (headers : HeaderMap) : Headers :=
  headers.filter fun h => !(Text.eqIgnoreAsciiCase h.1 "set-cookie" ||
    Text.eqIgnoreAsciiCase h.1 "set-cookie2")

def requestControl (headers : HeaderMap) : CacheControl :=
  let cc := CacheControl.parse (getAll headers "cache-control")
  if !containsKey headers "cache-control" && (getAll headers "pragma").any fun v =>
      Text.includes (Text.toAsciiLowercase v) "no-cache" then {cc with noCache := true}
  else cc

def effectiveMode (mode : CacheMode) (headers : HeaderMap) (cc : CacheControl) : CacheMode :=
  let mode := if mode = .default ∧ (hasConditionalHeaders headers || cc.noStore) then .noStore else mode
  if containsKey headers "range" then .noStore else mode

def finalHeaders (mode : CacheMode) (headers : HeaderMap) : HeaderMap :=
  match mode with
  | .noCache =>
    if containsKey headers "cache-control" then headers
    else insertHeader headers "cache-control" "max-age=0"
  | .noStore | .reload =>
    let headers :=
      if containsKey headers "pragma" then headers else insertHeader headers "pragma" "no-cache"
    if containsKey headers "cache-control" then headers
    else insertHeader headers "cache-control" "no-cache"
  | _ => headers

def networkHeaders (headers : HeaderMap) (revalidating : Option StoredResponse) : HeaderMap :=
  ((revalidating.map fun stored => validators stored.headers).getD []).foldl (fun headers h =>
    if isHeaderValue h.2 then insertHeader headers h.1 h.2 else headers) headers

def maybeStore (hop : Hop) (headers : HeaderMap) (cc : CacheControl) (net : NetResult)
    (requestTime responseTime : SystemTime) : Option Action :=
  let responseHeaders := headersToVec net.headers
  if isStorable net.status cc (CacheControl.fromHeaders responseHeaders) responseHeaders then
    match Vary.fromHeaders responseHeaders with
    | .headers vary => some (.store hop.url hop.credentials headers vary
        ⟨"",net.status,net.version,storableHeaders responseHeaders,[],requestTime,responseTime,net.body⟩)
    | .any => none
  else none

def revalidated (stored : StoredResponse) (notModified : HeaderMap)
    (requestTime responseTime : SystemTime) : StoredResponse :=
  ⟨stored.url,stored.status,stored.httpVersion,
    mergeNotModified stored.headers (headersToVec notModified),[],requestTime,responseTime,stored.body⟩

def storeRevalidated (hop : Hop) (headers : HeaderMap) (stored : StoredResponse)
    (notModified : HeaderMap) (requestTime responseTime : SystemTime) : Action :=
  let updated := revalidated stored notModified requestTime responseTime
  match Vary.fromHeaders updated.headers,(CacheControl.fromHeaders updated.headers).noStore with
  | .headers vary,false => .store hop.url hop.credentials headers vary updated
  | _,_ => .invalidate hop.url

def invalidatedUrls (crates : Crates) (url : Url) (headers : HeaderMap) : List Url :=
  url :: ["location","content-location"].filterMap fun name =>
    ((findHeader (headersToVec headers) name).bind fun value => crates.join url (Text.trim value)).filter
      fun target => crates.sameOrigin target url

inductive Stage where
  | looking (lookup : Nat)
  | ready (revalidating : Option (Nat × StoredResponse))
  | sending (revalidating : Option (Nat × StoredResponse)) (headers : HeaderMap)
      (requestTime : SystemTime) (sentAt : Nat)
  | received (revalidating : Option (Nat × StoredResponse)) (net : NetResult)
      (requestTime responseTime : SystemTime) (sentAt : Nat) (invalidations : List Url)
deriving DecidableEq

structure Task where
  id : Nat
  hop : Hop
  headers : HeaderMap
  control : CacheControl
  mode : CacheMode
  background : Bool
  stage : Stage
deriving DecidableEq

def Task.cacheable (t : Task) : Bool := decide (t.hop.method = .get ∧ t.mode ≠ .noStore)

/-- Where a stored response comes from. -/
inductive Source where
  | received (net : NetResult)
  | revalidated (lookup : Nat) (notModified : HeaderMap)
deriving DecidableEq

/-- A store a task made: the position of its event and that of the log when the
request was sent. -/
structure Filing where
  position : Nat
  sentAt : Nat
  source : Source
deriving DecidableEq

/-- A response served from the cache, as its lookup was answered, with the lookup and
the length of the log then; a 304 updates its headers. -/
structure Serving where
  lookup : Nat
  servedAt : Nat
  url : Url
  response : StoredResponse
deriving DecidableEq

structure NetworkCore where
  cache : System
  tasks : List Task
  revalidating : List Key
  nextTask : Nat
  filed : List Filing
  served : List Serving
  unsafeAt : List Nat

inductive Move where
  /-- The cache works on its own: reads, resumed lookups, the channel and the writer. -/
  | cache (a : Action)
  | fetch (hop : Hop) (headers : HeaderMap)
  | decide (id : Nat) (now : SystemTime)
  | send (id : Nat) (now : SystemTime)
  | receive (id : Nat) (result : Option NetResult) (now : SystemTime)
  | advance (id : Nat)

def Action.internal : Action → Bool
  | .lookup _ _ _ | .store _ _ _ _ _ | .invalidate _ => false
  | _ => true

namespace NetworkCore

def task (c : NetworkCore) (id : Nat) : Option Task := c.tasks.find? fun t => t.id == id

def setStage (c : NetworkCore) (t : Task) (stage : Stage) : NetworkCore :=
  {c with tasks := c.tasks.map fun t' => if t'.id = t.id then {t with stage := stage} else t'}

def finish (crates : Crates) (c : NetworkCore) (t : Task) : NetworkCore :=
  {c with
    tasks := c.tasks.filter fun t' => t'.id != t.id
    revalidating :=
      if t.background then c.revalidating.erase (primaryKey crates.digest128 t.hop.url t.hop.credentials)
      else c.revalidating}

def spawn (c : NetworkCore) (hop : Hop) (headers : HeaderMap) (control : CacheControl)
    (mode : CacheMode) (background : Bool) (stage : Stage) : NetworkCore :=
  {c with
    tasks := c.tasks ++ [⟨c.nextTask,hop,headers,control,mode,background,stage⟩]
    nextTask := c.nextTask + 1}

def answerOf (log : List Event) (lookup : Nat) : Option (Option StoredResponse) :=
  log.findSome? fun event => match event with
    | .answered id answer => if id = lookup then some answer else none
    | _ => none

def proceed (crates : Crates) (c : NetworkCore) (t : Task)
    (revalidating : Option (Nat × StoredResponse)) : NetworkCore :=
  if t.mode = .onlyIfCached then c.finish crates t else c.setStage t (.ready revalidating)

def serve (crates : Crates) (c : NetworkCore) (t : Task) (lookup : Nat) (stored : StoredResponse) :
    NetworkCore :=
  {c.finish crates t with
    served := c.served ++ [⟨lookup,c.cache.log.length,t.hop.url,stored⟩]}

def conclude (crates : Crates) (c : NetworkCore) (t : Task) : NetworkCore :=
  match t.stage with
  | .received (some (lookup,stored)) net _ _ _ _ =>
    if net.status = 304 ∧ !t.background then c.serve crates t lookup stored else c.finish crates t
  | _ => c.finish crates t

def revalidateInBackground (crates : Crates) (c : NetworkCore) (t : Task) (lookup : Nat)
    (stored : StoredResponse) : NetworkCore :=
  let key := primaryKey crates.digest128 t.hop.url t.hop.credentials
  if c.revalidating.contains key then c
  else {c with revalidating := c.revalidating ++ [key]}.spawn t.hop t.headers CacheControl.empty t.mode
    true (.ready (some (lookup,stored)))

def decideStored (crates : Crates) (c : NetworkCore) (t : Task) (lookup : Nat) (stored : StoredResponse)
    (now : SystemTime) : NetworkCore :=
  let fetchIt := c.proceed crates t
    (if (validators stored.headers).isEmpty then none else some (lookup,stored))
  match t.mode with
  | .forceCache | .onlyIfCached => c.serve crates t lookup stored
  | .noCache => fetchIt
  | _ =>
    match evaluate crates.parseHttpDate stored t.control now with
    | .fresh => c.serve crates t lookup stored
    | .staleWhileRevalidate => (c.revalidateInBackground crates t lookup stored).serve crates t lookup stored
    | .stale => fetchIt

def hasNoBody (method : Method) (status : UInt16) : Bool :=
  decide (method = .head) || status == 204 || status == 304 || decide (100 ≤ status ∧ status < 200)

def receive (crates : Crates) (c : NetworkCore) (t : Task) (revalidating : Option (Nat × StoredResponse))
    (requestTime : SystemTime) (sentAt : Nat) (net : NetResult) (now : SystemTime) : NetworkCore :=
  let net := if hasNoBody t.hop.method net.status then {net with body := []} else net
  let notModified := revalidating.isSome && net.status == 304
  let invalidations :=
    if !notModified && !t.background && !isSafe t.hop.method && decide (200 ≤ net.status ∧ net.status < 400)
    then invalidatedUrls crates t.hop.url net.headers else []
  c.setStage t (.received revalidating net requestTime now sentAt invalidations)

end NetworkCore

def Task.filing (t : Task) : Option (Action × Source) :=
  match t.stage with
  | .received revalidating net requestTime responseTime _ [] =>
    let fresh := if t.background || (t.cacheable && net.status != 304) then
        (maybeStore t.hop t.headers t.control net requestTime responseTime).map fun a => (a,.received net)
      else none
    match revalidating with
    | some (lookup,stored) =>
      if net.status = 304 then
        some (storeRevalidated t.hop t.headers stored net.headers requestTime responseTime,
          .revalidated lookup net.headers)
      else fresh
    | none => fresh
  | _ => none

namespace NetworkCore
variable (crates : Crates)

def cacheAction (c : NetworkCore) : Move → Option Action
  | .cache a => some a
  | .fetch hop headers =>
    let mode := effectiveMode hop.cacheMode headers (requestControl headers)
    if hop.method = .get ∧ mode ≠ .noStore ∧ mode ≠ .reload then
      some (.lookup hop.url hop.credentials (finalHeaders mode headers))
    else none
  | .advance id =>
    (c.task id).bind fun t => match t.stage with
      | .received _ _ _ _ _ (url :: _) => some (.invalidate url)
      | _ => t.filing.map Prod.fst
  | _ => none

def book (c : NetworkCore) (log : List Event) : Move → Option NetworkCore
  | .cache a => if Action.internal a then some c else none
  | .fetch hop headers =>
    let control := requestControl headers
    let mode := effectiveMode hop.cacheMode headers control
    let headers := finalHeaders mode headers
    if hop.method = .get ∧ mode ≠ .noStore ∧ mode ≠ .reload then
      some (c.spawn hop headers control mode false (.looking log.length))
    else if mode = .onlyIfCached then some c
    else some (c.spawn hop headers control mode false (.ready none))
  | .decide id now =>
    (c.task id).bind fun t => match t.stage with
      | .looking lookup => (answerOf log lookup).map fun answer => match answer with
        | some stored => c.decideStored crates t lookup stored now
        | none => c.proceed crates t none
      | _ => none
  | .send id now =>
    (c.task id).bind fun t => match t.stage with
      | .ready revalidating => some (c.setStage t (.sending revalidating
          (networkHeaders t.headers (revalidating.map Prod.snd)) now log.length))
      | _ => none
  | .receive id result now =>
    (c.task id).bind fun t => match t.stage with
      | .sending revalidating _ requestTime sentAt => some (match result with
        | some net => c.receive crates t revalidating requestTime sentAt net now
        | none => c.finish crates t)
      | _ => none
  | .advance id =>
    (c.task id).bind fun t => match t.stage with
      | .received revalidating net requestTime responseTime sentAt (_ :: rest) =>
        some {c.setStage t (.received revalidating net requestTime responseTime sentAt rest) with
          unsafeAt := c.unsafeAt ++ [log.length]}
      | .received _ _ _ _ sentAt [] =>
        let filed := match t.filing with
          | some (.store _ _ _ _ _,source) => c.filed ++ [⟨log.length,sentAt,source⟩]
          | _ => c.filed
        some (conclude crates {c with filed := filed} t)
      | _ => none

def step (c : NetworkCore) (move : Move) : Option NetworkCore :=
  match c.cacheAction move with
  | some a => (c.cache.step crates.digest128 a).bind fun cache =>
    book crates {c with cache := cache} c.cache.log move
  | none => book crates c c.cache.log move

def new (cache : System) : NetworkCore := ⟨cache,[],[],0,[],[],[]⟩

end NetworkCore

end Sharko.Netstack.Fetch
