import Mathlib.Data.List.Sort
import Sharko.Netstack.Cache.Response

/-! The caching rules (`crates/netstack/src/cache/policy.rs`): storability,
freshness, validators and the merging of a 304. Durations are nanoseconds; the date
parser of the `httpdate` crate is an argument. -/

namespace Sharko.Netstack.Cache.Policy
open Library

abbrev Headers := List (String × String)

def findHeader (headers : Headers) (name : String) : Option String :=
  (headers.find? fun h => Text.eqIgnoreAsciiCase h.1 name).map Prod.snd

def findHeaders (headers : Headers) (name : String) : List String :=
  (headers.filter fun h => Text.eqIgnoreAsciiCase h.1 name).map Prod.snd

def second : Nat := 1000000000

def deltaSecondsMax : Nat := 2147483648

def maxHeuristicFreshness : Nat := 7 * 24 * 60 * 60 * second

def permanentRedirectFreshness : Nat := 365 * 24 * 60 * 60 * second

structure CacheControl where
  noStore : Bool
  noCache : Bool
  isPrivate : Bool
  isPublic : Bool
  mustRevalidate : Bool
  immutable : Bool
  maxAge : Option Nat
  staleWhileRevalidate : Option Nat
  minFresh : Option Nat
  /-- `some none` accepts any staleness. -/
  maxStale : Option (Option Nat)
  onlyIfCached : Bool
deriving DecidableEq

def CacheControl.empty : CacheControl :=
  ⟨false,false,false,false,false,false,none,none,none,none,false⟩

def deltaSeconds (v : Option String) : Option Nat :=
  v.bind fun v =>
    let v := Text.trimMatches (Text.trim v) '"'
    if v.isEmpty || !Text.isDigits v then none else some (min (Text.decimal v) deltaSecondsMax)

def splitParts (sep : Char) : List Char → List Char → Bool → Bool → List String
  | [],part,_,_ => [Text.trim (String.ofList part.reverse)]
  | c :: rest,part,inQuotes,escaped =>
    if escaped then splitParts sep rest (c :: part) inQuotes false
    else if c = '\\' ∧ inQuotes then splitParts sep rest (c :: part) inQuotes true
    else if c = '"' then splitParts sep rest (c :: part) (!inQuotes) false
    else if c = sep ∧ !inQuotes then
      Text.trim (String.ofList part.reverse) :: splitParts sep rest [] inQuotes false
    else splitParts sep rest (c :: part) inQuotes false

def splitOutsideQuotes (s : String) (sep : Char) : List String :=
  (splitParts sep s.toList [] false false).filter (!·.isEmpty)

namespace CacheControl

def directive (cc : CacheControl) (text : String) : CacheControl :=
  let (name,arg) := match Text.splitOnce text '=' with
    | some (n,a) => (Text.trim n,some (Text.trim a))
    | none => (Text.trim text,none)
  match Text.toAsciiLowercase name with
  | "no-store" => {cc with noStore := true}
  | "no-cache" => {cc with noCache := true}
  | "private" => {cc with isPrivate := true}
  | "public" => {cc with isPublic := true}
  | "must-revalidate" => {cc with mustRevalidate := true}
  | "immutable" => {cc with immutable := true}
  | "only-if-cached" => {cc with onlyIfCached := true}
  | "max-age" => if cc.maxAge.isNone then {cc with maxAge := some ((deltaSeconds arg).getD 0)} else cc
  | "stale-while-revalidate" =>
    if cc.staleWhileRevalidate.isNone then {cc with staleWhileRevalidate := deltaSeconds arg} else cc
  | "min-fresh" => if cc.minFresh.isNone then {cc with minFresh := deltaSeconds arg} else cc
  | "max-stale" => if cc.maxStale.isNone then {cc with maxStale := some (deltaSeconds arg)} else cc
  | _ => cc

def parse (values : List String) : CacheControl :=
  (values.flatMap fun value => splitOutsideQuotes value ',').foldl directive empty

def fromHeaders (headers : Headers) : CacheControl :=
  let cc := parse (findHeaders headers "cache-control")
  if (findHeader headers "cache-control").isNone &&
      (findHeaders headers "pragma").any fun p => Text.includes (Text.toAsciiLowercase p) "no-cache" then
    {cc with noCache := true}
  else cc

end CacheControl

def isUnderstoodStatus (status : UInt16) : Bool :=
  [200,203,204,300,301,302,303,307,308,404,405,410,414,501].contains status

def isHeuristicallyCacheable (status : UInt16) : Bool :=
  [200,203,204,300,301,308,404,405,410,414,501].contains status

inductive Vary where
  | headers (names : List String)
  | any
deriving DecidableEq

def Vary.fromHeaders (headers : Headers) : Vary :=
  let names := ((findHeaders headers "vary").flatMap fun value => Text.split value ',').map Text.trim
  if names.contains "*" then .any
  else .headers (((names.filter (!·.isEmpty)).map Text.toAsciiLowercase).insertionSort (· ≤ ·)).dedup

def isStorable (status : UInt16) (request response : CacheControl) (headers : Headers) : Bool :=
  if request.noStore || response.noStore || !isUnderstoodStatus status then false
  else if Vary.fromHeaders headers = .any then false
  else response.isPublic || response.isPrivate || response.maxAge.isSome ||
    (findHeader headers "expires").isSome || isHeuristicallyCacheable status

section Dates
variable (parseHttpDate : String → Option SystemTime)

def parseDate (headers : Headers) (name : String) : Option SystemTime :=
  (findHeader headers name).bind fun v => parseHttpDate (Text.trim v)

def durationSince (a b : SystemTime) : Option Nat := if b ≤ a then some (a - b).toNat else none

def freshnessLifetime (status : UInt16) (cc : CacheControl) (headers : Headers)
    (responseTime : SystemTime) : Nat :=
  match cc.maxAge with
  | some maxAge => maxAge * second
  | none =>
    let date := (parseDate parseHttpDate headers "date").getD responseTime
    match findHeader headers "expires" with
    | some expires =>
      match parseHttpDate (Text.trim expires) with
      | some expires => (durationSince expires date).getD 0
      | none => 0
    | none =>
      if !(isHeuristicallyCacheable status || cc.isPublic) then 0
      else if status = 301 ∨ status = 308 then permanentRedirectFreshness
      else match (parseDate parseHttpDate headers "last-modified").bind (durationSince date) with
        | some since => min (since / 10) maxHeuristicFreshness
        | none => 0

def currentAge (headers : Headers) (requestTime responseTime now : SystemTime) : Nat :=
  let date := (parseDate parseHttpDate headers "date").getD responseTime
  let apparentAge := (durationSince responseTime date).getD 0
  let ageValue := (deltaSeconds (findHeader headers "age")).getD 0
  let responseDelay := (durationSince responseTime requestTime).getD 0
  let residentTime := (durationSince now responseTime).getD 0
  max apparentAge (ageValue * second + responseDelay) + residentTime

inductive Freshness where
  | fresh
  | staleWhileRevalidate
  | stale
deriving DecidableEq

def evaluateStale (cc request : CacheControl) (staleness : Nat) : Freshness :=
  let accepted := match request.maxStale with
    | some none => true
    | some (some maxStale) => decide (staleness ≤ maxStale * second)
    | none => false
  let inWindow := cc.staleWhileRevalidate.any fun window => decide (staleness < window * second)
  if cc.mustRevalidate then .stale
  else if accepted then .fresh
  else if inWindow then .staleWhileRevalidate
  else .stale

def evaluate (stored : StoredResponse) (request : CacheControl) (now : SystemTime) : Freshness :=
  let cc := CacheControl.fromHeaders stored.headers
  let lifetime := freshnessLifetime parseHttpDate stored.status cc stored.headers stored.responseTime
  let age := currentAge parseHttpDate stored.headers stored.requestTime stored.responseTime now
  if cc.noCache || request.noCache then .stale
  else if request.maxAge.any fun limit => decide (limit * second < age) then .stale
  else if request.minFresh.any fun fresh => decide (lifetime - age < fresh * second) then .stale
  else if age < lifetime then .fresh
  else evaluateStale cc request (age - lifetime)

end Dates

def validators (headers : Headers) : List (String × String) :=
  ((findHeader headers "etag").map fun etag => ("if-none-match",etag)).toList ++
    ((findHeader headers "last-modified").map fun date => ("if-modified-since",date)).toList

def isExcludedFromUpdate (name : String) : Bool :=
  ["content-length","content-encoding","content-range","transfer-encoding","connection","keep-alive",
    "proxy-connection","te","trailer","upgrade","set-cookie","set-cookie2"].contains name

def mergeFrom (fresh : Headers) (replaced : List String) (stored : Headers) : Headers → Headers
  | [] => stored
  | (name,_) :: rest =>
    if isExcludedFromUpdate name || replaced.contains name then mergeFrom fresh replaced stored rest
    else
      let kept := stored.filter fun h => !Text.eqIgnoreAsciiCase h.1 name
      let added := fresh.filter fun h => Text.eqIgnoreAsciiCase h.1 name
      mergeFrom fresh (replaced ++ [name]) (kept ++ added) rest

def mergeNotModified (stored fresh : Headers) : Headers := mergeFrom fresh [] stored fresh

def storableHeaders (headers : Headers) : Headers :=
  headers.filter fun h => !(["connection","keep-alive","proxy-connection","te","trailer",
    "transfer-encoding","upgrade","set-cookie","set-cookie2"].contains (Text.toAsciiLowercase h.1))

example : (CacheControl.parse ["public, max-age=60, Must-Revalidate","no-cache=\"set-cookie\""]).maxAge =
    some 60 := by
  rfl

end Sharko.Netstack.Cache.Policy
