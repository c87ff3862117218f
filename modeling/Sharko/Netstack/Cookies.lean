import Sharko.Library.Text

/-! The cookie jar (`crates/netstack/src/cookies.rs`). Storage, parsing and RFC 6265
matching belong to the `cookie_store` and `url` crates: they are the fields of `Crate`,
and `Crate.Laws` is what the jar relies on. The `cookie` crate's parser is an argument. -/

namespace Sharko.Netstack.Cookies
open Library

inductive Host where
  | domain (name : String)
  | ipv4 (a b c d : UInt8)
  | ipv6 (address : Nat)
deriving DecidableEq

structure Url where
  scheme : String
  host : Option Host
  path : String
deriving DecidableEq

inductive CookieDomain where
  | hostOnly (host : String)
  | suffix (domain : String)
deriving DecidableEq

def CookieDomain.text : CookieDomain → String
  | .hostOnly host => host
  | .suffix domain => domain

structure RawCookie where
  name : String
  value : String
  secure : Option Bool
  httpOnly : Option Bool
  domain : Option String
  path : Option String
  maxAge : Option Int
deriving DecidableEq

structure Cookie where
  name : String
  value : String
  secure : Option Bool
  httpOnly : Option Bool
  domain : CookieDomain
  path : String
  expires : Option Int
deriving DecidableEq

def Cookie.key (c : Cookie) : String × String × String := (c.domain.text,c.path,c.name)

inductive Source where
  | http
  | script
deriving DecidableEq

structure Crate (Store : Type) where
  hostStr : Url → Option String
  isHostName : String → Bool
  tryFromRawCookie : RawCookie → Url → Option Cookie
  domainMatches : CookieDomain → Url → Bool
  isExpired : Cookie → Bool
  getAny : Store → String → String → String → Option Cookie
  iterUnexpired : Store → List Cookie
  matching : Store → Url → List Cookie
  cookieMatches : Cookie → Url → Bool
  /-- How `insert` files a cookie: a public suffix that is the request host becomes host-only. -/
  filed : Cookie → Url → Cookie
  insert : Store → Cookie → Url → Option Store

/-- `domain` is the host itself or a parent of it. -/
def DomainMatch (host domain : String) : Prop := host = domain ∨ Text.endsWith host ("." ++ domain)

instance (host domain : String) : Decidable (DomainMatch host domain) :=
  inferInstanceAs (Decidable (_ ∨ _))

/-- RFC 6265 5.1.4: the cookie path covers the request path. -/
def PathMatch (request cookie : String) : Prop :=
  request = cookie ∨ (Text.startsWith request cookie ∧ Text.endsWith cookie "/") ∨
    Text.startsWith request (cookie ++ "/")

instance (request cookie : String) : Decidable (PathMatch request cookie) :=
  inferInstanceAs (Decidable (_ ∨ _))

structure Crate.Laws {Store : Type} (crate : Crate Store) : Prop where
  hostOnly_matches : ∀ host url,
    crate.domainMatches (.hostOnly host) url = true ↔ crate.hostStr url = some host
  suffix_matches : ∀ domain url, crate.domainMatches (.suffix domain) url = true ↔
    ∃ host, crate.hostStr url = some host ∧
      (host = domain ∨ (crate.isHostName host = true ∧ Text.endsWith host ("." ++ domain)))
  parsed : ∀ raw url cookie, crate.tryFromRawCookie raw url = some cookie →
    cookie.name = raw.name ∧ cookie.value = raw.value ∧ cookie.secure = raw.secure ∧
      cookie.httpOnly = raw.httpOnly ∧ crate.domainMatches cookie.domain url = true
  filed_same : ∀ cookie url, (crate.filed cookie url).name = cookie.name ∧
    (crate.filed cookie url).value = cookie.value ∧ (crate.filed cookie url).secure = cookie.secure ∧
    (crate.filed cookie url).httpOnly = cookie.httpOnly ∧ (crate.filed cookie url).path = cookie.path ∧
    (crate.filed cookie url).domain.text = cookie.domain.text ∧
    crate.isExpired (crate.filed cookie url) = crate.isExpired cookie
  inserted : ∀ store cookie url next, crate.insert store cookie url = some next →
    ∀ c, c ∈ crate.iterUnexpired next ↔
      (c ∈ crate.iterUnexpired store ∧ c.key ≠ cookie.key) ∨
        (crate.isExpired cookie = false ∧ c = crate.filed cookie url)

variable {Store : Type} (crate : Crate Store)

def maxNameValueBytes : Nat := 4096

def isHttp (url : Url) : Bool := url.scheme == "http" || url.scheme == "https"

def isSecure (url : Url) : Bool :=
  if url.scheme = "https" then true
  else if url.scheme = "http" then
    match url.host with
    | some (.domain d) => d == "localhost" || Text.endsWith d ".localhost"
    | some (.ipv4 a _ _ _) => a == 127
    | some (.ipv6 address) => address == 1
    | none => false
  else false

def hasForbiddenChars (s : String) : Bool :=
  s.toList.any fun c => (c.toNat < 0x20 && c != '\t') || c.toNat == 0x7f

def firstBytes : List Char → Nat → Option (List Char)
  | _, 0 => some []
  | [], _ + 1 => none
  | c :: rest, n + 1 =>
    if c.utf8Size ≤ n + 1 then (firstBytes rest (n + 1 - c.utf8Size)).map (c :: ·) else none

/-- Slicing off the first bytes panics (none) where they end inside a character. -/
def hasPrefix (name start : String) : Option Bool :=
  if start.utf8ByteSize ≤ name.utf8ByteSize then
    (firstBytes name.toList start.utf8ByteSize).map fun cs =>
      cs.map Char.toLower == start.toList.map Char.toLower
  else some false

/-- The checks `insert` makes on the raw cookie; none where it panics. -/
def acceptable (raw : RawCookie) (url : Url) : Option Bool := do
  let secureOrigin := isSecure url
  let secureAttr := raw.secure == some true
  if raw.name.isEmpty && raw.value.isEmpty then return false
  if decide (maxNameValueBytes < raw.name.utf8ByteSize + raw.value.utf8ByteSize)
      || hasForbiddenChars raw.name || hasForbiddenChars raw.value then return false
  if secureAttr && !secureOrigin then return false
  if (← hasPrefix raw.name "__Secure-") && !(secureAttr && secureOrigin) then return false
  if (← hasPrefix raw.name "__Host-") &&
      !(secureAttr && secureOrigin && raw.domain.isNone && raw.path == some "/") then return false
  return true

def overwritesHttpOnly (store : Store) (cookie : Cookie) : Bool :=
  (crate.getAny store cookie.domain.text cookie.path cookie.name).any fun old => old.httpOnly == some true

/-- Leave secure cookies alone: what an insecure origin is held to shadow. -/
def shadowsSecure (store : Store) (cookie : Cookie) (url : Url) : Bool :=
  (crate.iterUnexpired store).any fun c =>
    c.name == cookie.name && c.secure == some true && crate.domainMatches c.domain url &&
      Text.startsWith cookie.path c.path

/-- The jar after the insertion, and whether it changed (none: the code panicked). -/
def insert (store : Store) (raw : RawCookie) (url : Url) (source : Source) : Store × Option Bool :=
  match acceptable raw url with
  | none => (store,none)
  | some false => (store,some false)
  | some true =>
    match crate.tryFromRawCookie raw url with
    | none => (store,some false)
    | some cookie =>
      if source = .script && overwritesHttpOnly crate store cookie then (store,some false)
      else if !isSecure url && raw.secure != some true && shadowsSecure crate store cookie url then
        (store,some false)
      else
        match crate.insert store cookie url with
        | some next => (next,some true)
        | none => (store,some false)

def joinPairs (pairs : List (String × String)) : String :=
  pairs.foldl (fun out (name,value) =>
    (if out.isEmpty then out else out ++ "; ") ++ (if name.isEmpty then "" else name ++ "=") ++ value) ""

def byPathLength (cookies : List Cookie) : List Cookie :=
  cookies.mergeSort fun a b => decide (b.path.utf8ByteSize ≤ a.path.utf8ByteSize)

def requestHeader (store : Store) (url : Url) : Option String :=
  let cookies := crate.matching store url
  if cookies.isEmpty then none
  else some (joinPairs ((byPathLength cookies).map fun c => (c.name,c.value)))

def documentCookie (store : Store) (url : Url) : String :=
  if isHttp url then
    joinPairs ((byPathLength ((crate.matching store url).filter fun c => c.httpOnly != some true)).map
      fun c => (c.name,c.value))
  else ""

/-- The `Set-Cookie` values of one response; a panic ends the loop. -/
def storeResponse (parse : String → Option RawCookie) (store : Store) (url : Url) :
    List String → Store × Option Bool
  | [] => (store,some false)
  | value :: rest =>
    match parse value with
    | none => storeResponse parse store url rest
    | some raw =>
      match insert crate store raw url .http with
      | (next,none) => (next,none)
      | (next,some changed) =>
        let (final,later) := storeResponse parse next url rest
        (final,later.map (changed || ·))

end Sharko.Netstack.Cookies
