import Sharko.Netstack.Cookies
import Sharko.Netstack.Fetch

/-! The headers of a request (`crates/netstack/src/headers.rs`): what clients may supply and
what the network stack adds. -/

namespace Sharko.Netstack.Headers

open Library Cache Fetch

/-- What of a URL the code reads itself; the rest of it belongs to the `url` crate. -/
structure Url where
  scheme : String
  host : Option Cookies.Host
  rest : String
  fragment : Option String
deriving DecidableEq

structure Origin where
  scheme : String
  host : String
  port : Nat
deriving DecidableEq

/-- The functions of the `url`, `psl` and `httpdate` crates. -/
structure Crates where
  origin : Url → Option Origin
  originText : Option Origin → String
  text : Url → String
  target : Url → String
  withoutUserinfo : Url → Url
  join : Url → String → Option Url
  parse : String → Option Url
  registrableDomain : String → Option String
  parseHttpDate : String → Option SystemTime

inductive Destination where
  | document | iframe | script | style | image | font | fetch | media | other
deriving DecidableEq

structure NetConfig where
  documentAccept : String
  imageAccept : String
  secChUa : String
  secChUaPlatform : String
  userAgent : String
  acceptLanguage : String

def isControlled (name : String) : Bool :=
  ["host","connection","content-length","transfer-encoding","keep-alive","upgrade","te","trailer",
    "expect","cookie","cookie2","accept-encoding"].contains name || Text.startsWith name "proxy-"

def isTokenChar (c : Char) : Bool := c.isAlphanum || Text.contains "!#$%&'*+-.^_`|~" c

def headerName (name : String) : Option String :=
  if name ≠ "" ∧ name.toList.all isTokenChar then some (Text.toAsciiLowercase name) else none

def sanitize : List (String × String) → HeaderMap × Option String
  | [] => ([],none)
  | (name,value) :: rest =>
    let (map,referer) := sanitize rest
    match headerName (Text.trim name) with
    | none => (map,referer)
    | some name =>
      if isControlled name then (map,referer)
      else if name = "referer" then (map,referer.orElse fun _ => some (Text.trim value))
      else if isHeaderValue (Text.trim value) then ((name,Text.trim value) :: map,referer)
      else (map,referer)

def isPotentiallyTrustworthy (url : Url) : Bool :=
  if ["https","wss","file"].contains url.scheme then true
  else if ["http","ws"].contains url.scheme then
    match url.host with
    | some (.domain d) => d == "localhost" || Text.endsWith d ".localhost"
    | some (.ipv4 a _ _ _) => a == 127
    | some (.ipv6 address) => address == 1
    | none => false
  else false

section crates
variable (crates : Crates) (config : NetConfig)

def sameOrigin (a b : Url) : Bool := (crates.origin a).isSome && crates.origin a == crates.origin b

def sameSite (a b : Url) : Bool :=
  if a.scheme ≠ b.scheme then false
  else match a.host,b.host with
    | some (.domain x),some (.domain y) =>
      match crates.registrableDomain x,crates.registrableDomain y with
      | some rx,some ry => rx == ry
      | _,_ => Text.eqIgnoreAsciiCase x y
    | some x,some y => x == y
    | _,_ => false

def referrerValue (referrer target : Url) : Option String :=
  if ¬ ["http","https"].contains referrer.scheme then none
  else if referrer.scheme = "https" ∧ ¬ isPotentiallyTrustworthy target then none
  else if sameOrigin crates referrer target then
    some (crates.text (crates.withoutUserinfo { referrer with fragment := none }))
  else some (crates.originText (crates.origin referrer) ++ "/")

def acceptFor (destination : Destination) : String :=
  let value := match destination with
    | .document | .iframe => config.documentAccept
    | .image => config.imageAccept
    | .style => "text/css,*/*;q=0.1"
    | _ => "*/*"
  if isHeaderValue value then value else "*/*"

def priorityFor : Destination → String
  | .document | .iframe => "u=0, i"
  | .style => "u=0"
  | .script => "u=1"
  | .font | .fetch | .other => "u=1, i"
  | .image | .media => "u=2, i"

def secFetchDest : Destination → String
  | .document => "document"
  | .iframe => "iframe"
  | .script => "script"
  | .style => "style"
  | .image => "image"
  | .font => "font"
  | .media => "video"
  | .fetch | .other => "empty"

def supplied (client : HeaderMap) (name : String) : Option String := client.lookup name

def untaken (client : HeaderMap) (names : List String) : HeaderMap :=
  names.foldl (fun client name => client.eraseP fun h => h.1 == name) client

def sound (header : String × String) : HeaderMap := if isHeaderValue header.2 then [header] else []

def takenNames : List String :=
  ["user-agent","accept","accept-language","origin","referer","upgrade-insecure-requests",
    "sec-fetch-dest","sec-fetch-mode","sec-fetch-site","sec-fetch-user","priority"]

def modeFor : Destination → String
  | .document | .iframe => "navigate"
  | .fetch | .font => "cors"
  | _ => "no-cors"

def isNavigation (destination : Destination) : Bool := destination = .document ∨ destination = .iframe

def siteFor (referrer : Option Url) (url : Url) : String :=
  match referrer with
  | none => "none"
  | some r => if sameOrigin crates r url then "same-origin" else if sameSite crates r url then "same-site"
    else "cross-site"

def originFor (mode : String) (referrer : Option Url) (url : Url) (method : Method) : Option String :=
  let crossOriginCors := mode == "cors" && referrer.any fun r => !sameOrigin crates r url
  if crossOriginCors || !isSafe method then
    (referrer.map fun r => crates.originText (crates.origin r)).filter isHeaderValue
  else none

def metadata (url : Url) (mode : String) (destination : Destination) (referrer : Option Url)
    (client : HeaderMap) : HeaderMap :=
  [("sec-fetch-site",(supplied client "sec-fetch-site").getD (siteFor crates referrer url)),
    ("sec-fetch-mode",if isHeaderValue mode then mode else "no-cors")] ++
  (if destination = .document ∧ referrer = none then
    [("sec-fetch-user",(supplied client "sec-fetch-user").getD "?1")] else []) ++
  [("sec-fetch-dest",(supplied client "sec-fetch-dest").getD (secFetchDest destination))]

def applyDefaults (map : HeaderMap) (url : Url) (method : Method) (destination : Destination)
    (referrer : Option Url) : HeaderMap :=
  let secure := isPotentiallyTrustworthy url
  let hints := [("sec-ch-ua",config.secChUa),("sec-ch-ua-mobile","?0"),
    ("sec-ch-ua-platform",config.secChUaPlatform)]
  let client := if secure then untaken map (hints.map Prod.fst) else map
  let mode := (supplied client "sec-fetch-mode").getD (modeFor destination)
  let encoding := if destination = .media then "identity;q=1, *;q=0"
    else if containsKey map "range" then "identity"
    else "gzip, deflate, br, zstd"
  (if secure then hints.flatMap sound else []) ++
  (if isNavigation destination then [("upgrade-insecure-requests","1")] else []) ++
  (match supplied client "user-agent" with
    | some agent => [("user-agent",agent)]
    | none => sound ("user-agent",config.userAgent)) ++
  untaken client takenNames ++
  [("accept",(supplied client "accept").getD (acceptFor config destination))] ++
  ((supplied client "origin").orElse fun _ => originFor crates mode referrer url method).toList.map
    (fun origin => ("origin",origin)) ++
  (if secure then metadata crates url mode destination referrer client else []) ++
  ((referrer.bind fun r => referrerValue crates r url).filter isHeaderValue).toList.map
    (fun value => ("referer",value)) ++
  [("accept-encoding",encoding)] ++
  (match supplied client "accept-language" with
    | some language => [("accept-language",language)]
    | none => sound ("accept-language",config.acceptLanguage)) ++
  (if url.scheme = "https" then [("priority",priorityFor destination)] else [])

end crates

def insertCookie (map : HeaderMap) (cookie : String) : HeaderMap :=
  let priority := map.lookup "priority"
  let map := insertHeader (map.filter fun h => h.1 != "priority") "cookie" cookie
  match priority with
  | some value => insertHeader map "priority" value
  | none => map

theorem containsKey_iff {headers : HeaderMap} {name : String} :
    containsKey headers name = true ↔ ∃ h ∈ headers,h.1 = name := by
  simp [containsKey]

theorem sanitize_cookie (headers : List (String × String)) :
    containsKey (sanitize headers).1 "cookie" = false := by
  induction headers with
  | nil => rfl
  | cons header rest ih =>
    obtain ⟨name,value⟩ := header
    unfold sanitize
    dsimp only
    cases headerName (Text.trim name) with
    | none => exact ih
    | some name =>
      dsimp only
      split_ifs with controlled referer valid
      · exact ih
      · exact ih
      · have other : name ≠ "cookie" := by
          rintro rfl
          exact controlled (by decide)
        unfold containsKey at ih ⊢
        rw [List.any_cons,ih]
        simpa using other
      · exact ih

def Plain (headers : HeaderMap) : Prop := ∀ h ∈ headers,h.1 ≠ "cookie"

theorem plain_iff {headers : HeaderMap} : Plain headers ↔ containsKey headers "cookie" = false := by
  rw [Bool.eq_false_iff,Ne,containsKey_iff]
  exact ⟨fun plain ⟨h,listed,named⟩ => plain h listed named,fun bare h listed named => bare ⟨h,listed,named⟩⟩

def Lacks (name : String) (headers : HeaderMap) : Prop := ∀ h ∈ headers,h.1 ≠ name

def named (name : String) (headers : HeaderMap) : HeaderMap := headers.filter fun h => h.1 == name

theorem named_append (name : String) (first second : HeaderMap) :
    named name (first ++ second) = named name first ++ named name second := List.filter_append first second

theorem lacks_iff_named {name : String} {headers : HeaderMap} :
    Lacks name headers ↔ named name headers = [] := by
  simp only [Lacks,named,List.filter_eq_nil_iff,beq_iff_eq]

theorem named_append_lacks {name : String} {first second : HeaderMap} (lacks : Lacks name second) :
    named name (first ++ second) = named name first := by
  rw [named_append,lacks_iff_named.mp lacks,List.append_nil]

theorem named_lacks_append {name : String} {first second : HeaderMap} (lacks : Lacks name first) :
    named name (first ++ second) = named name second := by
  rw [named_append,lacks_iff_named.mp lacks,List.nil_append]

theorem lacks_append {name : String} {first second : HeaderMap} (one : Lacks name first)
    (other : Lacks name second) : Lacks name (first ++ second) := by
  intro h listed
  rcases List.mem_append.mp listed with front | back
  · exact one h front
  · exact other h back

theorem lacks_nil (name : String) : Lacks name [] := nofun

theorem lacks_one {name key value : String} (other : key ≠ name) : Lacks name [(key,value)] := by
  intro h listed
  rw [List.mem_singleton.mp listed]
  exact other

theorem lacks_sound {name key value : String} (other : key ≠ name) : Lacks name (sound (key,value)) := by
  unfold sound
  split
  · exact lacks_one other
  · exact lacks_nil name

theorem lacks_toList {name key : String} (other : key ≠ name) (value : Option String) :
    Lacks name (value.toList.map fun value => (key,value)) := by
  cases value with
  | none => exact lacks_nil name
  | some value => exact lacks_one other

theorem lacks_ite {name : String} {condition : Prop} [Decidable condition] {headers : HeaderMap}
    (lacks : Lacks name headers) : Lacks name (if condition then headers else []) := by
  split
  · exact lacks
  · exact lacks_nil name

theorem named_eraseP {name key : String} (other : key ≠ name) (headers : HeaderMap) :
    named name (headers.eraseP fun h => h.1 == key) = named name headers := by
  induction headers with
  | nil => rfl
  | cons h rest ih =>
    rw [named,named] at ih
    rw [named,named,List.eraseP_cons]
    by_cases here : h.1 = key
    · simp [here,other]
    · simp only [beq_eq_false_iff_ne.mpr here,cond_false,List.filter_cons,ih]

theorem named_untaken {name : String} {names : List String} (other : name ∉ names) (client : HeaderMap) :
    named name (untaken client names) = named name client := by
  induction names generalizing client with
  | nil => rfl
  | cons key rest ih =>
    rw [List.mem_cons,not_or] at other
    exact (ih other.2 _).trans (named_eraseP (Ne.symm other.1) client)

theorem named_insertHeader {name key : String} (other : key ≠ name) (headers : HeaderMap) (value : String) :
    named name (insertHeader headers key value) = named name headers := by
  have kept : (fun h : String × String => (h.1 == name && h.1 != key)) = fun h => h.1 == name := by
    funext h
    by_cases here : h.1 = name
    · simp [here,Ne.symm other]
    · simp [here]
  rw [insertHeader,named_append_lacks (lacks_one other),named,named,List.filter_filter,kept]

def defaultNames : List String :=
  ["sec-ch-ua","sec-ch-ua-mobile","sec-ch-ua-platform","accept-encoding"] ++ takenNames

theorem applyDefaults_named (crates : Crates) (config : NetConfig) {name : String}
    (foreign : name ∉ defaultNames) (map : HeaderMap) (url : Url) (method : Method)
    (destination : Destination) (referrer : Option Url) :
    named name (applyDefaults crates config map url method destination referrer) = named name map := by
  have other : ∀ key ∈ defaultNames,key ≠ name := fun key listed same => foreign (same ▸ listed)
  have supplied_or : ∀ {key : String} (value : Option String) (given : String),key ≠ name →
      Lacks name (match value with | some value => [(key,value)] | none => sound (key,given)) := by
    intro key value given other
    cases value with
    | some value => exact lacks_one other
    | none => exact lacks_sound other
  unfold applyDefaults metadata
  dsimp only
  rw [named_append_lacks,named_append_lacks,named_append_lacks,named_append_lacks,named_append_lacks,
    named_append_lacks,named_append_lacks,named_lacks_append,
    named_untaken fun taken => foreign (List.mem_append_right _ taken)]
  · split
    · apply named_untaken
      intro hint
      exact foreign (List.mem_append_left _ (List.mem_append_left ["accept-encoding"] hint))
    · rfl
  · refine lacks_append (lacks_append (lacks_ite ?_) (lacks_ite (lacks_one (other _ (by decide)))))
      (supplied_or _ _ (other _ (by decide)))
    exact lacks_append (lacks_sound (other _ (by decide))) (lacks_append (lacks_sound (other _ (by decide)))
      (lacks_append (lacks_sound (other _ (by decide))) (lacks_nil name)))
  · exact lacks_one (other _ (by decide))
  · exact lacks_toList (other _ (by decide)) _
  · refine lacks_ite (lacks_append (lacks_append ?_ (lacks_ite (lacks_one (other _ (by decide)))))
      (lacks_one (other _ (by decide))))
    exact lacks_append (lacks_one (other _ (by decide))) (lacks_one (other _ (by decide)))
  · exact lacks_toList (other _ (by decide)) _
  · exact lacks_one (other _ (by decide))
  · exact supplied_or _ _ (other _ (by decide))
  · exact lacks_ite (lacks_one (other _ (by decide)))

end Sharko.Netstack.Headers
