import Sharko.Netstack.Cookies

/-! Leaving secure cookies alone: what an insecure origin can do to the `Secure`
cookies of the jar. The check compares each of them with the request URL, the
store with the new cookie's key, so a host-only cookie of a parent domain and a
cookie of a subdomain escape it. -/

namespace Sharko.Netstack.Cookies
open Library

section
variable {Store : Type} (crate : Crate Store)

/-- Same name, domains related in either direction, and a covered path. -/
structure Shadows (new c : Cookie) : Prop where
  name : new.name = c.name
  domain : DomainMatch new.domain.text c.domain.text ∨ DomainMatch c.domain.text new.domain.text
  path : PathMatch new.path c.path

def SentSecurely (c : Cookie) : Prop := ∃ url, isSecure url = true ∧ crate.cookieMatches c url = true

structure LeavesSecureAlone (before after : Store) : Prop where
  kept : ∀ c ∈ crate.iterUnexpired before, c.secure = some true → SentSecurely crate c →
    c ∈ crate.iterUnexpired after
  unshadowed : ∀ new ∈ crate.iterUnexpired after, new ∉ crate.iterUnexpired before →
    ∀ c ∈ crate.iterUnexpired before, c.secure = some true → ¬ Shadows new c

/-- The cookie passes the jar's own checks and the store takes it. -/
structure Admitted (store : Store) (raw : RawCookie) (url : Url) (source : Source) (cookie : Cookie) : Prop where
  acceptable : acceptable raw url = some true
  parsed : crate.tryFromRawCookie raw url = some cookie
  httpOnly : source = .script → overwritesHttpOnly crate store cookie = false
  secure : shadowsSecure crate store cookie url = false
  stored : (crate.insert store cookie url).isSome

/-- An unexpired `Secure` cookie the check does not see, because its domain does not
cover the request host, although the new cookie takes its key or shadows it. -/
structure Escapes (store : Store) (url : Url) (cookie c : Cookie) : Prop where
  present : c ∈ crate.iterUnexpired store
  secure : c.secure = some true
  unseen : crate.domainMatches c.domain url = false
  harmed : (c.key = cookie.key ∧ SentSecurely crate c) ∨
    (crate.isExpired cookie = false ∧ crate.filed cookie url ∉ crate.iterUnexpired store ∧ Shadows cookie c)

theorem leavesSecureAlone_refl (store : Store) : LeavesSecureAlone crate store store :=
  ⟨fun _ present _ _ => present,fun _ present absent => absurd present absent⟩

theorem acceptable_insecure {raw : RawCookie} {url : Url} (ok : acceptable raw url = some true)
    (insecure : isSecure url = false) : raw.secure ≠ some true := by
  intro secure
  simp only [acceptable,secure,insecure] at ok
  split_ifs at ok <;> simp_all

theorem pathMatch_startsWith {request cookie : String} (covers : PathMatch request cookie) :
    Text.startsWith request cookie = true := by
  rcases covers with rfl | ⟨starts,_⟩ | starts
  · simp [Text.startsWith]
  · exact starts
  · simp only [Text.startsWith,List.isPrefixOf_iff_prefix,String.toList_append] at starts ⊢
    exact (List.prefix_append _ _).trans starts

theorem unseen_of_unshadowed {store : Store} {cookie c : Cookie} {url : Url}
    (checked : shadowsSecure crate store cookie url = false)
    (present : c ∈ crate.iterUnexpired store) (secure : c.secure = some true)
    (name : c.name = cookie.name) (path : Text.startsWith cookie.path c.path = true) :
    crate.domainMatches c.domain url = false := by
  have outside := List.any_eq_false.mp checked c present
  simpa [name,secure,path] using outside

theorem insert_unchanged_or_admitted (store : Store) (raw : RawCookie) (url : Url) (source : Source)
    (insecure : isSecure url = false) : (insert crate store raw url source).1 = store ∨
      ∃ cookie next, Admitted crate store raw url source cookie ∧
        crate.insert store cookie url = some next ∧ (insert crate store raw url source).1 = next := by
  unfold insert
  cases ok : acceptable raw url with
  | none => exact .inl rfl
  | some passed =>
    cases passed with
    | false => exact .inl rfl
    | true =>
      cases parsed : crate.tryFromRawCookie raw url with
      | none => exact .inl rfl
      | some cookie =>
        simp only
        split_ifs with hidden shadowing
        · exact .inl rfl
        · exact .inl rfl
        · cases stored : crate.insert store cookie url with
          | none => exact .inl rfl
          | some next =>
            refine .inr ⟨cookie,next,⟨ok,parsed,?_,?_,by simp [stored]⟩,stored,rfl⟩
            · intro script
              simpa [script] using hidden
            · simpa [insecure,acceptable_insecure ok insecure] using shadowing

theorem insert_admitted {store : Store} {raw : RawCookie} {url : Url} {source : Source} {cookie : Cookie}
    (admitted : Admitted crate store raw url source cookie) {next : Store}
    (stored : crate.insert store cookie url = some next) : (insert crate store raw url source).1 = next := by
  have visible : ¬ ((decide (source = .script) && overwritesHttpOnly crate store cookie) = true) := by
    cases source with
    | http => simp
    | script => simp [admitted.httpOnly rfl]
  simp [insert,admitted.acceptable,admitted.parsed,visible,admitted.secure,stored]

/-- An insertion by an insecure origin leaves the secure cookies alone exactly if no
unexpired `Secure` cookie escapes the check. -/
theorem leaves_secure_alone_iff (laws : crate.Laws) (store : Store) (raw : RawCookie) (url : Url)
    (source : Source) (insecure : isSecure url = false) :
    LeavesSecureAlone crate store (insert crate store raw url source).1 ↔
      ∀ cookie, Admitted crate store raw url source cookie → ∀ c, ¬ Escapes crate store url cookie c := by
  constructor
  · intro alone cookie admitted c escapes
    obtain ⟨next,stored⟩ := Option.isSome_iff_exists.mp admitted.stored
    rw [insert_admitted crate admitted stored] at alone
    have new := laws.filed_same cookie url
    have entries := laws.inserted store cookie url next stored
    have plain : cookie.secure ≠ some true := by
      rw [(laws.parsed raw url cookie admitted.parsed).2.2.1]
      exact acceptable_insecure admitted.acceptable insecure
    rcases escapes.harmed with ⟨sameKey,sent⟩ | ⟨lives,added,shadows⟩
    · rcases (entries c).mp (alone.kept c escapes.present escapes.secure sent) with ⟨_,otherKey⟩ | ⟨_,rfl⟩
      · exact otherKey sameKey
      · exact plain (new.2.2.1 ▸ escapes.secure)
    · have inside : crate.filed cookie url ∈ crate.iterUnexpired next := (entries _).mpr (.inr ⟨lives,rfl⟩)
      apply alone.unshadowed _ inside added c escapes.present escapes.secure
      exact ⟨new.1.trans shadows.name,by rw [new.2.2.2.2.2.1]; exact shadows.domain,
        by rw [new.2.2.2.2.1]; exact shadows.path⟩
  · intro free
    rcases insert_unchanged_or_admitted crate store raw url source insecure with
      same | ⟨cookie,next,admitted,stored,result⟩
    · rw [same]
      exact leavesSecureAlone_refl crate store
    rw [result]
    have new := laws.filed_same cookie url
    have entries := laws.inserted store cookie url next stored
    constructor
    · intro c present secure sent
      refine (entries c).mpr (.inl ⟨present,?_⟩)
      intro sameKey
      have name : c.name = cookie.name := congrArg (·.2.2) sameKey
      have path : c.path = cookie.path := congrArg (·.2.1) sameKey
      have unseen := unseen_of_unshadowed crate admitted.secure present secure name
        (by rw [path]; exact pathMatch_startsWith (.inl rfl))
      exact free cookie admitted c ⟨present,secure,unseen,.inl ⟨sameKey,sent⟩⟩
    · intro added inside absent c present secure shadows
      rcases (entries added).mp inside with ⟨old,_⟩ | ⟨lives,rfl⟩
      · exact absent old
      have shadows' : Shadows cookie c :=
        ⟨new.1.symm.trans shadows.name,by rw [← new.2.2.2.2.2.1]; exact shadows.domain,
          by rw [← new.2.2.2.2.1]; exact shadows.path⟩
      have unseen := unseen_of_unshadowed crate admitted.secure present secure shadows'.name.symm
        (pathMatch_startsWith shadows'.path)
      exact free cookie admitted c ⟨present,secure,unseen,.inr ⟨lives,absent,shadows'⟩⟩

end

namespace Reference

def hostStr (url : Url) : Option String :=
  url.host.map fun
    | .domain d => d
    | .ipv4 a b c d => toString a ++ "." ++ toString b ++ "." ++ toString c ++ "." ++ toString d
    | .ipv6 address => "[" ++ toString address ++ "]"

def isHostName (host : String) : Bool := host.toList.any Char.isAlpha

def domainMatches (domain : CookieDomain) (url : Url) : Bool :=
  match hostStr url,domain with
  | none,_ => false
  | some host,.hostOnly own => host == own
  | some host,.suffix parent =>
    host == parent || (isHostName host && Text.endsWith host ("." ++ parent))

def isExpired (c : Cookie) : Bool := c.expires.any (· ≤ 0)

def defaultPath (url : Url) : String :=
  let directory := (url.path.toList.reverse.dropWhile (· ≠ '/')).drop 1
  if directory.isEmpty then "/" else String.ofList directory.reverse

def tryFromRawCookie (raw : RawCookie) (url : Url) : Option Cookie := do
  let host ← hostStr url
  let domain := match raw.domain with
    | some d => CookieDomain.suffix (Text.toAsciiLowercase d)
    | none => .hostOnly host
  let path := match raw.path with
    | some p => if Text.startsWith p "/" then p else defaultPath url
    | none => defaultPath url
  if domainMatches domain url then
    return ⟨raw.name,raw.value,raw.secure,raw.httpOnly,domain,path,raw.maxAge⟩
  else none

def cookieMatches (c : Cookie) (url : Url) : Bool :=
  domainMatches c.domain url && decide (PathMatch url.path c.path) &&
    (c.secure != some true || isSecure url) && (c.httpOnly != some true || isHttp url)

def insert (store : List Cookie) (cookie : Cookie) (url : Url) : Option (List Cookie) :=
  let others := store.filter fun c => c.key != cookie.key
  if !domainMatches cookie.domain url then none
  else if isExpired cookie then
    if store.any fun c => c.key == cookie.key then some others else none
  else some (others ++ [cookie])

def crate : Crate (List Cookie) where
  hostStr := hostStr
  isHostName := isHostName
  tryFromRawCookie := tryFromRawCookie
  domainMatches := domainMatches
  isExpired := isExpired
  getAny store domain path name := store.find? fun c => c.key == (domain,path,name)
  iterUnexpired store := store.filter fun c => !isExpired c
  matching store url := store.filter fun c => !isExpired c && cookieMatches c url
  cookieMatches := cookieMatches
  filed cookie _ := cookie
  insert := insert

theorem laws : crate.Laws where
  hostOnly_matches host url := by
    simp only [crate,domainMatches]
    cases hostStr url <;> simp
  suffix_matches domain url := by
    simp only [crate,domainMatches]
    cases hostStr url <;> simp
  parsed raw url cookie parsed := by
    simp only [crate,tryFromRawCookie,Option.bind_eq_bind,Option.bind_eq_some_iff] at parsed
    obtain ⟨host,_,made⟩ := parsed
    split_ifs at made with covers
    cases made
    exact ⟨rfl,rfl,rfl,rfl,covers⟩
  filed_same cookie url := ⟨rfl,rfl,rfl,rfl,rfl,rfl,rfl⟩
  inserted store cookie url next stored c := by
    simp only [crate,insert] at stored ⊢
    split_ifs at stored with refused expired present <;> cases Option.some.inj stored
    · simp [expired,and_comm,and_left_comm]
    · simp only [List.mem_filter,List.mem_append,List.mem_singleton,Bool.not_eq_true'] at *
      constructor
      · rintro ⟨⟨old,other⟩ | rfl,lives⟩
        · exact .inl ⟨⟨old,lives⟩,by simpa using other⟩
        · exact .inr ⟨lives,rfl⟩
      · rintro (⟨⟨old,lives⟩,other⟩ | ⟨lives,rfl⟩)
        · exact ⟨.inl ⟨old,by simpa using other⟩,lives⟩
        · exact ⟨.inr rfl,lives⟩

end Reference

def session : Cookie := ⟨"sid","1",some true,none,.hostOnly "example.com","/",none⟩

def intruder : RawCookie := ⟨"sid","2",none,none,some "example.com",some "/",none⟩

def subdomainUrl : Url := ⟨"http",some (.domain "sub.example.com"),"/"⟩

/-- `http://sub.example.com` replaces the host-only `Secure` cookie of `example.com`
with `Set-Cookie: sid=2; Domain=example.com; Path=/`. -/
theorem subdomain_replaces_secure : isSecure subdomainUrl = false ∧
      ¬ LeavesSecureAlone Reference.crate [session]
        (insert Reference.crate [session] intruder subdomainUrl .http).1 := by
  refine ⟨by decide,?_⟩
  intro alone
  have sent : SentSecurely Reference.crate session :=
    ⟨⟨"https",some (.domain "example.com"),"/"⟩,by decide,by decide⟩
  have kept := alone.kept session (by decide) rfl sent
  exact absurd kept (by decide)

/-- The check's own case: `http://example.com` cannot replace the cookie. -/
theorem leaves_secure_alone_same_host : LeavesSecureAlone Reference.crate [session]
      (insert Reference.crate [session] ⟨"sid","2",none,none,none,some "/",none⟩
        ⟨"http",some (.domain "example.com"),"/"⟩ .http).1 := by
  rw [leaves_secure_alone_iff Reference.crate Reference.laws _ _ _ _ (by decide)]
  intro cookie admitted c escapes
  cases Option.some.inj (admitted.parsed.symm.trans (rfl : _ = some
    (⟨"sid","2",none,none,.hostOnly "example.com","/",none⟩ : Cookie)))
  exact absurd admitted.secure (by decide)

end Sharko.Netstack.Cookies
