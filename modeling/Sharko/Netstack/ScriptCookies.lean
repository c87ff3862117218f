import Mathlib.Data.List.Nodup
import Mathlib.Data.List.Sort
import Sharko.Netstack.SecureCookies

/-! What scripts see and change of the jar: nothing of an `HttpOnly` cookie, except that the store
lists cookies with equally long paths in an order that such a cookie may decide. -/

namespace Sharko.Netstack.Cookies
open Library

variable {Store : Type}

/-- How the operations of the store read and change all that it holds, expired cookies included. -/
structure Crate.Contents (crate : Crate Store) (all : Store → List Cookie)
    (takes : Cookie → Url → Bool) (expire : Cookie → Cookie) : Prop extends Crate.Laws crate where
  keyed : ∀ store, ((all store).map Cookie.key).Nodup
  getAny_iff : ∀ store domain path name c,
    crate.getAny store domain path name = some c ↔ c ∈ all store ∧ c.key = (domain,path,name)
  unexpired_iff : ∀ store c,
    c ∈ crate.iterUnexpired store ↔ c ∈ all store ∧ crate.isExpired c = false
  matching_perm : ∀ store url, (crate.matching store url).Perm
    ((all store).filter fun c => !crate.isExpired c && crate.cookieMatches c url)
  expire_key : ∀ c, (expire c).key = c.key
  expire_httpOnly : ∀ c, (expire c).httpOnly = c.httpOnly
  insert_some : ∀ store cookie url, isHttp url = true →
    ((crate.insert store cookie url).isSome ↔ takes cookie url = true ∧
      (crate.isExpired cookie = false ∨
        ∃ old ∈ all store, old.key = cookie.key ∧ crate.isExpired old = false))
  insert_all : ∀ store cookie url next, crate.insert store cookie url = some next →
    ∀ c, c ∈ all next ↔ (c ∈ all store ∧ c.key ≠ cookie.key) ∨
      (crate.isExpired cookie = false ∧ c = crate.filed cookie url) ∨
      (crate.isExpired cookie = true ∧ ∃ old ∈ all store, old.key = cookie.key ∧ c = expire old)

inductive ScriptOp where
  | read (url : Url)
  | write (url : Url) (text : String)

def Cookie.hidden (c : Cookie) : Bool := c.httpOnly == some true

section

-- The store's functions depend on the time.
variable (crate : Int → Crate Store) (parse : String → Option RawCookie)

end

section

variable (crate : Crate Store) (parse : String → Option RawCookie)

variable {crate parse}

end

section

variable {crate : Crate Store} {parse : String → Option RawCookie} {all : Store → List Cookie}
  {takes : Cookie → Url → Bool} {expire : Cookie → Cookie}

end

/-- The jars hold the same cookies that are not `HttpOnly`. -/
def Agree (all : Store → List Cookie) (s t : Store) : Prop :=
  ∀ c, c.hidden = false → (c ∈ all s ↔ c ∈ all t)

def Shadowed (crate : Crate Store) (url : Url) (raw : RawCookie) (cookie h : Cookie) : Prop :=
  isSecure url = false ∧ raw.secure ≠ some true ∧ crate.isExpired h = false ∧
    h.name = cookie.name ∧ h.secure = some true ∧ crate.domainMatches h.domain url = true ∧
    Text.startsWith cookie.path h.path = true

/-- No hidden cookie of the jar collides with a cookie that the operation sets. -/
def Apart (crate : Int → Crate Store) (parse : String → Option RawCookie)
    (all : Store → List Cookie) (store : Store) (now : Int) : ScriptOp → Prop
  | .read _ => True
  | .write url text => ∀ raw cookie, parse text = some raw →
    (crate now).tryFromRawCookie raw url = some cookie → ∀ h ∈ all store, h.hidden = true →
      h.key ≠ cookie.key ∧ ¬Shadowed (crate now) url raw cookie h

section

variable {crate : Crate Store} {parse : String → Option RawCookie} {all : Store → List Cookie}
  {takes : Cookie → Url → Bool} {expire : Cookie → Cookie}

theorem Agree.symm {s t : Store} (agree : Agree all s t) : Agree all t s :=
  fun c visible => (agree c visible).symm

end

section

variable {crate : Int → Crate Store} {parse : String → Option RawCookie}
  {all : Store → List Cookie} {takes : Int → Cookie → Url → Bool} {expire : Int → Cookie → Cookie}

end

namespace Nested

abbrev Jar := {l : List Cookie // (l.map Cookie.key).Nodup}

def isExpired (now : Int) (c : Cookie) : Bool := c.expires.any (· ≤ now)

def expire (now : Int) (c : Cookie) : Cookie := { c with expires := some now }

def after (group : Cookie → Bool) (cookie : Cookie) : List Cookie → List Cookie
  | [] => [cookie]
  | c :: rest =>
    if group c && !rest.any group then c :: cookie :: rest else c :: after group cookie rest

def place (l : List Cookie) (cookie : Cookie) : List Cookie :=
  let sameDomain (c : Cookie) := c.domain.text == cookie.domain.text
  let samePath (c : Cookie) := sameDomain c && c.path == cookie.path
  if l.any samePath then after samePath cookie l else after sameDomain cookie l

theorem after_perm (group : Cookie → Bool) (cookie : Cookie) (l : List Cookie) :
    (after group cookie l).Perm (cookie :: l) := by
  induction l with
  | nil => exact List.Perm.refl _
  | cons c rest ih =>
    unfold after
    split_ifs
    · exact List.Perm.swap cookie c rest
    · exact (ih.cons c).trans (List.Perm.swap cookie c rest)

theorem place_perm (l : List Cookie) (cookie : Cookie) : (place l cookie).Perm (cookie :: l) := by
  unfold place
  dsimp only
  split_ifs
  · exact after_perm _ cookie l
  · exact after_perm _ cookie l

theorem place_nodup {l : List Cookie} {cookie : Cookie} (nodup : (l.map Cookie.key).Nodup)
    (new : ¬∃ c ∈ l, c.key = cookie.key) : ((place l cookie).map Cookie.key).Nodup := by
  refine (((place_perm l cookie).map Cookie.key).nodup_iff).mpr ?_
  refine List.nodup_cons.mpr ⟨fun mem => ?_,nodup⟩
  obtain ⟨c,mem,same⟩ := List.mem_map.mp mem
  exact new ⟨c,mem,same⟩

def alter (l : List Cookie) (key : String × String × String) (change : Cookie → Cookie) :
    List Cookie :=
  l.map fun c => if c.key = key then change c else c

theorem alter_nodup {l : List Cookie} {key : String × String × String} {change : Cookie → Cookie}
    (keeps : ∀ c, c.key = key → (change c).key = key) (nodup : (l.map Cookie.key).Nodup) :
    ((alter l key change).map Cookie.key).Nodup := by
  have same : (alter l key change).map Cookie.key = l.map Cookie.key := by
    rw [alter,List.map_map]
    refine List.map_congr_left fun c _ => ?_
    dsimp only [Function.comp]
    split_ifs with here
    · exact (keeps c here).trans here.symm
    · rfl
  rwa [same]

def insert (now : Int) (jar : Jar) (cookie : Cookie) (url : Url) : Option Jar :=
  if Reference.domainMatches cookie.domain url = false then none
  else if isExpired now cookie then
    if ∃ c ∈ jar.1, c.key = cookie.key ∧ isExpired now c = false then
      some ⟨alter jar.1 cookie.key (expire now),alter_nodup (fun _ same => same) jar.2⟩
    else none
  else if present : ∃ c ∈ jar.1, c.key = cookie.key then
    some ⟨alter jar.1 cookie.key fun _ => cookie,alter_nodup (fun _ _ => rfl) jar.2⟩
  else some ⟨place jar.1 cookie,place_nodup jar.2 present⟩

def crate (now : Int) : Crate Jar where
  hostStr := Reference.hostStr
  isHostName := Reference.isHostName
  tryFromRawCookie raw url := (Reference.tryFromRawCookie raw url).map fun c =>
    { c with expires := c.expires.map (now + ·) }
  domainMatches := Reference.domainMatches
  isExpired := isExpired now
  getAny jar domain path name := jar.1.find? fun c => c.key == (domain,path,name)
  iterUnexpired jar := jar.1.filter fun c => !isExpired now c
  matching jar url := jar.1.filter fun c => !isExpired now c && Reference.cookieMatches c url
  cookieMatches := Reference.cookieMatches
  filed cookie _ := cookie
  insert := insert now

theorem mem_alter {l : List Cookie} {key : String × String × String} {change : Cookie → Cookie}
    {c : Cookie} : c ∈ alter l key change ↔
      (c ∈ l ∧ c.key ≠ key) ∨ ∃ old ∈ l, old.key = key ∧ c = change old := by
  unfold alter
  rw [List.mem_map]
  constructor
  · rintro ⟨old,mem,rfl⟩
    split_ifs with here
    · exact Or.inr ⟨old,mem,here,rfl⟩
    · exact Or.inl ⟨mem,here⟩
  · rintro (⟨mem,other⟩ | ⟨old,mem,here,rfl⟩)
    · exact ⟨c,mem,if_neg other⟩
    · exact ⟨old,mem,if_pos here⟩

theorem inserted (now : Int) {jar next : Jar} {cookie : Cookie} {url : Url}
    (stored : insert now jar cookie url = some next) (c : Cookie) :
    c ∈ next.1 ↔ (c ∈ jar.1 ∧ c.key ≠ cookie.key) ∨ (isExpired now cookie = false ∧ c = cookie) ∨
      (isExpired now cookie = true ∧ ∃ old ∈ jar.1, old.key = cookie.key ∧ c = expire now old) := by
  unfold insert at stored
  split_ifs at stored with refused expired live present
  · obtain rfl := Option.some.inj stored
    simp [mem_alter,expired]
  · obtain rfl := Option.some.inj stored
    have lives := Bool.eq_false_of_not_eq_true expired
    simp only [mem_alter,lives]
    obtain ⟨old,mem,same⟩ := present
    constructor
    · rintro (kept | ⟨old,mem,same,rfl⟩)
      · exact Or.inl kept
      · exact Or.inr (Or.inl ⟨trivial,rfl⟩)
    · rintro (kept | ⟨-,rfl⟩ | ⟨wrong,-⟩)
      · exact Or.inl kept
      · exact Or.inr ⟨old,mem,same,rfl⟩
      · cases wrong
  · obtain rfl := Option.some.inj stored
    have lives := Bool.eq_false_of_not_eq_true expired
    rw [(place_perm jar.1 cookie).mem_iff,List.mem_cons]
    simp only [lives]
    constructor
    · rintro (rfl | mem)
      · exact Or.inr (Or.inl ⟨trivial,rfl⟩)
      · exact Or.inl ⟨mem,fun same => present ⟨c,mem,same⟩⟩
    · rintro (⟨mem,-⟩ | ⟨-,rfl⟩ | ⟨wrong,-⟩)
      · exact Or.inr mem
      · exact Or.inl rfl
      · cases wrong

theorem getAny_iff {jar : Jar} {key : String × String × String} {c : Cookie} :
    (jar.1.find? fun c => c.key == key) = some c ↔ c ∈ jar.1 ∧ c.key = key := by
  constructor
  · intro found
    have same := List.find?_some found
    exact ⟨List.mem_of_find?_eq_some found,beq_iff_eq.mp same⟩
  · rintro ⟨mem,rfl⟩
    have there : (jar.1.find? fun d => d.key == c.key).isSome :=
      List.find?_isSome.mpr ⟨c,mem,beq_self_eq_true _⟩
    obtain ⟨d,found⟩ := Option.isSome_iff_exists.mp there
    have same := List.find?_some found
    rw [found,List.inj_on_of_nodup_map jar.2 (List.mem_of_find?_eq_some found) mem
      (beq_iff_eq.mp same)]

theorem laws (now : Int) : (crate now).Contents (fun jar => jar.1)
    (fun cookie url => Reference.domainMatches cookie.domain url) (expire now) where
  hostOnly_matches := Reference.laws.hostOnly_matches
  suffix_matches := Reference.laws.suffix_matches
  parsed raw url cookie parsed := by
    obtain ⟨c,made,rfl⟩ := Option.map_eq_some_iff.mp parsed
    exact Reference.laws.parsed raw url c made
  filed_same cookie url := ⟨rfl,rfl,rfl,rfl,rfl,rfl,rfl⟩
  inserted jar cookie url next stored c := by
    change c ∈ next.1.filter _ ↔ (c ∈ jar.1.filter _ ∧ _) ∨ (isExpired now cookie = false ∧ c = cookie)
    rw [List.mem_filter,List.mem_filter,inserted now stored]
    constructor
    · rintro ⟨⟨old,other⟩ | new | ⟨-,old,-,-,rfl⟩,live⟩
      · exact Or.inl ⟨⟨old,live⟩,other⟩
      · exact Or.inr new
      · simp [expire,isExpired] at live
    · rintro (⟨⟨old,live⟩,other⟩ | ⟨live,rfl⟩)
      · exact ⟨Or.inl ⟨old,other⟩,live⟩
      · exact ⟨Or.inr (Or.inl ⟨live,rfl⟩),by rw [live]; rfl⟩
  keyed jar := jar.2
  getAny_iff _ _ _ _ _ := getAny_iff
  unexpired_iff jar c := by
    change c ∈ jar.1.filter _ ↔ _
    rw [List.mem_filter,Bool.not_eq_true']
    rfl
  matching_perm _ _ := List.Perm.refl _
  expire_key _ := rfl
  expire_httpOnly _ := rfl
  insert_some jar cookie url _ := by
    change (insert now jar cookie url).isSome ↔
      Reference.domainMatches cookie.domain url = true ∧ (isExpired now cookie = false ∨
        ∃ old ∈ jar.1, old.key = cookie.key ∧ isExpired now old = false)
    unfold insert
    split_ifs with refused expired live present
    · simp [refused]
    · simpa [refused,expired] using live
    · simpa [refused,expired] using live
    · simp [refused,expired]
    · simp [refused,expired]
  insert_all jar cookie url next stored c := inserted now stored c

end Nested

namespace Sample

def parse (text : String) : Option RawCookie :=
  if text = "a=1; Domain=example.com; Path=/" then
    some ⟨"a","1",none,none,some "example.com",some "/",none⟩
  else if text = "b=2; Path=/" then some ⟨"b","2",none,none,none,some "/",none⟩
  else if text = "sid=3; Path=/app" then some ⟨"sid","3",none,none,none,some "/app",none⟩
  else none

def session : Cookie := ⟨"sid","0",some true,some true,.hostOnly "www.example.com","/",none⟩

def holding : Nested.Jar := ⟨[session],by decide⟩

def empty : Nested.Jar := ⟨[],by decide⟩

def page : Url := ⟨"https",some (.domain "www.example.com"),"/"⟩

def writes : List (Int × ScriptOp) :=
  [(1,.write page "a=1; Domain=example.com; Path=/"),(2,.write page "b=2; Path=/")]

def ops : List (Int × ScriptOp) := writes ++ [(3,.read page)]

theorem agree : Agree (fun jar : Nested.Jar => jar.1) holding empty := by
  intro c visible
  constructor
  · intro mem
    rw [List.mem_singleton.mp mem] at visible
    cases visible
  · exact nofun

theorem shown {jar : Nested.Jar} {now : Int} {url : Url} (cs : List Cookie) (onHttp : isHttp url = true)
    (visible : ((Nested.crate now).matching jar url).filter (fun c => c.httpOnly != some true) = cs)
    (sorted : cs.Pairwise fun a b => decide (b.path.utf8ByteSize ≤ a.path.utf8ByteSize) = true) :
    documentCookie (Nested.crate now) jar url = joinPairs (cs.map fun c => (c.name,c.value)) := by
  rw [documentCookie,if_pos onHttp,visible,byPathLength,List.mergeSort_of_pairwise sorted]

def first : Cookie := ⟨"a","1",none,none,.suffix "example.com","/",none⟩

def second : Cookie := ⟨"b","2",none,none,.hostOnly "www.example.com","/",none⟩

theorem apart_write {jar : Nested.Jar} {now : Int} {url : Url} {text : String} {raw : RawCookie}
    {cookie : Cookie} (only : ∀ h ∈ jar.1, h = session) (parsed : parse text = some raw)
    (made : (Nested.crate now).tryFromRawCookie raw url = some cookie)
    (other : session.key ≠ cookie.key) (secure : isSecure url = true) :
    Apart Nested.crate parse (fun jar => jar.1) jar now (.write url text) := by
  intro raw' cookie' parsed' made' h mem _
  obtain rfl := Option.some.inj (parsed.symm.trans parsed')
  obtain rfl := Option.some.inj (made.symm.trans made')
  rw [only h mem]
  exact ⟨other,fun shadowed => Bool.false_ne_true (shadowed.1.symm.trans secure)⟩

theorem apart {jar : Nested.Jar} (only : ∀ h ∈ jar.1, h = session) : ∀ timed ∈ ops,
    Apart Nested.crate parse (fun jar => jar.1) jar timed.1 timed.2 := by
  intro timed mem
  rcases List.mem_append.mp mem with write | read
  · rcases List.mem_cons.mp write with rfl | write
    · exact apart_write only rfl (rfl : _ = some first) (by decide) (by decide)
    · rw [List.mem_singleton.mp write]
      exact apart_write only rfl (rfl : _ = some second) (by decide) (by decide)
  · rw [List.mem_singleton.mp read]
    trivial

end Sample

section

variable {crate : Int → Crate Store} {parse : String → Option RawCookie}
  {all : Store → List Cookie} {takes : Int → Cookie → Url → Bool} {expire : Int → Cookie → Cookie}

end

end Sharko.Netstack.Cookies
