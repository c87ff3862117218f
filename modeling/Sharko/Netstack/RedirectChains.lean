import Mathlib
import Sharko.Netstack.Credentials

/-! What the hops of a redirected fetch carry, whatever the chain of redirects: how many there are
and where they go, how far the caller's `Authorization` gets, and what is left of the body. -/

namespace Sharko.Netstack.Redirects

open Library Cache.Policy Headers
open Cache hiding Url
open Fetch hiding Crates Hop

section
variable {crates : Crates} {config : NetConfig}

def ownNames : List String :=
  defaultNames ++ ["cookie","cache-control","pragma","if-none-match","if-modified-since"]

theorem requestHeaders_named {name : String} (foreign : name ∉ ownNames) (hop : Hop) (world : World) :
    named name (requestHeaders crates config hop world) = named name hop.headers := by
  have defaults : name ∉ defaultNames := fun listed => foreign (List.mem_append_left _ listed)
  have cookie : "cookie" ≠ name := fun same => foreign (same ▸ by decide)
  have priority : "priority" ≠ name := fun same => foreign (same ▸ by decide)
  have given := applyDefaults_named crates config defaults hop.headers hop.url hop.method hop.destination
    hop.referrer
  have inserted : ∀ map value,named name (insertCookie map value) = named name map := by
    intro map value
    have others : named name (map.filter fun h => h.1 != "priority") = named name map := by
      have whole := named_insertHeader priority map ""
      rwa [insertHeader,named_append_lacks (lacks_one priority)] at whole
    unfold insertCookie
    dsimp only
    split
    · rw [named_insertHeader priority,named_insertHeader cookie,others]
    · rw [named_insertHeader cookie,others]
  unfold requestHeaders
  dsimp only
  split_ifs
  · split
    · split_ifs
      · exact (inserted _ _).trans given
      · exact given
    · exact given
  · exact given

theorem finalHeaders_named {name : String} (foreign : name ∉ ownNames) (mode : CacheMode)
    (headers : HeaderMap) : named name (finalHeaders mode headers) = named name headers := by
  have control : "cache-control" ≠ name := fun same => foreign (same ▸ by decide)
  have pragma_ : "pragma" ≠ name := fun same => foreign (same ▸ by decide)
  cases mode <;> simp only [finalHeaders] <;> split_ifs <;> simp only [named_insertHeader control,named_insertHeader pragma_]

theorem networkHeaders_named {name : String} (foreign : name ∉ ownNames) (headers : HeaderMap)
    (revalidating : Option StoredResponse) :
    named name (networkHeaders headers revalidating) = named name headers := by
  have lacks : Lacks name ((revalidating.map fun stored => validators stored.headers).getD []) := by
    cases revalidating with
    | none => exact lacks_nil name
    | some stored =>
      refine lacks_append ?_ ?_
      · cases findHeader stored.headers "etag" with
        | none => exact lacks_nil name
        | some etag => exact lacks_one fun same => foreign (same ▸ by decide)
      · cases findHeader stored.headers "last-modified" with
        | none => exact lacks_nil name
        | some date => exact lacks_one fun same => foreign (same ▸ by decide)
  unfold networkHeaders
  generalize (revalidating.map fun stored => validators stored.headers).getD [] = added at lacks
  induction added generalizing headers with
  | nil => rfl
  | cons h rest ih =>
    rw [List.foldl_cons,ih _ fun h listed => lacks h (List.mem_cons_of_mem _ listed)]
    split
    · exact named_insertHeader (lacks h List.mem_cons_self) headers h.2
    · rfl

theorem fetchHop_named {name : String} (foreign : name ∉ ownNames) (hop : Hop) (world : World) :
    ∀ headers ∈ (fetchHop crates config hop world).headers :: (fetchHop crates config hop world).sent,
      named name headers = named name hop.headers := by
  obtain ⟨mode,request,sent⟩ := @fetchHop_requests crates config hop world
  have final : named name (finalHeaders mode (requestHeaders crates config hop world)) =
      named name hop.headers :=
    (finalHeaders_named foreign mode _).trans (requestHeaders_named foreign hop world)
  intro headers listed
  rcases List.mem_cons.mp listed with rfl | listed
  · rw [request]
    exact final
  · obtain ⟨revalidating,rfl⟩ := sent headers listed
    exact (networkHeaders_named foreign _ revalidating).trans final

variable (crates) in
def Followed (hop next : Hop) : Prop :=
  ∃ status url,["http","https"].contains url.scheme = true ∧ next = hop.redirect crates status url

def bodyHeaders : List String := ["content-type","content-encoding","content-language","content-location"]

def Bodiless (hop : Hop) : Prop := hop.body = none ∧ ∀ name ∈ bodyHeaders,named name hop.headers = []

theorem named_filter {name : String} {keeps : String × String → Bool}
    (kept : ∀ value,keeps (name,value) = true) (headers : HeaderMap) :
    named name (headers.filter keeps) = named name headers := by
  rw [named,named,List.filter_filter]
  apply List.filter_congr
  intro h _
  by_cases here : h.1 = name
  · have stays := kept h.2
    rw [← here] at stays
    rw [stays,Bool.and_true]
  · rw [beq_eq_false_iff_ne.mpr here,Bool.false_and]

theorem named_filtered {name : String} {keeps : String × String → Bool}
    (gone : ∀ value,keeps (name,value) = false) (headers : HeaderMap) :
    named name (headers.filter keeps) = [] := by
  apply lacks_iff_named.mp
  intro h listed same
  have stays := (List.mem_filter.mp listed).2
  rw [← Prod.eta h,same,gone] at stays
  cases stays

theorem named_none {name : String} {headers : HeaderMap} (none_ : named name headers = [])
    (keeps : String × String → Bool) : named name (headers.filter keeps) = [] := by
  apply lacks_iff_named.mp
  intro h listed
  exact lacks_iff_named.mpr none_ h (List.mem_filter.mp listed).1

def Hop.carried (crates : Crates) (hop : Hop) (next : Url) (headers : HeaderMap) : HeaderMap :=
  if sameOrigin crates hop.url next then headers else headers.filter fun h => h.1 != "authorization"

theorem followed_cases {hop next : Hop} (followed : Followed crates hop next) :
    ["http","https"].contains next.url.scheme = true ∧ ((next.method = hop.method ∧ next.body = hop.body ∧
        next.headers = hop.carried crates next.url hop.headers) ∨
      (next.method = .get ∧ next.body = none ∧ next.headers = hop.carried crates next.url
        (hop.headers.filter fun h => !bodyHeaders.contains h.1))) := by
  obtain ⟨status,url,web,rfl⟩ := followed
  unfold Hop.redirect Hop.carried
  dsimp only
  by_cases toGet : ((status = 301 ∨ status = 302) ∧ hop.method = .post) ∨
      (status = 303 ∧ hop.method ≠ .get ∧ hop.method ≠ .head)
  · simp only [if_pos toGet]
    split_ifs <;> exact ⟨web,Or.inr ⟨trivial,trivial,rfl⟩⟩
  · simp only [if_neg toGet]
    split_ifs <;> exact ⟨web,Or.inl ⟨trivial,trivial,trivial⟩⟩

theorem followed_authorization {hop next : Hop} (followed : Followed crates hop next) :
    named "authorization" next.headers =
      if sameOrigin crates hop.url next.url then named "authorization" hop.headers else [] := by
  have carried : ∀ headers,named "authorization" (hop.carried crates next.url headers) =
      if sameOrigin crates hop.url next.url then named "authorization" headers else [] := by
    intro headers
    unfold Hop.carried
    split_ifs
    · rfl
    · exact named_filtered (fun _ => rfl) headers
  have content : named "authorization" (hop.headers.filter fun h => !bodyHeaders.contains h.1) =
      named "authorization" hop.headers := named_filter (fun _ => rfl) hop.headers
  obtain ⟨-,⟨-,-,headers⟩ | ⟨-,-,headers⟩⟩ := followed_cases followed
  · rw [headers,carried]
  · rw [headers,carried,content]

theorem carried_none {hop : Hop} {next : Url} {name : String} {headers : HeaderMap}
    (none_ : named name headers = []) : named name (hop.carried crates next headers) = [] := by
  unfold Hop.carried
  split_ifs
  · exact none_
  · exact named_none none_ _

theorem followed_rewritten {hop next : Hop} (followed : Followed crates hop next)
    (other : hop.method ≠ .get) (get : next.method = .get) : Bodiless next := by
  obtain ⟨-,⟨method,-,-⟩ | ⟨-,body,headers⟩⟩ := followed_cases followed
  · exact absurd (method.symm.trans get) other
  · refine ⟨body,fun name listed => ?_⟩
    rw [headers]
    apply carried_none
    apply named_filtered
    intro value
    rw [List.contains_iff_mem.mpr listed]
    rfl

theorem followed_bodiless {hop next : Hop} (followed : Followed crates hop next)
    (bodiless : Bodiless hop) : Bodiless next := by
  obtain ⟨-,⟨-,body,headers⟩ | ⟨-,body,headers⟩⟩ := followed_cases followed
  · refine ⟨body.trans bodiless.1,fun name listed => ?_⟩
    rw [headers]
    exact carried_none (bodiless.2 name listed)
  · refine ⟨body,fun name listed => ?_⟩
    rw [headers]
    exact carried_none (named_none (bodiless.2 name listed) _)

theorem followHops_chain {follow : Bool} (hop : Hop) {redirects : Nat} (left : redirects ≤ maxRedirects)
    (worlds : List World) :
    let hops := (followHops crates config follow hop redirects worlds).map Visit.hop
    hops.length + redirects ≤ maxRedirects + 1 ∧ hops.IsChain (Followed crates) ∧
      ∀ first ∈ hops.head?,first = hop := by
  induction worlds generalizing hop redirects with
  | nil =>
    simp only [followHops,List.map_nil,List.length_nil,List.IsChain.nil,List.head?_nil]
    exact ⟨by omega,trivial,fun first listed => by cases listed⟩
  | cons world rest ih =>
    have here := (@fetchHop_hop crates config hop world).1
    have alone : ([fetchHop crates config hop world].map Visit.hop).length + redirects ≤ maxRedirects + 1 ∧
        ([fetchHop crates config hop world].map Visit.hop).IsChain (Followed crates) ∧
        ∀ first ∈ ([fetchHop crates config hop world].map Visit.hop).head?,first = hop := by
      refine ⟨?_,List.IsChain.singleton _,fun first listed => ?_⟩
      · rw [List.length_map,List.length_singleton]
        omega
      · rw [← here]
        exact (Option.some.inj listed).symm
    unfold followHops
    dsimp only
    split
    next => exact alone
    next next led =>
      split
      next => exact alone
      next few =>
        obtain ⟨status,url,web,made⟩ := nextHop_from led
        rw [here] at made
        obtain ⟨short,chain,first⟩ := ih next (Nat.le_of_not_lt few)
        refine ⟨?_,?_,fun first listed => ?_⟩
        · rw [List.map_cons,List.length_cons]
          omega
        · rw [List.map_cons,List.isChain_cons]
          refine ⟨fun second listed => ?_,chain⟩
          rw [first second listed,here]
          exact ⟨status,url,web,made⟩
        · rw [← here]
          exact (Option.some.inj listed).symm

variable (crates) in
def AtHome (hops : List Hop) : Prop := hops.IsChain fun hop next => sameOrigin crates hop.url next.url = true

theorem authorization_along {first hop : Hop} {before : List Hop}
    (chain : (before ++ [hop]).IsChain (Followed crates)) (starts : (before ++ [hop]).head? = some first) :
    (AtHome crates (before ++ [hop]) →
      named "authorization" hop.headers = named "authorization" first.headers) ∧
    (¬AtHome crates (before ++ [hop]) → named "authorization" hop.headers = []) := by
  induction before generalizing first with
  | nil =>
    cases Option.some.inj starts
    exact ⟨fun _ => rfl,fun away => absurd (List.IsChain.singleton _) away⟩
  | cons a before ih =>
    cases Option.some.inj starts
    obtain ⟨second,next⟩ : ∃ second,(before ++ [hop]).head? = some second := by
      cases before with
      | nil => exact ⟨hop,rfl⟩
      | cons b before => exact ⟨b,rfl⟩
    rw [List.cons_append,List.isChain_cons] at chain
    have step := followed_authorization (chain.1 second next)
    obtain ⟨kept,gone⟩ := ih chain.2 next
    have home : AtHome crates (a :: before ++ [hop]) ↔
        sameOrigin crates a.url second.url = true ∧ AtHome crates (before ++ [hop]) := by
      rw [AtHome,List.cons_append,List.isChain_cons,next]
      simp only [Option.mem_some_iff,forall_eq']
      exact Iff.rfl
    rw [home]
    constructor
    · intro stays
      rw [kept stays.2,step,if_pos stays.1]
    · intro leaves
      by_cases stays : AtHome crates (before ++ [hop])
      · rw [kept stays,step,if_neg fun same => leaves ⟨same,stays⟩]
      · exact gone stays

theorem bodiless_along {hop : Hop} {after : List Hop} (chain : (hop :: after).IsChain (Followed crates))
    (bodiless : Bodiless hop) : ∀ later ∈ hop :: after,Bodiless later := by
  induction after generalizing hop with
  | nil =>
    intro later listed
    rw [List.mem_singleton.mp listed]
    exact bodiless
  | cons next after ih =>
    rw [List.isChain_cons_cons] at chain
    intro later listed
    rcases List.mem_cons.mp listed with rfl | listed
    · exact bodiless
    · exact ih chain.2 (followed_bodiless chain.1 bodiless) later listed

theorem web_along {hops : List Hop} (chain : hops.IsChain (Followed crates))
    (first : ∀ hop ∈ hops.head?,["http","https"].contains hop.url.scheme = true) :
    ∀ hop ∈ hops,["http","https"].contains hop.url.scheme = true := by
  induction hops with
  | nil => exact fun hop listed => by cases listed
  | cons hop rest ih =>
    rw [List.isChain_cons] at chain
    intro later listed
    rcases List.mem_cons.mp listed with rfl | listed
    · exact first _ rfl
    · exact ih chain.2 (fun next second => (followed_cases (chain.1 next second)).1) later listed

variable (crates) in
/-- At most 21 requests, all to web pages; the caller's `Authorization` goes along until the origin
changes, and then never again; after the method has become GET, nothing of the body is left. -/
structure Chained (client : HeaderMap) (visits : List Visit) : Prop where
  few : visits.length ≤ 21
  web : ∀ visit ∈ visits,["http","https"].contains visit.hop.url.scheme = true
  authorization : ∀ before visit after,visits = before ++ visit :: after →
    ∀ headers ∈ visit.headers :: visit.sent,
      (AtHome crates ((before ++ [visit]).map Visit.hop) →
        named "authorization" headers = named "authorization" client) ∧
      (¬AtHome crates ((before ++ [visit]).map Visit.hop) → named "authorization" headers = [])
  body : ∀ before visit next after,visits = before ++ visit :: next :: after →
    visit.hop.method ≠ .get → next.hop.method = .get → ∀ later ∈ next :: after,
      later.hop.body = none ∧ ∀ headers ∈ later.headers :: later.sent,∀ name ∈ bodyHeaders,
        named name headers = []

theorem fetch_chained (crates : Crates) (config : NetConfig) (request : NetRequest) (worlds : List World) :
    Chained crates (sanitize request.headers).1 (fetch crates config request worlds) := by
  have own := @fetch_visits crates config request worlds
  have chain : ∃ hops,hops = (fetch crates config request worlds).map Visit.hop ∧
      hops.length ≤ 21 ∧ hops.IsChain (Followed crates) ∧ ∀ first ∈ hops.head?,
        first.headers = (sanitize request.headers).1 ∧
        ["http","https"].contains first.url.scheme = true := by
    refine ⟨_,rfl,?_⟩
    unfold fetch httpFetch
    split
    next web =>
      split
      next => exact ⟨Nat.zero_le _,List.IsChain.nil,fun first listed => by cases listed⟩
      next =>
        obtain ⟨few,links,starts⟩ := @followHops_chain crates config request.followRedirects _ 0
          (Nat.zero_le _) worlds
        refine ⟨few,links,fun first listed => ?_⟩
        rw [starts first listed]
        exact ⟨rfl,web⟩
    next => exact ⟨Nat.zero_le _,List.IsChain.nil,fun first listed => by cases listed⟩
  generalize fetch crates config request worlds = visits at own chain
  obtain ⟨_,rfl,few,links,starts⟩ := chain
  constructor
  case few =>
    rw [List.length_map] at few
    exact few
  case web =>
    intro visit listed
    exact web_along links (fun first listed => (starts first listed).2) visit.hop (List.mem_map_of_mem listed)
  case authorization =>
    intro before visit after split headers listed
    have carried : named "authorization" headers = named "authorization" visit.hop.headers := by
      rw [(own visit (split ▸ List.mem_append_right before List.mem_cons_self)).1] at listed
      exact fetchHop_named (by decide) visit.hop visit.world headers listed
    have upto : (before ++ [visit]).map Visit.hop = before.map Visit.hop ++ [visit.hop] := by
      rw [List.map_append,List.map_singleton]
    obtain ⟨first,head⟩ : ∃ first,(before.map Visit.hop ++ [visit.hop]).head? = some first := by
      cases before with
      | nil => exact ⟨visit.hop,rfl⟩
      | cons a before => exact ⟨a.hop,rfl⟩
    have client : first.headers = (sanitize request.headers).1 := by
      apply fun listed => (starts first listed).1
      rw [split]
      cases before with
      | nil => exact head
      | cons a before => exact head
    have linked : (before.map Visit.hop ++ [visit.hop]).IsChain (Followed crates) := by
      rw [split,List.map_append,List.map_cons,List.isChain_split] at links
      exact links.1
    rw [upto,carried,← client]
    exact authorization_along linked head
  case body =>
    intro before visit next after split other get later listed
    rw [split,List.map_append,List.map_cons,List.map_cons,List.isChain_append_cons_cons] at links
    have bodiless := bodiless_along links.2.2 (followed_rewritten links.2.1 other get) later.hop
      (List.mem_map_of_mem (f := Visit.hop) listed)
    refine ⟨bodiless.1,fun headers sent name described => ?_⟩
    have inside : later ∈ visits := split ▸ List.mem_append_right before (List.mem_cons_of_mem visit listed)
    have foreign : ∀ name ∈ bodyHeaders,name ∉ ownNames := by decide
    rw [(own later inside).1] at sent
    rw [fetchHop_named (foreign name described) later.hop later.world headers sent]
    exact bodiless.2 name described

end

end Sharko.Netstack.Redirects
