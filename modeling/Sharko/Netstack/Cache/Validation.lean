import Mathlib
import Sharko.Netstack.Cache.Policy

/-! Stored responses as time goes by and as a 304 comes in: freshness only decays, and the fields of
the 304 take the place of the stored ones. -/

namespace Sharko.Netstack.Cache.Policy
open Library

def Freshness.rank : Freshness → ℕ
  | fresh => 0
  | staleWhileRevalidate => 1
  | stale => 2

section aging

variable (parseHttpDate : String → Option SystemTime)

theorem durationSince_mono {a b c : SystemTime} (later : a ≤ b) :
    (durationSince a c).getD 0 ≤ (durationSince b c).getD 0 := by
  unfold durationSince
  by_cases before : c ≤ a
  · rw [if_pos before,if_pos (before.trans later)]
    exact Int.toNat_le_toNat (Int.sub_le_sub_right later c)
  · rw [if_neg before]
    exact Nat.zero_le _

theorem currentAge_mono (headers : Headers) (requestTime responseTime : SystemTime)
    {now later : SystemTime} (after : now ≤ later) :
    currentAge parseHttpDate headers requestTime responseTime now ≤
      currentAge parseHttpDate headers requestTime responseTime later :=
  Nat.add_le_add_left (durationSince_mono after) _

theorem rank_le_stale (f : Freshness) : f.rank ≤ Freshness.stale.rank := by
  cases f <;> decide

theorem rank_decays {strict p q p' q' : Bool} (accepted : p' = true → p = true)
    (window : q' = true → q = true) :
    (if strict then Freshness.stale else if p then .fresh else if q then .staleWhileRevalidate
      else .stale).rank ≤
    (if strict then Freshness.stale else if p' then .fresh else if q' then .staleWhileRevalidate
      else .stale).rank := by
  cases strict <;> cases p <;> cases q <;> cases p' <;> cases q' <;> simp_all [Freshness.rank]

def accepts (request : CacheControl) (staleness : ℕ) : Bool :=
  match request.maxStale with
  | some none => true
  | some (some maxStale) => decide (staleness ≤ maxStale * second)
  | none => false

theorem evaluateStale_eq (cc request : CacheControl) (staleness : ℕ) : evaluateStale cc request staleness =
      if cc.mustRevalidate then .stale
      else if accepts request staleness then .fresh
      else if cc.staleWhileRevalidate.any fun window => decide (staleness < window * second) then
        .staleWhileRevalidate
      else .stale := by
  rw [evaluateStale]
  rfl

theorem accepts_less {request : CacheControl} {less more : ℕ} (grows : less ≤ more)
    (accepted : accepts request more = true) : accepts request less = true := by
  unfold accepts at *
  split at accepted
  · rfl
  · simp only [decide_eq_true_eq] at accepted ⊢
    exact grows.trans accepted
  · cases accepted

theorem evaluateStale_mono (cc request : CacheControl) {less more : ℕ} (grows : less ≤ more) :
    (evaluateStale cc request less).rank ≤ (evaluateStale cc request more).rank := by
  rw [evaluateStale_eq,evaluateStale_eq]
  apply rank_decays (accepts_less grows)
  intro window
  obtain ⟨width,given,within⟩ := (Option.any_eq_true _ _).mp window
  refine (Option.any_eq_true _ _).mpr ⟨width,given,?_⟩
  rw [decide_eq_true_eq] at within ⊢
  exact grows.trans_lt within

def judge (cc request : CacheControl) (lifetime age : ℕ) : Freshness :=
  if cc.noCache || request.noCache then .stale
  else if request.maxAge.any fun limit => decide (limit * second < age) then .stale
  else if request.minFresh.any fun fresh => decide (lifetime - age < fresh * second) then .stale
  else if age < lifetime then .fresh
  else evaluateStale cc request (age - lifetime)

theorem judge_mono (cc request : CacheControl) (lifetime : ℕ) {less more : ℕ} (grows : less ≤ more) :
    (judge cc request lifetime less).rank ≤ (judge cc request lifetime more).rank := by
  rw [judge,judge]
  by_cases uncached : (cc.noCache || request.noCache) = true
  · rw [if_pos uncached,if_pos uncached]
  rw [if_neg uncached,if_neg uncached]
  by_cases old : (request.maxAge.any fun limit => decide (limit * second < more)) = true
  · rw [if_pos old]
    exact rank_le_stale _
  by_cases short : (request.minFresh.any fun fresh => decide (lifetime - more < fresh * second)) = true
  · rw [if_neg old,if_pos short]
    exact rank_le_stale _
  have young : ¬(request.maxAge.any fun limit => decide (limit * second < less)) = true := by
    intro there
    obtain ⟨limit,given,beyond⟩ := (Option.any_eq_true _ _).mp there
    apply old
    refine (Option.any_eq_true _ _).mpr ⟨limit,given,?_⟩
    rw [decide_eq_true_eq] at beyond ⊢
    exact beyond.trans_le grows
  have long : ¬(request.minFresh.any fun fresh => decide (lifetime - less < fresh * second)) = true := by
    intro there
    obtain ⟨wanted,given,below⟩ := (Option.any_eq_true _ _).mp there
    apply short
    refine (Option.any_eq_true _ _).mpr ⟨wanted,given,?_⟩
    rw [decide_eq_true_eq] at below ⊢
    exact (Nat.sub_le_sub_left grows lifetime).trans_lt below
  rw [if_neg young,if_neg long,if_neg old,if_neg short]
  by_cases fresh : less < lifetime
  · rw [if_pos fresh]
    exact Nat.zero_le _
  · rw [if_neg fresh,if_neg fun small => fresh (grows.trans_lt small)]
    exact evaluateStale_mono cc request (Nat.sub_le_sub_right grows lifetime)

theorem judge_strict {cc : CacheControl} (request : CacheControl) {lifetime age : ℕ}
    (strict : cc.mustRevalidate = true) (spent : lifetime ≤ age) : judge cc request lifetime age = .stale := by
  rw [judge,if_neg (Nat.not_lt.mpr spent),evaluateStale_eq,if_pos strict]
  split_ifs <;> rfl

/-- What a request must not ask for in order to get a response that is fresh. -/
def Lenient (cc request : CacheControl) (age : ℕ) : Prop :=
  cc.noCache = false ∧ request.noCache = false ∧
    ∀ limit, request.maxAge = some limit → age ≤ limit * second

theorem within_limit (limit : Option ℕ) (unit age : ℕ) :
    (limit.any fun limit => decide (limit * unit < age)) = false ↔
      ∀ most, limit = some most → age ≤ most * unit := by
  cases limit with
  | none => simp
  | some limit => simp

theorem never_fresh {cc request : CacheControl} (maxStale : request.maxStale = none) (staleness : ℕ) :
    evaluateStale cc request staleness ≠ .fresh := by
  have refused : accepts request staleness = false := by rw [accepts,maxStale]
  rw [evaluateStale_eq,refused]
  split_ifs with _ absurdity
  · intro same
    cases same
  · cases absurdity
  · intro same
    cases same
  · intro same
    cases same

theorem judge_fresh {cc request : CacheControl} {lifetime age : ℕ} (maxStale : request.maxStale = none)
    (minFresh : request.minFresh = none) :
    judge cc request lifetime age = .fresh ↔ age < lifetime ∧ Lenient cc request age := by
  have late : evaluateStale cc request (age - lifetime) ≠ .fresh := never_fresh maxStale _
  rw [judge,Lenient,← within_limit,minFresh]
  generalize (request.maxAge.any fun limit => decide (limit * second < age)) = old
  by_cases uncached : (cc.noCache || request.noCache) = true
  · have held : ¬(cc.noCache = false ∧ request.noCache = false ∧ old = false) := by
      rintro ⟨left,right,-⟩
      simp [left,right] at uncached
    rw [if_pos uncached]
    simp [held]
  · have open_ : cc.noCache = false ∧ request.noCache = false := by simpa using uncached
    rw [if_neg uncached]
    cases old with
    | true => simp
    | false =>
      by_cases fresh : age < lifetime
      · simp [fresh,open_]
      · simp [fresh,late]

theorem evaluate_eq (stored : StoredResponse) (request : CacheControl) (now : SystemTime) :
    evaluate parseHttpDate stored request now = judge (CacheControl.fromHeaders stored.headers) request
        (freshnessLifetime parseHttpDate stored.status (CacheControl.fromHeaders stored.headers)
          stored.headers stored.responseTime)
        (currentAge parseHttpDate stored.headers stored.requestTime stored.responseTime now) := by
  rw [evaluate,judge]

/-- Time makes no stored response better; `no-cache` always asks the server, `must-revalidate` once
the lifetime is over; without leave to be stale a response is fresh just below its lifetime, unless
`no-cache` or a maximal age of the request is in the way. -/
theorem freshness_decays (stored : StoredResponse) (request : CacheControl) :
    let cc := CacheControl.fromHeaders stored.headers
    let lifetime :=
      freshnessLifetime parseHttpDate stored.status cc stored.headers stored.responseTime
    let age := currentAge parseHttpDate stored.headers stored.requestTime stored.responseTime
    (∀ now later, now ≤ later →
      (evaluate parseHttpDate stored request now).rank ≤
        (evaluate parseHttpDate stored request later).rank) ∧
    (cc.noCache = true → ∀ now, evaluate parseHttpDate stored request now = .stale) ∧
    (cc.mustRevalidate = true → ∀ now, lifetime ≤ age now →
      evaluate parseHttpDate stored request now = .stale) ∧
    (request.maxStale = none → request.minFresh = none → ∀ now,
      (evaluate parseHttpDate stored request now = .fresh ↔
        age now < lifetime ∧ Lenient cc request (age now))) := by
  intro cc lifetime age
  refine ⟨?_,?_,?_,?_⟩
  · intro now later after
    rw [evaluate_eq,evaluate_eq]
    exact judge_mono _ _ _ (currentAge_mono parseHttpDate _ _ _ after)
  · intro uncached now
    rw [evaluate_eq,judge,if_pos]
    rw [Bool.or_eq_true]
    exact .inl uncached
  · intro strict now spent
    rw [evaluate_eq]
    exact judge_strict request strict spent
  · intro maxStale minFresh now
    rw [evaluate_eq]
    exact judge_fresh maxStale minFresh

/-- A maximal age of the request refuses a response that is younger than its lifetime. -/
theorem maxAge_refuses :
    ¬∀ (parseHttpDate : String → Option SystemTime) (stored : StoredResponse) (request : CacheControl)
      (now : SystemTime), request.maxStale = none → request.minFresh = none →
      (evaluate parseHttpDate stored request now = .fresh ↔
        currentAge parseHttpDate stored.headers stored.requestTime stored.responseTime now <
          freshnessLifetime parseHttpDate stored.status (CacheControl.fromHeaders stored.headers)
            stored.headers stored.responseTime) := by
  intro all
  have fresh := (all (fun _ => none) (Sample.response []) { CacheControl.empty with maxAge := some 0 }
    1 rfl rfl).mpr (by decide)
  revert fresh
  decide

end aging

section merging

variable (fresh : Headers)

def fieldsOf (headers : Headers) (name : String) : Headers :=
  headers.filter fun h => Text.eqIgnoreAsciiCase h.1 name

def replaceFields (stored : Headers) (name : String) : Headers :=
  (stored.filter fun h => !Text.eqIgnoreAsciiCase h.1 name) ++ fieldsOf fresh name

def updatedNames (replaced : List String) : Headers → List String
  | [] => []
  | (name,_) :: rest =>
    if isExcludedFromUpdate name || replaced.contains name then updatedNames replaced rest
    else name :: updatedNames (replaced ++ [name]) rest

theorem mergeFrom_eq (replaced : List String) (stored rest : Headers) : mergeFrom fresh replaced stored rest =
      (updatedNames replaced rest).foldl (replaceFields fresh) stored := by
  induction rest generalizing replaced stored with
  | nil => rfl
  | cons head rest ih =>
    rw [mergeFrom,updatedNames]
    split
    · exact ih replaced stored
    · exact ih _ _

theorem mem_updatedNames {replaced : List String} {rest : Headers} {name : String}
    (there : name ∈ updatedNames replaced rest) :
    ∃ h ∈ rest, h.1 = name ∧ isExcludedFromUpdate h.1 = false := by
  induction rest generalizing replaced with
  | nil => cases there
  | cons head rest ih =>
    rw [updatedNames] at there
    split at there
    next =>
      obtain ⟨h,member,same⟩ := ih there
      exact ⟨h,List.mem_cons_of_mem _ member,same⟩
    next fresh =>
      rcases List.mem_cons.mp there with rfl | there
      · rw [Bool.or_eq_true,not_or,Bool.not_eq_true] at fresh
        exact ⟨head,List.mem_cons_self,rfl,fresh.1⟩
      · obtain ⟨h,member,same⟩ := ih there
        exact ⟨h,List.mem_cons_of_mem _ member,same⟩

theorem updatedNames_complete {replaced : List String} {rest : Headers} {h : String × String}
    (there : h ∈ rest) (included : isExcludedFromUpdate h.1 = false) :
    h.1 ∈ replaced ∨ h.1 ∈ updatedNames replaced rest := by
  induction rest generalizing replaced with
  | nil => cases there
  | cons head rest ih =>
    rw [updatedNames]
    split
    next passed =>
      rcases List.mem_cons.mp there with rfl | there
      · rw [included,Bool.false_or] at passed
        exact .inl (by simpa using passed)
      · exact ih there
    next =>
      rcases List.mem_cons.mp there with rfl | there
      · exact .inr List.mem_cons_self
      · have found : h.1 ∈ replaced ++ [head.1] ∨ h.1 ∈ updatedNames (replaced ++ [head.1]) rest :=
          ih there
        rcases found with before | later
        · rcases List.mem_append.mp before with before | now
          · exact .inl before
          · exact .inr (List.mem_singleton.mp now ▸ List.mem_cons_self)
        · exact .inr (List.mem_cons_of_mem _ later)

theorem same_name {left right : String} : Text.eqIgnoreAsciiCase left right = true ↔
      left.toList.map Char.toLower = right.toList.map Char.toLower :=
  beq_iff_eq

theorem fieldsOf_replaceFields (stored : Headers) (name other : String) :
    fieldsOf (replaceFields fresh stored name) other =
      if Text.eqIgnoreAsciiCase name other then fieldsOf fresh other else fieldsOf stored other := by
  rw [replaceFields,fieldsOf,List.filter_append,fieldsOf,List.filter_filter,List.filter_filter]
  split
  next same =>
    have equal := same_name.mp same
    have none : (stored.filter fun h => Text.eqIgnoreAsciiCase h.1 other &&
        !Text.eqIgnoreAsciiCase h.1 name) = [] := by
      apply List.filter_eq_nil_iff.mpr
      intro h _ both
      rw [Bool.and_eq_true,Bool.not_eq_true',Text.eqIgnoreAsciiCase,Text.eqIgnoreAsciiCase,equal] at both
      rw [both.1] at both
      cases both.2
    rw [none,List.nil_append]
    apply List.filter_congr
    intro h _
    rw [Text.eqIgnoreAsciiCase,Text.eqIgnoreAsciiCase,equal,Bool.and_self]
  next other_ =>
    have apart : ∀ h : String × String, Text.eqIgnoreAsciiCase h.1 other = true →
        Text.eqIgnoreAsciiCase h.1 name = false := by
      intro h here
      rw [← Bool.not_eq_true]
      intro there
      exact other_ (same_name.mpr ((same_name.mp there).symm.trans (same_name.mp here)))
    have none : (fresh.filter fun h => Text.eqIgnoreAsciiCase h.1 other &&
        Text.eqIgnoreAsciiCase h.1 name) = [] := by
      apply List.filter_eq_nil_iff.mpr
      intro h _ both
      rw [Bool.and_eq_true] at both
      rw [apart h both.1] at both
      cases both.2
    rw [none,List.append_nil]
    apply List.filter_congr
    intro h _
    cases here : Text.eqIgnoreAsciiCase h.1 other with
    | true => rw [apart h here]; rfl
    | false => rfl

theorem fieldsOf_foldl (names : List String) (stored : Headers) (name : String) :
    fieldsOf (names.foldl (replaceFields fresh) stored) name =
      if names.any fun n => Text.eqIgnoreAsciiCase n name then fieldsOf fresh name
      else fieldsOf stored name := by
  induction names generalizing stored with
  | nil => rfl
  | cons n names ih =>
    rw [List.foldl_cons,ih,List.any_cons,fieldsOf_replaceFields]
    cases names.any fun n => Text.eqIgnoreAsciiCase n name <;>
      cases Text.eqIgnoreAsciiCase n name <;> rfl

theorem foldl_replaceFields (names : List String) (stored added : Headers) :
    names.foldl (replaceFields fresh) (stored ++ added) =
      (stored.filter fun h => !(names.any fun n => Text.eqIgnoreAsciiCase h.1 n)) ++
        names.foldl (replaceFields fresh) added := by
  induction names generalizing stored added with
  | nil => simp
  | cons n names ih =>
    have step : replaceFields fresh (stored ++ added) n =
        (stored.filter fun h => !Text.eqIgnoreAsciiCase h.1 n) ++ replaceFields fresh added n := by
      rw [replaceFields,replaceFields,List.filter_append,List.append_assoc]
    rw [List.foldl_cons,List.foldl_cons,step,ih,List.filter_filter]
    congr 1
    apply List.filter_congr
    intro h _
    rw [List.any_cons,Bool.not_or,Bool.and_comm]

theorem foldl_names (names : List String) {h : String × String}
    (there : h ∈ names.foldl (replaceFields fresh) []) :
    (names.any fun n => Text.eqIgnoreAsciiCase h.1 n) = true := by
  by_contra apart
  have untouched : (names.any fun n => Text.eqIgnoreAsciiCase n h.1) = false := by
    rw [Bool.not_eq_true,List.any_eq_false] at apart
    rw [List.any_eq_false]
    intro n member same
    exact apart n member (same_name.mpr (same_name.mp same).symm)
  have fields := fieldsOf_foldl fresh names [] h.1
  rw [untouched] at fields
  have member : h ∈ fieldsOf (names.foldl (replaceFields fresh) []) h.1 :=
    List.mem_filter.mpr ⟨there,same_name.mpr rfl⟩
  rw [fields] at member
  cases member

theorem foldl_idempotent (names : List String) (stored : Headers) :
    names.foldl (replaceFields fresh) (names.foldl (replaceFields fresh) stored) =
      names.foldl (replaceFields fresh) stored := by
  have split := foldl_replaceFields fresh names stored []
  have again := foldl_replaceFields fresh names (names.foldl (replaceFields fresh) stored) []
  rw [List.append_nil] at split again
  have gone : ((names.foldl (replaceFields fresh) []).filter fun h =>
      !(names.any fun n => Text.eqIgnoreAsciiCase h.1 n)) = [] := by
    apply List.filter_eq_nil_iff.mpr
    intro h there
    rw [foldl_names fresh names there]
    exact Bool.false_ne_true
  calc
    _ = _ := again
    _ = _ := by rw [split,List.filter_append,gone,List.append_nil,List.filter_filter]
    _ = names.foldl (replaceFields fresh) stored := by
      rw [split]
      simp only [Bool.and_self]

/-- A name that the 304 has in some spelling that is not excluded gets the fields of the 304, every
other one keeps the stored fields, and the same 304 changes nothing more. -/
theorem mergeNotModified_fields (stored : Headers) : (∀ name, fieldsOf (mergeNotModified stored fresh) name =
      if fresh.any fun h => Text.eqIgnoreAsciiCase h.1 name && !isExcludedFromUpdate h.1 then
        fieldsOf fresh name
      else fieldsOf stored name) ∧
    mergeNotModified (mergeNotModified stored fresh) fresh = mergeNotModified stored fresh := by
  constructor
  · intro name
    have same : ((updatedNames [] fresh).any fun n => Text.eqIgnoreAsciiCase n name) =
        fresh.any fun h => Text.eqIgnoreAsciiCase h.1 name && !isExcludedFromUpdate h.1 := by
      rw [Bool.eq_iff_iff,List.any_eq_true,List.any_eq_true]
      constructor
      · rintro ⟨n,member,equal⟩
        obtain ⟨h,there,rfl,included⟩ := mem_updatedNames member
        exact ⟨h,there,by rw [equal,included]; rfl⟩
      · rintro ⟨h,there,both⟩
        rw [Bool.and_eq_true,Bool.not_eq_true'] at both
        have found : h.1 ∈ [] ∨ h.1 ∈ updatedNames [] fresh := updatedNames_complete there both.2
        exact ⟨h.1,found.resolve_left List.not_mem_nil,both.1⟩
    rw [mergeNotModified,mergeFrom_eq,fieldsOf_foldl,same]
  · rw [mergeNotModified,mergeNotModified,mergeFrom_eq,mergeFrom_eq,foldl_idempotent]

end merging

end Sharko.Netstack.Cache.Policy
