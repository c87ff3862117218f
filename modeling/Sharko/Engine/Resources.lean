import Sharko.Library.FiniteMap
import Sharko.Library.Runs

/-! The count of the subresource requests in flight (`CountingNetProvider` in
`crates/engine/src/host.rs`, `load_html` in `renderer.rs`). Requests are made on the main thread,
or on a network thread by the handler of a response (an `@import`); each access to the counter and
to the generation is a step of its own. -/

namespace Sharko.Engine.Resources
open Library FiniteMap

inductive Stage where
  /-- `fetch` has read the generation. -/
  | reading
  | counted
  | matched
deriving DecidableEq

structure Request where
  document : Nat
  generation : Nat
  stage : Stage

structure Shared where
  pendingResources : Nat
  resourceGeneration : Nat
  document : Nat
  replacing : Bool
  requests : FiniteMap Nat Request
  issued : Nat
  making : Option Nat

def Shared.new : Shared := ⟨0,0,0,false,∅,0,none⟩

inductive Action where
  | request
  /-- The handler of a request makes another one. -/
  | nested (parent : Nat)
  | count (id : Nat)
  | check (id : Nat)
  | uncount (id : Nat)
  | bump
  | reset

def checkedSub (n k : Nat) : Option Nat := if k ≤ n then some (n - k) else none

namespace Shared

variable (s : Shared)

def issue (document : Nat) : Shared :=
  { s with
    requests := s.requests.insert s.issued ⟨document,s.resourceGeneration,.reading⟩
    issued := s.issued + 1 }

def request : Option Shared :=
  if s.replacing ∨ s.making.isSome then none
  else some { s.issue s.document with making := some s.issued }

def nested (parent : Nat) : Option Shared :=
  (s.requests.lookup parent).bind fun r =>
    if r.stage = .counted then some (s.issue r.document) else none

def count (id : Nat) : Option Shared :=
  (s.requests.lookup id).bind fun r =>
    if r.stage = .reading then
      some { s with
        pendingResources := (s.pendingResources + 1) % 2 ^ 64
        requests := s.requests.insert id { r with stage := .counted }
        making := if s.making = some id then none else s.making }
    else none

def check (id : Nat) : Option Shared :=
  (s.requests.lookup id).bind fun r =>
    if r.stage = .counted then
      if s.resourceGeneration = r.generation then
        some { s with requests := s.requests.insert id { r with stage := .matched } }
      else some { s with requests := s.requests.erase id }
    else none

def uncount (id : Nat) : Option Shared :=
  (s.requests.lookup id).bind fun r =>
    if r.stage = .matched then
      some { s with
        pendingResources := (checkedSub s.pendingResources 1).getD s.pendingResources
        requests := s.requests.erase id }
    else none

def bump : Option Shared :=
  if s.replacing ∨ s.making.isSome then none
  else some { s with
    resourceGeneration := (s.resourceGeneration + 1) % 2 ^ 64
    replacing := true }

def reset : Option Shared :=
  if s.replacing then
    some { s with pendingResources := 0, document := s.document + 1, replacing := false }
  else none

def step : Action → Option Shared
  | .request => s.request
  | .nested parent => s.nested parent
  | .count id => s.count id
  | .check id => s.check id
  | .uncount id => s.uncount id
  | .bump => s.bump
  | .reset => s.reset

def inFlight : Nat :=
  total (fun r => if r.document = s.document ∧ r.stage ≠ .reading then 1 else 0) s.requests

/-- What the event loop reads, which is never in the middle of `load_html`. -/
def Exact : Prop := s.replacing = false → s.pendingResources = s.inFlight

end Shared

/-- A completion does not wrap the counter below zero, and changes nothing for a document that has
been replaced. -/
def Completes (s : Shared) (a : Action) (next : Shared) : Prop :=
  ∀ id r, a = .check id ∨ a = .uncount id → s.requests.lookup id = some r →
    next.pendingResources ≤ s.pendingResources ∧
      (s.replacing = false → r.document ≠ s.document → next.pendingResources = s.pendingResources)

/-- The generation that a request or its completion has read is still the current one when it
goes on to the counter, and handlers of replaced documents request nothing. -/
def Unraced (s : Shared) : Action → Prop
  | .nested parent => ∀ r, s.requests.lookup parent = some r → r.generation = s.resourceGeneration
  | .count id => s.pendingResources + 1 < 2 ^ 64 ∧ ∀ r, s.requests.lookup id = some r →
    r.generation = s.resourceGeneration ∨ s.replacing = true
  | .uncount id => ∀ r, s.requests.lookup id = some r →
    r.generation = s.resourceGeneration ∨ s.replacing = true ∨ s.pendingResources = 0
  | .bump => s.resourceGeneration + 1 < 2 ^ 64
  | _ => True

instance (s : Shared) : ∀ a, Decidable (Unraced s a)
  | .nested parent => inferInstanceAs (Decidable (∀ r ∈ s.requests.lookup parent,
    r.generation = s.resourceGeneration))
  | .count id => inferInstanceAs (Decidable (_ ∧ ∀ r ∈ s.requests.lookup id,
    r.generation = s.resourceGeneration ∨ s.replacing = true))
  | .uncount id => inferInstanceAs (Decidable (∀ r ∈ s.requests.lookup id,
    r.generation = s.resourceGeneration ∨ s.replacing = true ∨ s.pendingResources = 0))
  | .bump => inferInstanceAs (Decidable (_ < _))
  | .request | .check _ | .reset => isTrue trivial

/-- While a document stays, its requests are those with the current generation. -/
structure Known (s : Shared) (r : Request) : Prop where
  document : r.document ≤ s.document
  generation : r.generation ≤ s.resourceGeneration
  current : s.replacing = false → (r.document = s.document ↔ r.generation = s.resourceGeneration)
  outdated : s.replacing = true → r.generation ≠ s.resourceGeneration

structure Tracked (s : Shared) : Prop where
  fresh : ∀ id r, s.requests.lookup id = some r → id < s.issued
  known : ∀ id r, s.requests.lookup id = some r → Known s r
  exact : s.Exact

theorem new_tracked : Tracked .new where
  fresh _ _ found := by cases found
  known _ _ found := by cases found
  exact _ := rfl

def weight (document : Nat) (r : Request) : Nat :=
  if r.document = document ∧ r.stage ≠ .reading then 1 else 0

theorem inFlight_insert (s next : Shared) {id : Nat} {v : Request}
    (requests : next.requests = s.requests.insert id v) (document : next.document = s.document) :
    next.inFlight + (s.requests.lookup id).elim 0 (weight s.document) = s.inFlight + weight s.document v := by
  have others : ∀ j, j ≠ id → next.requests.lookup j = s.requests.lookup j := by
    intro j other
    rw [requests]
    exact Finmap.lookup_insert_of_ne _ other
  have change := total_change (weight s.document) id others
  have there : next.requests.lookup id = some v := by
    rw [requests]
    exact Finmap.lookup_insert _
  rw [there] at change
  unfold Shared.inFlight
  rw [document]
  exact change

theorem inFlight_erase (s next : Shared) {id : Nat} {r : Request}
    (found : s.requests.lookup id = some r) (requests : next.requests = s.requests.erase id)
    (document : next.document = s.document) : next.inFlight + weight s.document r = s.inFlight := by
  have change := total_split (weight s.document) s.requests id
  rw [found] at change
  unfold Shared.inFlight
  rw [document,requests]
  exact (Nat.add_comm _ _).trans change.symm

theorem Tracked.restage {s next : Shared} (tracked : Tracked s) {id : Nat} {r : Request}
    {stage : Stage} (found : s.requests.lookup id = some r)
    (requests : next.requests = s.requests.insert id { r with stage := stage })
    (issued : next.issued = s.issued)
    (same : ∀ v, Known s v → Known next v) (exact : next.Exact) : Tracked next := by
  refine ⟨?_,?_,exact⟩
  · intro j v held
    rw [requests,lookup_insert_if] at held
    rw [issued]
    split_ifs at held with here
    · exact here ▸ tracked.fresh id r found
    · exact tracked.fresh j v held
  · intro j v held
    rw [requests,lookup_insert_if] at held
    split_ifs at held with here
    · obtain rfl := Option.some.inj held
      have known := same r (tracked.known id r found)
      exact ⟨known.document,known.generation,known.current,known.outdated⟩
    · exact same v (tracked.known j v held)

theorem Tracked.finish {s next : Shared} (tracked : Tracked s) {id : Nat}
    (requests : next.requests = s.requests.erase id) (issued : next.issued = s.issued)
    (same : ∀ v, Known s v → Known next v) (exact : next.Exact) : Tracked next := by
  refine ⟨?_,?_,exact⟩
  · intro j v held
    rw [requests,lookup_erase_if] at held
    rw [issued]
    split_ifs at held
    exact tracked.fresh j v held
  · intro j v held
    rw [requests,lookup_erase_if] at held
    split_ifs at held
    exact same v (tracked.known j v held)

theorem Tracked.issue {s : Shared} (tracked : Tracked s) (still : s.replacing = false) :
    Tracked (s.issue s.document) := by
  refine ⟨?_,?_,?_⟩
  · intro j v held
    rw [Shared.issue,lookup_insert_if] at held
    change j < s.issued + 1
    split_ifs at held with here
    · omega
    · exact (tracked.fresh j v held).trans (Nat.lt_succ_self _)
  · intro j v held
    rw [Shared.issue,lookup_insert_if] at held
    split_ifs at held with here
    · obtain rfl := Option.some.inj held
      exact ⟨le_refl _,le_refl _,fun _ => iff_of_true rfl rfl,
        fun replacing => absurd (still.symm.trans replacing) Bool.false_ne_true⟩
    · have known := tracked.known j v held
      exact ⟨known.document,known.generation,known.current,known.outdated⟩
  · intro _
    have unused : s.requests.lookup s.issued = none := by
      cases held : s.requests.lookup s.issued with
      | none => rfl
      | some v => exact absurd (tracked.fresh _ v held) (lt_irrefl _)
    have change := inFlight_insert s (s.issue s.document) rfl rfl
    have uncounted : weight s.document ⟨s.document,s.resourceGeneration,.reading⟩ = 0 :=
      if_neg fun both => both.2 rfl
    rw [unused,uncounted] at change
    exact (tracked.exact still).trans change.symm

theorem request_tracked {s next : Shared} (tracked : Tracked s) (taken : s.request = some next) :
    Tracked next := by
  unfold Shared.request at taken
  split_ifs at taken with busy
  obtain rfl := Option.some.inj taken
  have still : s.replacing = false := by
    simpa using (not_or.mp busy).1
  have issued := tracked.issue still
  exact ⟨issued.fresh,fun id r held => ⟨(issued.known id r held).document,
    (issued.known id r held).generation,(issued.known id r held).current,
    (issued.known id r held).outdated⟩,issued.exact⟩

theorem nested_tracked {s next : Shared} {parent : Nat} (tracked : Tracked s)
    (unraced : Unraced s (.nested parent)) (taken : s.nested parent = some next) : Tracked next := by
  obtain ⟨r,found,taken⟩ := Option.bind_eq_some_iff.mp taken
  split_ifs at taken with stage
  obtain rfl := Option.some.inj taken
  have known := tracked.known parent r found
  have still : s.replacing = false :=
    Bool.eq_false_of_not_eq_true fun replacing => known.outdated replacing (unraced r found)
  rw [(known.current still).mpr (unraced r found)]
  exact tracked.issue still

theorem count_tracked {s next : Shared} {id : Nat} (tracked : Tracked s)
    (unraced : Unraced s (.count id)) (taken : s.count id = some next) : Tracked next := by
  obtain ⟨r,found,taken⟩ := Option.bind_eq_some_iff.mp taken
  have stage : r.stage = .reading := by
    by_contra other
    rw [if_neg other] at taken
    cases taken
  rw [if_pos stage] at taken
  obtain rfl := Option.some.inj taken
  refine tracked.restage found rfl rfl
    (fun v known => ⟨known.document,known.generation,known.current,known.outdated⟩) ?_
  intro still
  change s.replacing = false at still
  have here : r.document = s.document := by
    rcases unraced.2 r found with same | replacing
    · exact ((tracked.known id r found).current still).mpr same
    · exact absurd (still.symm.trans replacing) Bool.false_ne_true
  have change := inFlight_insert s
    { s with requests := s.requests.insert id { r with stage := .counted } } rfl rfl
  have before : weight s.document r = 0 := if_neg fun both => both.2 stage
  have after : weight s.document { r with stage := .counted } = 1 := if_pos ⟨here,nofun⟩
  rw [found,Option.elim,before,after] at change
  have bounded := Nat.mod_eq_of_lt unraced.1
  exact (bounded.trans (congrArg (· + 1) (tracked.exact still))).trans change.symm

theorem check_tracked {s next : Shared} {id : Nat} (tracked : Tracked s) (taken : s.check id = some next) :
    Tracked next ∧ next.pendingResources = s.pendingResources := by
  obtain ⟨r,found,taken⟩ := Option.bind_eq_some_iff.mp taken
  have same : ∀ requests v, Known s v → Known { s with requests := requests } v := fun _ _ known =>
    ⟨known.document,known.generation,known.current,known.outdated⟩
  split_ifs at taken with stage generation
  · obtain rfl := Option.some.inj taken
    refine ⟨tracked.restage found rfl rfl (same _) ?_,rfl⟩
    intro still
    have change := inFlight_insert s
      { s with requests := s.requests.insert id { r with stage := .matched } } rfl rfl
    have unchanged : weight s.document { r with stage := .matched } = weight s.document r := by
      simp [weight,stage]
    rw [found,Option.elim,unchanged] at change
    exact (tracked.exact still).trans (Nat.add_right_cancel change).symm
  · obtain rfl := Option.some.inj taken
    refine ⟨tracked.finish rfl rfl (same _) ?_,rfl⟩
    intro still
    have other : weight s.document r = 0 := if_neg fun both =>
      generation (((tracked.known id r found).current still).mp both.1).symm
    have change := inFlight_erase s { s with requests := s.requests.erase id } found rfl rfl
    rw [other] at change
    exact (tracked.exact still).trans change.symm

theorem uncount_tracked {s next : Shared} {id : Nat} (tracked : Tracked s)
    (unraced : Unraced s (.uncount id)) (taken : s.uncount id = some next) : Tracked next := by
  obtain ⟨r,found,taken⟩ := Option.bind_eq_some_iff.mp taken
  split_ifs at taken with stage
  obtain rfl := Option.some.inj taken
  refine tracked.finish rfl rfl
    (fun v known => ⟨known.document,known.generation,known.current,known.outdated⟩) ?_
  intro still
  change s.replacing = false at still
  have change := inFlight_erase s { s with requests := s.requests.erase id } found rfl rfl
  have exact_ := tracked.exact still
  by_cases here : r.document = s.document
  · have one : weight s.document r = 1 := if_pos ⟨here,by rw [stage]; exact nofun⟩
    rw [one] at change
    have some_ : checkedSub s.pendingResources 1 = some (s.pendingResources - 1) :=
      if_pos (by omega)
    change (checkedSub s.pendingResources 1).getD s.pendingResources = _
    rw [some_]
    change s.pendingResources - 1 = Shared.inFlight { s with requests := s.requests.erase id }
    omega
  · have zero : weight s.document r = 0 := if_neg fun both => here both.1
    rw [zero] at change
    have empty : s.pendingResources = 0 := by
      rcases unraced r found with same | replacing | empty
      · exact absurd (((tracked.known id r found).current still).mpr same) here
      · exact absurd (still.symm.trans replacing) Bool.false_ne_true
      · exact empty
    change (checkedSub s.pendingResources 1).getD s.pendingResources = _
    rw [empty]
    change 0 = Shared.inFlight { s with requests := s.requests.erase id }
    omega

theorem bump_tracked {s next : Shared} (tracked : Tracked s) (unraced : Unraced s .bump)
    (taken : s.bump = some next) : Tracked next := by
  unfold Shared.bump at taken
  split_ifs at taken
  obtain rfl := Option.some.inj taken
  have up : (s.resourceGeneration + 1) % 2 ^ 64 = s.resourceGeneration + 1 :=
    Nat.mod_eq_of_lt unraced
  rw [up]
  refine ⟨tracked.fresh,fun id r held => ?_,nofun⟩
  have known := tracked.known id r held
  exact ⟨known.document,known.generation.trans (Nat.le_succ _),nofun,fun _ =>
    (Nat.lt_succ_of_le known.generation).ne⟩

theorem reset_tracked {s next : Shared} (tracked : Tracked s) (taken : s.reset = some next) : Tracked next := by
  unfold Shared.reset at taken
  split_ifs at taken with replacing
  obtain rfl := Option.some.inj taken
  have older : ∀ id r, s.requests.lookup id = some r → r.document ≠ s.document + 1 :=
    fun id r held => (Nat.lt_succ_of_le (tracked.known id r held).document).ne
  refine ⟨tracked.fresh,fun id r held => ?_,fun _ => ?_⟩
  · have known := tracked.known id r held
    exact ⟨known.document.trans (Nat.le_succ _),known.generation,
      fun _ => iff_of_false (older id r held) (known.outdated replacing),nofun⟩
  · exact (total_zero _ fun id r held => if_neg fun both => older id r held both.1).symm

theorem step_tracked {s next : Shared} {a : Action} (tracked : Tracked s) (unraced : Unraced s a)
    (taken : s.step a = some next) : Tracked next := by
  cases a with
  | request => exact request_tracked tracked taken
  | nested parent => exact nested_tracked tracked unraced taken
  | count id => exact count_tracked tracked unraced taken
  | check id => exact (check_tracked tracked taken).1
  | uncount id => exact uncount_tracked tracked unraced taken
  | bump => exact bump_tracked tracked unraced taken
  | reset => exact reset_tracked tracked taken

theorem step_completes {s next : Shared} {a : Action} (tracked : Tracked s)
    (unraced : Unraced s a) (taken : s.step a = some next) : Completes s a next := by
  rintro id r (rfl | rfl) found
  · have same := (check_tracked tracked taken).2
    exact ⟨same.le,fun _ _ => same⟩
  · obtain ⟨r',found',taken⟩ := Option.bind_eq_some_iff.mp taken
    split_ifs at taken
    obtain rfl := Option.some.inj taken
    change (checkedSub s.pendingResources 1).getD s.pendingResources ≤ _ ∧ (_ → _ →
      (checkedSub s.pendingResources 1).getD s.pendingResources = _)
    constructor
    · unfold checkedSub
      split_ifs
      · exact Nat.sub_le _ _
      · exact le_refl _
    · intro still other
      rcases unraced r found with same | replacing | empty
      · exact absurd (((tracked.known id r found).current still).mpr same) other
      · exact absurd (still.symm.trans replacing) Bool.false_ne_true
      · rw [empty]
        rfl

/-- The counter is exact along every run without these races. -/
theorem pending_exact {actions : List Action} (unraced : Runs.Guarded Shared.step Unraced .new actions) :
    Runs.Always Shared.step Shared.Exact .new actions ∧ Runs.Each Shared.step Completes .new actions :=
  ⟨Runs.always_of_guarded Shared.step (fun _ _ _ tracked unraced taken =>
      step_tracked tracked unraced taken) (fun _ tracked => tracked.exact) new_tracked unraced,
    Runs.each_of_guarded Shared.step (fun _ _ _ tracked unraced taken =>
      ⟨step_tracked tracked unraced taken,step_completes tracked unraced taken⟩) new_tracked unraced⟩

/-- A request and its completion, a navigation while another one is in flight, and an `@import`
of the new document. -/
def calm : List Action :=
  [.request,.count 0,.request,.count 1,.check 0,.uncount 0,.bump,.reset,.check 1,
    .request,.count 2,.nested 2,.count 3,.check 2,.uncount 2]

theorem pending_exact_calm : Runs.Always Shared.step Shared.Exact .new calm ∧
    Runs.Each Shared.step Completes .new calm :=
  pending_exact (by decide)

/-- A completion that has compared its generation before a navigation takes away a request of the
new document. -/
theorem late_completion_uncounts :
    ¬Runs.Always Shared.step Shared.Exact .new [.request,.count 0,.check 0,.bump,.reset,.request,
      .count 1,.uncount 0] := by
  intro always
  have counts : (Runs.exec Shared.step .new [.request,.count 0,.check 0,.bump,.reset,.request,
      .count 1,.uncount 0]).map (fun s => (s.replacing,s.pendingResources,s.inFlight)) =
        some (false,0,1) := by
    decide
  obtain ⟨final,ran,counts⟩ := Option.map_eq_some_iff.mp counts
  have exact_ := Runs.always_final Shared.step always ran
  simp only [Prod.mk.injEq] at counts
  obtain ⟨still,pending,flying⟩ := counts
  exact absurd (pending.symm.trans ((exact_ still).trans flying)) (by decide)

end Sharko.Engine.Resources
