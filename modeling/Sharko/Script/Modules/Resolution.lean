import Mathlib
import Sharko.Library.Folds
import Sharko.Script.Modules.ImportMaps

/-! What import maps resolve to: the most specific scope and the longest key, whatever is merged; and
which of the keys decides that are the same after normalization. -/

namespace Sharko.Script.Modules

open Library Library.KeyLists

variable {Url : Type} {crate : UrlCrate Url}

def Applies (crate : UrlCrate Url) (normalized : Text) (asUrl : Option Text) (key : Text) : Prop :=
  key = normalized ∨ (endsInSlash key ∧ key <+: normalized ∧ asUrl.all (special crate))

def outcome (crate : UrlCrate Url) (normalized key : Text) (address : Option Text) : Except Text Text :=
  if key = normalized then exactMatch normalized address else prefixMatch crate normalized key address

theorem le_of_beginning {a b : Text} (start : a <+: b) : a ≤ b := by
  obtain ⟨rest,rfl⟩ := start
  induction a with
  | nil => exact not_lt.mp fun below => by cases below
  | cons c a ih => exact List.cons_le_cons c ih

/-- Of two beginnings of a text the one that is sorted first is the longer one. -/
theorem prefix_of_le {a b text : Text} (startA : a <+: text) (startB : b <+: text) (le : b ≤ a) : b <+: a := by
  rcases List.prefix_or_prefix_of_prefix startA startB with longer | shorter
  · rw [le_antisymm le (le_of_beginning longer)]
  · exact shorter

theorem Applies.start {normalized : Text} {asUrl : Option Text} {key : Text}
    (applies : Applies crate normalized asUrl key) : key <+: normalized := by
  rcases applies with rfl | ⟨_,start,_⟩
  · exact List.prefix_rfl
  · exact start

theorem importsMatch_cons (normalized : Text) (asUrl : Option Text) (e : Text × Option Text) (rest : SpecifierMap) :
    (Applies crate normalized asUrl e.1 ∧
      importsMatch crate normalized asUrl (e :: rest) = some (outcome crate normalized e.1 e.2)) ∨
    (¬Applies crate normalized asUrl e.1 ∧
      importsMatch crate normalized asUrl (e :: rest) = importsMatch crate normalized asUrl rest) := by
  unfold Applies outcome
  rw [importsMatch]
  split_ifs with exact_ begins
  · exact .inl ⟨.inl exact_,rfl⟩
  · exact .inl ⟨.inr begins,rfl⟩
  · refine .inr ⟨?_,rfl⟩
    rw [not_or]
    exact ⟨exact_,begins⟩

/-- The longest key that applies has decided. -/
def MatchesIn (crate : UrlCrate Url) (entries : SpecifierMap) (normalized : Text) (asUrl : Option Text)
    (r : Except Text Text) : Prop :=
  ∃ key address,entry entries key = some address ∧ Applies crate normalized asUrl key ∧
    (∀ other ∈ entries,Applies crate normalized asUrl other.1 → other.1 <+: key) ∧
    r = outcome crate normalized key address

theorem importsMatch_some {normalized : Text} {asUrl : Option Text} {r : Except Text Text} {entries : SpecifierMap}
    (sorted : Sorted entries) (matched : importsMatch crate normalized asUrl entries = some r) :
    MatchesIn crate entries normalized asUrl r := by
  induction entries with
  | nil => cases matched
  | cons e rest ih =>
    obtain ⟨below,sortedRest⟩ := List.pairwise_cons.mp sorted
    rcases importsMatch_cons normalized asUrl e rest with ⟨applies,decided⟩ | ⟨passed,goesOn⟩
    · rw [decided] at matched
      refine ⟨e.1,e.2,by simp [entry],applies,?_,(Option.some.inj matched).symm⟩
      intro other member appliesOther
      rcases List.mem_cons.mp member with rfl | later
      · exact List.prefix_rfl
      · exact prefix_of_le applies.start appliesOther.start (below other later)
    · rw [goesOn] at matched
      obtain ⟨key,address,found,applies,longest,decided⟩ := ih sortedRest matched
      have other : e.1 ≠ key := fun same => passed (same ▸ applies)
      refine ⟨key,address,by rw [← found]; simp [entry,other],applies,?_,decided⟩
      intro further member appliesFurther
      rcases List.mem_cons.mp member with rfl | later
      · exact absurd appliesFurther passed
      · exact longest further later appliesFurther

theorem importsMatch_none {normalized : Text} {asUrl : Option Text} {entries : SpecifierMap} :
    importsMatch crate normalized asUrl entries = none ↔ ∀ e ∈ entries,¬Applies crate normalized asUrl e.1 := by
  induction entries with
  | nil => exact iff_of_true rfl (List.forall_mem_nil _)
  | cons e rest ih =>
    rw [List.forall_mem_cons]
    rcases importsMatch_cons normalized asUrl e rest with ⟨applies,decided⟩ | ⟨passed,goesOn⟩
    · exact iff_of_false (by rw [decided]; exact Option.some_ne_none _) fun none => none.1 applies
    · rw [goesOn,ih]
      exact (and_iff_right passed).symm

theorem outcome_within {normalized key : Text} {address : Option Text} {url : Text}
    (resolved : outcome crate normalized key address = .ok url) :
    ∃ a,address = some a ∧ a <+: url ∧ (key = normalized → url = a) := by
  unfold outcome at resolved
  cases address with
  | none => split_ifs at resolved <;> cases resolved
  | some a =>
    split_ifs at resolved with same
    · obtain rfl := Except.ok.inj resolved
      exact ⟨a,rfl,List.prefix_rfl,fun _ => rfl⟩
    · unfold prefixMatch at resolved
      dsimp only at resolved
      split at resolved
      case h_1 u joined =>
        split_ifs at resolved with inside
        obtain rfl := Except.ok.inj resolved
        exact ⟨a,rfl,inside,fun is => absurd is same⟩
      case h_2 => cases resolved

/-- The most specific scope that has a match decides, then the imports; within one map the longest
key; and a key that is a prefix leads nowhere outside of its address. -/
structure Resolves (crate : UrlCrate Url) (map : ImportMap) : Prop where
  longest : ∀ entries ∈ map.imports :: map.scopes.map Prod.snd,∀ normalized asUrl r,
    importsMatch crate normalized asUrl entries = some r → MatchesIn crate entries normalized asUrl r
  matched : ∀ entries ∈ map.imports :: map.scopes.map Prod.snd,∀ normalized asUrl,
    importsMatch crate normalized asUrl entries = none ↔ ∀ e ∈ entries,¬Applies crate normalized asUrl e.1
  within : ∀ normalized key address url,outcome crate normalized key address = .ok url →
    ∃ a,address = some a ∧ a <+: url ∧ (key = normalized → url = a)
  specific : ∀ base specifier baseUrl,crate.parse base = some baseUrl →
    let asUrl := parseUrlLike crate specifier baseUrl
    let found entries := importsMatch crate (asUrl.getD specifier) asUrl entries
    (∃ scope ∈ map.scopes,inScope base scope.1 ∧ found scope.2 ≠ none ∧
      map.resolve crate base specifier = found scope.2 ∧
      ∀ other ∈ map.scopes,inScope base other.1 → found other.2 ≠ none → other.1 <+: scope.1) ∨
    ((∀ scope ∈ map.scopes,inScope base scope.1 → found scope.2 = none) ∧
      map.resolve crate base specifier = found map.imports)

structure Ordered (map : ImportMap) : Prop where
  imports : Sorted map.imports
  scopes : Sorted map.scopes
  entries : ∀ scope ∈ map.scopes,Sorted scope.2

theorem inScope.start {base scope : Text} (matched : inScope base scope) : scope <+: base := by
  rcases matched with rfl | ⟨_,start⟩
  · exact List.prefix_rfl
  · exact start

theorem findSome_scope {base : Text} (found : SpecifierMap → Option (Except Text Text))
    {scopes : List (Text × SpecifierMap)} (sorted : Sorted scopes) :
    let first := scopes.findSome? fun (p,entries) => if inScope base p then found entries else none
    (∃ scope ∈ scopes,inScope base scope.1 ∧ found scope.2 ≠ none ∧ first = found scope.2 ∧
      ∀ other ∈ scopes,inScope base other.1 → found other.2 ≠ none → other.1 <+: scope.1) ∨
    ((∀ scope ∈ scopes,inScope base scope.1 → found scope.2 = none) ∧ first = none) := by
  induction scopes with
  | nil => exact .inr ⟨List.forall_mem_nil _,rfl⟩
  | cons scope rest ih =>
    obtain ⟨below,sortedRest⟩ := List.pairwise_cons.mp sorted
    dsimp only
    rw [List.findSome?_cons]
    by_cases decides : inScope base scope.1 ∧ found scope.2 ≠ none
    · obtain ⟨inside,some_⟩ := decides
      obtain ⟨r,is⟩ := Option.ne_none_iff_exists'.mp some_
      rw [if_pos inside,is]
      refine .inl ⟨scope,List.mem_cons_self,inside,some_,is.symm,?_⟩
      intro other member insideOther _
      rcases List.mem_cons.mp member with rfl | later
      · exact List.prefix_rfl
      · exact prefix_of_le inside.start insideOther.start (below other later)
    · have passes : (if inScope base scope.1 then found scope.2 else none) = none := by
        split_ifs with inside
        · by_contra some_
          exact decides ⟨inside,some_⟩
        · rfl
      rw [passes]
      rcases ih sortedRest with ⟨chosen,member,inside,some_,is,longest⟩ | ⟨none_,is⟩
      · refine .inl ⟨chosen,List.mem_cons_of_mem _ member,inside,some_,is,?_⟩
        intro other memberOther insideOther someOther
        rcases List.mem_cons.mp memberOther with rfl | later
        · exact absurd ⟨insideOther,someOther⟩ decides
        · exact longest other later insideOther someOther
      · refine .inr ⟨?_,is⟩
        rw [List.forall_mem_cons]
        refine ⟨fun inside => ?_,none_⟩
        by_contra some_
        exact decides ⟨inside,some_⟩

theorem Ordered.resolves {map : ImportMap} (ordered : Ordered map) : Resolves crate map := by
  refine ⟨?_,fun _ _ _ _ => importsMatch_none,fun _ _ _ _ => outcome_within,?_⟩
  · intro entries member normalized asUrl r matched
    refine importsMatch_some ?_ matched
    rcases List.mem_cons.mp member with rfl | ofScope
    · exact ordered.imports
    · obtain ⟨scope,inMap,rfl⟩ := List.mem_map.mp ofScope
      exact ordered.entries scope inMap
  · intro base specifier baseUrl parsed
    dsimp only
    unfold ImportMap.resolve
    rw [parsed]
    rcases @findSome_scope base (importsMatch crate ((parseUrlLike crate specifier baseUrl).getD specifier)
      (parseUrlLike crate specifier baseUrl)) _ ordered.scopes with ⟨scope,member,inside,some_,is,longest⟩ | ⟨none_,is⟩
    · refine .inl ⟨scope,member,inside,some_,?_,longest⟩
      obtain ⟨r,found⟩ := Option.ne_none_iff_exists'.mp some_
      rw [found] at is ⊢
      dsimp only [bind,Option.bind]
      rw [is]
      rfl
    · refine .inr ⟨none_,?_⟩
      dsimp only [bind,Option.bind]
      rw [is]
      rfl

theorem entry_mergeEntries (existing entries : SpecifierMap) (key : Text) :
    entry (mergeEntries existing entries) key = (entry existing key).or (entry entries key) := by
  induction entries generalizing existing with
  | nil => exact Option.or_none.symm
  | cons e entries ih =>
    have split := entry_append [e] entries key
    rw [List.singleton_append] at split
    rw [split,mergeEntries,List.foldl_cons,← mergeEntries,ih]
    split_ifs with there
    · have alone : (entry existing key).or (entry [e] key) = entry existing key := by
        by_cases same : e.1 = key
        · obtain ⟨old,member,is⟩ := List.any_eq_true.mp there
          have found : entry existing key ≠ none := by
            intro none_
            rw [entry,Option.map_eq_none_iff,List.find?_eq_none] at none_
            exact none_ old member (decide_eq_true ((of_decide_eq_true is).trans same))
          obtain ⟨a,is⟩ := Option.ne_none_iff_exists'.mp found
          rw [is,Option.some_or]
        · have absent : entry [e] key = none := by simp [entry,same]
          rw [absent,Option.or_none]
      rw [← Option.or_assoc,alone]
    · rw [entry_append,Option.or_assoc]

def scopeEntry (scopes : List (Text × SpecifierMap)) (scope key : Text) : Option (Option Text) :=
  (scopes.filter (·.1 = scope)).findSome? fun s => entry s.2 key

theorem mergeScope_same (scopes : List (Text × SpecifierMap)) (scope : Text × SpecifierMap)
    {first : Text × SpecifierMap} {rest : List (Text × SpecifierMap)}
    (found : scopes.filter (·.1 = scope.1) = first :: rest) : (mergeScope scopes scope).filter (·.1 = scope.1) =
      (first.1,descending (mergeEntries first.2 scope.2)) :: rest := by
  induction scopes with
  | nil => cases found
  | cons s scopes ih =>
    rw [mergeScope]
    by_cases same : s.1 = scope.1
    · rw [List.filter_cons_of_pos (by simpa using same)] at found
      obtain ⟨rfl,rfl⟩ := List.cons.inj found
      rw [if_pos same,List.filter_cons_of_pos (by simpa using same)]
    · rw [List.filter_cons_of_neg (by simpa using same)] at found
      rw [if_neg same,List.filter_cons_of_neg (by simpa using same),ih found]

theorem mergeScope_other (scopes : List (Text × SpecifierMap)) {scope : Text × SpecifierMap} {p : Text}
    (other : scope.1 ≠ p) : (mergeScope scopes scope).filter (·.1 = p) = scopes.filter (·.1 = p) := by
  induction scopes with
  | nil => exact List.filter_cons_of_neg (by simpa using other)
  | cons s scopes ih =>
    rw [mergeScope]
    split_ifs with same
    · have apart : s.1 ≠ p := fun is => other (same.symm.trans is)
      rw [List.filter_cons_of_neg (by simpa using apart),List.filter_cons_of_neg (by simpa using apart)]
    · rw [List.filter_cons,List.filter_cons,ih]

/-- The first scope of a prefix takes in what later maps add to the prefix, behind its own keys. -/
theorem mergeScopes_first (added : List (Text × SpecifierMap)) {p : Text} :
    ∀ {scopes rest : List (Text × SpecifierMap)} {first : Text × SpecifierMap},
    scopes.filter (·.1 = p) = first :: rest →
    ∃ merged,(added.foldl mergeScope scopes).filter (·.1 = p) = merged :: rest ∧
      ∀ key,entry merged.2 key = (entry first.2 key).or (scopeEntry added p key) := by
  induction added with
  | nil => exact fun {scopes rest first} found => ⟨first,found,fun key => Option.or_none.symm⟩
  | cons scope added ih =>
    intro scopes rest first found
    by_cases same : scope.1 = p
    · subst same
      obtain ⟨merged,is,entries⟩ := ih (mergeScope_same scopes scope found)
      refine ⟨merged,is,fun key => ?_⟩
      rw [entries,entry_descending,entry_mergeEntries,Option.or_assoc]
      congr 1
      rw [scopeEntry,scopeEntry,List.filter_cons_of_pos (by simp),List.findSome?_cons]
      cases entry scope.2 key <;> rfl
    · obtain ⟨merged,is,entries⟩ := ih ((mergeScope_other scopes same).trans found)
      refine ⟨merged,is,fun key => ?_⟩
      rw [entries,scopeEntry,scopeEntry,List.filter_cons_of_neg (by simpa using same)]

/-- What later maps say of a key in a scope agrees with a repetition of that scope in the earlier map,
where the first scope of the prefix lacks the key. -/
def Undisturbed (earlier later : ImportMap) : Prop :=
  ∀ p key first address,earlier.scopes.find? (·.1 = p) = some first → entry first.2 key = none →
    scopeEntry earlier.scopes p key = some address → ∀ a,scopeEntry later.scopes p key = some a → a = address

theorem merge_scopes_iff (earlier later : ImportMap) :
    (∀ p key address,scopeEntry earlier.scopes p key = some address →
      scopeEntry (earlier.merge later).scopes p key = some address) ↔ Undisturbed earlier later := by
  have merged : ∀ {p key first rest},earlier.scopes.filter (·.1 = p) = first :: rest →
      scopeEntry earlier.scopes p key = (entry first.2 key).or (rest.findSome? fun s => entry s.2 key) ∧
      scopeEntry (earlier.merge later).scopes p key =
        ((entry first.2 key).or (scopeEntry later.scopes p key)).or (rest.findSome? fun s => entry s.2 key) := by
    intro p key first rest found
    obtain ⟨merged,is,entries⟩ := mergeScopes_first later.scopes found
    refine ⟨?_,?_⟩
    · rw [scopeEntry,found,List.findSome?_cons]
      cases entry first.2 key <;> rfl
    · rw [scopeEntry,show (earlier.merge later).scopes = descending (later.scopes.foldl mergeScope earlier.scopes)
        from rfl,filter_descending,is,List.findSome?_cons,← entries]
      cases entry merged.2 key <;> rfl
  constructor
  · intro keeps p key first address head lacks held a added
    rw [← List.head?_filter] at head
    obtain ⟨rest,found⟩ := List.head?_eq_some_iff.mp head
    have kept := keeps p key address held
    rw [(merged found).2,lacks,added,Option.none_or,Option.some_or] at kept
    exact Option.some.inj kept
  · intro undisturbed p key address held
    cases found : earlier.scopes.filter (·.1 = p) with
    | nil =>
      rw [scopeEntry,found] at held
      cases held
    | cons first rest =>
      obtain ⟨before,after⟩ := @merged p key first rest found
      rw [after]
      cases own : entry first.2 key with
      | some a =>
        rw [before,own,Option.some_or] at held
        rw [Option.some_or,Option.some_or,held]
      | none =>
        cases added : scopeEntry later.scopes p key with
        | none =>
          rw [before,own] at held
          exact held
        | some a =>
          have head : earlier.scopes.find? (·.1 = p) = some first := by
            rw [← List.head?_filter,found]
            rfl
          rw [Option.none_or,Option.some_or,undisturbed p key first address head own held a added]

inductive Made (crate : UrlCrate Url) : ImportMap → Prop
  | parsed {v : Json} {base : Url} {map : ImportMap} (parsed : ImportMap.parse crate v base = .ok map) : Made crate map
  | merged {earlier later : ImportMap} (first : Made crate earlier) (second : Made crate later) :
    Made crate (earlier.merge later)

theorem scopesOf_entries {base : Url} {m : List (Text × Json)} : ∀ {scopes : List (Text × SpecifierMap)},
    scopesOf crate base m = .ok scopes → ∀ scope ∈ scopes,Sorted scope.2 := by
  induction m with
  | nil =>
    intro scopes read
    cases read
    exact List.forall_mem_nil _
  | cons e m ih =>
    intro scopes read
    rw [scopesOf] at read
    cases joined : crate.join base e.1 with
    | none =>
      rw [joined] at read
      exact ih read
    | some url =>
      rw [joined] at read
      dsimp only at read
      obtain ⟨entries,-,read⟩ := Folds.bind_ok.mp read
      cases later : scopesOf crate base m with
      | error _ =>
        rw [later] at read
        cases read
      | ok rest =>
        rw [later] at read
        cases read
        rw [List.forall_mem_cons]
        exact ⟨descending_sorted _,ih later⟩

theorem parse_ordered {v : Json} {base : Url} {map : ImportMap} (parsed : ImportMap.parse crate v base = .ok map) :
    Ordered map := by
  obtain ⟨obj,-,parsed⟩ := Folds.bind_ok.mp parsed
  obtain ⟨imports,readImports,parsed⟩ := Folds.bind_ok.mp parsed
  obtain ⟨scopes,readScopes,parsed⟩ := Folds.bind_ok.mp parsed
  cases parsed
  refine ⟨?_,descending_sorted _,fun scope member => ?_⟩
  · cases given : entry obj "imports".toList with
    | none =>
      rw [given] at readImports
      cases readImports
      exact List.Pairwise.nil
    | some v =>
      rw [given] at readImports
      cases object : v.objectOr "\"imports\" must be a JSON object" with
      | error _ =>
        rw [Option.elim_some,object] at readImports
        cases readImports
      | ok m =>
        rw [Option.elim_some,object] at readImports
        cases readImports
        exact descending_sorted _
  · rw [mem_descending] at member
    cases given : entry obj "scopes".toList with
    | none =>
      rw [given] at readScopes
      cases readScopes
      cases member
    | some v =>
      rw [given] at readScopes
      obtain ⟨m,-,read⟩ := Folds.bind_ok.mp readScopes
      exact scopesOf_entries read scope member

theorem mergeScope_entries {scopes : List (Text × SpecifierMap)} {scope : Text × SpecifierMap}
    (sorted : ∀ s ∈ scopes,Sorted s.2) (added : Sorted scope.2) : ∀ s ∈ mergeScope scopes scope,Sorted s.2 := by
  induction scopes with
  | nil => simpa [mergeScope] using added
  | cons s scopes ih =>
    rw [List.forall_mem_cons] at sorted
    rw [mergeScope]
    split_ifs with same
    · rw [List.forall_mem_cons]
      exact ⟨descending_sorted _,sorted.2⟩
    · rw [List.forall_mem_cons]
      exact ⟨sorted.1,ih sorted.2⟩

theorem Ordered.merge {earlier later : ImportMap} (first : Ordered earlier) (second : Ordered later) :
    Ordered (earlier.merge later) := by
  refine ⟨descending_sorted _,descending_sorted _,?_⟩
  intro scope member
  rw [ImportMap.merge,mem_descending] at member
  refine List.foldlRecOn later.scopes mergeScope (motive := fun scopes => ∀ s ∈ scopes,Sorted s.2) first.entries ?_
    scope member
  exact fun scopes sorted added inside => mergeScope_entries sorted (second.entries added inside)

theorem Made.ordered {map : ImportMap} (made : Made crate map) : Ordered map := by
  induction made with
  | parsed parsed => exact parse_ordered parsed
  | merged _ _ first second => exact first.merge second

/-- The address that the last member of the text gives to a key, empty keys aside. -/
def Standard.entry (crate : UrlCrate Url) (base : Url) (members : List (Text × Json)) (key : Text) :
    Option (Option Text) :=
  (members.reverse.find? fun m => !m.1.isEmpty && normalizedKey crate base m.1 = key).map fun m =>
    addressOf crate base key m.2

/-- Of the keys that are the same after normalization the first in the order of characters has the
address of the last in the text. -/
def Collapses (crate : UrlCrate Url) (base : Url) (members : List (Text × Json)) : Prop :=
  ∀ first ∈ asMap members,!first.1.isEmpty →
    (∀ other ∈ asMap members,!other.1.isEmpty →
      normalizedKey crate base other.1 = normalizedKey crate base first.1 → first.1 ≤ other.1) →
    Standard.entry crate base members (normalizedKey crate base first.1) =
      some (addressOf crate base (normalizedKey crate base first.1) first.2)

theorem replaced_keys (members : List (Text × Json)) : ∀ map : List (Text × Json),(map.map Prod.fst).Nodup →
    ((members.foldl (fun map m => map.filter (·.1 ≠ m.1) ++ [m]) map).map Prod.fst).Nodup ∧
    ∀ key,key ∈ (members.foldl (fun map m => map.filter (·.1 ≠ m.1) ++ [m]) map).map Prod.fst ↔
      key ∈ map.map Prod.fst ∨ key ∈ members.map Prod.fst := by
  induction members with
  | nil => exact fun map nodup => ⟨nodup,fun key => by simp⟩
  | cons m members ih =>
    intro map nodup
    have next : ((map.filter (·.1 ≠ m.1) ++ [m]).map Prod.fst).Nodup := by
      rw [List.map_append,List.nodup_append]
      refine ⟨(List.filter_sublist.map Prod.fst).nodup nodup,List.nodup_singleton _,?_⟩
      intro key old key' new same
      obtain ⟨e,inside,rfl⟩ := List.mem_map.mp old
      rw [List.map_singleton,List.mem_singleton] at new
      exact of_decide_eq_true (List.mem_filter.mp inside).2 (same.trans new)
    obtain ⟨nodup',keys⟩ := ih _ next
    refine ⟨nodup',fun key => ?_⟩
    rw [List.foldl_cons,keys,List.map_cons,List.mem_cons,← or_assoc]
    refine or_congr_left ?_
    rw [List.map_append,List.mem_append,List.map_singleton,List.mem_singleton]
    by_cases same : key = m.1
    · exact iff_of_true (.inr same) (.inr same)
    · refine or_congr_left ⟨fun old => (List.filter_sublist.map Prod.fst).subset old,fun old => ?_⟩
      obtain ⟨e,inside,rfl⟩ := List.mem_map.mp old
      exact List.mem_map_of_mem (List.mem_filter.mpr ⟨inside,decide_eq_true same⟩)

theorem asMap_keys (members : List (Text × Json)) (key : Text) :
    (∃ m ∈ asMap members,m.1 = key) ↔ ∃ m ∈ members,m.1 = key := by
  have keys := (replaced_keys members [] List.nodup_nil).2 key
  rw [List.map_nil,or_iff_right (List.not_mem_nil),List.mem_map,List.mem_map] at keys
  rw [← keys]
  simp only [asMap,(ascending_perm _).mem_iff]

theorem asMap_ascending (members : List (Text × Json)) : (asMap members).Pairwise fun a b => a.1 < b.1 := by
  have nodup := (replaced_keys members [] List.nodup_nil).1
  have apart : ((asMap members).map Prod.fst).Nodup := ((ascending_perm _).map Prod.fst).nodup_iff.mpr nodup
  exact ((ascending_sorted _).and (List.pairwise_map.mp apart)).imp fun both => lt_of_le_of_ne both.1 both.2

/-- The first member that is found is the one with the least key. -/
theorem find_asMap {members : List (Text × Json)} {p : Text × Json → Bool} {first : Text × Json} :
    (asMap members).find? p = some first ↔
      first ∈ asMap members ∧ p first ∧ ∀ other ∈ asMap members,p other → first.1 ≤ other.1 := by
  have ascending := asMap_ascending members
  constructor
  · intro found
    obtain ⟨holds,before,after,split,none_⟩ := List.find?_eq_some_iff_append.mp found
    rw [split] at ascending ⊢
    refine ⟨by simp,holds,fun other member holdsOther => ?_⟩
    rcases List.mem_append.mp member with earlier | later
    · have not := none_ other earlier
      rw [holdsOther] at not
      cases not
    · rcases List.mem_cons.mp later with rfl | later
      · exact le_rfl
      · exact ((List.pairwise_cons.mp (List.pairwise_append.mp ascending).2.1).1 other later).le
  · rintro ⟨member,holds,least⟩
    obtain ⟨before,after,split⟩ := List.append_of_mem member
    refine List.find?_eq_some_iff_append.mpr ⟨holds,before,after,split,fun other earlier => ?_⟩
    rw [split] at ascending least
    have less := (List.pairwise_append.mp ascending).2.2 other earlier first List.mem_cons_self
    rw [Bool.not_eq_true']
    by_contra holdsOther
    exact absurd (least other (List.mem_append_left _ earlier) (by simpa using holdsOther)) (not_le.mpr less)

theorem entry_specifierMap (base : Url) (m : List (Text × Json)) (key : Text) :
    entry (specifierMap crate m base) key =
      (m.find? fun e => !e.1.isEmpty && normalizedKey crate base e.1 = key).map fun e =>
        addressOf crate base key e.2 := by
  rw [specifierMap,entry_descending,entry,List.find?_map,List.find?_filter,Option.map_map]
  simp only [Function.comp_def,Bool.decide_and,Bool.decide_eq_true]
  cases found : m.find? fun e => !e.1.isEmpty && normalizedKey crate base e.1 = key with
  | none => rfl
  | some e =>
    have holds := List.find?_some found
    rw [Bool.and_eq_true,decide_eq_true_eq] at holds
    rw [Option.map_some,Option.map_some,holds.2]

theorem specifierMap_iff (base : Url) (members : List (Text × Json)) :
    (∀ key,entry (specifierMap crate (asMap members) base) key = Standard.entry crate base members key) ↔
      Collapses crate base members := by
  constructor
  · intro same first member filled least
    have found : (asMap members).find? (fun e => !e.1.isEmpty && normalizedKey crate base e.1 =
        normalizedKey crate base first.1) = some first := by
      refine find_asMap.mpr ⟨member,(Bool.and_eq_true _ _).mpr ⟨filled,decide_eq_true rfl⟩,fun other inside holds => ?_⟩
      obtain ⟨filledOther,is⟩ := (Bool.and_eq_true _ _).mp holds
      exact least other inside filledOther (of_decide_eq_true is)
    rw [← same,entry_specifierMap,found]
    rfl
  · intro collapses key
    rw [entry_specifierMap]
    cases found : (asMap members).find? fun e => !e.1.isEmpty && normalizedKey crate base e.1 = key with
    | none =>
      rw [List.find?_eq_none] at found
      have none_ : (members.reverse.find? fun e => !e.1.isEmpty && normalizedKey crate base e.1 = key) = none := by
        rw [List.find?_eq_none]
        intro m member holds
        obtain ⟨e,inside,is⟩ := (asMap_keys members m.1).mpr ⟨m,List.mem_reverse.mp member,rfl⟩
        exact found e inside (by rw [is]; exact holds)
      rw [Standard.entry,none_]
    | some first =>
      obtain ⟨member,holds,least⟩ := find_asMap.mp found
      obtain ⟨filled,same⟩ := (Bool.and_eq_true _ _).mp holds
      obtain rfl := of_decide_eq_true same
      refine (collapses first member filled fun other inside filledOther is => ?_).symm
      exact least other inside ((Bool.and_eq_true _ _).mpr ⟨filledOther,decide_eq_true is⟩)

/-- Import maps resolve by the most specific scope and the longest key, and merging keeps the entries
of the imports. It keeps those of the scopes, and the last key of the text decides, exactly where keys
that are the same after normalization do not get in the way. -/
theorem import_maps_iff (base : Url) (members : List (Text × Json)) {earlier later : ImportMap}
    (first : Made crate earlier) (second : Made crate later) :
    (Resolves crate earlier ∧ Resolves crate (earlier.merge later) ∧
      ∀ key address,entry earlier.imports key = some address →
        entry (earlier.merge later).imports key = some address) ∧
    ((∀ scope key address,scopeEntry earlier.scopes scope key = some address →
      scopeEntry (earlier.merge later).scopes scope key = some address) ↔ Undisturbed earlier later) ∧
    ((∀ key,entry (specifierMap crate (asMap members) base) key = Standard.entry crate base members key) ↔
      Collapses crate base members) := by
  refine ⟨⟨first.ordered.resolves,(first.merged second).ordered.resolves,?_⟩,merge_scopes_iff earlier later,
    specifierMap_iff base members⟩
  intro key address found
  rw [show (earlier.merge later).imports = descending (mergeEntries earlier.imports later.imports) from rfl,
    entry_descending,entry_mergeEntries,found,Option.some_or]

namespace Sample

def host : Text := "https://a.com".toList

def urls : UrlCrate Text where
  parse t := if host <+: t then some t else none
  join base t :=
    if ['/'] <+: t then some (host ++ t)
    else some ((base.reverse.dropWhile (· ≠ '/')).reverse ++ if "./".toList <+: t then t.drop 2 else t)
  asStr := id
  scheme _ := "https".toList

def base : Text := host ++ "/app/index.html".toList

def members : List (Text × Json) :=
  [("./a.js".toList,.string "/old.js".toList),("/app/a.js".toList,.string "/new.js".toList)]

def map : ImportMap := ⟨specifierMap urls (asMap members) base,descending []⟩

theorem map_resolves : Resolves urls (map.merge map) := by
  have made : Made urls map := .parsed (v := .object [("imports".toList,.object members)]) rfl
  exact (import_maps_iff base members made made).1.2.1

theorem first_key_decides : map.resolve urls base "./a.js".toList = some (.ok (host ++ "/old.js".toList)) ∧
    Standard.entry urls base members (host ++ "/app/a.js".toList) = some (some (host ++ "/new.js".toList)) := by
  decide

end Sample

end Sharko.Script.Modules
