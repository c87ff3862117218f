import Sharko.Library.Runs
import Sharko.Netstack.Cache.Representation

/-! The cache as the sequence of its critical sections, in any order and with any
arguments, over any number of sessions: the invariant of its representation. -/

namespace Sharko.Netstack.Cache
open Library

structure HttpCache where
  index : Index
  disk : Bool
  limits : Limits
  saved : Option IndexSnapshot

inductive Section where
  | lookup (url : Url) (credentials : Bool) (request : HeaderMap)
  | dropUnreadable (vkey : Key) (generation : Generation)
  | promote (vkey : Key) (generation : Generation) (value : StoredResponse)
  | store (url : Url) (credentials : Bool) (request : HeaderMap) (varyNames : List String)
      (response : StoredResponse)
  | invalidate (url : Url)
  | writeDone (vkey : Key) (generation : Generation) (result : Option Nat)
  /-- A snapshot is taken; the argument tells whether the writer could save it. -/
  | saveIndex (written : Bool)
  /-- The program ends and opens the cache again. -/
  | reopen (dir : Bool) (memoryBudget diskBudget : Nat)

namespace HttpCache

def openDir (dir : Bool) (memoryBudget diskBudget : Nat) (saved : Option IndexSnapshot) : HttpCache :=
  let limits := Limits.ofBudgets memoryBudget diskBudget
  if dir then ⟨((Index.load (Index.loadIndex saved)).evictDisk limits []).1,true,limits,saved⟩
  else ⟨Index.new,false,limits,saved⟩

variable (digest128 : List UInt8 → Key)

def store (c : HttpCache) (url : Url) (credentials : Bool) (request : HeaderMap)
    (varyNames : List String) (response : StoredResponse) : HttpCache :=
  let primary := primaryKey digest128 url credentials
  let value := response.filed url varyNames request
  let vkey := variantKey digest128 primary value.vary
  {c with index := (c.index.store c.limits c.disk primary varyNames vkey value).1}

def step (c : HttpCache) : Section → HttpCache
  | .lookup url credentials request =>
    let primary := primaryKey digest128 url credentials
    {c with index := (c.index.lookup digest128 primary url.target request).2}
  | .dropUnreadable vkey generation => {c with index := (c.index.dropUnreadable vkey generation).1}
  | .promote vkey generation value =>
    {c with index := (c.index.promote c.limits c.disk vkey generation value).1}
  | .store url credentials request varyNames response =>
    c.store digest128 url credentials request varyNames response
  | .invalidate url => {c with index := (Index.invalidate digest128 c.index url c.disk).1}
  | .writeDone vkey generation result =>
    {c with index := (c.index.onWriteDone c.limits vkey generation result).1}
  | .saveIndex written =>
    {c with index := c.index.snapshot.2, saved := if written then some c.index.snapshot.1 else c.saved}
  | .reopen dir memoryBudget diskBudget => openDir dir memoryBudget diskBudget c.saved

structure Sound (owner : Key → Key) (c : HttpCache) : Prop where
  represented : Represented owner c.index
  memory : c.index.memBytes ≤ c.limits.memBudget
  onDisk : c.index.diskBytes ≤ c.limits.diskBudget
  saved : ∀ s, c.saved = some s → s.Lists owner

/-- The variant key of a store is not the key of another primary: the digest
has no collision there. -/
def Collisionless (owner : Key → Key) : Section → Prop
  | .store url credentials request varyNames _ =>
    owner (storeKey digest128 url credentials request varyNames) = primaryKey digest128 url credentials
  | _ => True

variable {digest128} {owner : Key → Key}

theorem openDir_sound (dir : Bool) (memoryBudget diskBudget : Nat) {saved : Option IndexSnapshot}
    (lists : ∀ s, saved = some s → s.Lists owner) :
    (openDir dir memoryBudget diskBudget saved).Sound owner := by
  unfold openDir
  cases dir with
  | false => exact ⟨Index.new_represented owner,Nat.zero_le _,Nat.zero_le _,lists⟩
  | true =>
    have loaded : ∀ s, Index.loadIndex saved = some s → s.Lists owner := by
      intro s found
      exact lists s (Option.filter_eq_some_iff.mp found).1
    obtain ⟨ok,empty⟩ := Index.load_represented loaded
    obtain ⟨ok',bytes,mem⟩ :=
      Index.evictDisk_represented (Limits.ofBudgets memoryBudget diskBudget) ok []
    rw [empty] at mem
    exact ⟨ok',mem.trans (Nat.zero_le _),bytes,lists⟩

theorem promote_sound {c : HttpCache} (ok : c.Sound owner) (vkey : Key) (generation : Generation)
    (value : StoredResponse) : (c.step digest128 (.promote vkey generation value)).Sound owner := by
  have added := Index.addMemCopy_represented ok.represented vkey generation value
  have bytes : (c.index.addMemCopy vkey generation value).1.diskBytes = c.index.diskBytes := by
    rcases Index.addMemCopy_cases c.index vkey generation value with early | ⟨e,d,_,_,_,_,copied⟩
    · rw [early]
      rfl
    · rw [copied]
      rfl
  have unpromoted : (c.index.addMemCopy vkey generation value).2 = false →
      (c.index.addMemCopy vkey generation value).1.memBytes = c.index.memBytes := by
    intro failed
    rcases Index.addMemCopy_cases c.index vkey generation value with early | ⟨e,d,_,_,_,_,copied⟩
    · rw [early]
      rfl
    · rw [copied] at failed
      cases failed
  unfold step Index.promote
  simp only
  split_ifs with heavy copied
  · exact ok
  · obtain ⟨ok',mem,disk⟩ := Index.evictMemory_represented c.limits c.disk added []
    exact ⟨ok',mem,(disk.trans bytes.le).trans ok.onDisk,ok.saved⟩
  · have mem := unpromoted (Bool.eq_false_iff.mpr copied)
    exact ⟨added,mem.le.trans ok.memory,bytes.le.trans ok.onDisk,ok.saved⟩

theorem store_sound {c : HttpCache} (ok : c.Sound owner) (url : Url) (credentials : Bool)
    (request : HeaderMap) (varyNames : List String) (response : StoredResponse)
    (distinct : Collisionless digest128 owner (.store url credentials request varyNames response)) :
    (c.step digest128 (.store url credentials request varyNames response)).Sound owner := by
  obtain ⟨placed,bytes⟩ := Index.place_represented ok.represented c.limits c.disk distinct varyNames
    (response.filed url varyNames request)
  obtain ⟨ok',mem,disk⟩ := Index.evictMemory_represented c.limits c.disk placed _
  exact ⟨ok',mem,(disk.trans bytes).trans ok.onDisk,ok.saved⟩

theorem writeDone_sound {c : HttpCache} (ok : c.Sound owner) (vkey : Key) (generation : Generation)
    (result : Option Nat) : (c.step digest128 (.writeDone vkey generation result)).Sound owner := by
  unfold step Index.onWriteDone
  simp only
  cases c.index.current vkey generation with
  | false => cases result <;> exact ok
  | true =>
    cases result with
    | none =>
      obtain ⟨ok',mem,disk⟩ := Index.abandonWrite_represented ok.represented vkey
      exact ⟨ok',mem.trans ok.memory,disk.trans ok.onDisk,ok.saved⟩
    | some size =>
      obtain ⟨committed,same⟩ :=
        Index.commitWrite_represented ok.represented vkey generation size
      obtain ⟨ok',disk,mem⟩ := Index.evictDisk_represented c.limits committed _
      exact ⟨ok',(mem.trans same.le).trans ok.memory,disk,ok.saved⟩

theorem step_sound {c : HttpCache} (ok : c.Sound owner) (s : Section)
    (distinct : Collisionless digest128 owner s) : (c.step digest128 s).Sound owner := by
  cases s with
  | lookup url credentials request =>
    rcases Index.lookup_index digest128 c.index (primaryKey digest128 url credentials) url.target
      request with same | ⟨k,e,present,touched⟩
    · simpa only [step,same] using ok
    · have moved := Index.touch_represented ok.represented present
      have mem : (c.index.touch k).memBytes = c.index.memBytes := by
        rw [Index.touch_eq present]
        rfl
      have disk : (c.index.touch k).diskBytes = c.index.diskBytes := by
        rw [Index.touch_eq present]
        rfl
      simp only [step,touched]
      exact ⟨moved,mem.le.trans ok.memory,disk.le.trans ok.onDisk,ok.saved⟩
  | dropUnreadable vkey generation =>
    unfold step Index.dropUnreadable
    simp only
    split_ifs
    · have bytes := Index.remove_bytes c.index vkey true
      exact ⟨Index.remove_represented ok.represented vkey true,bytes.1.trans ok.memory,
        bytes.2.trans ok.onDisk,ok.saved⟩
    · exact ok
  | promote vkey generation value => exact promote_sound ok vkey generation value
  | store url credentials request varyNames response =>
    exact store_sound ok url credentials request varyNames response distinct
  | invalidate url =>
    obtain ⟨ok₁,mem₁,disk₁⟩ := Index.removeAll_represented ok.represented c.disk _
    obtain ⟨ok₂,mem₂,disk₂⟩ := Index.removeAll_represented ok₁ c.disk _
    exact ⟨ok₂,(mem₂.trans mem₁).trans ok.memory,(disk₂.trans disk₁).trans ok.onDisk,ok.saved⟩
  | writeDone vkey generation result => exact writeDone_sound ok vkey generation result
  | saveIndex written =>
    have same : Represented owner c.index.snapshot.2 :=
      ⟨⟨ok.represented.mem,ok.represented.disk,ok.represented.grouped,ok.represented.exact⟩,
        ok.represented.rooted,ok.represented.owned⟩
    refine ⟨same,ok.memory,ok.onDisk,?_⟩
    intro s found
    cases written with
    | false => exact ok.saved s found
    | true =>
      cases found
      exact Index.snapshot_lists ok.represented
  | reopen dir memoryBudget diskBudget => exact openDir_sound dir memoryBudget diskBudget ok.saved

theorem always_sound {property : HttpCache → Prop} (holds : ∀ c : HttpCache, c.Sound owner → property c)
    {sections : List Section} (distinct : ∀ s ∈ sections, Collisionless digest128 owner s) {c : HttpCache}
    (start : c.Sound owner) : Runs.Always (fun c s => some (step digest128 c s)) property c sections := by
  induction sections generalizing c with
  | nil => exact holds c start
  | cons s rest ih =>
    refine ⟨holds c start,?_⟩
    intro next taken
    cases taken
    have kept := step_sound start s (distinct s List.mem_cons_self)
    exact ih (fun s' inside => distinct s' (List.mem_cons_of_mem _ inside)) kept

theorem opened_sound (owner : Key → Key) (dir : Bool) (memoryBudget diskBudget : Nat) :
    (openDir dir memoryBudget diskBudget none).Sound owner := by
  apply openDir_sound
  simp

/-- In every state reached from an opened cache the representation is sound and
the tiers are within their budgets. -/
theorem representation_invariant (digest128 : List UInt8 → Key) (owner : Key → Key) (dir : Bool)
    (memoryBudget diskBudget : Nat) (sections : List Section)
    (distinct : ∀ s ∈ sections, Collisionless digest128 owner s) :
    Runs.Always (fun c s => some (step digest128 c s)) (Sound owner)
      (openDir dir memoryBudget diskBudget none) sections :=
  always_sound (fun _ sound => sound) distinct (opened_sound owner dir memoryBudget diskBudget)

end HttpCache

namespace Sample

def variant : Key := variantKey digest (primaryKey digest page true) [("accept",some "text/css")]

def owner (k : Key) : Key := if k = variant then primaryKey digest page true else k

/-- A varied response is stored, the index saved, and the cache opened again. -/
def restart : List Section :=
  [.store page true [("accept","text/css")] ["accept"] (response [1]),
   .store page false [] [] (response [2,3]),.saveIndex true,.reopen true 4096 4096]

set_option maxRecDepth 20000 in
theorem representation_invariant_restart :
    Runs.Always (fun c s => some (HttpCache.step digest c s)) (HttpCache.Sound owner)
      (HttpCache.openDir true 8192 8192 none) restart := by
  apply HttpCache.representation_invariant
  have varied : owner (storeKey digest page true [("accept","text/css")] ["accept"]) =
      primaryKey digest page true := by
    rfl
  have plain : owner (storeKey digest page false [] []) = primaryKey digest page false := by
    rfl
  simp [restart,HttpCache.Collisionless,varied,plain]

end Sample

end Sharko.Netstack.Cache
