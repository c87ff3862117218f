import Mathlib.Data.Finset.Sort
import Sharko.Library.Recency
import Sharko.Netstack.Cache.Response

/-! The index of the HTTP cache (`crates/netstack/src/cache/mod.rs`): every
critical section the source runs under the index lock is one function here, with
the files it asks to delete as a further result. `underflow` records that a byte
counter was decreased by more than it held. The eviction loops run on fuel; the
number of listed keys is enough, since every pass takes one of them away. -/

namespace Sharko.Netstack.Cache
open Library FiniteMap

abbrev Path := Key × Generation

structure Limits where
  memBudget : Nat
  memEntryMax : Nat
  diskBudget : Nat
  diskEntryMax : Nat
deriving DecidableEq

def Limits.ofBudgets (memoryBudget diskBudget : Nat) : Limits :=
  ⟨memoryBudget,memoryBudget / 8,diskBudget,diskBudget / 8⟩

structure MemSlot where
  value : StoredResponse
  weight : Nat
  seq : Nat
deriving DecidableEq

structure DiskSlot where
  generation : Generation
  size : Nat
  seq : Nat
deriving DecidableEq

structure Entry where
  primary : Key
  mem : Option MemSlot
  disk : Option DiskSlot
  pendingWrite : Option Generation
  pendingValue : Option StoredResponse
deriving DecidableEq

def Entry.touched (e : Entry) (seq : Nat) : Entry :=
  {e with mem := e.mem.map fun m => {m with seq := seq},
          disk := e.disk.map fun d => {d with seq := seq}}

def Entry.resident (e : Entry) : Option StoredResponse :=
  (e.mem.map MemSlot.value).or e.pendingValue

def Entry.rootless (e : Entry) : Bool := e.mem.isNone && e.disk.isNone && e.pendingWrite.isNone

/-- The entry `HttpCache::store` writes over `old`. -/
def Entry.stored (old : Entry) (inMemory onDisk : Bool) (value : StoredResponse) (seq : Nat)
    (generation : Generation) : Entry :=
  let entry := if inMemory then {old with mem := some ⟨value,value.weight,seq⟩} else old
  if onDisk then {entry with pendingWrite := some generation, pendingValue := some value}
  -- The previous disk version would be outdated: drop it.
  else {entry with pendingWrite := none, pendingValue := none, disk := none}

structure Primary where
  vary : List String
  variants : List Key
deriving DecidableEq

structure IndexRecord where
  vkey : Key
  primary : Key
  generation : Generation
  size : Nat
deriving DecidableEq

structure IndexSnapshot where
  version : Nat
  entries : List IndexRecord
  vary : List (Key × List String)
deriving DecidableEq

structure Index where
  entries : FiniteMap Key Entry
  primaries : FiniteMap Key Primary
  memLru : FiniteMap Nat Key
  diskLru : FiniteMap Nat Key
  nextSeq : Nat
  nextGeneration : Generation
  memBytes : Nat
  diskBytes : Nat
  dirty : Bool
  underflow : Bool

namespace Index

def new : Index := ⟨∅,∅,∅,∅,0,0,0,0,false,false⟩

def seq (idx : Index) : Nat × Index := (idx.nextSeq + 1,{idx with nextSeq := idx.nextSeq + 1})

def generation (idx : Index) : Generation × Index :=
  let next := max ((idx.nextGeneration + 1) % 2 ^ 32) 1
  (next,{idx with nextGeneration := next})

def setEntry (idx : Index) (vkey : Key) (e : Entry) : Index :=
  {idx with entries := idx.entries.insert vkey e}

def freeMem (idx : Index) (weight : Nat) : Index :=
  {idx with memBytes := idx.memBytes - weight,
            underflow := idx.underflow || decide (idx.memBytes < weight)}

def freeDisk (idx : Index) (size : Nat) : Index :=
  {idx with diskBytes := idx.diskBytes - size,
            underflow := idx.underflow || decide (idx.diskBytes < size)}

def unlistMem (idx : Index) : Option MemSlot → Index
  | some m => freeMem {idx with memLru := idx.memLru.erase m.seq} m.weight
  | none => idx

def unlistDisk (idx : Index) : Option DiskSlot → Index
  | some d => freeDisk {idx with diskLru := idx.diskLru.erase d.seq, dirty := true} d.size
  | none => idx

def touch (idx : Index) (vkey : Key) : Index :=
  let (seq,idx) := idx.seq
  match idx.entries.lookup vkey with
  | none => idx
  | some e =>
    let idx := idx.setEntry vkey (e.touched seq)
    let idx := match e.mem with
      | some m => {idx with memLru := (idx.memLru.erase m.seq).insert seq vkey}
      | none => idx
    match e.disk with
      | some d => {idx with diskLru := (idx.diskLru.erase d.seq).insert seq vkey}
      | none => idx

def forgetVariant (primaries : FiniteMap Key Primary) (primary vkey : Key) : FiniteMap Key Primary :=
  match primaries.lookup primary with
  | none => primaries
  | some p =>
    let variants := p.variants.filter (· ≠ vkey)
    if variants.isEmpty then primaries.erase primary
    else primaries.insert primary {p with variants := variants}

def remove (idx : Index) (vkey : Key) (disk : Bool) : Index × Option Path :=
  match idx.entries.lookup vkey with
  | none => (idx,none)
  | some e =>
    let idx := unlistMem {idx with entries := idx.entries.erase vkey} e.mem
    let idx := {idx with primaries := forgetVariant idx.primaries e.primary vkey}
    let file := e.disk.map fun d => (vkey,d.generation)
    (idx.unlistDisk e.disk,if disk then file else none)

def dropMemCopy (idx : Index) (vkey : Key) : Index :=
  match idx.entries.lookup vkey with
  | none => idx
  | some e => (idx.setEntry vkey {e with mem := none}).unlistMem e.mem

def evictMemoryPass (idx : Index) (disk : Bool) (seq : Nat) (vkey : Key) : Index × List Path :=
  match idx.entries.lookup vkey with
  | none => (idx,[])
  | some e =>
    match e.mem with
    | none => (idx,[])
    | some m =>
      if m.seq = seq then
        let idx := (idx.setEntry vkey {e with mem := none}).freeMem m.weight
        if e.disk.isSome || (disk && e.pendingWrite.isSome) then (idx,[])
        else
          let (idx,file) := idx.remove vkey disk
          (idx,file.toList)
      else (idx,[])

def evictMemoryLoop (limits : Limits) (disk : Bool) : Nat → Index → List Path → Index × List Path
  | 0,idx,deletes => (idx,deletes)
  | fuel + 1,idx,deletes =>
    if idx.memBytes ≤ limits.memBudget then (idx,deletes)
    else match popFirst idx.memLru with
      | none => (idx,deletes)
      | some ((seq,vkey),rest) =>
        let (idx,files) := evictMemoryPass {idx with memLru := rest} disk seq vkey
        evictMemoryLoop limits disk fuel idx (deletes ++ files)

def evictMemory (idx : Index) (limits : Limits) (disk : Bool) (deletes : List Path) :
    Index × List Path :=
  evictMemoryLoop limits disk idx.memLru.keys.card idx deletes

def takeDisk (idx : Index) (seq : Nat) (vkey : Key) (e : Entry) : Index × Entry × List Path :=
  match e.disk with
  | none => (idx,e,[])
  | some d =>
    if d.seq = seq then
      ((idx.setEntry vkey {e with disk := none}).freeDisk d.size,{e with disk := none},
        [(vkey,d.generation)])
    else (idx,e,[])

def evictDiskPass (idx : Index) (seq : Nat) (vkey : Key) : Index × List Path :=
  match idx.entries.lookup vkey with
  | none => (idx,[])
  | some e =>
    let (idx,e,files) := idx.takeDisk seq vkey e
    let idx := {idx with dirty := true}
    if e.rootless then ((idx.remove vkey false).1,files) else (idx,files)

def evictDiskLoop (target : Nat) : Nat → Index → List Path → Index × List Path
  | 0,idx,deletes => (idx,deletes)
  | fuel + 1,idx,deletes =>
    if idx.diskBytes ≤ target then (idx,deletes)
    else match popFirst idx.diskLru with
      | none => (idx,deletes)
      | some ((seq,vkey),rest) =>
        let (idx,files) := evictDiskPass {idx with diskLru := rest} seq vkey
        evictDiskLoop target fuel idx (deletes ++ files)

def evictDisk (idx : Index) (limits : Limits) (deletes : List Path) : Index × List Path :=
  if idx.diskBytes ≤ limits.diskBudget then (idx,deletes)
  else evictDiskLoop (limits.diskBudget / 10 * 9) idx.diskLru.keys.card idx deletes

inductive Decision where
  | miss
  | hit (value : StoredResponse)
  | read (vkey : Key) (vary : VaryValues) (generation : Generation)
deriving DecidableEq

def variantOf (digest128 : List UInt8 → Key) (idx : Index) (primary : Key) (request : HeaderMap) :
    Option (Key × VaryValues) :=
  (idx.primaries.lookup primary).map fun p =>
    (variantKey digest128 primary (varyValues p.vary request),varyValues p.vary request)

def lookup (digest128 : List UInt8 → Key) (idx : Index) (primary : Key) (target : String)
    (request : HeaderMap) : Decision × Index :=
  match idx.variantOf digest128 primary request with
  | none => (.miss,idx)
  | some (vkey,vary) =>
    match idx.entries.lookup vkey with
    | none => (.miss,idx)
    | some e =>
      match e.resident with
      | some value =>
        (if value.url = target ∧ value.vary = vary then .hit value else .miss,idx.touch vkey)
      | none =>
        match e.disk with
        | none => (.miss,idx)
        | some d => (.read vkey vary d.generation,idx.touch vkey)

def dropUnreadable (idx : Index) (vkey : Key) (generation : Generation) : Index × List Path :=
  let same := ((idx.entries.lookup vkey).bind Entry.disk).any fun d => d.generation == generation
  if same then
    let (idx,file) := idx.remove vkey true
    (idx,file.toList)
  else (idx,[])

def addMemCopy (idx : Index) (vkey : Key) (generation : Generation) (value : StoredResponse) :
    Index × Bool :=
  let (seq,idx) := idx.seq
  match idx.entries.lookup vkey with
  | none => (idx,false)
  | some e =>
    if e.mem.isSome || !(e.disk.any fun d => d.generation == generation) then (idx,false)
    else
      let idx := idx.setEntry vkey {e with mem := some ⟨value,value.weight,seq⟩}
      ({idx with memLru := idx.memLru.insert seq vkey, memBytes := idx.memBytes + value.weight},true)

def promote (idx : Index) (limits : Limits) (disk : Bool) (vkey : Key) (generation : Generation)
    (value : StoredResponse) : Index × List Path :=
  if value.weight > limits.memEntryMax then (idx,[])
  else
    let (idx,added) := idx.addMemCopy vkey generation value
    if added then idx.evictMemory limits disk [] else (idx,[])

def nameVariant (primaries : FiniteMap Key Primary) (primary : Key) (varyNames : List String)
    (vkey : Key) : FiniteMap Key Primary :=
  let p := (primaries.lookup primary).getD ⟨[],[]⟩
  let variants := if p.variants.contains vkey then p.variants else p.variants ++ [vkey]
  primaries.insert primary ⟨varyNames,variants⟩

/-- `HttpCache::store` up to its check for an orphan: the index, the entry it
wrote, the disk slot it took from it and the generation it drew. -/
def fileEntry (idx : Index) (inMemory onDisk : Bool) (primary : Key) (varyNames : List String)
    (vkey : Key) (value : StoredResponse) : Index × Entry × Option DiskSlot × Generation :=
  let idx := {idx with primaries := nameVariant idx.primaries primary varyNames vkey}
  let idx := idx.dropMemCopy vkey
  let (seq,idx) := idx.seq
  let (generation,idx) := idx.generation
  let old := (idx.entries.lookup vkey).getD ⟨primary,none,none,none,none⟩
  let entry := old.stored inMemory onDisk value seq generation
  let oldDisk := if onDisk then none else old.disk
  let idx := idx.setEntry vkey entry
  let idx :=
    if inMemory then
      {idx with memLru := idx.memLru.insert seq vkey, memBytes := idx.memBytes + value.weight}
    else idx
  (idx.unlistDisk oldDisk,entry,oldDisk,generation)

/-- The critical section of `HttpCache::store` before its eviction; the last
result is the generation of the write to issue. -/
def place (idx : Index) (limits : Limits) (disk : Bool) (primary : Key) (varyNames : List String)
    (vkey : Key) (value : StoredResponse) : Index × List Path × Option Generation :=
  let inMemory : Bool := value.weight ≤ limits.memEntryMax
  let onDisk : Bool := disk && value.body.length ≤ limits.diskEntryMax
  let (idx,entry,oldDisk,generation) := idx.fileEntry inMemory onDisk primary varyNames vkey value
  let deletes := if disk then (oldDisk.map fun d => (vkey,d.generation)).toList else []
  let idx := if entry.rootless then (idx.remove vkey disk).1 else idx
  (idx,deletes,if onDisk then some generation else none)

def store (idx : Index) (limits : Limits) (disk : Bool) (primary : Key) (varyNames : List String)
    (vkey : Key) (value : StoredResponse) : Index × List Path × Option Generation :=
  let (idx,deletes,write) := idx.place limits disk primary varyNames vkey value
  let (idx,deletes) := idx.evictMemory limits disk deletes
  (idx,deletes,write)

def removeAll (idx : Index) (disk : Bool) : List Key → Index × List Path
  | [] => (idx,[])
  | vkey :: rest =>
    let (idx,file) := idx.remove vkey disk
    let (idx,files) := idx.removeAll disk rest
    (idx,file.toList ++ files)

def removeVariants (idx : Index) (primary : Key) (disk : Bool) : Index × List Path :=
  idx.removeAll disk (((idx.primaries.lookup primary).map Primary.variants).getD [])

def invalidate (digest128 : List UInt8 → Key) (idx : Index) (url : Url) (disk : Bool) :
    Index × List Path :=
  let (idx,first) := idx.removeVariants (primaryKey digest128 url true) disk
  let (idx,second) := idx.removeVariants (primaryKey digest128 url false) disk
  (idx,first ++ second)

def current (idx : Index) (vkey : Key) (generation : Generation) : Bool :=
  (idx.entries.lookup vkey).any fun e => e.pendingWrite == some generation

def commitWrite (idx : Index) (vkey : Key) (generation : Generation) (size : Nat) :
    Index × List Path :=
  let (seq,idx) := idx.seq
  match idx.entries.lookup vkey with
  | none => (idx,[])
  | some e =>
    let idx := idx.setEntry vkey {e with disk := some ⟨generation,size,seq⟩, pendingWrite := none,
                                         pendingValue := none}
    let idx := match e.disk with
      | some d => freeDisk {idx with diskLru := idx.diskLru.erase d.seq} d.size
      | none => idx
    ({idx with diskLru := idx.diskLru.insert seq vkey, diskBytes := idx.diskBytes + size,
               dirty := true},
      (e.disk.map fun d => (vkey,d.generation)).toList)

def abandonWrite (idx : Index) (vkey : Key) : Index :=
  match idx.entries.lookup vkey with
  | none => idx
  | some e =>
    let idx := idx.setEntry vkey {e with pendingWrite := none, pendingValue := none}
    if e.mem.isNone && e.disk.isNone then (idx.remove vkey false).1 else idx

def onWriteDone (idx : Index) (limits : Limits) (vkey : Key) (generation : Generation)
    (result : Option Nat) : Index × List Path :=
  match idx.current vkey generation,result with
  | true,some size =>
    let (idx,deletes) := idx.commitWrite vkey generation size
    idx.evictDisk limits deletes
  | true,none => (idx.abandonWrite vkey,[])
  | false,some _ => (idx,[(vkey,generation)])
  | false,none => (idx,[])

def recordOf (idx : Index) (vkey : Key) : Option IndexRecord :=
  (idx.entries.lookup vkey).bind fun e =>
    e.disk.map fun d => ⟨vkey,e.primary,d.generation,d.size⟩

def lruKeys (idx : Index) : List Key :=
  (idx.diskLru.keys.sort (· ≤ ·)).filterMap idx.diskLru.lookup

def snapshot (idx : Index) : IndexSnapshot × Index :=
  let records := idx.lruKeys.filterMap idx.recordOf
  let vary := (records.map IndexRecord.primary).dedup.filterMap fun p =>
    ((idx.primaries.lookup p).filter fun info => !info.vary.isEmpty).map fun info => (p,info.vary)
  (⟨1,records,vary⟩,{idx with dirty := false})

def loadRecord (idx : Index) (rec : IndexRecord) : Index :=
  let (seq,idx) := idx.seq
  let idx := idx.setEntry rec.vkey ⟨rec.primary,none,some ⟨rec.generation,rec.size,seq⟩,none,none⟩
  let p := (idx.primaries.lookup rec.primary).getD ⟨[],[]⟩
  {idx with diskLru := idx.diskLru.insert seq rec.vkey, diskBytes := idx.diskBytes + rec.size,
            nextGeneration := max idx.nextGeneration rec.generation,
            primaries := idx.primaries.insert rec.primary {p with variants := p.variants ++ [rec.vkey]}}

def loadVary (idx : Index) (pair : Key × List String) : Index :=
  match idx.primaries.lookup pair.1 with
  | none => idx
  | some p => {idx with primaries := idx.primaries.insert pair.1 {p with vary := pair.2}}

def loadIndex (file : Option IndexSnapshot) : Option IndexSnapshot := file.filter (·.version == 1)

def load (snapshot : Option IndexSnapshot) : Index :=
  match snapshot with
  | none => new
  | some s => s.vary.foldl loadVary (s.entries.foldl loadRecord new)

end Index

end Sharko.Netstack.Cache
