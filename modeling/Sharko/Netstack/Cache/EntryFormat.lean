import Mathlib
import Sharko.Library.Framing
import Sharko.Netstack.Cache.Response

/-! The bytes of an entry file (`write_entry` and `read_entry` in `crates/netstack/src/cache/disk.rs`):
the magic number, the length of the metadata, the metadata and the raw body. The encoding of the
metadata and the hash belong to the `postcard` and `xxhash` crates. -/

namespace Sharko.Netstack.Cache.Disk
open Library Framing

structure EntryMeta where
  url : String
  status : UInt16
  httpVersion : String
  headers : List (String × String)
  vary : VaryValues
  requestTimeMs : Nat
  responseTimeMs : Nat
  bodyLen : Nat
  bodyHash : UInt64
deriving DecidableEq

structure Crates where
  toAllocvec : EntryMeta → Except String (List UInt8)
  fromBytes : List UInt8 → Option EntryMeta
  xxh3 : List UInt8 → UInt64

def Crates.Laws (crates : Crates) : Prop :=
  ∀ entryMeta bytes,crates.toAllocvec entryMeta = .ok bytes → crates.fromBytes bytes = some entryMeta

def magic : List UInt8 := [0x4e,0x53,0x43,0x31]

section
variable (crates : Crates)

def metaOf (entry : StoredResponse) : EntryMeta :=
  { url := entry.url
    status := entry.status
    httpVersion := entry.httpVersion
    headers := entry.headers
    vary := entry.vary
    requestTimeMs := unixMs entry.requestTime
    responseTimeMs := unixMs entry.responseTime
    bodyLen := entry.body.length
    bodyHash := crates.xxh3 entry.body }

def writeEntry (entry : StoredResponse) : Except String (List UInt8 × Nat) := do
  let bytes ← crates.toAllocvec (metaOf crates entry)
  if bytes.length < 2 ^ 32 then
    pure (magic ++ toLe32 bytes.length ++ bytes ++ entry.body,8 + bytes.length + entry.body.length)
  else throw "metadata too large"

def invalid (what : String) : Except String StoredResponse := .error ("corrupt cache entry: " ++ what)

def readEntryFrom (metaLen : Nat) (rest : List UInt8) : Except String StoredResponse :=
  if rest.length < metaLen then invalid "truncated metadata"
  else
    match crates.fromBytes (rest.take metaLen) with
    | none => invalid "metadata"
    | some entryMeta =>
      let body := rest.drop metaLen
      if body.length ≠ entryMeta.bodyLen then invalid "truncated body"
      else if crates.xxh3 body ≠ entryMeta.bodyHash then invalid "checksum mismatch"
      else .ok
        { url := entryMeta.url
          status := entryMeta.status
          httpVersion := internVersion entryMeta.httpVersion
          headers := entryMeta.headers
          vary := entryMeta.vary
          requestTime := fromUnixMs entryMeta.requestTimeMs
          responseTime := fromUnixMs entryMeta.responseTimeMs
          body }

def readEntry (buf : List UInt8) : Except String StoredResponse :=
  match buf with
  | m₀ :: m₁ :: m₂ :: m₃ :: l₀ :: l₁ :: l₂ :: l₃ :: rest =>
    if [m₀,m₁,m₂,m₃] ≠ magic then invalid "bad header"
    else readEntryFrom crates (fromLe32 l₀ l₁ l₂ l₃) rest
  | _ => invalid "bad header"

variable {crates}

theorem writeEntry_cases {entry : StoredResponse} {file : List UInt8} {size : Nat}
    (wrote : writeEntry crates entry = .ok (file,size)) :
    ∃ bytes,crates.toAllocvec (metaOf crates entry) = .ok bytes ∧ bytes.length < 2 ^ 32 ∧
      file = magic ++ toLe32 bytes.length ++ bytes ++ entry.body ∧ size = file.length := by
  unfold writeEntry at wrote
  cases encoded : crates.toAllocvec (metaOf crates entry) with
  | error what =>
    rw [encoded] at wrote
    cases wrote
  | ok bytes =>
    rw [encoded] at wrote
    dsimp only [bind,Except.bind] at wrote
    split at wrote
    next small =>
      cases wrote
      refine ⟨bytes,rfl,small,rfl,?_⟩
      simp [magic,toLe32]
      omega
    next => cases wrote

theorem readEntry_header {length : Nat} (small : length < 2 ^ 32) (rest : List UInt8) :
    readEntry crates (magic ++ toLe32 length ++ rest) = readEntryFrom crates length rest := by
  have header := fromLe32_toLe32 small
  simp only [magic,toLe32,List.cons_append,List.nil_append,readEntry,header]
  rw [if_neg (not_not.mpr rfl)]

theorem readEntry_short {buf : List UInt8} (short : buf.length < 8) :
    readEntry crates buf = invalid "bad header" := by
  unfold readEntry
  split
  · simp only [List.length_cons] at short
    omega
  · rfl

theorem readEntryFrom_short {metaLen : Nat} {rest : List UInt8} (short : rest.length < metaLen) :
    readEntryFrom crates metaLen rest = invalid "truncated metadata" := if_pos short

theorem readEntryFrom_whole {entryMeta : EntryMeta} {bytes : List UInt8}
    (decodes : crates.fromBytes bytes = some entryMeta) (body : List UInt8) :
    readEntryFrom crates bytes.length (bytes ++ body) =
      if body.length ≠ entryMeta.bodyLen then invalid "truncated body"
      else if crates.xxh3 body ≠ entryMeta.bodyHash then invalid "checksum mismatch"
      else .ok
        { url := entryMeta.url
          status := entryMeta.status
          httpVersion := internVersion entryMeta.httpVersion
          headers := entryMeta.headers
          vary := entryMeta.vary
          requestTime := fromUnixMs entryMeta.requestTimeMs
          responseTime := fromUnixMs entryMeta.responseTimeMs
          body } := by
  have whole : ¬(bytes ++ body).length < bytes.length := by
    rw [List.length_append]
    omega
  rw [readEntryFrom,if_neg whole,List.take_left',List.drop_left',decodes]
  · rfl
  · rfl

theorem readEntry_writeEntry (laws : crates.Laws) {entry : StoredResponse} {file : List UInt8} {size : Nat}
    (wrote : writeEntry crates entry = .ok (file,size)) :
    readEntry crates file = .ok (Cache.readEntry (Cache.writeEntry entry)) := by
  obtain ⟨bytes,encoded,small,rfl,-⟩ := writeEntry_cases wrote
  rw [List.append_assoc _ bytes,readEntry_header small,readEntryFrom_whole (laws _ _ encoded)]
  simp only [metaOf,ne_eq,not_true_eq_false,if_false]
  rfl

theorem readEntry_cut (laws : crates.Laws) {entry : StoredResponse} {file : List UInt8} {size : Nat}
    (wrote : writeEntry crates entry = .ok (file,size)) {part : List UInt8} (cut : part <+: file)
    (proper : part ≠ file) : ∃ what,readEntry crates part = invalid what := by
  obtain ⟨bytes,encoded,small,rfl,-⟩ := writeEntry_cases wrote
  by_cases short : part.length < 8
  · exact ⟨_,readEntry_short short⟩
  · rw [List.append_assoc _ bytes] at cut proper
    have header : magic ++ toLe32 bytes.length <+: part :=
      List.prefix_of_prefix_length_le (List.prefix_append _ _) cut (Nat.le_of_not_lt short)
    obtain ⟨rest,rfl⟩ := header
    rw [List.prefix_append_right_inj] at cut
    rw [readEntry_header small]
    by_cases shortMeta : rest.length < bytes.length
    · exact ⟨_,readEntryFrom_short shortMeta⟩
    · have whole : bytes <+: rest :=
        List.prefix_of_prefix_length_le (List.prefix_append _ _) cut (Nat.le_of_not_lt shortMeta)
      obtain ⟨body,rfl⟩ := whole
      rw [List.prefix_append_right_inj] at cut
      have fewer : body.length ≠ (metaOf crates entry).bodyLen := by
        intro same
        rw [cut.eq_of_length same] at proper
        exact proper rfl
      rw [readEntryFrom_whole (laws _ _ encoded),if_pos fewer]
      exact ⟨_,rfl⟩

inductive Version where
  | http09 | http10 | http11 | http2 | http3 | other

def versionStr : Version → String
  | .http09 => "HTTP/0.9"
  | .http10 => "HTTP/1.0"
  | .http11 => "HTTP/1.1"
  | .http2 => "HTTP/2"
  | .http3 => "HTTP/3"
  | .other => ""

theorem internVersion_versionStr (version : Version) :
    internVersion (versionStr version) = versionStr version := by
  cases version <;> decide

def storedTime (t : SystemTime) : SystemTime := fromUnixMs (unixMs t)

theorem storedTime_eq {t : Int} (low : 0 ≤ t) (high : t < 2 ^ 64 * 1000000) :
    storedTime t = t - t % 1000000 := by
  have positive : ¬t < 0 := Int.not_lt.mpr low
  have small : (t / 1000000).toNat ≤ 2 ^ 64 - 1 := by omega
  rw [storedTime,unixMs,fromUnixMs,if_neg positive,Nat.min_eq_left small,
    Int.toNat_of_nonneg (Int.ediv_nonneg low (by decide))]
  have parts : 1000000 * (t / 1000000) + t % 1000000 = t := Int.mul_ediv_add_emod t 1000000
  linarith

/-- The file of a response reads back as the response, and no proper beginning of it as any. -/
theorem entry_round_trip (laws : crates.Laws) {entry : StoredResponse} {version : Version}
    (known : entry.httpVersion = versionStr version) {file : List UInt8} {size : Nat}
    (wrote : writeEntry crates entry = .ok (file,size)) : readEntry crates file = .ok { entry with
      requestTime := storedTime entry.requestTime
      responseTime := storedTime entry.responseTime } ∧
    ∀ part,part <+: file → part ≠ file → ∃ what,readEntry crates part = invalid what := by
  constructor
  · rw [readEntry_writeEntry laws wrote]
    simp only [Cache.readEntry,Cache.writeEntry,known,internVersion_versionStr,storedTime]
  · intro part cut proper
    exact readEntry_cut laws wrote cut proper

end

namespace Sample

def entry : StoredResponse := ⟨"a",200,"HTTP/2",[],[],0,0,[0x78]⟩

def bytes : List UInt8 := [1,0x61,0xc8,1,6,0x48,0x54,0x54,0x50,0x2f,0x32,0,0,0,0,1,0]

def crates : Crates where
  toAllocvec := fun entryMeta =>
    if entryMeta = ⟨"a",200,"HTTP/2",[],[],0,0,1,0⟩ then .ok bytes else .error "not this entry"
  fromBytes := fun text => if text = bytes then some ⟨"a",200,"HTTP/2",[],[],0,0,1,0⟩ else none
  xxh3 := fun _ => 0

theorem laws : crates.Laws := by
  intro entryMeta text encoded
  simp only [crates] at encoded ⊢
  split at encoded
  next same =>
    cases encoded
    rw [if_pos rfl,same]
  next => cases encoded

end Sample

theorem entry_round_trip_sample :
    readEntry Sample.crates (magic ++ toLe32 17 ++ Sample.bytes ++ [0x78]) = .ok { Sample.entry with
      requestTime := storedTime 0
      responseTime := storedTime 0 } ∧
    ∀ part,part <+: magic ++ toLe32 17 ++ Sample.bytes ++ [0x78] →
      part ≠ magic ++ toLe32 17 ++ Sample.bytes ++ [0x78] →
        ∃ what,readEntry Sample.crates part = invalid what :=
  entry_round_trip Sample.laws (show Sample.entry.httpVersion = versionStr .http2 from rfl)
    (show writeEntry Sample.crates Sample.entry = .ok (_,26) from rfl)

end Sharko.Netstack.Cache.Disk
