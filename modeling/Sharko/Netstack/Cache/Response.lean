import Mathlib
import Sharko.Library.Text

/-! Stored responses and their keys (`crates/netstack/src/cache/mod.rs` and
`disk.rs`). A time is the nanoseconds since the Unix epoch; the 128-bit digest of
the `xxhash` crate is an argument. -/

namespace Sharko.Netstack.Cache
open Library

abbrev Key := BitVec 128
abbrev Generation := Nat
abbrev SystemTime := Int

abbrev HeaderMap := List (String × String)

abbrev VaryValues := List (String × Option String)

structure Url where
  target : String
  fragment : Option String
deriving DecidableEq

structure StoredResponse where
  url : String
  status : UInt16
  httpVersion : String
  headers : List (String × String)
  vary : VaryValues
  requestTime : SystemTime
  responseTime : SystemTime
  body : List UInt8
deriving DecidableEq

def StoredResponse.weight (r : StoredResponse) : Nat :=
  r.body.length + (r.headers.map fun h => h.1.utf8ByteSize + h.2.utf8ByteSize + 32).sum +
    r.url.utf8ByteSize + 256

section
variable (digest128 : List UInt8 → Key)

def primaryKey (url : Url) (credentials : Bool) : Key :=
  digest128 (Text.utf8 "GET " ++ Text.utf8 url.target ++ [if credentials then 1 else 0])

def getAll (request : HeaderMap) (name : String) : List String :=
  (request.filter fun header => header.1 == Text.toAsciiLowercase name).map Prod.snd

def joinValues (joined : Option String) (value : String) : Option String :=
  match joined with
  | some s => some (s ++ ", " ++ Text.trim value)
  | none => some (Text.trim value)

def varyValues (names : List String) (request : HeaderMap) : VaryValues :=
  names.map fun name => (name,(getAll request name).foldl joinValues none)

def StoredResponse.filed (response : StoredResponse) (url : Url) (varyNames : List String)
    (request : HeaderMap) : StoredResponse :=
  {response with url := url.target, vary := varyValues varyNames request}

def toLeBytes (key : Key) : List UInt8 :=
  (List.range 16).map fun i => UInt8.ofNat (key.toNat / 256 ^ i % 256)

def hashedPair : String × Option String → List UInt8
  | (name,some v) => Text.utf8 name ++ [0,1] ++ Text.utf8 v ++ [0]
  | (name,none) => Text.utf8 name ++ [0,2] ++ [0]

def variantKey (primary : Key) (vary : VaryValues) : Key :=
  if vary.isEmpty then primary else digest128 (toLeBytes primary ++ vary.flatMap hashedPair)

def storeKey (url : Url) (credentials : Bool) (request : HeaderMap) (varyNames : List String) : Key :=
  variantKey digest128 (primaryKey digest128 url credentials) (varyValues varyNames request)

end

structure EntryFile where
  url : String
  status : UInt16
  httpVersion : String
  headers : List (String × String)
  vary : VaryValues
  requestTimeMs : Nat
  responseTimeMs : Nat
  body : List UInt8
deriving DecidableEq

def unixMs (t : SystemTime) : Nat := if t < 0 then 0 else min (t / 1000000).toNat (2 ^ 64 - 1)

def fromUnixMs (ms : Nat) : SystemTime := ms * 1000000

def internVersion (s : String) : String :=
  if ["HTTP/0.9","HTTP/1.0","HTTP/1.1","HTTP/2","HTTP/3"].contains s then s else ""

def writeEntry (r : StoredResponse) : EntryFile :=
  ⟨r.url,r.status,r.httpVersion,r.headers,r.vary,unixMs r.requestTime,unixMs r.responseTime,r.body⟩

def readEntry (f : EntryFile) : StoredResponse :=
  ⟨f.url,f.status,internVersion f.httpVersion,f.headers,f.vary,fromUnixMs f.requestTimeMs,
    fromUnixMs f.responseTimeMs,f.body⟩

/-- `s` is the response `r` itself or `r` read back from its file. -/
def SameResponse (r s : StoredResponse) : Prop := s = r ∨ s = readEntry (writeEntry r)

instance (r s : StoredResponse) : Decidable (SameResponse r s) := inferInstanceAs (Decidable (_ ∨ _))

theorem unixMs_le (t : SystemTime) : unixMs t ≤ 2 ^ 64 - 1 := by
  unfold unixMs
  split_ifs
  · exact Nat.zero_le _
  · exact Nat.min_le_right _ _

theorem unixMs_fromUnixMs {ms : Nat} (small : ms ≤ 2 ^ 64 - 1) : unixMs (fromUnixMs ms) = ms := by
  have positive : ¬ (ms : Int) * 1000000 < 0 := by omega
  have whole : (ms : Int) * 1000000 / 1000000 = ms := by omega
  simp only [unixMs,fromUnixMs,if_neg positive,whole,Int.toNat_natCast]
  exact Nat.min_eq_left small

theorem internVersion_idem (s : String) : internVersion (internVersion s) = internVersion s := by
  unfold internVersion
  split_ifs with known <;> rfl

theorem reread (r : StoredResponse) :
    readEntry (writeEntry (readEntry (writeEntry r))) = readEntry (writeEntry r) := by
  simp [readEntry,writeEntry,unixMs_fromUnixMs (unixMs_le _),internVersion_idem]

@[simp] theorem SameResponse.refl (r : StoredResponse) : SameResponse r r := .inl rfl

theorem SameResponse.read {r s : StoredResponse} (same : SameResponse r s) :
    SameResponse r (readEntry (writeEntry s)) := by
  rcases same with rfl | rfl
  · exact .inr rfl
  · exact .inr (reread r)

namespace Sample

def digest (bytes : List UInt8) : Key :=
  BitVec.ofNat 128 (bytes.foldl (fun h b => h * 257 + b.toNat + 1) 0)

def page : Url := ⟨"http://a/",none⟩

def response (body : List UInt8) : StoredResponse :=
  ⟨"",200,"HTTP/1.1",[("cache-control","max-age=60")],[],0,0,body⟩

end Sample

end Sharko.Netstack.Cache
