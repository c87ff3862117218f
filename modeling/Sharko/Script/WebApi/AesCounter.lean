import Mathlib
import Sharko.Script.TextDecoding

/-! AES in the script layer (`aesParams` and `cipher` of `40_webapi.js`) and in the native one
(`n_crypto_aes`). What the cipher library does to a block and in its other modes is a parameter. -/

namespace Sharko.Script.WebApi.Aes

open TextDecoding

inductive CryptoError where
  | typeError (message : String)
  | dom (name message : String)
  deriving DecidableEq

abbrev Block := BitVec 128

structure Ciphers where
  block : Bytes → Equiv.Perm Block
  gcm : Bool → Bytes → Bytes → Bytes → Bytes → Option Bytes
  cbc : Bool → Bytes → Bytes → Bytes → Option Bytes
  kw : Bool → Bytes → Bytes → Option Bytes

/-- A key as `importSecret` and the generation of keys make it. -/
structure Key where
  name : String
  usages : List String
  bytes : Bytes
  sized : bytes.length = 16 ∨ bytes.length = 32

/-- The members of a normalised algorithm; a number may be NaN. -/
structure Algorithm where
  name : String
  iv : Option Bytes := none
  counter : Option Bytes := none
  length : Option ℚ := none
  additionalData : Option Bytes := none
  tagLength : Option (Option ℚ) := none

inductive Mode where
  | gcm
  | cbc
  | ctr
  | kw

structure Params where
  mode : Mode
  iv : Bytes
  aad : Bytes
  tag : ℚ

def blockOf (bytes : Bytes) : Block := .ofNat 128 (bytes.foldl (fun n b => n * 256 + b.toNat) 0)

def byteOf (b : Block) (k : Nat) : UInt8 := .ofNat (b.toNat / 256 ^ (15 - k))

def counterMode (E : Block → Block) (counters : Nat → Block) (data : Bytes) : Bytes :=
  data.mapIdx fun i d => d ^^^ byteOf (E (counters (i / 16))) (i % 16)

/-- The counter mode of the library increments the whole block. -/
def Ciphers.ctr (ciphers : Ciphers) (key iv data : Bytes) : Bytes :=
  counterMode (ciphers.block key) (fun i => blockOf iv + .ofNat 128 i) data

def opErr (message : String) : CryptoError := .dom "OperationError" message

def cryptoAes (ciphers : Ciphers) (mode : Mode) (encrypt : Bool) (key : Bytes) (p : Params) (data : Bytes) :
    Except CryptoError Bytes :=
  let failed := opErr "The operation failed for an operation-specific reason"
  let sized := key.length = 16 ∨ key.length = 32
  match mode with
  | .gcm =>
    if p.tag ≠ 128 then .error (.dom "NotSupportedError" "AES-GCM: only 128-bit tags are supported")
    else if ¬ sized then .error (opErr "AES key data must be 128 or 256 bits")
    else if p.iv.length ≠ 12 then .error (.dom "NotSupportedError" "AES-GCM: the iv must be 96 bits")
    else ((ciphers.gcm encrypt key p.iv p.aad data).map .ok).getD
      (.error (if encrypt then opErr "encryption failed" else failed))
  | .cbc =>
    if ¬ sized then .error (opErr "AES key data must be 128 or 256 bits")
    else if p.iv.length ≠ 16 then .error (opErr "The iv/counter must be 16 bytes")
    else ((ciphers.cbc encrypt key p.iv data).map .ok).getD (.error failed)
  | .ctr =>
    if ¬ sized then .error (opErr "AES key data must be 128 or 256 bits")
    else if p.iv.length ≠ 16 then .error (opErr "The iv/counter must be 16 bytes")
    else .ok (ciphers.ctr key p.iv data)
  | .kw =>
    if ¬ sized then .error (opErr "AES key data must be 128 or 256 bits")
    else if data.length % 8 ≠ 0 ∨ (data.length < 16 ∧ encrypt) ∨ (data.length < 24 ∧ ¬ encrypt) then
      .error (opErr "AES-KW: invalid data length")
    else ((ciphers.kw encrypt key data).map .ok).getD (.error failed)

def notSupported : CryptoError := .dom "NotSupportedError" "Algorithm: Unrecognized name"

def aesParams (a : Algorithm) (what : String) : Except CryptoError Params :=
  if a.name = "AES-GCM" then
    match a.iv with
    | none => .error (.typeError (what ++ ": AesGcmParams: iv: Missing required property"))
    | some iv =>
      match a.tagLength.getD (some 128) with
      | none => .error (.dom "OperationError"
          "The tag length is invalid: Must be 32, 64, 96, 104, 112, 120, or 128 bits")
      | some tag =>
        if tag ∉ [32,64,96,104,112,120,128] then .error (.dom "OperationError"
          "The tag length is invalid: Must be 32, 64, 96, 104, 112, 120, or 128 bits")
        else .ok ⟨.gcm,iv,a.additionalData.getD [],tag⟩
  else if a.name = "AES-CBC" then
    match a.iv with
    | none => .error (.typeError (what ++ ": AesCbcParams: iv: Missing required property"))
    | some iv =>
      if iv.length ≠ 16 then .error (.dom "OperationError"
        "The \"iv\" has an unexpected length -- must be 16 bytes")
      else .ok ⟨.cbc,iv,[],0⟩
  else if a.name = "AES-CTR" then
    match a.counter with
    | none => .error (.typeError (what ++ ": AesCtrParams: counter: Missing required property"))
    | some ctr =>
      if ctr.length ≠ 16 then .error (.dom "OperationError"
        "The \"counter\" has an unexpected length -- must be 16 bytes")
      else
        match a.length with
        | none => .error (.dom "OperationError" "The \"length\" must be >= 1 and <= 128")
        | some len =>
          if ¬ (1 ≤ len ∧ len ≤ 128) then
            .error (.dom "OperationError" "The \"length\" must be >= 1 and <= 128")
          else .ok ⟨.ctr,ctr,[],0⟩
  else .error notSupported

def useKey (k : Key) (name usage : String) : Except CryptoError Key :=
  if k.name ≠ name then
    .error (.dom "InvalidAccessError" "The requested operation is not valid for the provided key")
  else if usage ∉ k.usages then
    .error (.dom "InvalidAccessError" "key.usages does not permit this operation")
  else .ok k

def cipher (ciphers : Ciphers) (a : Algorithm) (key : Key) (data : Bytes) (encrypt : Bool)
    (usage what : String) : Except CryptoError Bytes := do
  if a.name ∉ ["AES-GCM","AES-CBC","AES-CTR","AES-KW"] then throw notSupported
  let info ← useKey key a.name usage
  if a.name = "AES-KW" then cryptoAes ciphers .kw encrypt info.bytes ⟨.kw,[],[],0⟩ data
  else
    let p ← aesParams a what
    cryptoAes ciphers p.mode encrypt info.bytes p data

def encrypt (ciphers : Ciphers) (a : Algorithm) (key : Key) (data : Bytes) : Except CryptoError Bytes :=
  cipher ciphers a key data true "encrypt" "Failed to execute 'encrypt' on 'SubtleCrypto'"

/-- The block for place `i`: the low bits count, the others stay. -/
def counterBlock (length : Nat) (start : Block) (i : Nat) : Block :=
  .ofNat 128 (start.toNat / 2 ^ length * 2 ^ length + (start.toNat % 2 ^ length + i) % 2 ^ length)

def blockCount (data : Bytes) : Nat := (data.length + 15) / 16

/-- Under every block cipher, data of more blocks than there are counters is refused and other
data is encrypted with the counters of its blocks. -/
def CountsIn (length : Nat) (key : Key) (counter data : Bytes) : Prop :=
  ∀ ciphers : Ciphers,
    (2 ^ length < blockCount data → ∃ error,encrypt ciphers
      { name := "AES-CTR", counter := some counter, length := some length } key data = .error error) ∧
    (blockCount data ≤ 2 ^ length → encrypt ciphers
      { name := "AES-CTR", counter := some counter, length := some length } key data =
        .ok (counterMode (ciphers.block key.bytes) (counterBlock length (blockOf counter)) data))

section

variable {key : Key} {counter data : Bytes} {length : Nat}

theorem encrypt_ctr (ciphers : Ciphers) (named : key.name = "AES-CTR") (usable : "encrypt" ∈ key.usages)
    (block : counter.length = 16) (least : 1 ≤ length) (most : length ≤ 128) (data : Bytes) :
    encrypt ciphers { name := "AES-CTR", counter := some counter, length := some length } key data =
      .ok (ciphers.ctr key.bytes counter data) := by
  have used : useKey key "AES-CTR" "encrypt" = .ok key := by
    rw [useKey,if_neg (not_not.mpr named),if_neg (not_not.mpr usable)]
  have low : (1 : ℚ) ≤ length := Nat.one_le_cast.mpr least
  have high : (length : ℚ) ≤ 128 := by exact_mod_cast most
  have params (what : String) : aesParams
      { name := "AES-CTR", counter := some counter, length := some (length : ℚ) } what = .ok ⟨.ctr,counter,[],0⟩ := by
    unfold aesParams
    simp [block,low,high]
  have native : cryptoAes ciphers .ctr true key.bytes ⟨.ctr,counter,[],0⟩ data =
      .ok (ciphers.ctr key.bytes counter data) := by
    simp only [cryptoAes]
    rw [if_neg (not_not.mpr key.sized),if_neg (not_not.mpr block)]
  unfold encrypt cipher
  simp only [List.mem_cons,String.reduceEq,or_true,true_or,not_true_eq_false,if_false,used,params]
  exact native

theorem getElem_counterMode (E : Block → Block) (counters : Nat → Block) {i : Nat} (inside : i < data.length) :
    (counterMode E counters data)[i]? = some (data[i] ^^^ byteOf (E (counters (i / 16))) (i % 16)) := by
  rw [counterMode,List.getElem?_mapIdx,List.getElem?_eq_getElem inside]
  rfl

theorem counterMode_congr {E : Block → Block} {counters others : Nat → Block}
    (same : ∀ i < blockCount data,counters i = others i) :
    counterMode E counters data = counterMode E others data := by
  apply List.ext_getElem?
  intro i
  by_cases inside : i < data.length
  · have block : i / 16 < blockCount data := by
      unfold blockCount
      omega
    rw [getElem_counterMode E counters inside,getElem_counterMode E others inside,same _ block]
  · unfold counterMode
    rw [List.getElem?_mapIdx,List.getElem?_mapIdx,List.getElem?_eq_none (not_lt.mp inside)]
    rfl

theorem exists_perm {x y : Block} (differ : x ≠ y) : ∃ E : Equiv.Perm Block,E x = 0 ∧ E y = BitVec.allOnes 128 := by
  let τ : Equiv.Perm Block := Equiv.swap x 0
  have zero : τ x = 0 := Equiv.swap_apply_left x 0
  have moved : τ y ≠ 0 := fun same => differ (τ.injective (zero.trans same.symm))
  refine ⟨τ.trans (Equiv.swap (τ y) (BitVec.allOnes 128)),?_,?_⟩
  · rw [Equiv.trans_apply,zero,Equiv.swap_apply_of_ne_of_ne moved.symm (by decide)]
  · rw [Equiv.trans_apply,Equiv.swap_apply_left]

theorem counterMode_eq_iff {counters others : Nat → Block} :
    (∀ E : Equiv.Perm Block,counterMode E counters data = counterMode E others data) ↔
      ∀ i < blockCount data,counters i = others i := by
  constructor
  · intro same i bound
    by_contra differ
    obtain ⟨E,here,there⟩ := exists_perm differ
    have inside : 16 * i < data.length := by
      unfold blockCount at bound
      omega
    have bytes := congrArg (·[16 * i]?) (same E)
    simp only [getElem_counterMode _ _ inside,Nat.mul_div_cancel_left i (show 0 < 16 by omega),Nat.mul_mod_right,
      here,there] at bytes
    have zero : byteOf 0 0 = 0 := by decide
    have ones : byteOf (BitVec.allOnes 128) 0 = 255 := by decide
    rw [zero,ones,Option.some.injEq,UInt8.xor_right_inj] at bytes
    cases bytes
  · intro same E
    exact counterMode_congr same

theorem counters_iff (start : Block) (n : Nat) (most : length ≤ 128) :
    (∀ i < n,start + .ofNat 128 i = counterBlock length start i) ↔
      start.toNat % 2 ^ length + n ≤ 2 ^ length ∨ length = 128 := by
  have positive : 0 < 2 ^ length := Nat.two_pow_pos length
  have below : start.toNat % 2 ^ length < 2 ^ length := Nat.mod_lt _ positive
  have divided := Nat.div_add_mod' start.toNat (2 ^ length)
  have value (i : Nat) : start + .ofNat 128 i = counterBlock length start i ↔ (start.toNat + i) % 2 ^ 128 =
      (start.toNat / 2 ^ length * 2 ^ length + (start.toNat % 2 ^ length + i) % 2 ^ length) % 2 ^ 128 := by
    rw [← BitVec.toNat_inj,counterBlock,BitVec.toNat_add,BitVec.toNat_ofNat,BitVec.toNat_ofNat,Nat.add_mod_mod]
  simp only [value]
  constructor
  · intro same
    by_contra wraps
    obtain ⟨many,narrow⟩ := not_or.mp wraps
    -- the counter that wraps
    have first := same (2 ^ length - start.toNat % 2 ^ length) (by omega)
    rw [Nat.add_sub_cancel' below.le,Nat.mod_self,Nat.add_zero] at first
    have whole : start.toNat + (2 ^ length - start.toNat % 2 ^ length) =
        start.toNat / 2 ^ length * 2 ^ length + 2 ^ length := by omega
    have small := start.isLt
    rw [whole,Nat.mod_eq_of_lt (show start.toNat / 2 ^ length * 2 ^ length < 2 ^ 128 by omega)] at first
    have strict : 2 ^ length < 2 ^ 128 := Nat.pow_lt_pow_right (by omega) (by omega)
    by_cases fits : start.toNat / 2 ^ length * 2 ^ length + 2 ^ length < 2 ^ 128
    · rw [Nat.mod_eq_of_lt fits] at first
      omega
    · rw [Nat.mod_eq_sub_mod (not_lt.mp fits),Nat.mod_eq_of_lt (by omega)] at first
      omega
  · intro holds i bound
    rcases holds with narrow | rfl
    · rw [Nat.mod_eq_of_lt (show start.toNat % 2 ^ length + i < 2 ^ length by omega),← Nat.add_assoc,divided]
    · rw [Nat.div_eq_of_lt start.isLt,Nat.mod_eq_of_lt start.isLt,Nat.zero_mul,Nat.zero_add,Nat.mod_mod]

/-- The counters of the code are the right ones until the low part overflows. -/
theorem countsIn_iff (named : key.name = "AES-CTR") (usable : "encrypt" ∈ key.usages)
    (block : counter.length = 16) (least : 1 ≤ length) (most : length ≤ 128) :
    CountsIn length key counter data ↔ (blockOf counter).toNat % 2 ^ length + blockCount data ≤ 2 ^ length ∨
        (length = 128 ∧ blockCount data ≤ 2 ^ length) := by
  have other (E : Equiv.Perm Block) := encrypt_ctr ⟨fun _ => E,fun _ _ _ _ _ => none,fun _ _ _ _ => none,
    fun _ _ _ => none⟩ named usable block least most data
  constructor
  · intro counts
    have few : blockCount data ≤ 2 ^ length := by
      by_contra many
      obtain ⟨error,refused⟩ := (counts _).1 (not_le.mp many)
      cases (other 1).symm.trans refused
    have same : ∀ i < blockCount data,blockOf counter + .ofNat 128 i = counterBlock length (blockOf counter) i := by
      apply counterMode_eq_iff.mp
      intro E
      exact Except.ok.inj ((other E).symm.trans ((counts _).2 few))
    exact ((counters_iff _ _ most).mp same).imp id fun full => ⟨full,few⟩
  · intro holds ciphers
    have few : blockCount data ≤ 2 ^ length := by
      rcases holds with narrow | ⟨-,few⟩
      · exact (Nat.le_add_left _ _).trans narrow
      · exact few
    refine ⟨fun many => absurd few (not_le.mpr many),fun _ => ?_⟩
    rw [encrypt_ctr ciphers named usable block least most,Ciphers.ctr]
    exact congrArg Except.ok (counterMode_congr ((counters_iff _ _ most).mpr (holds.imp id And.left)))

end

namespace Sample

def key : Key := ⟨"AES-CTR",["encrypt"],List.replicate 16 0,.inl rfl⟩

end Sample

theorem countsIn_zero : CountsIn 8 Sample.key (List.replicate 16 0) [1,2,3] ∧ blockCount [1,2,3] = 1 :=
  ⟨(countsIn_iff rfl List.mem_cons_self rfl (by omega) (by omega)).mpr (.inl (by decide)),rfl⟩

/-- The second of two blocks when the lowest byte of the counter is full and is all that counts. -/
theorem full_counter_carries : ¬ ∀ (length : Nat) (key : Key) (counter data : Bytes),key.name = "AES-CTR" →
    "encrypt" ∈ key.usages → counter.length = 16 → 1 ≤ length → length ≤ 128 → CountsIn length key counter data := by
  intro all
  have counts := all 8 Sample.key (List.replicate 15 0 ++ [255]) (List.replicate 17 0) rfl List.mem_cons_self rfl
    (by omega) (by omega)
  have same : ∀ i < blockCount (List.replicate 17 0),
      blockOf (List.replicate 15 0 ++ [255]) + .ofNat 128 i =
        counterBlock 8 (blockOf (List.replicate 15 0 ++ [255])) i := by
    apply counterMode_eq_iff.mp
    intro E
    let ciphers : Ciphers := ⟨fun _ => E,fun _ _ _ _ _ => none,fun _ _ _ _ => none,fun _ _ _ => none⟩
    have ok : encrypt ciphers { name := "AES-CTR", counter := some (List.replicate 15 0 ++ [255]), length := some 8 }
        Sample.key (List.replicate 17 0) =
          .ok (ciphers.ctr Sample.key.bytes (List.replicate 15 0 ++ [255]) (List.replicate 17 0)) :=
      encrypt_ctr ciphers rfl List.mem_cons_self rfl (show 1 ≤ 8 by omega) (show 8 ≤ 128 by omega) (List.replicate 17 0)
    exact Except.ok.inj (ok.symm.trans ((counts _).2 (by decide)))
  exact absurd (same 1 (by decide)) (by decide)

end Sharko.Script.WebApi.Aes
