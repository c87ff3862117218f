import Mathlib
import Sharko.Script.WebApi.Utf8

/-! The query strings of `URLSearchParams` and of form bodies. -/

namespace Sharko.Script.WebApi

open Library TextDecoding

def isHex (c : Nat) : Bool := (0x30 ≤ c && c ≤ 0x39) || (0x41 ≤ c && c ≤ 0x46) || (0x61 ≤ c && c ≤ 0x66)

def hexValue (c : Nat) : Nat := if c ≤ 0x39 then c - 0x30 else if c ≤ 0x46 then c - 0x37 else c - 0x57

def percentTurn (c : Nat) (rest : Units) : Bytes × Nat :=
  if c = 37 ∧ 2 ≤ rest.length ∧ (rest.take 2).all isHex then
    ([.ofNat ((rest.take 2).foldl (fun n d => n * 16 + hexValue d) 0)],2)
  else if c < 0x80 then ([.ofNat c],0)
  else if Utf16.IsHigh c then (utf8Encode (c :: rest.take 1),1)
  else (utf8Encode [c],0)

def percentLoop : Nat → Units → Bytes
  | _,[] => []
  | read + 1,_ :: rest => percentLoop read rest
  | 0,c :: rest => (percentTurn c rest).1 ++ percentLoop (percentTurn c rest).2 rest

def percentDecodeBytes (s : Units) : Bytes := percentLoop 0 s

def plusToSpace (c : Nat) : Nat := if c = 43 then 32 else c

def formDecode (s : Units) : Units :=
  if 37 ∉ s ∧ 43 ∉ s then s else utf8Decode (percentDecodeBytes (s.map plusToSpace))

def parsePart (part : Units) : Units × Units :=
  (formDecode (part.takeWhile (· ≠ 61)),formDecode (part.dropWhile (· ≠ 61)).tail)

def parseQuery (s : Units) : List (Units × Units) :=
  if s = [] then [] else ((s.splitOn 38).filter (· ≠ [])).map parsePart

def formSafe (c : Nat) : Bool :=
  (0x30 ≤ c && c ≤ 0x39) || (0x41 ≤ c && c ≤ 0x5a) || (0x61 ≤ c && c ≤ 0x7a) ||
    [0x2a,0x2d,0x2e,0x5f].contains c

def hexDigit (n : Nat) : Nat := if n < 10 then 0x30 + n else 0x37 + n

def encodeByte (b : UInt8) : Units :=
  if b.toNat = 0x20 then [43]
  else if formSafe b.toNat then [b.toNat]
  else [37,hexDigit (b.toNat / 16),hexDigit (b.toNat % 16)]

def formEncode (s : Units) : Units := if s.all formSafe then s else (utf8Encode s).flatMap encodeByte

def serializeQuery (list : List (Units × Units)) : Units :=
  [38].intercalate (list.map fun p => formEncode p.1 ++ 61 :: formEncode p.2)

theorem formSafe_lt {c : Nat} (safe : formSafe c = true) : c < 0x80 ∧ c ≠ 37 ∧ c ≠ 38 ∧ c ≠ 43 ∧ c ≠ 61 := by
  unfold formSafe at safe
  simp only [Bool.or_eq_true,Bool.and_eq_true,decide_eq_true_eq,List.contains_eq_mem,List.mem_cons,
    List.not_mem_nil,or_false] at safe
  omega

theorem hexDigit_spec {n : Nat} (small : n < 16) :
    isHex (hexDigit n) = true ∧ hexValue (hexDigit n) = n ∧ 0x30 ≤ hexDigit n ∧ hexDigit n < 0x47 ∧
      hexDigit n ≠ 61 := by
  have all : ∀ n : Fin 16,isHex (hexDigit n) = true ∧ hexValue (hexDigit n) = n.val ∧ 0x30 ≤ hexDigit n ∧
      hexDigit n < 0x47 ∧ hexDigit n ≠ 61 := by decide
  exact all ⟨n,small⟩

theorem encodeByte_plain {b : UInt8} {u : Nat} (mem : u ∈ encodeByte b) : u ≠ 38 ∧ u ≠ 61 := by
  unfold encodeByte at mem
  split_ifs at mem with space safe
  · rw [List.mem_singleton.mp mem]
    decide
  · have other := formSafe_lt safe
    rw [List.mem_singleton.mp mem]
    omega
  · have high := hexDigit_spec (n := b.toNat / 16) (by have := b.toNat_lt; omega)
    have low := hexDigit_spec (n := b.toNat % 16) (by omega)
    simp only [List.mem_cons,List.not_mem_nil,or_false] at mem
    omega

theorem percentLoop_byte (b : UInt8) (rest : Units) :
    percentLoop 0 ((encodeByte b).map plusToSpace ++ rest) = b :: percentLoop 0 rest := by
  have self : UInt8.ofNat b.toNat = b := UInt8.ofNat_toNat
  have plain {c : Nat} (ascii : c < 0x80) (other : c ≠ 37) :
      percentLoop 0 (c :: rest) = .ofNat c :: percentLoop 0 rest := by
    have turn : percentTurn c rest = ([.ofNat c],0) := by
      unfold percentTurn
      rw [if_neg fun escape => other escape.1,if_pos ascii]
    rw [percentLoop,turn]
    rfl
  unfold encodeByte
  split_ifs with space safe
  · apply (plain (c := 32) (by omega) (by omega)).trans
    rw [← space,self]
  · obtain ⟨ascii,percent,-,plus,-⟩ := formSafe_lt safe
    rw [List.map_singleton,plusToSpace,if_neg plus,List.singleton_append,plain ascii percent,self]
  · obtain ⟨hex,value,-⟩ := hexDigit_spec (n := b.toNat / 16) (by have := b.toNat_lt; omega)
    obtain ⟨hex',value',-⟩ := hexDigit_spec (n := b.toNat % 16) (by omega)
    have keep {n : Nat} (small : n < 16) : plusToSpace (hexDigit n) = hexDigit n := by
      obtain ⟨-,-,least,-⟩ := hexDigit_spec small
      exact if_neg (by omega)
    have turn : percentTurn 37 (hexDigit (b.toNat / 16) :: hexDigit (b.toNat % 16) :: rest) = ([b],2) := by
      unfold percentTurn
      rw [if_pos ⟨rfl,by simp,by simp [hex,hex']⟩]
      simp only [List.take_succ_cons,List.take_zero,List.foldl_cons,List.foldl_nil,value,value']
      rw [show (0 * 16 + b.toNat / 16) * 16 + b.toNat % 16 = b.toNat by omega,self]
    rw [List.map_cons,List.map_cons,List.map_singleton,keep (by have := b.toNat_lt; omega),keep (by omega)]
    change percentLoop 0 (37 :: hexDigit (b.toNat / 16) :: hexDigit (b.toNat % 16) :: rest) = _
    rw [percentLoop,turn]
    rfl

theorem percentDecode_encode (bytes : Bytes) :
    percentDecodeBytes ((bytes.flatMap encodeByte).map plusToSpace) = bytes := by
  unfold percentDecodeBytes
  induction bytes with
  | nil => rfl
  | cons b bytes ih => rw [List.flatMap_cons,List.map_append,percentLoop_byte,ih]

theorem units_low {c : Nat} (ascii : c < 0x80) : fromCodePoint c = [c] := if_pos (by omega)

theorem encodePoint_low {c : Nat} (ascii : c < 0x80) : encodePoint c = [.ofNat c] := if_pos ascii

theorem encodePoint_high {c : Nat} (scalar : IsScalar c) (high : ¬ c < 0x80) :
    ∃ b ∈ encodePoint c,0xc0 ≤ b.toNat := by
  rcases encodePoint_cases scalar with ⟨low,-⟩ | ⟨b,start,min,cs,same,leads,-⟩
  · exact absurd low high
  · obtain ⟨-,-,-,-,-,-,lead,-⟩ := first_of_lead leads
    exact ⟨b,by rw [same]; exact List.mem_cons_self,lead⟩

theorem safe_of_bytes {s : List Char} (safe : ∀ b ∈ bytesOf s,formSafe b.toNat = true) :
    (unitsOf s).all formSafe = true := by
  induction s with
  | nil => rfl
  | cons c s ih =>
    have parts : (∀ b ∈ encodePoint c.toNat,formSafe b.toNat = true) ∧ ∀ b ∈ bytesOf s,formSafe b.toNat = true :=
      List.forall_mem_append.mp safe
    have ascii : c.toNat < 0x80 := by
      by_contra high
      obtain ⟨b,mem,least⟩ := encodePoint_high (isScalar_toNat c) high
      have low := (formSafe_lt (parts.1 b mem)).1
      omega
    have here := parts.1 (.ofNat c.toNat) (by rw [encodePoint_low ascii]; exact List.mem_singleton_self _)
    rw [toNat_ofNat (by omega)] at here
    rw [unitsOf_cons,units_low ascii,List.singleton_append,List.all_cons,here,ih parts.2]
    rfl

theorem escaped_of_unsafe {b : UInt8} (escaped : ¬ formSafe b.toNat = true) :
    37 ∈ encodeByte b ∨ 43 ∈ encodeByte b := by
  unfold encodeByte
  split_ifs
  · exact .inr List.mem_cons_self
  · exact .inl List.mem_cons_self

def returned (s : List Char) : List Char :=
  if 256 < (bytesOf s).length ∧ s.head? = some mark then s.tail else s

theorem utf8Decode_returned (s : List Char) : utf8Decode (bytesOf s) = unitsOf (returned s) := by
  rw [utf8Decode_bytesOf,returned]
  split_ifs <;> rfl

theorem returned_of_safe {s : List Char} (safe : (unitsOf s).all formSafe = true) : returned s = s := by
  apply if_neg
  rintro ⟨-,head⟩
  obtain ⟨t,rfl⟩ := List.head?_eq_some_iff.mp head
  rw [unitsOf_cons,List.all_append,Bool.and_eq_true] at safe
  exact absurd safe.1 (by decide)

theorem formDecode_formEncode (s : List Char) : formDecode (formEncode (unitsOf s)) = unitsOf (returned s) := by
  by_cases safe : (unitsOf s).all formSafe = true
  · rw [formEncode,if_pos safe,returned_of_safe safe,formDecode,if_pos]
    constructor
    · intro mem
      exact (formSafe_lt (List.all_eq_true.mp safe 37 mem)).2.1 rfl
    · intro mem
      exact (formSafe_lt (List.all_eq_true.mp safe 43 mem)).2.2.2.1 rfl
  · have unsafe_ : ∃ b ∈ bytesOf s,¬ formSafe b.toNat = true := by
      by_contra none
      exact safe (safe_of_bytes fun b mem => by_contra fun escaped => none ⟨b,mem,escaped⟩)
    obtain ⟨b,mem,escaped⟩ := unsafe_
    rw [formEncode,if_neg safe,bytesOf_eq,formDecode,if_neg,percentDecode_encode,utf8Decode_returned]
    rintro ⟨percent,plus⟩
    rcases escaped_of_unsafe escaped with here | here
    · exact percent (List.mem_flatMap.mpr ⟨b,mem,here⟩)
    · exact plus (List.mem_flatMap.mpr ⟨b,mem,here⟩)

theorem formEncode_plain {s : Units} {u : Nat} (mem : u ∈ formEncode s) : u ≠ 38 ∧ u ≠ 61 := by
  unfold formEncode at mem
  split_ifs at mem with safe
  · obtain ⟨-,-,amp,-,equals⟩ := formSafe_lt (List.all_eq_true.mp safe u mem)
    exact ⟨amp,equals⟩
  · obtain ⟨b,-,here⟩ := List.mem_flatMap.mp mem
    exact encodeByte_plain here

theorem parsePart_joined (name value : List Char) :
    parsePart (formEncode (unitsOf name) ++ 61 :: formEncode (unitsOf value)) =
      (unitsOf (returned name),unitsOf (returned value)) := by
  have other : ∀ u ∈ formEncode (unitsOf name),decide (u ≠ 61) = true :=
    fun u mem => decide_eq_true (formEncode_plain mem).2
  rw [parsePart,List.takeWhile_append_of_pos other,List.dropWhile_append_of_pos other,
    List.takeWhile_cons_of_neg (by simp),List.dropWhile_cons_of_neg (by simp),List.append_nil,List.tail_cons,
    formDecode_formEncode,formDecode_formEncode]

def pairOf (p : List Char × List Char) : Units × Units := (unitsOf p.1,unitsOf p.2)

theorem parse_serialize (list : List (List Char × List Char)) : parseQuery (serializeQuery (list.map pairOf)) =
    list.map fun p => (unitsOf (returned p.1),unitsOf (returned p.2)) := by
  cases list with
  | nil => rfl
  | cons first later =>
    let parts := ((first :: later).map pairOf).map fun p => formEncode p.1 ++ 61 :: formEncode p.2
    have single : ∀ part ∈ parts,38 ∉ part := by
      intro part listed amp
      obtain ⟨p,-,rfl⟩ := List.mem_map.mp listed
      rcases List.mem_append.mp amp with inside | inside
      · exact (formEncode_plain inside).1 rfl
      · rcases List.mem_cons.mp inside with equals | inside
        · cases equals
        · exact (formEncode_plain inside).1 rfl
    have inhabited : ∀ part ∈ parts,decide (part ≠ []) = true := by
      intro part listed
      obtain ⟨p,-,rfl⟩ := List.mem_map.mp listed
      simp
    have split : (serializeQuery ((first :: later).map pairOf)).splitOn 38 = parts :=
      List.splitOn_intercalate 38 single (List.cons_ne_nil _ _)
    have something : serializeQuery ((first :: later).map pairOf) ≠ [] := by
      intro nothing
      rw [nothing] at split
      exact absurd (inhabited [] (split ▸ List.mem_singleton_self _)) (by simp)
    rw [parseQuery,if_neg something,split,List.filter_eq_self.mpr inhabited]
    simp only [parts,List.map_map]
    apply List.map_congr_left
    intro p _
    exact parsePart_joined p.1 p.2

theorem unitsOf_length_pos (c : Char) (s : List Char) : (unitsOf s).length < (unitsOf (c :: s)).length := by
  have some_ : 0 < (fromCodePoint c.toNat).length := by
    unfold fromCodePoint
    split_ifs <;> simp
  rw [unitsOf_cons,List.length_append]
  omega

theorem returned_iff (s : List Char) :
    unitsOf (returned s) = unitsOf s ↔ ¬ (256 < (bytesOf s).length ∧ s.head? = some mark) := by
  unfold returned
  split_ifs with marked
  · obtain ⟨t,rfl⟩ := List.head?_eq_some_iff.mp marked.2
    exact iff_of_false (fun same => (unitsOf_length_pos mark t).ne (congrArg List.length same)) fun kept => kept marked
  · exact iff_of_true rfl marked

theorem returned_of_back {list : List (List Char × List Char)}
    (back : parseQuery (serializeQuery (list.map pairOf)) = list.map pairOf) {p : List Char × List Char}
    (mem : p ∈ list) : unitsOf (returned p.1) = unitsOf p.1 := by
  rw [parse_serialize] at back
  exact congrArg Prod.fst (List.map_inj_left.mp back p mem)

/-- A list comes back unless a name or a value is long and begins with a byte order mark. -/
theorem parseQuery_serializeQuery_iff (list : List (List Char × List Char)) :
    parseQuery (serializeQuery (list.map pairOf)) = list.map pairOf ↔
      ∀ p ∈ list,∀ s ∈ [p.1,p.2],¬ (256 < (bytesOf s).length ∧ s.head? = some mark) := by
  rw [parse_serialize,List.map_inj_left]
  apply forall₂_congr
  intro p _
  rw [pairOf,Prod.mk.injEq,returned_iff,returned_iff]
  simp only [List.forall_mem_cons,List.not_mem_nil,false_imp_iff,implies_true,and_true]

/-- A name of a byte order mark and 254 letters comes back without the mark. -/
theorem long_marked_name : ¬ ∀ list : List (List Char × List Char),
    parseQuery (serializeQuery (list.map pairOf)) = list.map pairOf := by
  intro all
  have same := returned_of_back (all [(mark :: List.replicate 254 'a',[])]) List.mem_cons_self
  refine (returned_iff _).mp same ⟨?_,rfl⟩
  rw [bytesOf_mark]
  have letters : ∀ n,(bytesOf (List.replicate n 'a')).length = n := by
    intro n
    induction n with
    | zero => rfl
    | succ n ih =>
      rw [List.replicate_succ,← List.singleton_append,bytesOf_append,List.length_append,ih]
      exact Nat.add_comm 1 n
  rw [List.length_cons,List.length_cons,List.length_cons,letters]
  decide

end Sharko.Script.WebApi
