import Mathlib
import Sharko.Library.Agreement
import Sharko.Script.TextDecoding

/-! The UTF-8 helpers of the script layer (`40_webapi.js`). The decoder has a loop for short
input and leaves everything longer to the native one. -/

namespace Sharko.Script.WebApi

open Library TextDecoding

abbrev Units := List Nat

def fromCodePoint (point : Nat) : Units :=
  if point < 0x10000 then [point]
  else [0xd800 + (point - 0x10000) / 0x400,0xdc00 + (point - 0x10000) % 0x400]

def units (points : Text) : Units := points.flatMap fromCodePoint

def unitsOf (s : List Char) : Units := units (s.map Char.toNat)

def encodePoint (c : Nat) : Bytes :=
  if c < 0x80 then [.ofNat c]
  else if c < 0x800 then [.ofNat (0xc0 + c / 64),.ofNat (0x80 + c % 64)]
  else if c < 0x10000 then
    [.ofNat (0xe0 + c / 4096),.ofNat (0x80 + c / 64 % 64),.ofNat (0x80 + c % 64)]
  else
    [.ofNat (0xf0 + c / 262144),.ofNat (0x80 + c / 4096 % 64),.ofNat (0x80 + c / 64 % 64)
    ,.ofNat (0x80 + c % 64)]

def utf8Encode : Units → Bytes
  | [] => []
  | [c] => encodePoint (if 0xd800 ≤ c ∧ c ≤ 0xdfff then replacement else c)
  | c :: d :: rest =>
    if Utf16.IsHigh c then
      if Utf16.IsLow d then encodePoint (Utf16.pair c d) ++ utf8Encode rest
      else encodePoint replacement ++ utf8Encode (d :: rest)
    else encodePoint (if 0xd800 ≤ c ∧ c ≤ 0xdfff then replacement else c) ++ utf8Encode (d :: rest)

/-- How many continuation bytes a byte asks for, what it says of the code point, and the least
code point that needs so many. -/
def lead (b : Nat) : Option (Nat × Nat × Nat) :=
  if 0xc2 ≤ b ∧ b ≤ 0xdf then some (1,b % 32,0x80)
  else if 0xe0 ≤ b ∧ b ≤ 0xef then some (2,b % 16,0x800)
  else if 0xf0 ≤ b ∧ b ≤ 0xf4 then some (3,b % 8,0x10000)
  else none

def continuations (need : Nat) (bytes : Bytes) : Bytes :=
  (bytes.take need).takeWhile fun c => c &&& 0xc0 == 0x80

def extend (cp : Nat) (cs : Bytes) : Nat := cs.foldl (fun cp c => cp * 64 + c.toNat % 64) cp

def loop : Nat → Bytes → Units
  | 0,_ => []
  | _ + 1,[] => []
  | n + 1,b :: rest =>
    if b.toNat < 0x80 then b.toNat :: loop n rest
    else
      match lead b.toNat with
      | none => replacement :: loop n rest
      | some (need,start,min) =>
        let cs := continuations need rest
        let cp := extend start cs
        if cs.length < need ∨ cp < min ∨ 0x10ffff < cp ∨ (0xd800 ≤ cp ∧ cp ≤ 0xdfff) then
          replacement :: loop n (rest.drop cs.length)
        else fromCodePoint cp ++ loop n (rest.drop need)

def utf8Decode (bytes : Bytes) : Units :=
  if 256 < bytes.length then
    match (Encoding.utf8 : Encoding Unit).decodeText bytes false with
    | some text => units text
    | none => loop bytes.length bytes
  else loop bytes.length bytes

/-- A second byte that no code point has after the first one, though it is a continuation. -/
def BadSecond (b c : UInt8) : Prop :=
  (b.toNat = 0xe0 ∧ 0x80 ≤ c.toNat ∧ c.toNat < 0xa0) ∨ (b.toNat = 0xed ∧ 0xa0 ≤ c.toNat ∧ c.toNat < 0xc0) ∨
    (b.toNat = 0xf0 ∧ 0x80 ≤ c.toNat ∧ c.toNat < 0x90) ∨ (b.toNat = 0xf4 ∧ 0x90 ≤ c.toNat ∧ c.toNat < 0xc0)

instance (b c : UInt8) : Decidable (BadSecond b c) := inferInstanceAs (Decidable (_ ∨ _))

theorem continuations_cons {c : UInt8} (continues : Utf8.Continues c) (need : Nat) (rest : Bytes) :
    continuations (need + 1) (c :: rest) = c :: continuations need rest := by
  unfold continuations
  rw [List.take_succ_cons,List.takeWhile_cons_of_pos]
  exact beq_iff_eq.mpr ((Utf8.continues_iff c).mpr continues)

theorem continuations_other {c : UInt8} (other : ¬ Utf8.Continues c) (need : Nat) (rest : Bytes) :
    continuations need (c :: rest) = [] := by
  cases need with
  | zero => rfl
  | succ need =>
    unfold continuations
    rw [List.take_succ_cons,List.takeWhile_cons_of_neg]
    exact fun same => other ((Utf8.continues_iff c).mp (beq_iff_eq.mp same))

theorem continuations_start (need : Nat) (bytes : Bytes) : continuations need bytes <+: bytes :=
  (List.takeWhile_prefix _).trans (List.take_prefix _ _)

theorem continuations_append (need : Nat) (bytes : Bytes) :
    continuations need bytes ++ bytes.drop (continuations need bytes).length = bytes := by
  exact List.prefix_iff_eq_append.mp (continuations_start need bytes)

theorem continuations_continues {need : Nat} {bytes : Bytes} {c : UInt8}
    (mem : c ∈ continuations need bytes) : Utf8.Continues c :=
  (Utf8.continues_iff c).mp (beq_iff_eq.mp (List.mem_takeWhile_imp (p := fun c => c &&& 0xc0 == 0x80) mem))

theorem continuations_length_le (need : Nat) (bytes : Bytes) : (continuations need bytes).length ≤ need :=
  (List.takeWhile_prefix _).length_le.trans (List.length_take_le _ _)

theorem read_cons (c : UInt8) (rest : Bytes) : Utf8.decoder.read (c :: rest) =
    (Utf8.first c.toNat).2 ++ Utf8.decoder.emit (Utf8.first c.toNat).1 rest :=
  Transducer.emit_cons Utf8.State.start c rest

theorem emit_inside (need cp : Nat) (rest : Bytes) : Utf8.decoder.emit (.inside (need + 1) cp 0x80 0xbf) rest =
      if (continuations (need + 1) rest).length < need + 1 then
        none :: Utf8.decoder.read (rest.drop (continuations (need + 1) rest).length)
      else some (extend cp (continuations (need + 1) rest)) :: Utf8.decoder.read (rest.drop (need + 1)) := by
  induction rest generalizing need cp with
  | nil => rfl
  | cons c rest ih =>
    rw [Transducer.emit_cons]
    by_cases continues : Utf8.Continues c
    · have value : cp * 64 + (c.toNat - 0x80) = cp * 64 + c.toNat % 64 := by
        have low := continues.1
        have high := continues.2
        omega
      rw [continuations_cons continues]
      cases need with
      | zero =>
        have stepped : Utf8.decoder.next (.inside 1 cp 0x80 0xbf) c =
            (.start,[some (cp * 64 + c.toNat % 64)]) := by
          rw [← value]
          exact if_pos continues
        rw [stepped,if_neg]
        · rfl
        · simp
      | succ need =>
        have stepped : Utf8.decoder.next (.inside (need + 2) cp 0x80 0xbf) c =
            (.inside (need + 1) (cp * 64 + c.toNat % 64) 0x80 0xbf,[]) := by
          rw [← value]
          exact if_pos continues
        rw [stepped,List.nil_append,ih]
        simp only [List.length_cons,List.drop_succ_cons,Nat.add_lt_add_iff_right]
        rfl
    · have stepped : Utf8.decoder.next (.inside (need + 1) cp 0x80 0xbf) c =
          ((Utf8.first c.toNat).1,none :: (Utf8.first c.toNat).2) := if_neg continues
      rw [continuations_other continues,stepped,
        if_pos (show ([] : Bytes).length < need + 1 from Nat.succ_pos need)]
      rw [List.length_nil,List.drop_zero,read_cons]
      rfl

theorem emit_bounds {need cp lower upper : Nat} {rest : Bytes} (low : 0x80 ≤ lower) (high : upper ≤ 0xbf)
    (within : ∀ c ∈ rest.head?,Utf8.Continues c → lower ≤ c.toNat ∧ c.toNat ≤ upper) :
    Utf8.decoder.emit (.inside need cp lower upper) rest =
      Utf8.decoder.emit (.inside need cp 0x80 0xbf) rest := by
  cases rest with
  | nil => rfl
  | cons c rest =>
    have same : Utf8.decoder.next (.inside need cp lower upper) c =
        Utf8.decoder.next (.inside need cp 0x80 0xbf) c := by
      by_cases continues : Utf8.Continues c
      · exact (if_pos (within c rfl continues)).trans (if_pos continues).symm
      · refine (if_neg fun bounded => ?_).trans (if_neg continues).symm
        exact continues ⟨low.trans bounded.1,bounded.2.trans high⟩
    rw [Transducer.emit_cons,Transducer.emit_cons,same]

theorem emit_outside {need cp lower upper : Nat} {c : UInt8} (rest : Bytes)
    (outside : ¬ (lower ≤ c.toNat ∧ c.toNat ≤ upper)) :
    Utf8.decoder.emit (.inside need cp lower upper) (c :: rest) = none :: Utf8.decoder.read (c :: rest) := by
  have stepped : Utf8.decoder.next (.inside need cp lower upper) c =
      ((Utf8.first c.toNat).1,none :: (Utf8.first c.toNat).2) := if_neg outside
  rw [Transducer.emit_cons,stepped]
  rw [read_cons]
  rfl

theorem read_stray {c : UInt8} (stray : (Utf8.first c.toNat) = (.start,[none])) (rest : Bytes) :
    Utf8.decoder.read (c :: rest) = none :: Utf8.decoder.read rest := by
  rw [read_cons,stray]
  rfl

theorem first_continues {c : UInt8} (continues : Utf8.Continues c) : Utf8.first c.toNat = (.start,[none]) := by
  have low := continues.1
  have high := continues.2
  unfold Utf8.first
  rw [if_neg (by omega),if_neg (by omega),if_neg (by omega),if_neg (by omega)]

theorem read_continuations {cs : Bytes} (continues : ∀ c ∈ cs,Utf8.Continues c) (rest : Bytes) :
    Utf8.decoder.read (cs ++ rest) = List.replicate cs.length none ++ Utf8.decoder.read rest := by
  induction cs with
  | nil => rfl
  | cons c cs ih =>
    rw [List.cons_append,read_stray (first_continues (continues c List.mem_cons_self)),
      ih fun d mem => continues d (List.mem_cons_of_mem c mem)]
    rfl

theorem read_ascii {b : UInt8} (ascii : b.toNat < 0x80) (rest : Bytes) :
    Utf8.decoder.read (b :: rest) = some b.toNat :: Utf8.decoder.read rest := by
  have alone : Utf8.first b.toNat = (.start,[some b.toNat]) := if_pos (Nat.le_of_lt_succ ascii)
  rw [read_cons,alone]
  rfl

theorem first_of_lead {b : UInt8} {need start min : Nat} (leads : lead b.toNat = some (need,start,min)) :
    ∃ lower upper,Utf8.first b.toNat = (.inside need start lower upper,[]) ∧ 0x80 ≤ lower ∧ upper ≤ 0xbf ∧
      0 < need ∧ 0xc0 ≤ b.toNat ∧
      ∀ c : UInt8,Utf8.Continues c → ((lower ≤ c.toNat ∧ c.toNat ≤ upper) ↔ ¬ BadSecond b c) := by
  unfold lead at leads
  split_ifs at leads with two three four
  · obtain ⟨rfl,rfl,rfl⟩ := leads
    refine ⟨0x80,0xbf,?_,by omega,by omega,by omega,by omega,?_⟩
    · unfold Utf8.first
      rw [if_neg (by omega),if_pos two,show b.toNat - 0xc0 = b.toNat % 32 by omega]
    · intro c continues
      unfold BadSecond
      exact iff_of_true continues (by omega)
  · obtain ⟨rfl,rfl,rfl⟩ := leads
    refine ⟨if b.toNat = 0xe0 then 0xa0 else 0x80,if b.toNat = 0xed then 0x9f else 0xbf,?_,?_,?_,by omega,
      by omega,?_⟩
    · unfold Utf8.first
      rw [if_neg (by omega),if_neg (by omega),if_pos three,show b.toNat - 0xe0 = b.toNat % 16 by omega]
    · split <;> omega
    · split <;> omega
    · intro c continues
      have low := continues.1
      have high := continues.2
      unfold BadSecond
      split_ifs <;> omega
  · obtain ⟨rfl,rfl,rfl⟩ := leads
    refine ⟨if b.toNat = 0xf0 then 0x90 else 0x80,if b.toNat = 0xf4 then 0x8f else 0xbf,?_,?_,?_,by omega,
      by omega,?_⟩
    · unfold Utf8.first
      rw [if_neg (by omega),if_neg (by omega),if_neg (by omega),if_pos four,
        show b.toNat - 0xf0 = b.toNat % 8 by omega]
    · split <;> omega
    · split <;> omega
    · intro c continues
      have low := continues.1
      have high := continues.2
      unfold BadSecond
      split_ifs <;> omega

theorem first_of_no_lead {b : UInt8} (high : ¬ b.toNat < 0x80) (none : lead b.toNat = none) :
    Utf8.first b.toNat = (.start,[Option.none]) := by
  unfold lead at none
  unfold Utf8.first
  split_ifs at none with two three four
  rw [if_neg (by omega),if_neg two,if_neg three,if_neg four]

theorem refused_iff {b : UInt8} {need start min : Nat} (leads : lead b.toNat = some (need,start,min))
    {c : UInt8} {cs : Bytes} (continues : ∀ d ∈ c :: cs,Utf8.Continues d) (whole : (c :: cs).length = need) :
    (extend start (c :: cs) < min ∨ 0x10ffff < extend start (c :: cs) ∨
      (0xd800 ≤ extend start (c :: cs) ∧ extend start (c :: cs) ≤ 0xdfff)) ↔ BadSecond b c := by
  have second := continues c List.mem_cons_self
  have low := second.1
  have high := second.2
  unfold lead at leads
  split_ifs at leads with two three four
  · obtain ⟨rfl,rfl,rfl⟩ := leads
    obtain rfl : cs = [] := List.length_eq_zero_iff.mp (by simpa using whole)
    simp only [extend,List.foldl_cons,List.foldl_nil,BadSecond]
    omega
  · obtain ⟨rfl,rfl,rfl⟩ := leads
    obtain ⟨d,rfl⟩ := List.length_eq_one_iff.mp (show cs.length = 1 by simpa using whole)
    simp only [extend,List.foldl_cons,List.foldl_nil,BadSecond]
    omega
  · obtain ⟨rfl,rfl,rfl⟩ := leads
    obtain ⟨d,e,rfl⟩ := List.length_eq_two.mp (show cs.length = 2 by simpa using whole)
    simp only [extend,List.foldl_cons,List.foldl_nil,BadSecond]
    omega

/-- The bytes in which no first byte is followed by a second one that it cannot have. -/
def Paired (bytes : Bytes) : Prop := bytes.IsChain fun b c => ¬ BadSecond b c

instance (bytes : Bytes) : Decidable (Paired bytes) := inferInstanceAs (Decidable (List.IsChain _ bytes))

theorem paired_cons {b : UInt8} {rest : Bytes} :
    Paired (b :: rest) ↔ (∀ c ∈ rest.head?,¬ BadSecond b c) ∧ Paired rest := List.isChain_cons

theorem paired_of_low {b : UInt8} (low : b.toNat < 0xc0) {rest : Bytes} : Paired (b :: rest) ↔ Paired rest := by
  rw [paired_cons,and_iff_right]
  intro c _ bad
  unfold BadSecond at bad
  omega

theorem paired_append {cs : Bytes} (continues : ∀ c ∈ cs,Utf8.Continues c) (rest : Bytes) :
    Paired (cs ++ rest) ↔ Paired rest := by
  induction cs with
  | nil => exact Iff.rfl
  | cons c cs ih =>
    have low := (continues c List.mem_cons_self).2
    rw [List.cons_append,paired_of_low (by omega)]
    exact ih fun d mem => continues d (List.mem_cons_of_mem c mem)

theorem paired_drop (need : Nat) (rest : Bytes) :
    Paired rest ↔ Paired (rest.drop (continuations need rest).length) := by
  nth_rewrite 1 [← continuations_append need rest]
  exact paired_append (fun c mem => continuations_continues mem) _

def standard (items : List (Option Nat)) : Units := units (text items)

theorem standard_append (first second : List (Option Nat)) :
    standard (first ++ second) = standard first ++ standard second := by
  unfold standard units
  rw [text_append,List.flatMap_append]

theorem standard_none (items : List (Option Nat)) : standard (none :: items) = replacement :: standard items := rfl

theorem standard_some (point : Nat) (items : List (Option Nat)) :
    standard (some point :: items) = fromCodePoint point ++ standard items := rfl

theorem length_standard_replicate (k : Nat) : (standard (List.replicate k none)).length = k := by
  induction k with
  | zero => rfl
  | succ k ih => rw [List.replicate_succ,standard_none,List.length_cons,ih]

theorem agree_lead {b : UInt8} {need start min n : Nat} {rest : Bytes}
    (leads : lead b.toNat = some (need,start,min)) (high : ¬ b.toNat < 0x80)
    (later : ∀ k,Agree (Paired (rest.drop k)) (loop n (rest.drop k)) (standard (Utf8.decoder.read (rest.drop k)))) :
    Agree (Paired (b :: rest)) (loop (n + 1) (b :: rest)) (standard (Utf8.decoder.read (b :: rest))) := by
  obtain ⟨lower,upper,first,low,up,some_,-,within⟩ := first_of_lead leads
  obtain ⟨need,rfl⟩ := Nat.exists_eq_succ_of_ne_zero some_.ne'
  have turn : loop (n + 1) (b :: rest) = if (continuations (need + 1) rest).length < need + 1 ∨
      extend start (continuations (need + 1) rest) < min ∨ 0x10ffff < extend start (continuations (need + 1) rest) ∨
      (0xd800 ≤ extend start (continuations (need + 1) rest) ∧
        extend start (continuations (need + 1) rest) ≤ 0xdfff) then
        replacement :: loop n (rest.drop (continuations (need + 1) rest).length)
      else fromCodePoint (extend start (continuations (need + 1) rest)) ++ loop n (rest.drop (need + 1)) := by
    rw [loop,if_neg high]
    simp only [leads]
  have continues : ∀ c ∈ continuations (need + 1) rest,Utf8.Continues c := fun c mem => continuations_continues mem
  have read : Utf8.decoder.read (b :: rest) = Utf8.decoder.emit (.inside (need + 1) start lower upper) rest := by
    rw [read_cons,first]
    rfl
  by_cases bad : ∃ c ∈ rest.head?,BadSecond b c
  · -- one replacement character here, and one for each byte there
    obtain ⟨c,head,bad⟩ := bad
    obtain ⟨others,rfl⟩ := List.head?_eq_some_iff.mp head
    have inside : Utf8.Continues c := by
      unfold BadSecond at bad
      unfold Utf8.Continues
      omega
    have refused : (continuations (need + 1) (c :: others)).length < need + 1 ∨
        extend start (continuations (need + 1) (c :: others)) < min ∨
        0x10ffff < extend start (continuations (need + 1) (c :: others)) ∨
        (0xd800 ≤ extend start (continuations (need + 1) (c :: others)) ∧
          extend start (continuations (need + 1) (c :: others)) ≤ 0xdfff) := by
      refine or_iff_not_imp_left.mpr fun enough => ?_
      have whole := (continuations_length_le (need + 1) (c :: others)).antisymm (not_lt.mp enough)
      rw [continuations_cons inside] at whole continues ⊢
      exact (refused_iff leads continues whole).mpr bad
    have errors : Utf8.decoder.read (b :: c :: others) = none ::
        (List.replicate (continuations (need + 1) (c :: others)).length none ++
          Utf8.decoder.read ((c :: others).drop (continuations (need + 1) (c :: others)).length)) := by
      rw [read,emit_outside others fun bounded => (within c inside).mp bounded bad,
        ← read_continuations continues,continuations_append]
    refine ⟨fun paired => absurd bad ((paired_cons.mp paired).1 c rfl),fun _ => ?_⟩
    rw [turn,if_pos refused,errors,standard_none,standard_append,List.length_cons,List.length_cons,
      List.length_append,length_standard_replicate]
    have behind := (later (continuations (need + 1) (c :: others)).length).length_le
    have positive : 0 < (continuations (need + 1) (c :: others)).length := by
      rw [continuations_cons inside]
      exact Nat.succ_pos _
    omega
  · have plain : ∀ c ∈ rest.head?,¬ BadSecond b c := fun c head isBad => bad ⟨c,head,isBad⟩
    have paired : Paired (rest.drop (continuations (need + 1) rest).length) ↔ Paired (b :: rest) := by
      rw [paired_cons,and_iff_right plain,← paired_drop]
    rw [read,emit_bounds low up (fun c head inside => (within c inside).mpr (plain c head)),emit_inside,turn]
    by_cases short : (continuations (need + 1) rest).length < need + 1
    · rw [if_pos short,if_pos (.inl short),standard_none]
      exact ((later _).append_left [replacement]).congr paired
    · have whole := (continuations_length_le (need + 1) rest).antisymm (not_lt.mp short)
      have accepted : ¬ (extend start (continuations (need + 1) rest) < min ∨
          0x10ffff < extend start (continuations (need + 1) rest) ∨
          (0xd800 ≤ extend start (continuations (need + 1) rest) ∧
            extend start (continuations (need + 1) rest) ≤ 0xdfff)) := by
        cases cs : continuations (need + 1) rest with
        | nil => simp [cs] at whole
        | cons c others =>
          have found : c ∈ rest.head? := by
            obtain ⟨tail,split⟩ := cs ▸ continuations_start (need + 1) rest
            rw [← split]
            rfl
          rw [cs] at continues whole
          exact fun refused => plain c found ((refused_iff leads continues whole).mp refused)
      rw [if_neg short,if_neg (not_or.mpr ⟨short,accepted⟩),standard_some]
      rw [whole] at paired
      exact ((later _).append_left _).congr paired

theorem agree_loop (n : Nat) (bytes : Bytes) (enough : bytes.length ≤ n) :
    Agree (Paired bytes) (loop n bytes) (standard (Utf8.decoder.read bytes)) := by
  induction n generalizing bytes with
  | zero =>
    obtain rfl : bytes = [] := List.length_eq_zero_iff.mp (Nat.le_zero.mp enough)
    exact ⟨fun _ => rfl,fun unpaired => absurd List.IsChain.nil unpaired⟩
  | succ n ih =>
    cases bytes with
    | nil => exact ⟨fun _ => rfl,fun unpaired => absurd List.IsChain.nil unpaired⟩
    | cons b rest =>
      have short : rest.length ≤ n := Nat.le_of_succ_le_succ enough
      by_cases ascii : b.toNat < 0x80
      · rw [loop,if_pos ascii,read_ascii ascii,standard_some,fromCodePoint,if_pos (by omega)]
        exact ((ih rest short).append_left [b.toNat]).congr (paired_of_low (by omega)).symm
      · cases leads : lead b.toNat with
        | none =>
          rw [loop,if_neg ascii,leads,read_stray (first_of_no_lead ascii leads),standard_none]
          refine ((ih rest short).append_left [replacement]).congr ?_
          rw [paired_cons,and_iff_right]
          intro c _ bad
          unfold BadSecond at bad
          unfold lead at leads
          split_ifs at leads
          omega
        | some found =>
          obtain ⟨need,start,min⟩ := found
          exact agree_lead leads ascii fun k => ih _ ((List.drop_sublist k rest).length_le.trans short)

/-- The short path is the standard decoder exactly on the paired bytes; elsewhere it has too few
replacement characters. -/
theorem utf8Decode_short_iff {bytes : Bytes} (short : bytes.length ≤ 256) :
    utf8Decode bytes = units (text (Utf8.decoder.read bytes)) ↔ Paired bytes := by
  rw [utf8Decode,if_neg (not_lt.mpr short)]
  exact (agree_loop _ bytes le_rfl).iff

theorem utf8Decode_paired : utf8Decode [0xe2,0x82,0xac,0x80] = [0x20ac,replacement] := by
  have paired : Paired [0xe2,0x82,0xac,0x80] := by decide
  have read : utf8Decode [0xe2,0x82,0xac,0x80] = units (text (Utf8.decoder.read [0xe2,0x82,0xac,0x80])) :=
    (utf8Decode_short_iff (by decide)).mpr paired
  exact read.trans rfl

/-- A cut-off overlong form is one error here and two there. -/
theorem utf8Decode_overlong : ¬ ∀ bytes : Bytes,bytes.length ≤ 256 →
    utf8Decode bytes = units (text (Utf8.decoder.read bytes)) :=
  fun all => absurd (all [0xe0,0x80] (by decide)) (by decide)

theorem continuations_whole {cs : Bytes} (continues : ∀ c ∈ cs,Utf8.Continues c) (rest : Bytes) :
    continuations cs.length (cs ++ rest) = cs := by
  induction cs with
  | nil => rfl
  | cons c cs ih =>
    rw [List.cons_append,List.length_cons,continuations_cons (continues c List.mem_cons_self),
      ih fun d mem => continues d (List.mem_cons_of_mem c mem)]

theorem read_whole {b : UInt8} {start min : Nat} {cs : Bytes} (leads : lead b.toNat = some (cs.length,start,min))
    (continues : ∀ c ∈ cs,Utf8.Continues c) (plain : ∀ c ∈ cs.head?,¬ BadSecond b c) (rest : Bytes) :
    Utf8.decoder.read (b :: (cs ++ rest)) = some (extend start cs) :: Utf8.decoder.read rest := by
  obtain ⟨lower,upper,first,low,up,some_,-,within⟩ := first_of_lead leads
  obtain ⟨need,need_eq⟩ := Nat.exists_eq_succ_of_ne_zero some_.ne'
  have head : (cs ++ rest).head? = cs.head? := List.head?_append_of_ne_nil _ (List.ne_nil_of_length_pos some_)
  have inside : Utf8.decoder.emit (.inside cs.length start lower upper) (cs ++ rest) =
      Utf8.decoder.emit (.inside cs.length start 0x80 0xbf) (cs ++ rest) := by
    apply emit_bounds low up
    intro c found continues
    exact (within c continues).mpr (plain c (head ▸ found))
  have read := emit_inside need start (cs ++ rest)
  rw [← Nat.succ_eq_add_one,← need_eq,continuations_whole continues,if_neg (lt_irrefl _),List.drop_left] at read
  rw [read_cons,first,List.nil_append,inside,read]

theorem toNat_ofNat {n : Nat} (small : n < 256) : (UInt8.ofNat n).toNat = n :=
  (UInt8.toNat_ofNat' ..).trans (Nat.mod_eq_of_lt small)

theorem continues_ofNat (n : Nat) : Utf8.Continues (.ofNat (0x80 + n % 64)) := by
  unfold Utf8.Continues
  rw [toNat_ofNat (by omega)]
  omega

def IsScalar (c : Nat) : Prop := c < 0xd800 ∨ (0xdfff < c ∧ c < 0x110000)

theorem isScalar_toNat (c : Char) : IsScalar c.toNat := c.valid

theorem encodePoint_cases {c : Nat} (scalar : IsScalar c) : (c < 0x80 ∧ encodePoint c = [.ofNat c]) ∨
      ∃ b start min cs,encodePoint c = b :: cs ∧ lead b.toNat = some (cs.length,start,min) ∧
        (∀ d ∈ cs,Utf8.Continues d) ∧ (∀ d ∈ cs.head?,¬ BadSecond b d) ∧ extend start cs = c := by
  unfold IsScalar at scalar
  unfold encodePoint
  by_cases one : c < 0x80
  · exact .inl ⟨one,if_pos one⟩
  rw [if_neg one]
  right
  by_cases two : c < 0x800
  · rw [if_pos two]
    refine ⟨_,c / 64,0x80,_,rfl,?_,?_,?_,?_⟩
    · rw [toNat_ofNat (by omega),lead,if_pos (by omega),show (0xc0 + c / 64) % 32 = c / 64 by omega]
      rfl
    · simp only [List.forall_mem_cons,continues_ofNat,true_and]
      exact fun d mem => absurd mem List.not_mem_nil
    · intro d head
      unfold BadSecond
      rw [toNat_ofNat (by omega)]
      omega
    · simp only [extend,List.foldl_cons,List.foldl_nil]
      rw [toNat_ofNat (by omega)]
      omega
  rw [if_neg two]
  by_cases three : c < 0x10000
  · rw [if_pos three]
    refine ⟨_,c / 4096,0x800,_,rfl,?_,?_,?_,?_⟩
    · rw [toNat_ofNat (by omega),lead,if_neg (by omega),if_pos (by omega),
        show (0xe0 + c / 4096) % 16 = c / 4096 by omega]
      rfl
    · simp only [List.forall_mem_cons,continues_ofNat,true_and]
      exact fun d mem => absurd mem List.not_mem_nil
    · intro d head
      obtain rfl : .ofNat (0x80 + c / 64 % 64) = d := Option.some.inj head
      unfold BadSecond
      rw [toNat_ofNat (by omega),toNat_ofNat (by omega)]
      omega
    · simp only [extend,List.foldl_cons,List.foldl_nil]
      rw [toNat_ofNat (by omega),toNat_ofNat (by omega)]
      omega
  · rw [if_neg three]
    refine ⟨_,c / 262144,0x10000,_,rfl,?_,?_,?_,?_⟩
    · rw [toNat_ofNat (by omega),lead,if_neg (by omega),if_neg (by omega),if_pos (by omega),
        show (0xf0 + c / 262144) % 8 = c / 262144 by omega]
      rfl
    · simp only [List.forall_mem_cons,continues_ofNat,true_and]
      exact fun d mem => absurd mem List.not_mem_nil
    · intro d head
      obtain rfl : .ofNat (0x80 + c / 4096 % 64) = d := Option.some.inj head
      unfold BadSecond
      rw [toNat_ofNat (by omega),toNat_ofNat (by omega)]
      omega
    · simp only [extend,List.foldl_cons,List.foldl_nil]
      rw [toNat_ofNat (by omega),toNat_ofNat (by omega),toNat_ofNat (by omega)]
      omega

theorem read_encodePoint {c : Nat} (scalar : IsScalar c) (rest : Bytes) :
    Utf8.decoder.read (encodePoint c ++ rest) = some c :: Utf8.decoder.read rest := by
  rcases encodePoint_cases scalar with ⟨one,same⟩ | ⟨b,start,min,cs,same,leads,continues,plain,value⟩
  · have value : (UInt8.ofNat c).toNat = c := toNat_ofNat (by omega)
    rw [same,List.singleton_append,read_ascii (value.symm ▸ one),value]
  · rw [same,List.cons_append,read_whole leads continues plain,value]

theorem paired_encodePoint {c : Nat} (scalar : IsScalar c) (rest : Bytes) :
    Paired (encodePoint c ++ rest) ↔ Paired rest := by
  rcases encodePoint_cases scalar with ⟨one,same⟩ | ⟨b,start,min,cs,same,leads,continues,plain,-⟩
  · rw [same,List.singleton_append,paired_of_low (by rw [toNat_ofNat (by omega)]; omega)]
  · obtain ⟨-,-,-,-,-,some_,-,-⟩ := first_of_lead leads
    rw [same,List.cons_append,paired_cons,paired_append continues,
      List.head?_append_of_ne_nil _ (List.ne_nil_of_length_pos some_),and_iff_right plain]

theorem utf8Encode_unit {c : Nat} (small : c < 0x10000) (scalar : IsScalar c) (rest : Units) :
    utf8Encode (c :: rest) = encodePoint c ++ utf8Encode rest := by
  have plain : ¬ (0xd800 ≤ c ∧ c ≤ 0xdfff) := by
    unfold IsScalar at scalar
    omega
  cases rest with
  | nil =>
    have alone : utf8Encode [c] = encodePoint (if 0xd800 ≤ c ∧ c ≤ 0xdfff then replacement else c) := rfl
    rw [alone,if_neg plain,utf8Encode,List.append_nil]
  | cons d rest =>
    have high : ¬ Utf16.IsHigh c := fun high => plain ⟨high.1,high.2.trans (by decide)⟩
    rw [utf8Encode,if_neg high,if_neg plain]

theorem utf8Encode_point {c : Nat} (scalar : IsScalar c) (rest : Units) :
    utf8Encode (fromCodePoint c ++ rest) = encodePoint c ++ utf8Encode rest := by
  unfold fromCodePoint
  by_cases small : c < 0x10000
  · rw [if_pos small]
    exact utf8Encode_unit small scalar rest
  · unfold IsScalar at scalar
    have high : Utf16.IsHigh (0xd800 + (c - 0x10000) / 0x400) := by
      unfold Utf16.IsHigh
      omega
    have low : Utf16.IsLow (0xdc00 + (c - 0x10000) % 0x400) := by
      unfold Utf16.IsLow
      omega
    have value : Utf16.pair (0xd800 + (c - 0x10000) / 0x400) (0xdc00 + (c - 0x10000) % 0x400) = c := by
      unfold Utf16.pair
      omega
    rw [if_neg small,List.cons_append,List.singleton_append,utf8Encode,if_pos high,if_pos low,value]

theorem unitsOf_cons (c : Char) (s : List Char) : unitsOf (c :: s) = fromCodePoint c.toNat ++ unitsOf s := rfl

theorem unitsOf_append (s t : List Char) : unitsOf (s ++ t) = unitsOf s ++ unitsOf t := by
  unfold unitsOf units
  rw [List.map_append,List.flatMap_append]

theorem utf8Encode_unitsOf (s : List Char) (rest : Units) :
    utf8Encode (unitsOf s ++ rest) = (s.flatMap fun c => encodePoint c.toNat) ++ utf8Encode rest := by
  induction s with
  | nil => rfl
  | cons c s ih =>
    rw [unitsOf_cons,List.append_assoc,utf8Encode_point (isScalar_toNat c),ih,List.flatMap_cons,List.append_assoc]

def bytesOf (s : List Char) : Bytes := s.flatMap fun c => encodePoint c.toNat

theorem bytesOf_eq (s : List Char) : utf8Encode (unitsOf s) = bytesOf s := by
  have whole := utf8Encode_unitsOf s []
  rwa [List.append_nil,utf8Encode,List.append_nil] at whole

theorem read_bytesOf (s : List Char) : Utf8.decoder.read (bytesOf s) = s.map fun c => some c.toNat := by
  induction s with
  | nil => rfl
  | cons c s ih =>
    unfold bytesOf at ih ⊢
    rw [List.flatMap_cons,read_encodePoint (isScalar_toNat c),ih,List.map_cons]

theorem paired_bytesOf (s : List Char) : Paired (bytesOf s) := by
  induction s with
  | nil => exact List.IsChain.nil
  | cons c s ih => exact (paired_encodePoint (isScalar_toNat c) _).mpr ih

theorem standard_bytesOf (s : List Char) : standard (Utf8.decoder.read (bytesOf s)) = unitsOf s := by
  rw [read_bytesOf,standard,text,List.map_map]
  rfl

theorem utf8Decode_short {s : List Char} (short : (bytesOf s).length ≤ 256) :
    utf8Decode (bytesOf s) = unitsOf s :=
  ((utf8Decode_short_iff short).mpr (paired_bytesOf s)).trans (standard_bytesOf s)

def mark : Char := '\ufeff'

theorem bytesOf_mark (s : List Char) : bytesOf (mark :: s) = 0xef :: 0xbb :: 0xbf :: bytesOf s := rfl

theorem bytesOf_append (s t : List Char) : bytesOf (s ++ t) = bytesOf s ++ bytesOf t := List.flatMap_append

theorem marked_bytesOf {s : List Char} :
    Marks.Marked (Encoding.utf8 : Encoding Unit).bom (bytesOf s) ↔ s.head? = some mark := by
  constructor
  · rintro ⟨-,rest,whole⟩
    have read := read_bytesOf s
    rw [← whole,show (Encoding.utf8 : Encoding Unit).bom ++ rest = 0xef :: 0xbb :: 0xbf :: rest from rfl,
      Utf8.read_bom] at read
    cases s with
    | nil => exact absurd read (List.cons_ne_nil _ _)
    | cons c s =>
      have first : some byteOrderMark = some c.toNat := (List.cons.inj read).1
      have same : c = mark := Char.toNat_inj.mp (Option.some.inj first).symm
      rw [same]
      rfl
  · intro head
    obtain ⟨t,rfl⟩ := List.head?_eq_some_iff.mp head
    exact ⟨List.cons_ne_nil _ _,bytesOf t,rfl⟩

theorem utf8Decode_bytesOf (s : List Char) : utf8Decode (bytesOf s) =
    if 256 < (bytesOf s).length ∧ s.head? = some mark then unitsOf s.tail else unitsOf s := by
  by_cases long : 256 < (bytesOf s).length
  · have native : utf8Decode (bytesOf s) =
        standard (Utf8.decoder.read (Marks.unmark (Encoding.utf8 : Encoding Unit).bom (bytesOf s))) := by
      rw [utf8Decode,if_pos long]
      rfl
    rw [native,Marks.unmark]
    by_cases marked : s.head? = some mark
    · rw [if_pos (marked_bytesOf.mpr marked),if_pos ⟨long,marked⟩]
      obtain ⟨t,rfl⟩ := List.head?_eq_some_iff.mp marked
      exact standard_bytesOf t
    · rw [if_neg fun bom => marked (marked_bytesOf.mp bom),if_neg fun both => marked both.2,standard_bytesOf]
  · rw [if_neg fun both => long both.1,utf8Decode_short (not_lt.mp long)]

end Sharko.Script.WebApi
