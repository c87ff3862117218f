import Mathlib
import Sharko.Library.Folds

/-! The decoder of WAV files (`46_webaudio.js`). Numbers are given; nothing said of the decoder
depends on how they round. -/

namespace Sharko.Script.WebAudio.Wav

open Library

abbrev Bytes := List UInt8

/-! ### The source -/

structure Numbers (F : Type) where
  ofInt : ℤ → F
  float32 : Bytes → F
  float64 : Bytes → F
  add : F → F → F
  sub : F → F → F
  mul : F → F → F
  div : F → F → F
  min : F → F → F
  max : F → F → F
  floor : F → F
  round : F → F
  fround : F → F
  toIndex : F → ℕ
  arrayLength : F → Option ℕ

inductive Failure where
  /-- A `DOMException` named `EncodingError`. -/
  | encoding
  /-- The `RangeError` of a view or of an array. -/
  | range
  deriving DecidableEq

structure AudioBuffer (F : Type) where
  sampleRate : F
  length : ℕ
  channels : List (List F)
  deriving DecidableEq

def slice (u8 : Bytes) (o n : ℕ) : Bytes := (u8.drop o).take n

def get (u8 : Bytes) (o n : ℕ) : Except Failure Bytes :=
  if o + n ≤ u8.length then .ok (slice u8 o n) else .error .range

def number (bytes : Bytes) : ℕ := bytes.foldr (fun b n => b.toNat + 256 * n) 0

def signed (bytes : Bytes) : ℤ :=
  if 2 * number bytes < 256 ^ bytes.length then number bytes else number bytes - 256 ^ bytes.length

def riff : Bytes := [0x52,0x49,0x46,0x46]
def wave : Bytes := [0x57,0x41,0x56,0x45]
def fmtId : Bytes := [0x66,0x6d,0x74,0x20]
def dataId : Bytes := [0x64,0x61,0x74,0x61]

structure Format where
  format : ℕ
  channels : ℕ
  rate : ℕ
  bits : ℕ
  deriving DecidableEq

def formatAt (u8 : Bytes) (off : ℕ) : Except Failure Format := do
  let format ← get u8 (off + 8) 2
  let channels ← get u8 (off + 10) 2
  let rate ← get u8 (off + 12) 4
  let bits ← get u8 (off + 22) 2
  return ⟨number format,number channels,number rate,number bits⟩

def chunkLength (u8 : Bytes) (off : ℕ) : ℕ := number (slice u8 (off + 4) 4)

/-- The walk over the chunks: the last format before the data, and where the data chunk is. -/
def scan (u8 : Bytes) (off : ℕ) (fmt : Option Format) : Except Failure (Option Format × Option ℕ) :=
  if off + 8 ≤ u8.length then
    if slice u8 off 4 = fmtId then
      match formatAt u8 off with
      | .error e => .error e
      | .ok found => scan u8 (off + (8 + chunkLength u8 off + chunkLength u8 off % 2)) (some found)
    else if slice u8 off 4 = dataId then .ok (fmt,some off)
    else scan u8 (off + (8 + chunkLength u8 off + chunkLength u8 off % 2)) fmt
  else .ok (fmt,none)
termination_by u8.length - off

def Supported (format bytes : ℕ) : Prop :=
  (format = 1 ∧ bytes ∈ [1,2,3,4]) ∨ (format = 3 ∧ (bytes = 4 ∨ bytes = 8))

instance (format bytes : ℕ) : Decidable (Supported format bytes) := instDecidableOr

section
variable {F : Type} (N : Numbers F)

def read (view : Bytes) (format bytes o : ℕ) : Except Failure F :=
  if format = 3 then
    if bytes = 4 then (get view o 4).map N.float32 else (get view o 8).map N.float64
  else if bytes = 1 then (get view o 1).map fun s => N.div (N.ofInt (number s - 128)) (N.ofInt 128)
  else if bytes = 2 then (get view o 2).map fun s => N.div (N.ofInt (signed s)) (N.ofInt 32768)
  else if bytes = 3 then do
    let low ← get view o 1
    let middle ← get view (o + 1) 1
    let high ← get view (o + 2) 1
    let v := BitVec.ofNat 32 (number low) ||| BitVec.ofNat 32 (number middle) <<< 8 |||
      BitVec.ofInt 32 (signed high) <<< 16
    return N.div (N.ofInt v.toInt) (N.ofInt 8388608)
  else (get view o 4).map fun s => N.div (N.ofInt (signed s)) (N.ofInt 2147483648)

def samples (view : Bytes) (start format bytes channels frames : ℕ) : Except Failure (List (List F)) :=
  (List.range channels).mapM fun c => (List.range frames).mapM fun i =>
    (read N view format bytes (start + (i * channels + c) * bytes)).map N.fround

def outLength (frames rate : ℕ) (target : F) : F :=
  N.max (N.ofInt 1) (N.round (N.div (N.mul (N.ofInt frames) target) (N.ofInt rate)))

def resample (frames : ℕ) (ratio : F) (s : List F) (i : ℕ) : F :=
  let p := N.mul (N.ofInt i) ratio
  let k := N.floor p
  let f := N.sub p k
  let a0 := s.getD (N.toIndex (N.min k (N.ofInt (frames - 1)))) (N.ofInt 0)
  let a1 := s.getD (N.toIndex (N.min (N.add k (N.ofInt 1)) (N.ofInt (frames - 1)))) (N.ofInt 0)
  N.fround (N.add a0 (N.mul (N.sub a1 a0) f))

variable [DecidableEq F]

def finish (target : F) (rate frames : ℕ) (src : List (List F)) : Except Failure (AudioBuffer F) :=
  if N.ofInt rate = target then .ok ⟨target,frames,src⟩
  else
    match N.arrayLength (outLength N frames rate target) with
    | none => .error .range
    | some outLen =>
      let ratio := N.div (N.ofInt rate) target
      .ok ⟨target,outLen,src.map fun s => (List.range outLen).map (resample N frames ratio s)⟩

def dataLength (u8 : Bytes) (off : ℕ) : ℕ := min (chunkLength u8 off) (u8.length - (off + 8))

def sampleFormat (u8 : Bytes) (fmt : Format) (off : ℕ) : Except Failure ℕ :=
  if fmt.format = 0xfffe then (get u8 (off + 8 + 24) 2).map number else .ok fmt.format

def decodeData (u8 : Bytes) (target : F) (fmt : Format) (off : ℕ) (view : Bytes) (start : ℕ) :
    Except Failure (AudioBuffer F) :=
  if fmt.channels < 1 ∨ 32 < fmt.channels then .error .encoding
  else
    match sampleFormat u8 fmt off with
    | .error e => .error e
    | .ok format =>
      let bytes := fmt.bits / 8
      let frames := dataLength u8 off / (bytes * fmt.channels)
      if ¬ Supported format bytes then .error .encoding
      else if frames < 1 then .error .encoding
      else
        match samples N view start format bytes fmt.channels frames with
        | .error e => .error e
        | .ok src => finish N target fmt.rate frames src

def IsWave (u8 : Bytes) : Prop := 12 ≤ u8.length ∧ slice u8 0 4 = riff ∧ slice u8 8 4 = wave

instance (u8 : Bytes) : Decidable (IsWave u8) := instDecidableAnd

def decodeWav (u8 : Bytes) (target : F) : Except Failure (AudioBuffer F) :=
  if ¬ IsWave u8 then .error .encoding
  else
    match scan u8 12 none with
    | .error e => .error e
    | .ok (some fmt,some off) => decodeData N u8 target fmt off u8 (off + 8)
    | .ok _ => .error .encoding

end

/-! ### The chunks of a file -/

def offsets (u8 : Bytes) (off : ℕ) : List ℕ :=
  if off + 8 ≤ u8.length then
    if slice u8 off 4 = dataId then [off]
    else off :: offsets u8 (off + (8 + chunkLength u8 off + chunkLength u8 off % 2))
  else []
termination_by u8.length - off

def fields (u8 : Bytes) (off : ℕ) : Format :=
  ⟨number (slice u8 (off + 8) 2),number (slice u8 (off + 10) 2),number (slice u8 (off + 12) 4)
  ,number (slice u8 (off + 22) 2)⟩

def lastFormat (u8 : Bytes) (off : ℕ) : Option Format :=
  ((offsets u8 off).filter fun o => slice u8 o 4 = fmtId).getLast?.map (fields u8)

def dataOffset (u8 : Bytes) (off : ℕ) : Option ℕ := (offsets u8 off).find? fun o => slice u8 o 4 = dataId

/-- The fields of every format chunk are in the file. -/
def FormatsWhole (u8 : Bytes) (off : ℕ) : Prop :=
  ∀ o ∈ offsets u8 off,slice u8 o 4 = fmtId → o + 24 ≤ u8.length

instance (u8 : Bytes) (off : ℕ) : Decidable (FormatsWhole u8 off) := List.decidableBAll _ _

theorem get_ok {u8 : Bytes} {o n : ℕ} (fits : o + n ≤ u8.length) : get u8 o n = .ok (slice u8 o n) := if_pos fits

theorem get_error {u8 : Bytes} {o n : ℕ} (beyond : ¬ o + n ≤ u8.length) : get u8 o n = .error .range := if_neg beyond

theorem formatAt_eq (u8 : Bytes) (off : ℕ) :
    formatAt u8 off = if off + 24 ≤ u8.length then .ok (fields u8 off) else .error .range := by
  unfold formatAt get
  split_ifs
  all_goals first | rfl | omega

theorem mem_offsets {u8 : Bytes} {off o : ℕ} (mem : o ∈ offsets u8 off) : o + 8 ≤ u8.length := by
  fun_induction offsets u8 off with
  | case1 off fits isData =>
    rw [List.mem_singleton.mp mem]
    exact fits
  | case2 off fits other ih =>
    rcases List.mem_cons.mp mem with rfl | later
    · exact fits
    · exact ih later
  | case3 off short => cases mem

theorem fmtId_ne_dataId : fmtId ≠ dataId := by decide

section
variable {u8 : Bytes} {off : ℕ}

theorem offsets_short (short : ¬ off + 8 ≤ u8.length) : offsets u8 off = [] := by
  rw [offsets,if_neg short]

theorem offsets_data (fits : off + 8 ≤ u8.length) (isData : slice u8 off 4 = dataId) : offsets u8 off = [off] := by
  rw [offsets,if_pos fits,if_pos isData]

theorem offsets_more (fits : off + 8 ≤ u8.length) (other : slice u8 off 4 ≠ dataId) :
    offsets u8 off = off :: offsets u8 (off + (8 + chunkLength u8 off + chunkLength u8 off % 2)) := by
  rw [offsets,if_pos fits,if_neg other]

end

theorem scan_eq (u8 : Bytes) (off : ℕ) (fmt : Option Format) :
    scan u8 off fmt = if FormatsWhole u8 off then .ok ((lastFormat u8 off).or fmt,dataOffset u8 off)
      else .error .range := by
  fun_induction scan u8 off fmt with
  | case1 off fmt fits isFmt e failed =>
    rw [formatAt_eq] at failed
    split_ifs at failed with whole
    have none : ¬ FormatsWhole u8 off := by
      intro all
      have other : slice u8 off 4 ≠ dataId := isFmt ▸ fmtId_ne_dataId
      exact whole (all off (offsets_more fits other ▸ List.mem_cons_self) isFmt)
    cases failed
    rw [if_neg none]
  | case2 off fmt fits isFmt found ok ih =>
    rw [formatAt_eq] at ok
    split_ifs at ok with whole
    have other : slice u8 off 4 ≠ dataId := isFmt ▸ fmtId_ne_dataId
    have more := offsets_more fits other
    have same : FormatsWhole u8 off ↔ FormatsWhole u8 (off + (8 + chunkLength u8 off + chunkLength u8 off % 2)) := by
      unfold FormatsWhole
      rw [more,List.forall_mem_cons,and_iff_right fun _ => whole]
    have last : lastFormat u8 off =
        (lastFormat u8 (off + (8 + chunkLength u8 off + chunkLength u8 off % 2))).or (some found) := by
      cases ok
      unfold lastFormat
      rw [more,List.filter_cons_of_pos (by simpa using isFmt),List.getLast?_cons]
      cases List.getLast? _ with
      | none => rfl
      | some o => rfl
    have data : dataOffset u8 off = dataOffset u8 (off + (8 + chunkLength u8 off + chunkLength u8 off % 2)) := by
      unfold dataOffset
      rw [more,List.find?_cons_of_neg]
      exact fun isData => other (of_decide_eq_true isData)
    have some_ : ((lastFormat u8 (off + (8 + chunkLength u8 off + chunkLength u8 off % 2))).or (some found)).or fmt =
        (lastFormat u8 (off + (8 + chunkLength u8 off + chunkLength u8 off % 2))).or (some found) := by
      rw [Option.or_assoc]
      rfl
    simp only [ih,same,last,data,some_]
  | case3 off fmt fits other isData =>
    have single := offsets_data fits isData
    have all : FormatsWhole u8 off := by
      unfold FormatsWhole
      rw [single,List.forall_mem_singleton]
      exact fun isFmt => absurd isFmt other
    rw [if_pos all,lastFormat,dataOffset,single,List.filter_singleton,decide_eq_false other,List.find?_singleton,
      decide_eq_true isData]
    rfl
  | case4 off fmt fits other neither ih =>
    have more := offsets_more fits neither
    have same : FormatsWhole u8 off ↔ FormatsWhole u8 (off + (8 + chunkLength u8 off + chunkLength u8 off % 2)) := by
      unfold FormatsWhole
      rw [more,List.forall_mem_cons,and_iff_right fun isFmt => absurd isFmt other]
    have last : lastFormat u8 off = lastFormat u8 (off + (8 + chunkLength u8 off + chunkLength u8 off % 2)) := by
      unfold lastFormat
      rw [more,List.filter_cons_of_neg]
      exact fun isFmt => other (of_decide_eq_true isFmt)
    have data : dataOffset u8 off = dataOffset u8 (off + (8 + chunkLength u8 off + chunkLength u8 off % 2)) := by
      unfold dataOffset
      rw [more,List.find?_cons_of_neg]
      exact fun isData => neither (of_decide_eq_true isData)
    simp only [ih,same,last,data]
  | case5 off fmt short =>
    have none := offsets_short short
    have all : FormatsWhole u8 off := by
      unfold FormatsWhole
      rw [none]
      exact fun o mem => absurd mem List.not_mem_nil
    rw [if_pos all,lastFormat,dataOffset,none]
    rfl

/-! ### Samples -/

theorem number_singleton (b : UInt8) : number [b] = b.toNat := rfl

theorem or_shift {x y : ℕ} (small : x < 256) : x ||| y <<< 8 = x + 256 * y := by
  rw [Nat.or_comm,← Nat.shiftLeft_add_eq_or_of_lt (i := 8) small,Nat.shiftLeft_eq]
  omega

theorem or_shift_shift {x y : ℕ} (small : x < 256) (small' : y < 256) (z : ℕ) :
    x ||| y <<< 8 ||| 65536 * z = x + 256 * y + 65536 * z := by
  have low : x + 256 * y < 2 ^ 16 := by omega
  have shifted : 65536 * z = z <<< 16 := by
    rw [Nat.shiftLeft_eq]
    exact Nat.mul_comm 65536 z
  rw [or_shift small,shifted,Nat.or_comm,← Nat.shiftLeft_add_eq_or_of_lt low,Nat.add_comm]

theorem signed_three (a b c : UInt8) : (BitVec.ofNat 32 (number [a]) ||| BitVec.ofNat 32 (number [b]) <<< 8 |||
    BitVec.ofInt 32 (signed [c]) <<< 16).toInt = signed [a,b,c] := by
  have ha := a.toNat_lt
  have hb := b.toNat_lt
  have hc := c.toNat_lt
  have low : (BitVec.ofInt 32 (signed [c]) <<< 16).toNat = if 2 * c.toNat < 256 then 65536 * c.toNat else 65536 * (65280 + c.toNat) := by
    rw [BitVec.toNat_shiftLeft,BitVec.toNat_ofInt,Nat.shiftLeft_eq]
    unfold signed
    rw [number_singleton]
    simp only [List.length_singleton]
    split_ifs <;> omega
  have whole : (BitVec.ofNat 32 (number [a]) ||| BitVec.ofNat 32 (number [b]) <<< 8 |||
      BitVec.ofInt 32 (signed [c]) <<< 16).toNat =
      a.toNat + 256 * b.toNat + if 2 * c.toNat < 256 then 65536 * c.toNat else 65536 * (65280 + c.toNat) := by
    rw [BitVec.toNat_or,BitVec.toNat_or,low,BitVec.toNat_shiftLeft,BitVec.toNat_ofNat,BitVec.toNat_ofNat,
      number_singleton,number_singleton,Nat.mod_eq_of_lt (by omega),Nat.mod_eq_of_lt (a := b.toNat) (by omega),
      Nat.mod_eq_of_lt (by rw [Nat.shiftLeft_eq]; omega)]
    split_ifs
    · exact or_shift_shift ha hb _
    · exact or_shift_shift ha hb _
  rw [BitVec.toInt_eq_toNat_cond,whole]
  unfold signed number
  simp only [List.foldr_cons,List.foldr_nil,List.length_cons,List.length_nil]
  split_ifs <;> omega

section
variable {F : Type} (N : Numbers F)

def sampleValue (format bytes : ℕ) (s : Bytes) : F :=
  if format = 3 then if bytes = 4 then N.float32 s else N.float64 s
  else if bytes = 1 then N.div (N.ofInt (number s - 128)) (N.ofInt 128)
  else N.div (N.ofInt (signed s)) (N.ofInt (2 ^ (8 * bytes - 1)))

theorem three_of_length {l : Bytes} (length : 3 ≤ l.length) : ∃ a b c rest,l = a :: b :: c :: rest := by
  obtain ⟨a,l,rfl⟩ := List.exists_cons_of_length_pos (Nat.zero_lt_of_lt length)
  rw [List.length_cons] at length
  obtain ⟨b,l,rfl⟩ := List.exists_cons_of_length_pos (show 0 < l.length by omega)
  rw [List.length_cons] at length
  obtain ⟨c,l,rfl⟩ := List.exists_cons_of_length_pos (show 0 < l.length by omega)
  exact ⟨a,b,c,l,rfl⟩

theorem slice_three {view : Bytes} {o : ℕ} (fits : o + 3 ≤ view.length) :
    ∃ a b c,slice view o 3 = [a,b,c] ∧ slice view o 1 = [a] ∧ slice view (o + 1) 1 = [b] ∧ slice view (o + 2) 1 = [c] := by
  have length : 3 ≤ (view.drop o).length := by
    rw [List.length_drop]
    omega
  obtain ⟨a,b,c,rest,dropped⟩ := three_of_length length
  refine ⟨a,b,c,?_,?_,?_,?_⟩
  · rw [slice,dropped]
    rfl
  · rw [slice,dropped]
    rfl
  · rw [slice,← List.drop_drop,dropped]
    rfl
  · rw [slice,← List.drop_drop,dropped]
    rfl

theorem read_ok {view : Bytes} {format bytes o : ℕ} (known : Supported format bytes)
    (fits : o + bytes ≤ view.length) :
    read N view format bytes o = .ok (sampleValue N format bytes (slice view o bytes)) := by
  rcases known with ⟨rfl,width⟩ | ⟨rfl,rfl | rfl⟩
  · simp only [List.mem_cons,List.not_mem_nil,or_false] at width
    rcases width with rfl | rfl | rfl | rfl
    · exact congrArg (Except.map _) (get_ok fits)
    · exact congrArg (Except.map _) (get_ok fits)
    · obtain ⟨a,b,c,whole,low,middle,high⟩ := slice_three fits
      unfold read
      rw [if_neg (by decide),if_neg (by decide),if_neg (by decide),if_pos rfl,get_ok (by omega),get_ok (by omega),
        get_ok (by omega),whole,low,middle,high]
      exact congrArg (fun v => Except.ok (N.div (N.ofInt v) (N.ofInt 8388608))) (signed_three a b c)
    · exact congrArg (Except.map _) (get_ok fits)
  · exact congrArg (Except.map _) (get_ok fits)
  · exact congrArg (Except.map _) (get_ok fits)

def values (view : Bytes) (start format bytes channels frames : ℕ) : List (List F) :=
  (List.range channels).map fun c => (List.range frames).map fun i =>
    N.fround (sampleValue N format bytes (slice view (start + (i * channels + c) * bytes) bytes))

theorem sample_fits {i c frames channels : ℕ} (frame : i < frames) (channel : c < channels) (bytes : ℕ) :
    (i * channels + c) * bytes + bytes ≤ frames * (bytes * channels) :=
  calc
    (i * channels + c) * bytes + bytes = (i * channels + (c + 1)) * bytes := by ring
    _ ≤ (i * channels + channels) * bytes := Nat.mul_le_mul_right _ (Nat.add_le_add_left channel _)
    _ = (i + 1) * channels * bytes := by ring
    _ ≤ frames * channels * bytes := Nat.mul_le_mul_right _ (Nat.mul_le_mul_right _ frame)
    _ = frames * (bytes * channels) := by ring

theorem samples_ok {view : Bytes} {start format bytes channels frames : ℕ} (known : Supported format bytes)
    (fits : start + frames * (bytes * channels) ≤ view.length) :
    samples N view start format bytes channels frames = .ok (values N view start format bytes channels frames) := by
  apply Folds.mapM_of_ok
  intro c channel
  apply Folds.mapM_of_ok
  intro i frame
  have inside := sample_fits (List.mem_range.mp frame) (List.mem_range.mp channel) bytes
  rw [read_ok N known (by omega)]
  rfl

def dataChunk (u8 : Bytes) (off : ℕ) : Bytes := slice u8 (off + 8) (chunkLength u8 off)

theorem slice_dataChunk {u8 : Bytes} {off k n : ℕ} (inside : k + n ≤ dataLength u8 off) :
    slice u8 (off + 8 + k) n = slice (dataChunk u8 off) (0 + k) n := by
  have le : k + n ≤ chunkLength u8 off := inside.trans (Nat.min_le_left _ _)
  unfold dataChunk slice
  rw [List.drop_take,List.drop_drop,List.take_take,Nat.zero_add,Nat.min_eq_left (by omega)]

theorem length_dataChunk (u8 : Bytes) (off : ℕ) : (dataChunk u8 off).length = dataLength u8 off := by
  unfold dataChunk dataLength slice
  rw [List.length_take,List.length_drop]

theorem values_dataChunk {u8 : Bytes} {off format bytes channels frames : ℕ}
    (fits : frames * (bytes * channels) ≤ dataLength u8 off) :
    values N u8 (off + 8) format bytes channels frames =
      values N (dataChunk u8 off) 0 format bytes channels frames := by
  apply List.map_congr_left
  intro c channel
  apply List.map_congr_left
  intro i frame
  have inside := sample_fits (List.mem_range.mp frame) (List.mem_range.mp channel) bytes
  rw [slice_dataChunk (inside.trans fits)]

variable [DecidableEq F]

/-- The decoder, but with all samples read in the data chunk. -/
def decodeWithin (u8 : Bytes) (target : F) : Except Failure (AudioBuffer F) :=
  if ¬ IsWave u8 then .error .encoding
  else
    match scan u8 12 none with
    | .error e => .error e
    | .ok (some fmt,some off) => decodeData N u8 target fmt off (dataChunk u8 off) 0
    | .ok _ => .error .encoding

def frameCount (u8 : Bytes) (fmt : Format) (off : ℕ) : ℕ := dataLength u8 off / (fmt.bits / 8 * fmt.channels)

def decided (u8 : Bytes) (target : F) (fmt : Format) (off : ℕ) (src : ℕ → List (List F)) :
    Except Failure (AudioBuffer F) :=
  if fmt.channels < 1 ∨ 32 < fmt.channels then .error .encoding
  else
    match sampleFormat u8 fmt off with
    | .error e => .error e
    | .ok format =>
      if Supported format (fmt.bits / 8) ∧ 1 ≤ frameCount u8 fmt off then
        finish N target fmt.rate (frameCount u8 fmt off) (src format)
      else .error .encoding

theorem decodeData_eq {u8 : Bytes} {off start : ℕ} {view : Bytes} (fits : start + dataLength u8 off ≤ view.length)
    (target : F) (fmt : Format) : decodeData N u8 target fmt off view start = decided N u8 target fmt off
      fun format => values N view start format (fmt.bits / 8) fmt.channels (frameCount u8 fmt off) := by
  unfold decided
  unfold decodeData
  by_cases wide : fmt.channels < 1 ∨ 32 < fmt.channels
  · rw [if_pos wide,if_pos wide]
  rw [if_neg wide,if_neg wide]
  cases sampleFormat u8 fmt off with
  | error e => rfl
  | ok format =>
    dsimp only
    by_cases known : Supported format (fmt.bits / 8)
    · rw [if_neg (not_not.mpr known)]
      by_cases some_ : 1 ≤ frameCount u8 fmt off
      · have whole : frameCount u8 fmt off * (fmt.bits / 8 * fmt.channels) ≤ dataLength u8 off := Nat.div_mul_le_self _ _
        have inside := samples_ok N known (show start + frameCount u8 fmt off * (fmt.bits / 8 * fmt.channels) ≤
          view.length by omega)
        unfold frameCount at some_ inside ⊢
        rw [if_neg (Nat.not_lt.mpr some_),if_pos ⟨known,some_⟩,inside]
      · unfold frameCount at some_ ⊢
        rw [if_pos (Nat.lt_of_not_le some_),if_neg fun both => some_ both.2]
    · rw [if_pos known,if_neg fun both => known both.1]

/-! ### Failures -/

def formatOf (u8 : Bytes) (fmt : Format) (off : ℕ) : ℕ :=
  if fmt.format = 0xfffe then number (slice u8 (off + 32) 2) else fmt.format

theorem sampleFormat_eq (u8 : Bytes) (fmt : Format) (off : ℕ) : sampleFormat u8 fmt off =
    if fmt.format = 0xfffe → off + 34 ≤ u8.length then .ok (formatOf u8 fmt off) else .error .range := by
  unfold sampleFormat formatOf
  by_cases extensible : fmt.format = 0xfffe
  · rw [if_pos extensible,if_pos extensible]
    by_cases fits : off + 34 ≤ u8.length
    · rw [if_pos fun _ => fits,get_ok (by omega)]
      rfl
    · rw [if_neg fun long => fits (long extensible),get_error (by omega)]
      rfl
  · rw [if_neg extensible,if_neg extensible,if_pos fun same => absurd same extensible]

/-- The rates are equal, or the run time gives an array for the other number of frames. -/
def Allocates (target : F) (rate frames : ℕ) : Prop :=
  N.ofInt rate = target ∨ (N.arrayLength (outLength N frames rate target)).isSome

theorem finish_ne_range (target : F) (rate frames : ℕ) (src : List (List F)) :
    finish N target rate frames src ≠ .error .range ↔ Allocates N target rate frames := by
  unfold finish Allocates
  by_cases same : N.ofInt rate = target
  · rw [if_pos same]
    exact iff_of_true (by simp) (.inl same)
  · rw [if_neg same,or_iff_right same]
    cases N.arrayLength (outLength N frames rate target) with
    | none => simp
    | some n => simp

theorem decided_ne_range (u8 : Bytes) (target : F) (fmt : Format) (off : ℕ) (src : ℕ → List (List F)) :
    decided N u8 target fmt off src ≠ .error .range ↔ (1 ≤ fmt.channels ∧ fmt.channels ≤ 32 →
      (fmt.format = 0xfffe → off + 34 ≤ u8.length) ∧
        (Supported (formatOf u8 fmt off) (fmt.bits / 8) ∧ 1 ≤ frameCount u8 fmt off →
          Allocates N target fmt.rate (frameCount u8 fmt off))) := by
  unfold decided
  by_cases wide : fmt.channels < 1 ∨ 32 < fmt.channels
  · rw [if_pos wide]
    exact iff_of_true (by simp) fun both => absurd wide (by omega)
  rw [if_neg wide,sampleFormat_eq,imp_iff_right (show 1 ≤ fmt.channels ∧ fmt.channels ≤ 32 by omega)]
  by_cases fits : fmt.format = 0xfffe → off + 34 ≤ u8.length
  · rw [if_pos fits,and_iff_right fits]
    dsimp only
    by_cases usable : Supported (formatOf u8 fmt off) (fmt.bits / 8) ∧ 1 ≤ frameCount u8 fmt off
    · rw [if_pos usable,imp_iff_right usable]
      exact finish_ne_range N target fmt.rate _ _
    · rw [if_neg usable]
      exact iff_of_true (by simp) fun both => absurd both usable
  · rw [if_neg fits]
    exact iff_of_false (by simp) fun both => fits both.1

/-- What makes no `RangeError`: every format chunk has its fields, an extensible format has
two bytes where they are looked for, and the resampled channels can be allocated. -/
def InRange (u8 : Bytes) (target : F) : Prop :=
  IsWave u8 → FormatsWhole u8 12 ∧ ∀ fmt ∈ lastFormat u8 12,∀ off ∈ dataOffset u8 12,
    1 ≤ fmt.channels ∧ fmt.channels ≤ 32 → (fmt.format = 0xfffe → off + 34 ≤ u8.length) ∧
      (Supported (formatOf u8 fmt off) (fmt.bits / 8) ∧ 1 ≤ frameCount u8 fmt off →
        Allocates N target fmt.rate (frameCount u8 fmt off))

theorem decodeWav_found {u8 : Bytes} (isWave : IsWave u8) (whole : FormatsWhole u8 12) {fmt : Format} {off : ℕ}
    (last : lastFormat u8 12 = some fmt) (data : dataOffset u8 12 = some off) (target : F) :
    decodeWav N u8 target = decided N u8 target fmt off fun format =>
      values N u8 (off + 8) format (fmt.bits / 8) fmt.channels (frameCount u8 fmt off) := by
  have fits := mem_offsets (List.mem_of_find?_eq_some data)
  have here : off + 8 + dataLength u8 off ≤ u8.length := by
    unfold dataLength
    omega
  unfold decodeWav
  rw [if_neg (not_not.mpr isWave),scan_eq,if_pos whole,last,data]
  exact decodeData_eq N here target fmt

theorem decodeWav_broken {u8 : Bytes} (isWave : IsWave u8) (broken : ¬ FormatsWhole u8 12) (target : F) :
    decodeWav N u8 target = .error .range := by
  unfold decodeWav
  rw [if_neg (not_not.mpr isWave),scan_eq,if_neg broken]

theorem decodeWav_missing {u8 : Bytes} (whole : FormatsWhole u8 12)
    (missing : lastFormat u8 12 = none ∨ dataOffset u8 12 = none) (target : F) :
    decodeWav N u8 target = .error .encoding := by
  unfold decodeWav
  by_cases isWave : IsWave u8
  · rw [if_neg (not_not.mpr isWave),scan_eq,if_pos whole]
    rcases missing with none | none
    · rw [none]
      rfl
    · rw [none]
      cases lastFormat u8 12 with
      | none => rfl
      | some fmt => rfl
  · rw [if_pos isWave]

theorem decodeWav_within (u8 : Bytes) (target : F) : decodeWav N u8 target = decodeWithin N u8 target := by
  by_cases isWave : IsWave u8
  · by_cases whole : FormatsWhole u8 12
    · cases last : lastFormat u8 12 with
      | none =>
        rw [decodeWav_missing N whole (.inl last)]
        unfold decodeWithin
        rw [if_neg (not_not.mpr isWave),scan_eq,if_pos whole,last]
        rfl
      | some fmt =>
        cases data : dataOffset u8 12 with
        | none =>
          rw [decodeWav_missing N whole (.inr data)]
          unfold decodeWithin
          rw [if_neg (not_not.mpr isWave),scan_eq,if_pos whole,last,data]
          rfl
        | some off =>
          have there : 0 + dataLength u8 off ≤ (dataChunk u8 off).length := by
            rw [length_dataChunk,Nat.zero_add]
          rw [decodeWav_found N isWave whole last data]
          unfold decodeWithin
          rw [if_neg (not_not.mpr isWave),scan_eq,if_pos whole,last,data]
          dsimp only [Option.or]
          rw [decodeData_eq N there]
          apply congrArg (decided N u8 target fmt off)
          funext format
          exact values_dataChunk N (Nat.div_mul_le_self _ _)
    · rw [decodeWav_broken N isWave whole]
      unfold decodeWithin
      rw [if_neg (not_not.mpr isWave),scan_eq,if_neg whole]
  · unfold decodeWav decodeWithin
    rw [if_pos isWave,if_pos isWave]

theorem decodeWav_ne_range (u8 : Bytes) (target : F) :
    decodeWav N u8 target ≠ .error .range ↔ InRange N u8 target := by
  unfold InRange
  by_cases isWave : IsWave u8
  · rw [imp_iff_right isWave]
    by_cases whole : FormatsWhole u8 12
    · rw [and_iff_right whole]
      cases last : lastFormat u8 12 with
      | none =>
        rw [decodeWav_missing N whole (.inl last)]
        simp
      | some fmt =>
        cases data : dataOffset u8 12 with
        | none =>
          rw [decodeWav_missing N whole (.inr data)]
          simp
        | some off =>
          rw [decodeWav_found N isWave whole last data,decided_ne_range]
          simp
    · rw [decodeWav_broken N isWave whole]
      exact iff_of_false (fun other => other rfl) fun both => whole both.1
  · unfold decodeWav
    rw [if_pos isWave]
    exact iff_of_true (by simp) fun isWave' => absurd isWave' isWave

end

/-! ### Well-formed files -/

def leBytes : ℕ → ℕ → Bytes
  | 0,_ => []
  | k + 1,n => .ofNat n :: leBytes k (n / 256)

theorem length_leBytes (k n : ℕ) : (leBytes k n).length = k := by
  induction k generalizing n with
  | zero => rfl
  | succ k ih => rw [leBytes,List.length_cons,ih]

theorem number_leBytes {k n : ℕ} (small : n < 256 ^ k) : number (leBytes k n) = n := by
  induction k generalizing n with
  | zero =>
    rw [Nat.pow_zero] at small
    exact (Nat.lt_one_iff.mp small).symm
  | succ k ih =>
    have rest : n / 256 < 256 ^ k := by
      rw [Nat.pow_succ] at small
      exact Nat.div_lt_of_lt_mul (by omega)
    have turn : number (leBytes (k + 1) n) = (UInt8.ofNat n).toNat + 256 * number (leBytes k (n / 256)) := rfl
    rw [turn,ih rest,UInt8.toNat_ofNat']
    omega

structure Chunk where
  id : Bytes
  body : Bytes
  pad : UInt8
  named : id.length = 4
  small : body.length < 2 ^ 32

def Chunk.bytes (c : Chunk) : Bytes :=
  c.id ++ (leBytes 4 c.body.length ++ (c.body ++ List.replicate (c.body.length % 2) c.pad))

/-- A file with its chunks in any order before the data. An extensible format has the number
of the format behind a size, the valid bits and a mask of speakers. -/
structure WavFile where
  size : Bytes
  before : List Chunk
  between : List Chunk
  extensible : Bool
  format : ℕ
  width : ℕ
  channels : ℕ
  rate : ℕ
  rates : Bytes
  mask : Bytes
  extra : Bytes
  pad : UInt8
  data : Bytes
  after : Bytes
  sized : size.length = 4
  others : ∀ c ∈ before ++ between,c.id ≠ fmtId ∧ c.id ≠ dataId
  known : Supported format width
  least : 1 ≤ channels
  most : channels ≤ 32
  smallRate : rate < 2 ^ 32
  rated : rates.length = 6
  masked : mask.length = 8
  smallExtra : extra.length < 2 ^ 16
  smallData : data.length < 2 ^ 32

namespace WavFile

variable (w : WavFile)

def tag : ℕ := if w.extensible then 0xfffe else w.format

def fmtBody : Bytes :=
  leBytes 2 w.tag ++ (leBytes 2 w.channels ++ (leBytes 4 w.rate ++ (w.rates ++ (leBytes 2 (8 * w.width) ++
    ((if w.extensible then w.mask ++ leBytes 2 w.format else []) ++ w.extra)))))

theorem length_fmtBody : 16 ≤ w.fmtBody.length ∧ w.fmtBody.length < 2 ^ 32 := by
  have rated := w.rated
  have masked := w.masked
  have small := w.smallExtra
  unfold fmtBody
  simp only [List.length_append,length_leBytes]
  split_ifs
  · rw [List.length_append,length_leBytes]
    omega
  · rw [List.length_nil]
    omega

def fmtChunk : Chunk := ⟨fmtId,w.fmtBody,w.pad,rfl,w.length_fmtBody.2⟩

def dataBytes : Bytes := dataId ++ (leBytes 4 w.data.length ++ (w.data ++ w.after))

def bytes : Bytes :=
  (riff ++ (w.size ++ wave)) ++ (w.before.flatMap Chunk.bytes ++ (w.fmtChunk.bytes ++
    (w.between.flatMap Chunk.bytes ++ w.dataBytes)))

def frames : ℕ := w.data.length / (w.width * w.channels)

def sample {F : Type} (N : Numbers F) (format i c : ℕ) : F :=
  N.fround (sampleValue N format w.width (slice w.data ((i * w.channels + c) * w.width) w.width))

def buffer {F : Type} (N : Numbers F) : AudioBuffer F :=
  ⟨N.ofInt w.rate,w.frames,(List.range w.channels).map fun c => (List.range w.frames).map fun i =>
    w.sample N w.format i c⟩

def misread : Option ℕ :=
  if 26 ≤ (w.data ++ w.after).length then some (number (slice (w.data ++ w.after) 24 2)) else none

/-- There is a frame, and for an extensible format the bytes of the data that are taken for the
number of the format give the samples their values. -/
def Reads {F : Type} (N : Numbers F) : Prop :=
  1 ≤ w.frames ∧ (w.extensible = true → ∃ format,w.misread = some format ∧ Supported format w.width ∧
    ∀ c < w.channels,∀ i < w.frames,w.sample N format i c = w.sample N w.format i c)

end WavFile

theorem slice_middle {l first middle last : Bytes} {k n : ℕ} (whole : l = first ++ (middle ++ last))
    (start : first.length = k) (length : middle.length = n) : slice l k n = middle := by
  rw [slice,whole,← start,List.drop_left,← length,List.take_left]

section
variable {u8 first last : Bytes} {c : Chunk}

theorem Chunk.length_bytes (c : Chunk) : c.bytes.length = 8 + c.body.length + c.body.length % 2 := by
  have named := c.named
  unfold Chunk.bytes
  simp only [List.length_append,length_leBytes,List.length_replicate]
  omega

theorem header (whole : u8 = first ++ (c.bytes ++ last)) : first.length + 8 ≤ u8.length ∧
    slice u8 first.length 4 = c.id ∧ chunkLength u8 first.length = c.body.length := by
  refine ⟨?_,?_,?_⟩
  · rw [whole,List.length_append,List.length_append,c.length_bytes]
    omega
  · rw [whole,Chunk.bytes,List.append_assoc]
    exact slice_middle rfl rfl c.named
  · have small := c.small
    have split : u8 = (first ++ c.id) ++ (leBytes 4 c.body.length ++ ((c.body ++
        List.replicate (c.body.length % 2) c.pad) ++ last)) := by
      rw [whole,Chunk.bytes]
      simp only [List.append_assoc]
    have start : (first ++ c.id).length = first.length + 4 := by
      rw [List.length_append,c.named]
    rw [chunkLength,slice_middle split start (length_leBytes _ _),number_leBytes (by omega)]

theorem scan_skip (whole : u8 = first ++ (c.bytes ++ last)) (other : c.id ≠ fmtId ∧ c.id ≠ dataId)
    (fmt : Option Format) : scan u8 first.length fmt = scan u8 (first ++ c.bytes).length fmt := by
  obtain ⟨fits,id,length⟩ := header whole
  rw [scan,if_pos fits,id,if_neg other.1,if_neg other.2,length,List.length_append,c.length_bytes]

theorem scan_chunks {cs : List Chunk} (whole : u8 = first ++ (cs.flatMap Chunk.bytes ++ last))
    (others : ∀ c ∈ cs,c.id ≠ fmtId ∧ c.id ≠ dataId) (fmt : Option Format) :
    scan u8 first.length fmt = scan u8 (first ++ cs.flatMap Chunk.bytes).length fmt := by
  induction cs generalizing first with
  | nil => rw [List.flatMap_nil,List.append_nil]
  | cons c cs ih =>
    obtain ⟨other,later⟩ := List.forall_mem_cons.mp others
    rw [List.flatMap_cons,List.append_assoc] at whole
    have again : u8 = (first ++ c.bytes) ++ (cs.flatMap Chunk.bytes ++ last) := by
      rw [whole,List.append_assoc]
    rw [scan_skip whole other,ih again later,List.flatMap_cons,List.append_assoc]

end

namespace WavFile

variable (w : WavFile)

def toFormat : Format := ⟨w.tag,w.channels,w.rate,8 * w.width⟩

theorem width_le : w.width ≤ 8 := by
  rcases w.known with ⟨-,width⟩ | ⟨-,width⟩
  · simp only [List.mem_cons,List.not_mem_nil,or_false] at width
    omega
  · omega

theorem tag_lt : w.tag < 2 ^ 16 := by
  unfold tag
  split_ifs
  · decide
  · rcases w.known with ⟨format,-⟩ | ⟨format,-⟩
    · omega
    · omega

theorem body_at {u8 first last : Bytes} {c : Chunk} (whole : u8 = first ++ (c.bytes ++ last)) :
    ∃ top rest,top.length = first.length + 8 ∧ u8 = top ++ (c.body ++ rest) := by
  refine ⟨first ++ (c.id ++ leBytes 4 c.body.length),List.replicate (c.body.length % 2) c.pad ++ last,?_,?_⟩
  · rw [List.length_append,List.length_append,c.named,length_leBytes]
  · rw [whole,Chunk.bytes]
    simp only [List.append_assoc]

theorem fields_fmtChunk {u8 first last : Bytes} (whole : u8 = first ++ (w.fmtChunk.bytes ++ last)) :
    fields u8 first.length = w.toFormat := by
  obtain ⟨top,rest,tall,split⟩ := body_at whole
  have rated := w.rated
  have width := w.width_le
  have layout : u8 = top ++ (leBytes 2 w.tag ++ (leBytes 2 w.channels ++ (leBytes 4 w.rate ++ (w.rates ++
      (leBytes 2 (8 * w.width) ++ (((if w.extensible then w.mask ++ leBytes 2 w.format else []) ++ w.extra) ++
        rest)))))) := by
    rw [split,show w.fmtChunk.body = w.fmtBody from rfl,fmtBody]
    simp only [List.append_assoc]
  have tagged := slice_middle layout tall (length_leBytes 2 w.tag)
  rw [← List.append_assoc] at layout
  have wide := slice_middle layout (k := first.length + 10)
    (by rw [List.length_append,tall,length_leBytes]) (length_leBytes 2 w.channels)
  rw [← List.append_assoc] at layout
  have fast := slice_middle layout (k := first.length + 12)
    (by rw [List.length_append,List.length_append,tall,length_leBytes,length_leBytes]) (length_leBytes 4 w.rate)
  rw [← List.append_assoc,← List.append_assoc] at layout
  have deep := slice_middle layout (k := first.length + 22)
    (by simp only [List.length_append,tall,length_leBytes,rated]) (length_leBytes 2 (8 * w.width))
  have most := w.most
  have tag := w.tag_lt
  have small := w.smallRate
  rw [fields,tagged,wide,fast,deep,number_leBytes (by omega),number_leBytes (by omega),number_leBytes (by omega),
    number_leBytes (by omega),toFormat]

theorem scan_fmt {u8 first last : Bytes} (whole : u8 = first ++ (w.fmtChunk.bytes ++ last)) (fmt : Option Format) :
    scan u8 first.length fmt = scan u8 (first ++ w.fmtChunk.bytes).length (some w.toFormat) := by
  obtain ⟨fits,id,length⟩ := header whole
  have fields : first.length + 24 ≤ u8.length := by
    have least : 16 ≤ w.fmtChunk.body.length := w.length_fmtBody.1
    rw [whole,List.length_append,List.length_append,w.fmtChunk.length_bytes]
    omega
  have isFmt : slice u8 first.length 4 = fmtId := id
  rw [scan,if_pos fits,if_pos isFmt,formatAt_eq,if_pos fields,w.fields_fmtChunk whole]
  dsimp only
  rw [length,List.length_append,w.fmtChunk.length_bytes]

theorem scan_data {u8 first : Bytes} (whole : u8 = first ++ w.dataBytes) (fmt : Option Format) :
    scan u8 first.length fmt = .ok (fmt,some first.length) ∧ chunkLength u8 first.length = w.data.length ∧
      ∃ top,top.length = first.length + 8 ∧ u8 = top ++ (w.data ++ w.after) := by
  have fits : first.length + 8 ≤ u8.length := by
    rw [whole,dataBytes]
    simp only [List.length_append,length_leBytes]
    rw [show dataId.length = 4 from rfl]
    omega
  have id : slice u8 first.length 4 = dataId := slice_middle whole rfl rfl
  have split : u8 = (first ++ dataId) ++ (leBytes 4 w.data.length ++ (w.data ++ w.after)) := by
    rw [whole,List.append_assoc]
    rfl
  have small := w.smallData
  have length : chunkLength u8 first.length = w.data.length := by
    rw [chunkLength,slice_middle split (by rw [List.length_append]; rfl) (length_leBytes _ _),
      number_leBytes (by omega)]
  rw [scan,if_pos fits,id,if_neg fmtId_ne_dataId.symm,if_pos rfl]
  refine ⟨rfl,length,first ++ (dataId ++ leBytes 4 w.data.length),?_,?_⟩
  · rw [List.length_append,List.length_append,length_leBytes]
    rfl
  · rw [split]
    simp only [List.append_assoc]

theorem scan_bytes : ∃ off,scan w.bytes 12 none = .ok (some w.toFormat,some off) ∧
    chunkLength w.bytes off = w.data.length ∧ ∃ top,top.length = off + 8 ∧ w.bytes = top ++ (w.data ++ w.after) := by
  let start := riff ++ (w.size ++ wave)
  have begins : start.length = 12 := by
    simp only [start,List.length_append,w.sized]
    rfl
  have whole : w.bytes = start ++ (w.before.flatMap Chunk.bytes ++ (w.fmtChunk.bytes ++
    (w.between.flatMap Chunk.bytes ++ w.dataBytes))) := rfl
  have others := w.others
  rw [List.forall_mem_append] at others
  have first := scan_chunks whole others.1 none
  rw [begins] at first
  rw [← List.append_assoc] at whole
  have second := w.scan_fmt whole none
  rw [← List.append_assoc] at whole
  have third := scan_chunks whole others.2 (some w.toFormat)
  rw [← List.append_assoc] at whole
  obtain ⟨last,found⟩ := w.scan_data whole (some w.toFormat)
  exact ⟨_,first.trans (second.trans (third.trans last)),found⟩

theorem isWave_bytes : IsWave w.bytes := by
  have sized := w.sized
  refine ⟨?_,?_,?_⟩
  · unfold bytes
    simp only [List.length_append,sized]
    rw [show riff.length = 4 from rfl,show wave.length = 4 from rfl]
    omega
  · have split : w.bytes = [] ++ (riff ++ (w.size ++ wave ++ (w.before.flatMap Chunk.bytes ++ (w.fmtChunk.bytes ++
        (w.between.flatMap Chunk.bytes ++ w.dataBytes))))) := List.append_assoc riff _ _
    exact slice_middle split rfl rfl
  · have split : w.bytes = (riff ++ w.size) ++ (wave ++ (w.before.flatMap Chunk.bytes ++ (w.fmtChunk.bytes ++
        (w.between.flatMap Chunk.bytes ++ w.dataBytes)))) := by
      unfold bytes
      simp only [List.append_assoc]
    exact slice_middle split (by rw [List.length_append,sized]; rfl) rfl

section
variable {F : Type} (N : Numbers F)

theorem buffer_eq_iff (format : ℕ) : (⟨N.ofInt w.rate,w.frames,(List.range w.channels).map fun c =>
      (List.range w.frames).map fun i => w.sample N format i c⟩ : AudioBuffer F) = w.buffer N ↔
    ∀ c < w.channels,∀ i < w.frames,w.sample N format i c = w.sample N w.format i c := by
  rw [buffer,AudioBuffer.mk.injEq,and_iff_right rfl,and_iff_right rfl,List.map_inj_left]
  simp only [List.map_inj_left,List.mem_range]

variable [DecidableEq F]

theorem tag_iff : w.tag = 0xfffe ↔ w.extensible = true := by
  unfold tag
  split_ifs with extensible
  · exact iff_of_true rfl extensible
  · refine iff_of_false (fun same => ?_) extensible
    rcases w.known with ⟨format,-⟩ | ⟨format,-⟩
    · omega
    · omega

def taken : ℕ := if w.extensible then w.misread.getD 0 else w.format

theorem sampleFormat_bytes {top : Bytes} {off : ℕ} (tall : top.length = off + 8)
    (split : w.bytes = top ++ (w.data ++ w.after)) : sampleFormat w.bytes w.toFormat off =
      if w.extensible = true → w.misread.isSome then .ok w.taken else .error .range := by
  have length : w.bytes.length = off + 8 + (w.data ++ w.after).length := by
    rw [split,List.length_append,tall]
  have format : w.toFormat.format = w.tag := rfl
  rw [sampleFormat_eq,formatOf,format]
  by_cases extensible : w.extensible = true
  · by_cases long : 26 ≤ (w.data ++ w.after).length
    · have enough : w.tag = 0xfffe → off + 34 ≤ w.bytes.length := fun _ => by omega
      have misread : w.misread = some (number (slice (w.data ++ w.after) 24 2)) := if_pos long
      have moved : slice w.bytes (off + 32) 2 = slice (w.data ++ w.after) 24 2 := by
        rw [split,slice,slice,show off + 32 = top.length + 24 by omega,← List.drop_drop,List.drop_left]
      rw [if_pos enough,if_pos (w.tag_iff.mpr extensible),taken,if_pos extensible,misread,moved]
      exact (if_pos fun _ => rfl).symm
    · have short : ¬ (w.tag = 0xfffe → off + 34 ≤ w.bytes.length) := by
        intro enough
        have fits := enough (w.tag_iff.mpr extensible)
        omega
      have misread : w.misread = none := if_neg long
      rw [if_neg short,misread]
      exact (if_neg fun readable => absurd (readable extensible) (by simp)).symm
  · have plain : ¬ w.tag = 0xfffe := fun same => extensible (w.tag_iff.mp same)
    rw [if_pos fun same => absurd same plain,if_pos fun same => absurd same extensible,if_neg plain,taken,
      if_neg extensible,tag,if_neg extensible]

theorem decodeWav_bytes : decodeWav N w.bytes (N.ofInt w.rate) =
    if w.extensible = true → w.misread.isSome then
      if Supported w.taken w.width ∧ 1 ≤ w.frames then
        .ok ⟨N.ofInt w.rate,w.frames,(List.range w.channels).map fun c => (List.range w.frames).map fun i =>
          w.sample N w.taken i c⟩
      else .error .encoding
    else .error .range := by
  obtain ⟨off,found,length,top,tall,split⟩ := w.scan_bytes
  have total : w.bytes.length = off + 8 + (w.data.length + w.after.length) := by
    rw [split,List.length_append,List.length_append,tall]
  have data : dataLength w.bytes off = w.data.length := by
    rw [dataLength,length]
    omega
  have chunk : dataChunk w.bytes off = w.data := by
    rw [dataChunk,length]
    exact slice_middle split tall rfl
  have bytes : w.toFormat.bits / 8 = w.width := Nat.mul_div_cancel_left w.width (by decide)
  have frames : frameCount w.bytes w.toFormat off = w.frames := by
    rw [frameCount,data,bytes]
    rfl
  have fits : 0 + dataLength w.bytes off ≤ (dataChunk w.bytes off).length := by
    rw [length_dataChunk,Nat.zero_add]
  have narrow : ¬ (w.toFormat.channels < 1 ∨ 32 < w.toFormat.channels) := by
    have least := w.least
    have most := w.most
    unfold toFormat
    dsimp only
    omega
  rw [decodeWav_within,decodeWithin,if_neg (not_not.mpr w.isWave_bytes),found]
  dsimp only
  rw [decodeData_eq N fits,decided,if_neg narrow,w.sampleFormat_bytes tall split,chunk,bytes,frames]
  by_cases readable : w.extensible = true → w.misread.isSome
  · rw [if_pos readable,if_pos readable]
    dsimp only
    by_cases usable : Supported w.taken w.width ∧ 1 ≤ w.frames
    · have rate : N.ofInt w.toFormat.rate = N.ofInt w.rate := rfl
      rw [if_pos usable,if_pos usable,finish,if_pos rate]
      unfold values sample
      simp only [Nat.zero_add]
      rfl
    · rw [if_neg usable,if_neg usable]
  · rw [if_neg readable,if_neg readable]

theorem decodeWav_iff : decodeWav N w.bytes (N.ofInt w.rate) = .ok (w.buffer N) ↔ w.Reads N := by
  rw [decodeWav_bytes,Reads]
  by_cases extensible : w.extensible = true
  · rw [taken,if_pos extensible]
    cases w.misread with
    | none =>
      rw [if_neg fun readable => absurd (readable extensible) (by simp)]
      refine iff_of_false (by simp) fun reads => ?_
      obtain ⟨format,found,-⟩ := reads.2 extensible
      cases found
    | some format =>
      have readable : w.extensible = true → (some format).isSome = true := fun _ => rfl
      rw [if_pos readable,Option.getD_some,imp_iff_right extensible]
      by_cases usable : Supported format w.width ∧ 1 ≤ w.frames
      · rw [if_pos usable,Except.ok.injEq,buffer_eq_iff,and_iff_right usable.2]
        constructor
        · intro same
          exact ⟨format,rfl,usable.1,same⟩
        · rintro ⟨other,found,-,same⟩
          cases found
          exact same
      · rw [if_neg usable]
        refine iff_of_false (by simp) fun reads => usable ?_
        obtain ⟨some_,other,found,known,-⟩ := reads
        cases found
        exact ⟨known,some_⟩
  · have direct : w.taken = w.format := if_neg extensible
    rw [if_pos fun same => absurd same extensible,direct]
    by_cases some_ : 1 ≤ w.frames
    · rw [if_pos ⟨w.known,some_⟩]
      exact iff_of_true rfl ⟨some_,fun same => absurd same extensible⟩
    · rw [if_neg fun both => some_ both.2]
      exact iff_of_false (by simp) fun reads => some_ reads.1

end

end WavFile

section
variable {F : Type}

theorem settled_iff (r : Except Failure (AudioBuffer F)) :
    (r = .error .encoding ∨ ∃ b,r = .ok b) ↔ r ≠ .error .range := by
  cases r with
  | error e => cases e <;> simp
  | ok b => simp

variable [DecidableEq F] (N : Numbers F)

/-- When the decoder settles on samples or an `EncodingError`, when a file is decoded to its
frames, and that no sample is read outside the data chunk. -/
theorem decodeWav_laws : (∀ (u8 : Bytes) (target : F),
      (decodeWav N u8 target = .error .encoding ∨ ∃ b,decodeWav N u8 target = .ok b) ↔ InRange N u8 target) ∧
    (∀ w : WavFile,decodeWav N w.bytes (N.ofInt w.rate) = .ok (w.buffer N) ↔ w.Reads N) ∧
    ∀ (u8 : Bytes) (target : F),decodeWav N u8 target = decodeWithin N u8 target := by
  refine ⟨fun u8 target => ?_,fun w => w.decodeWav_iff N,decodeWav_within N⟩
  rw [settled_iff,decodeWav_ne_range]

end

/-- A second of silence in sixteen bits, shortened to thirteen frames, in the extensible format. -/
def silence : WavFile where
  size := [0,0,0,0]
  before := []
  between := []
  extensible := true
  format := 1
  width := 2
  channels := 1
  rate := 44100
  rates := List.replicate 6 0
  mask := List.replicate 8 0
  extra := List.replicate 14 0
  pad := 0
  data := List.replicate 26 0
  after := []
  sized := rfl
  others := by simp
  known := .inl ⟨rfl,by decide⟩
  least := le_rfl
  most := by decide
  smallRate := by decide
  rated := rfl
  masked := rfl
  smallExtra := by decide
  smallData := by decide

/-- The number of its format is looked for in the samples. -/
theorem silence_undecoded : ¬ ∀ N : Numbers ℚ,
    (∀ (u8 : Bytes) (target : ℚ),decodeWav N u8 target = .error .encoding ∨ ∃ b,decodeWav N u8 target = .ok b) ∧
    (∀ w : WavFile,decodeWav N w.bytes (N.ofInt w.rate) = .ok (w.buffer N)) ∧
    ∀ (u8 : Bytes) (target : ℚ),decodeWav N u8 target = decodeWithin N u8 target := by
  intro all
  let N : Numbers ℚ := ⟨fun n => n,fun _ => 0,fun _ => 0,(· + ·),(· - ·),(· * ·),(· / ·),min,max,fun x => ⌊x⌋
    ,fun x => ⌊x + 1 / 2⌋,id,fun x => ⌊x⌋.toNat,fun x => some ⌊x⌋.toNat⟩
  have reads := (silence.decodeWav_iff N).mp ((all N).2.1 silence)
  obtain ⟨format,found,known,-⟩ := reads.2 rfl
  have misread : silence.misread = some 0 := by decide
  rw [misread] at found
  cases found
  exact absurd known (by decide)

end Sharko.Script.WebAudio.Wav
