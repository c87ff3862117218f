import Sharko.Script.TextDecoding

/-! `TextDecoder`, which decodes a stream chunk by chunk with the one-shot decoder and holds back
what may be the beginning of a character. -/

namespace Sharko.Script.TextDecoding

open Library

def need (b : UInt8) : Nat := if b ≥ 0xf0 then 4 else if b ≥ 0xe0 then 3 else if b ≥ 0xc0 then 2 else 1

/-- From the last byte back: the bytes of a character that has begun and is not complete. -/
def utf8Tail (k : Nat) : Bytes → Nat
  | [] => 0
  | b :: before =>
    if k > 3 then 0
    else if b &&& 0xc0 = 0x80 then utf8Tail (k + 1) before
    else if need b > k then k
    else 0

def incompleteTail {σ : Type} (bytes : Bytes) : Encoding σ → Nat
  | .utf16 _ => bytes.length % 2
  | .utf8 => utf8Tail 1 bytes.reverse
  | .legacy _ => 0

structure TextDecoder (σ : Type) where
  enc : Encoding σ
  fatal : Bool
  ignoreBOM : Bool
  pending : Option Bytes
  bomSeen : Bool

namespace TextDecoder

variable {σ : Type}

def fresh (enc : Encoding σ) (fatal ignoreBOM : Bool) : TextDecoder σ := ⟨enc,fatal,ignoreBOM,none,false⟩

def decode (decoder : TextDecoder σ) (input : Bytes) (stream : Bool) : TextDecoder σ × Option Text :=
  let bytes := match decoder.pending with
    | some held => held ++ input
    | none => input
  let keep := if stream ∧ bytes ≠ [] then incompleteTail bytes decoder.enc else 0
  let pending := if keep > 0 then some (bytes.drop (bytes.length - keep)) else none
  let bytes := bytes.take (bytes.length - keep)
  match if bytes = [] then some [] else decoder.enc.decodeText bytes decoder.fatal with
  | none => ({ decoder with pending := none },none)
  | some out =>
    let first := !decoder.bomSeen && out ≠ []
    let shown := if first ∧ decoder.ignoreBOM = false ∧ out.head? = some byteOrderMark then out.tail else out
    let bomSeen := decoder.bomSeen || first
    if stream then ({ decoder with pending,bomSeen },some shown)
    else ({ decoder with pending := none,bomSeen := false },some shown)

def decodeChunks (decoder : TextDecoder σ) : List Bytes → Option Text
  | [] => (decoder.decode [] false).2
  | chunk :: rest =>
    match decoder.decode chunk true with
    | (_,none) => none
    | (decoder,some out) => (decoder.decodeChunks rest).map fun later => out ++ later

def pieces (enc : Encoding σ) (held : Bytes) : List Bytes → List Bytes
  | [] => [held]
  | chunk :: rest =>
    let bytes := held ++ chunk
    let size := bytes.length - incompleteTail bytes enc
    bytes.take size :: pieces enc (bytes.drop size) rest

theorem need_le {b : UInt8} {k : Nat} (enough : (if need b > k + 1 then k + 1 else 0) = 0) : need b - 1 ≤ k := by
  split at enough
  · cases enough
  · omega

theorem needed_first (b : UInt8) : Utf8.needed (Utf8.first b.toNat).1 ≤ need b - 1 := by
  unfold need
  simp only [ge_iff_le,UInt8.le_iff_toNat_le,show (0xf0 : UInt8).toNat = 0xf0 from rfl,
    show (0xe0 : UInt8).toNat = 0xe0 from rfl,show (0xc0 : UInt8).toNat = 0xc0 from rfl]
  rcases Utf8.first_cases b.toNat with ⟨-,same⟩ | ⟨low,high,same⟩ | ⟨_,_,low,high,-,-,same⟩ |
    ⟨_,_,low,-,-,-,same⟩ | ⟨-,same⟩
  all_goals rw [same]
  · exact Nat.zero_le _
  · simp only [Utf8.needed]
    split_ifs <;> omega
  · simp only [Utf8.needed]
    split_ifs <;> omega
  · simp only [Utf8.needed]
    split_ifs
    omega
  · exact Nat.zero_le _

theorem utf8Tail_zero (k : Nat) (back : Bytes) (whole : utf8Tail (k + 1) back = 0) :
    Utf8.needed (Utf8.decoder.run .start back.reverse).1 ≤ k := by
  induction back generalizing k with
  | nil => exact Nat.zero_le k
  | cons b before ih =>
    have fits := Utf8.run_fits (s := .start) trivial before.reverse
    rw [List.reverse_cons,Transducer.run_append]
    have stepped : (Utf8.decoder.run (Utf8.decoder.run .start before.reverse).1 [b]).1 =
        (Utf8.next (Utf8.decoder.run .start before.reverse).1 b).1 := rfl
    rw [stepped]
    unfold utf8Tail at whole
    by_cases far : k + 1 > 3
    · have few := Utf8.needed_le (Utf8.next_fits fits b)
      omega
    rw [if_neg far] at whole
    by_cases continues : Utf8.Continues b
    · rw [if_pos ((Utf8.continues_iff b).mpr continues)] at whole
      have more := ih (k + 1) whole
      have less := @Utf8.needed_continues (Utf8.decoder.run .start before.reverse).1 b continues
      omega
    · rw [if_neg fun h => continues ((Utf8.continues_iff b).mp h)] at whole
      rw [Utf8.next_lead fits continues]
      exact Nat.le_trans (needed_first b) (need_le whole)

theorem utf8Tail_pos {k j : Nat} {back : Bytes} (held : utf8Tail (k + 1) back = j + 1) :
    ∃ later b before,back = later ++ b :: before ∧ ¬ Utf8.Continues b ∧ k + later.length = j := by
  induction back generalizing k with
  | nil => cases held
  | cons b before ih =>
    unfold utf8Tail at held
    by_cases far : k + 1 > 3
    · rw [if_pos far] at held
      cases held
    rw [if_neg far] at held
    by_cases continues : Utf8.Continues b
    · rw [if_pos ((Utf8.continues_iff b).mpr continues)] at held
      obtain ⟨later,lead,earlier,rfl,begins,count⟩ := ih held
      exact ⟨b :: later,lead,earlier,rfl,begins,by rw [List.length_cons]; omega⟩
    · rw [if_neg fun h => continues ((Utf8.continues_iff b).mp h)] at held
      by_cases more : need b > k + 1
      · rw [if_pos more] at held
        exact ⟨[],b,before,rfl,continues,Nat.succ.inj held⟩
      · rw [if_neg more] at held
        cases held

theorem incompleteTail_le {σ : Type} (enc : Encoding σ) (bytes : Bytes) :
    incompleteTail bytes enc ≤ bytes.length := by
  cases enc with
  | utf8 =>
    show utf8Tail 1 bytes.reverse ≤ bytes.length
    cases held : utf8Tail 1 bytes.reverse with
    | zero => exact Nat.zero_le _
    | succ j =>
      obtain ⟨later,b,before,split,-,count⟩ := utf8Tail_pos held
      have length := congrArg List.length split
      simp only [List.length_reverse,List.length_append,List.length_cons] at length
      omega
  | utf16 big => exact Nat.mod_le _ _
  | legacy decoder => exact Nat.zero_le _

theorem pieces_flatten {σ : Type} (enc : Encoding σ) (held : Bytes) (chunks : List Bytes) :
    (pieces enc held chunks).flatten = held ++ chunks.flatten := by
  induction chunks generalizing held with
  | nil => simp [pieces]
  | cons chunk rest ih =>
    rw [pieces,List.flatten_cons,ih,← List.append_assoc,List.take_append_drop,List.append_assoc,
      List.flatten_cons]

theorem utf8_calm (bytes later : Bytes) :
    let size := bytes.length - utf8Tail 1 bytes.reverse
    Utf8.decoder.Calm (Utf8.decoder.run .start (bytes.take size)).1 (bytes.drop size ++ later) := by
  intro size
  cases held : utf8Tail 1 bytes.reverse with
  | zero =>
    have whole : bytes.take size = bytes := by
      rw [show size = bytes.length by simp [size,held],List.take_length]
    have done := utf8Tail_zero 0 bytes.reverse held
    rw [List.reverse_reverse] at done
    rw [whole]
    exact .inl (Utf8.start_of_needed (Utf8.run_fits (s := .start) trivial bytes) (Nat.le_zero.mp done))
  | succ j =>
    obtain ⟨after,b,before,split,begins,count⟩ := utf8Tail_pos held
    have split : bytes = before.reverse ++ b :: after.reverse := by
      have turned := congrArg List.reverse split
      simpa using turned
    have cut : size = before.reverse.length := by
      have length := congrArg List.length split
      simp only [List.length_append,List.length_cons,List.length_reverse] at length ⊢
      omega
    have rest : bytes.drop size = b :: after.reverse := by
      rw [cut]
      conv_lhs => rw [split]
      exact List.drop_left
    rw [rest]
    exact Utf8.calm_lead (Utf8.run_fits (s := .start) trivial _) begins _

theorem utf8_unbroken {σ : Type} (held : Bytes) (chunks : List Bytes) :
    Utf8.decoder.Unbroken (pieces (.utf8 : Encoding σ) held chunks) := by
  induction chunks generalizing held with
  | nil => exact ⟨.inr (.inl rfl),trivial⟩
  | cons chunk rest ih =>
    refine ⟨?_,ih _⟩
    rw [pieces_flatten]
    exact utf8_calm (held ++ chunk) rest.flatten

theorem utf16_items {σ : Type} (big : Bool) (held : Bytes) (chunks : List Bytes) :
    Utf16.items big (pieces (.utf16 big : Encoding σ) held chunks).flatten =
      ((pieces (.utf16 big : Encoding σ) held chunks).map (Utf16.items big)).flatten := by
  induction chunks generalizing held with
  | nil => simp [pieces]
  | cons chunk rest ih =>
    have even : ((held ++ chunk).take ((held ++ chunk).length - (held ++ chunk).length % 2)).length % 2 = 0 := by
      rw [List.length_take]
      omega
    rw [pieces,List.flatten_cons,List.map_cons,List.flatten_cons,← ih]
    exact Utf16.items_append even big _

theorem decodeText_nil {σ : Type} (enc : Encoding σ) (fatal : Bool) : enc.decodeText [] fatal = some [] := by
  have bare : Marks.unmark enc.bom [] = [] := by simp [Marks.unmark]
  have nothing : enc.oneShot [] = [] := by
    cases enc with
    | utf8 => exact Transducer.read_nil
    | utf16 big => exact Transducer.read_nil
    | legacy decoder => exact Transducer.read_nil
  simp [Encoding.decodeText,bare,nothing,text]

def shown (decoder : TextDecoder σ) (out : Text) : Text :=
  if decoder.bomSeen ∨ decoder.ignoreBOM then out else Marks.unmark [byteOrderMark] out

theorem shown_eq (decoder : TextDecoder σ) (out : Text) :
    (if (!decoder.bomSeen && out ≠ []) ∧ decoder.ignoreBOM = false ∧ out.head? = some byteOrderMark then out.tail
      else out) = decoder.shown out := by
  unfold shown
  cases decoder.bomSeen <;> cases decoder.ignoreBOM <;> cases out <;>
    simp [Marks.unmark_cons]

theorem shown_append (decoder : TextDecoder σ) (pending : Option Bytes) (out later : Text) :
    decoder.shown (out ++ later) = decoder.shown out ++
      shown { decoder with pending,bomSeen := decoder.bomSeen || (!decoder.bomSeen && out ≠ []) } later := by
  unfold shown
  cases decoder.bomSeen <;> cases decoder.ignoreBOM <;> cases out <;> simp
  exact Marks.unmark_append (List.cons_ne_nil _ _)

theorem decode_stream (decoder : TextDecoder σ) (input : Bytes) :
    let bytes := decoder.pending.getD [] ++ input
    let size := bytes.length - incompleteTail bytes decoder.enc
    ∃ pending,pending.getD [] = bytes.drop size ∧ decoder.decode input true =
      match decoder.enc.decodeText (bytes.take size) decoder.fatal with
      | none => ({ decoder with pending := none },none)
      | some out => ({ decoder with pending,bomSeen := decoder.bomSeen || (!decoder.bomSeen && out ≠ []) },
          some (decoder.shown out)) := by
  intro bytes size
  have joined : (match decoder.pending with | some held => held ++ input | none => input) = bytes := by
    cases kept : decoder.pending with
    | none => simp [bytes,kept]
    | some held => simp [bytes,kept]
  have keep : (if true = true ∧ bytes ≠ [] then incompleteTail bytes decoder.enc else 0) =
      incompleteTail bytes decoder.enc := by
    split
    next => rfl
    next empty =>
      have none_ := incompleteTail_le decoder.enc bytes
      have empty : bytes = [] := by simpa using empty
      rw [empty] at none_ ⊢
      exact (Nat.le_zero.mp none_).symm
  have decoded : (if bytes.take size = [] then some [] else decoder.enc.decodeText (bytes.take size) decoder.fatal) =
      decoder.enc.decodeText (bytes.take size) decoder.fatal := by
    split
    next empty => rw [empty,decodeText_nil]
    next => rfl
  refine ⟨if incompleteTail bytes decoder.enc > 0 then some (bytes.drop size) else none,?_,?_⟩
  · split
    next => rfl
    next whole =>
      have all : size = bytes.length := by omega
      rw [all,List.drop_length]
      rfl
  · unfold decode
    rw [joined]
    dsimp only
    rw [keep,decoded]
    cases decoder.enc.decodeText (bytes.take size) decoder.fatal with
    | none => rfl
    | some out =>
      dsimp only
      rw [if_pos rfl,shown_eq]

theorem decode_last (decoder : TextDecoder σ) (input : Bytes) : (decoder.decode input false).2 =
      (decoder.enc.decodeText (decoder.pending.getD [] ++ input) decoder.fatal).map decoder.shown := by
  have joined : (match decoder.pending with | some held => held ++ input | none => input) =
      decoder.pending.getD [] ++ input := by
    cases decoder.pending with
    | none => rfl
    | some held => rfl
  unfold decode
  rw [joined]
  generalize decoder.pending.getD [] ++ input = bytes
  have decoded : (if bytes = [] then some [] else decoder.enc.decodeText bytes decoder.fatal) =
      decoder.enc.decodeText bytes decoder.fatal := by
    split
    next empty => rw [empty,decodeText_nil]
    next => rfl
  simp only [Bool.false_eq_true,false_and,if_false,Nat.sub_zero,List.take_length,decoded]
  cases decoder.enc.decodeText bytes decoder.fatal with
  | none => rfl
  | some out => exact congrArg some (shown_eq decoder out)

theorem decodeChunks_eq (decoder : TextDecoder σ) (chunks : List Bytes) : decoder.decodeChunks chunks =
    ((pieces decoder.enc (decoder.pending.getD []) chunks).mapM fun piece =>
      decoder.enc.decodeText piece decoder.fatal).map fun outs => decoder.shown outs.flatten := by
  induction chunks generalizing decoder with
  | nil =>
    rw [decodeChunks,decode_last,List.append_nil,pieces,List.mapM_cons,List.mapM_nil]
    cases decoder.enc.decodeText (decoder.pending.getD []) decoder.fatal with
    | none => rfl
    | some out => simp
  | cons chunk rest ih =>
    obtain ⟨pending,held,stepped⟩ := decode_stream decoder chunk
    rw [decodeChunks,stepped,pieces,List.mapM_cons]
    cases decoder.enc.decodeText (List.take _ _) decoder.fatal with
    | none => rfl
    | some out =>
      dsimp only
      rw [ih]
      dsimp only
      rw [held]
      cases (pieces decoder.enc _ rest).mapM fun piece => decoder.enc.decodeText piece decoder.fatal with
      | none => rfl
      | some outs => exact congrArg some (shown_append decoder pending out outs.flatten).symm

end TextDecoder

end Sharko.Script.TextDecoding
