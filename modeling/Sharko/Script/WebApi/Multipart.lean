import Mathlib
import Sharko.Script.WebApi.UrlEncoding

/-! The multipart bodies that the script layer makes of a `FormData`. -/

namespace Sharko.Script.WebApi

open Library TextDecoding

def lit (s : String) : Units := unitsOf s.toList

inductive Value where
  | string (value : Units)
  /-- A blob has no name of its own. -/
  | blob (name : Option Units) (type : Units) (bytes : Bytes)
  deriving DecidableEq

def replaceAll (c : Nat) (by_ : Units) (s : Units) : Units := s.flatMap fun u => if u = c then by_ else [u]

def esc (s : Units) : Units :=
  replaceAll 34 (lit "%22") (replaceAll 13 (lit "%0D") (replaceAll 10 (lit "%0A") s))

/-- The replacement of `\r(?!\n)|(?<!\r)\n` by CR LF; the unit before is that of the old string. -/
def newlines : Option Nat → Units → Units
  | _,[] => []
  | before,c :: rest =>
    (if (c = 13 ∧ rest.head? ≠ some 10) ∨ (c = 10 ∧ before ≠ some 13) then [13,10] else [c]) ++
      newlines (some c) rest

def part (boundary : Units) (entry : Units × Value) : Bytes :=
  let head := lit "--" ++ boundary ++ lit "\r\nContent-Disposition: form-data; name=\"" ++ esc entry.1 ++ lit "\""
  match entry.2 with
  | .blob name type bytes =>
    utf8Encode (head ++ lit "; filename=\"" ++ esc (name.getD (lit "blob")) ++ lit "\"\r\nContent-Type: " ++
      (if type = [] then lit "application/octet-stream" else type) ++ lit "\r\n\r\n") ++ bytes ++
      utf8Encode (lit "\r\n")
  | .string value => utf8Encode (head ++ lit "\r\n\r\n" ++ newlines none value ++ lit "\r\n")

def multipartEncode (boundary : Units) (entries : List (Units × Value)) : Bytes :=
  entries.flatMap (part boundary) ++ utf8Encode (lit "--" ++ boundary ++ lit "--\r\n")

def escapeChar (c : Char) : List Char :=
  if c = '\n' then "%0A".toList else if c = '\r' then "%0D".toList else if c = '"' then "%22".toList else [c]

def escape (s : List Char) : List Char := s.flatMap escapeChar

def crlfFrom : Bool → List Char → List Char
  | _,[] => []
  | cr,c :: rest =>
    (if c = '\r' then ['\r','\n'] else if c = '\n' then if cr then [] else ['\r','\n'] else [c]) ++
      crlfFrom (c = '\r') rest

def crlf (s : List Char) : List Char := crlfFrom false s

theorem fromCodePoint_cases (c : Nat) : fromCodePoint c = [c] ∨ ∀ u ∈ fromCodePoint c,0xd800 ≤ u := by
  unfold fromCodePoint
  split_ifs
  · exact .inl rfl
  · right
    intro u mem
    rcases List.mem_cons.mp mem with rfl | mem
    · exact Nat.le_add_right _ _
    · rw [List.mem_singleton.mp mem]
      omega

theorem unitsOf_nil : unitsOf [] = [] := rfl

theorem unitsOf_singleton (c : Char) : unitsOf [c] = fromCodePoint c.toNat := List.append_nil _

theorem replaceAll_append (c : Nat) (by_ first second : Units) :
    replaceAll c by_ (first ++ second) = replaceAll c by_ first ++ replaceAll c by_ second := List.flatMap_append

theorem replaceAll_point {d : Char} (ascii : d.toNat < 0x80) (by_ : List Char) (c : Char) :
    replaceAll d.toNat (unitsOf by_) (fromCodePoint c.toNat) = unitsOf (if c = d then by_ else [c]) := by
  by_cases hit : c = d
  · rw [hit,if_pos rfl,units_low ascii,replaceAll,List.flatMap_singleton,if_pos rfl]
  · rw [if_neg hit,unitsOf_singleton,replaceAll]
    have kept : (fromCodePoint c.toNat).flatMap (fun u => if u = d.toNat then unitsOf by_ else [u]) =
        (fromCodePoint c.toNat).flatMap fun u => [u] := by
      apply List.flatMap_congr
      intro u mem
      apply if_neg
      intro equal
      rcases fromCodePoint_cases c.toNat with same | high
      · rw [same] at mem
        exact hit (Char.toNat_inj.mp ((List.mem_singleton.mp mem).symm.trans equal))
      · have least := high u mem
        omega
    rw [kept,List.flatMap_singleton']

theorem replaceAll_unitsOf {d : Char} (ascii : d.toNat < 0x80) (by_ : List Char) (s : List Char) :
    replaceAll d.toNat (unitsOf by_) (unitsOf s) = unitsOf (s.flatMap fun c => if c = d then by_ else [c]) := by
  induction s with
  | nil => rw [List.flatMap_nil,unitsOf_nil,replaceAll,List.flatMap_nil]
  | cons c s ih =>
    rw [unitsOf_cons,replaceAll_append,replaceAll_point ascii,ih,List.flatMap_cons,unitsOf_append]

theorem escape_eq (s : List Char) : ((s.flatMap fun c => if c = '\n' then "%0A".toList else [c]).flatMap
    fun c => if c = '\r' then "%0D".toList else [c]).flatMap
      (fun c => if c = '"' then "%22".toList else [c]) = escape s := by
  rw [escape,List.flatMap_assoc,List.flatMap_assoc]
  apply List.flatMap_congr
  intro c _
  unfold escapeChar
  by_cases lf : c = '\n'
  · rw [if_pos lf,if_pos lf]
    rfl
  rw [if_neg lf,if_neg lf,List.flatMap_singleton]
  by_cases cr : c = '\r'
  · rw [if_pos cr,if_pos cr]
    rfl
  · rw [if_neg cr,if_neg cr,List.flatMap_singleton]


theorem esc_unitsOf (s : List Char) : esc (unitsOf s) = unitsOf (escape s) := by
  unfold esc lit
  rw [show (10 : Nat) = Char.toNat '\n' from rfl,replaceAll_unitsOf (by decide),
    show (13 : Nat) = Char.toNat '\r' from rfl,replaceAll_unitsOf (by decide),
    show (34 : Nat) = Char.toNat '"' from rfl,replaceAll_unitsOf (by decide),escape_eq]

theorem fromCodePoint_ne_nil (c : Nat) : fromCodePoint c ≠ [] := by
  unfold fromCodePoint
  split_ifs <;> exact List.cons_ne_nil _ _

theorem unit_ne {c d : Char} (ascii : d.toNat < 0x80) (differ : c ≠ d) {u : Nat}
    (mem : u ∈ fromCodePoint c.toNat) : u ≠ d.toNat := by
  intro equal
  rcases fromCodePoint_cases c.toNat with same | high
  · rw [same] at mem
    exact differ (Char.toNat_inj.mp ((List.mem_singleton.mp mem).symm.trans equal))
  · have least := high u mem
    omega

theorem newlines_append {first : Units} (plain : ∀ u ∈ first,u ≠ 13 ∧ u ≠ 10) (inhabited : first ≠ [])
    (before : Option Nat) (rest : Units) :
    ∃ last,last ≠ 13 ∧ newlines before (first ++ rest) = first ++ newlines (some last) rest := by
  induction first generalizing before with
  | nil => exact absurd rfl inhabited
  | cons u first ih =>
    obtain ⟨cr,lf⟩ := plain u List.mem_cons_self
    have turn : newlines before (u :: (first ++ rest)) = u :: newlines (some u) (first ++ rest) := by
      rw [newlines,if_neg]
      · rfl
      · rintro (⟨isCr,-⟩ | ⟨isLf,-⟩)
        · exact cr isCr
        · exact lf isLf
    cases first with
    | nil => exact ⟨u,cr,turn⟩
    | cons v first =>
      obtain ⟨last,other,same⟩ :=
        ih (fun w mem => plain w (List.mem_cons_of_mem u mem)) (List.cons_ne_nil _ _) (some u)
      exact ⟨last,other,turn.trans (congrArg (u :: ·) same)⟩

theorem head_unitsOf (s : List Char) : (unitsOf s).head? = some 10 ↔ s.head? = some '\n' := by
  cases s with
  | nil => exact iff_of_false (Option.some_ne_none _).symm (Option.some_ne_none _).symm
  | cons c s =>
    rw [unitsOf_cons,List.head?_cons,List.head?_append_of_ne_nil _ (fromCodePoint_ne_nil _),Option.some.injEq]
    constructor
    · intro head
      by_contra differ
      exact unit_ne (by decide) differ (List.mem_of_mem_head? head) rfl
    · rintro rfl
      rfl

theorem newlines_unitsOf (before : Option Nat) (s : List Char) : newlines before (unitsOf s) =
    (if before = some 13 ∧ s.head? = some '\n' then [10] else []) ++ unitsOf (crlfFrom (before = some 13) s) := by
  induction s generalizing before with
  | nil =>
    rw [if_neg fun both => (Option.some_ne_none _).symm both.2]
    rfl
  | cons c s ih =>
    by_cases cr : c = '\r'
    · subst cr
      have turn : newlines before (unitsOf ('\r' :: s)) =
          (if s.head? = some '\n' then [13] else [13,10]) ++ newlines (some 13) (unitsOf s) := by
        rw [unitsOf_cons,show fromCodePoint '\r'.toNat = [13] from rfl,List.singleton_append,newlines]
        by_cases follows : s.head? = some '\n'
        · rw [if_pos follows,if_neg]
          rintro (⟨-,other⟩ | ⟨lf,-⟩)
          · exact other ((head_unitsOf s).mpr follows)
          · cases lf
        · rw [if_neg follows,if_pos (.inl ⟨rfl,fun head => follows ((head_unitsOf s).mp head)⟩)]
      have silent : ¬ (before = some 13 ∧ ('\r' :: s).head? = some '\n') :=
        fun both => absurd (Option.some.inj both.2) (by decide)
      rw [turn,ih,if_neg silent]
      by_cases follows : s.head? = some '\n'
      · rw [if_pos follows,if_pos ⟨rfl,follows⟩]
        rfl
      · rw [if_neg follows,if_neg fun both => follows both.2]
        rfl
    by_cases lf : c = '\n'
    · subst lf
      have turn : newlines before (unitsOf ('\n' :: s)) =
          (if before = some 13 then [10] else [13,10]) ++ newlines (some 10) (unitsOf s) := by
        rw [unitsOf_cons,show fromCodePoint '\n'.toNat = [10] from rfl,List.singleton_append,newlines]
        by_cases after : before = some 13
        · rw [if_pos after,if_neg]
          rintro (⟨isCr,-⟩ | ⟨-,other⟩)
          · cases isCr
          · exact other after
        · rw [if_neg after,if_pos (.inr ⟨rfl,after⟩)]
      have silent : ¬ (some 10 = some 13 ∧ s.head? = some '\n') :=
        fun both => absurd (Option.some.inj both.1) (by decide)
      rw [turn,ih,if_neg silent]
      by_cases after : before = some 13
      · rw [if_pos after,if_pos ⟨after,rfl⟩,decide_eq_true after]
        rfl
      · rw [if_neg after,if_neg fun both => after both.1,decide_eq_false after]
        rfl
    · have plain : ∀ u ∈ fromCodePoint c.toNat,u ≠ 13 ∧ u ≠ 10 :=
        fun u mem => ⟨unit_ne (d := '\r') (by decide) cr mem,unit_ne (d := '\n') (by decide) lf mem⟩
      obtain ⟨last,other,turn⟩ := newlines_append plain (fromCodePoint_ne_nil _) before (unitsOf s)
      have plain : crlfFrom (before = some 13) (c :: s) = c :: crlfFrom false s := by
        rw [crlfFrom,if_neg cr,if_neg lf,decide_eq_false cr]
        rfl
      rw [unitsOf_cons,turn,ih,plain,unitsOf_cons,if_neg fun both => other (Option.some.inj both.1),
        if_neg fun both => lf (Option.some.inj both.2),decide_eq_false fun same => other (Option.some.inj same)]
      rfl

theorem newlines_none (s : List Char) : newlines none (unitsOf s) = unitsOf (crlf s) := by
  rw [newlines_unitsOf,if_neg fun both => (Option.some_ne_none _).symm both.1]
  rfl

def headOf (boundary name : List Char) : List Char :=
  "--".toList ++ boundary ++ "\r\nContent-Disposition: form-data; name=\"".toList ++ escape name ++ "\"".toList

theorem part_string (boundary name value : List Char) :
    part (unitsOf boundary) (unitsOf name,.string (unitsOf value)) =
      bytesOf (headOf boundary name ++ "\r\n\r\n".toList ++ crlf value ++ "\r\n".toList) := by
  unfold part lit
  simp only [esc_unitsOf,newlines_none,← unitsOf_append,bytesOf_eq]
  rfl

def typeOf (type : List Char) : List Char := if type = [] then "application/octet-stream".toList else type

theorem unitsOf_eq_nil {s : List Char} : unitsOf s = [] ↔ s = [] := by
  constructor
  · intro nothing
    cases s with
    | nil => rfl
    | cons c s => exact absurd (List.append_eq_nil_iff.mp nothing).1 (fromCodePoint_ne_nil _)
  · rintro rfl
    rfl

theorem part_blob (boundary name file type : List Char) (bytes : Bytes) :
    part (unitsOf boundary) (unitsOf name,.blob (some (unitsOf file)) (unitsOf type) bytes) =
      bytesOf (headOf boundary name ++ "; filename=\"".toList ++ escape file ++
        "\"\r\nContent-Type: ".toList ++ typeOf type ++ "\r\n\r\n".toList) ++ bytes ++ bytesOf "\r\n".toList := by
  have typed : (if unitsOf type = [] then unitsOf "application/octet-stream".toList else unitsOf type) =
      unitsOf (typeOf type) := by
    unfold typeOf
    by_cases none : type = []
    · rw [if_pos none,if_pos (unitsOf_eq_nil.mpr none)]
    · rw [if_neg none,if_neg fun nothing => none (unitsOf_eq_nil.mp nothing)]
  unfold part lit
  simp only [esc_unitsOf,typed,Option.getD_some,← unitsOf_append,bytesOf_eq]
  rfl

theorem multipartEncode_eq (boundary : List Char) (entries : List (Units × Value)) :
    multipartEncode (unitsOf boundary) entries = entries.flatMap (part (unitsOf boundary)) ++
      bytesOf ("--".toList ++ boundary ++ "--\r\n".toList) := by
  unfold multipartEncode lit
  rw [← unitsOf_append,← unitsOf_append,bytesOf_eq]

theorem crlfFrom_other {c : Char} (cr : c ≠ '\r') (lf : c ≠ '\n') (after : Bool) (rest : List Char) :
    crlfFrom after (c :: rest) = c :: crlf rest := by
  rw [crlfFrom,if_neg cr,if_neg lf,decide_eq_false cr]
  rfl

theorem crlf_other {c : Char} (cr : c ≠ '\r') (lf : c ≠ '\n') (rest : List Char) :
    crlf (c :: rest) = c :: crlf rest := crlfFrom_other cr lf false rest

theorem crlf_pair (rest : List Char) : crlf ('\r' :: '\n' :: rest) = '\r' :: '\n' :: crlf rest := rfl

theorem crlf_lf (rest : List Char) : crlf ('\n' :: rest) = '\r' :: '\n' :: crlf rest := rfl

theorem crlf_cr {rest : List Char} (alone : rest.head? ≠ some '\n') :
    crlf ('\r' :: rest) = '\r' :: '\n' :: crlf rest := by
  have after : crlfFrom true rest = crlf rest := by
    cases rest with
    | nil => rfl
    | cons c rest =>
      by_cases cr : c = '\r'
      · rw [cr]
        rfl
      · have lf : c ≠ '\n' := fun same => alone (congrArg some same)
        rw [crlf_other cr lf,crlfFrom_other cr lf]
  exact congrArg (['\r','\n'] ++ ·) after

theorem newline_induction {motive : List Char → Prop} (nil : motive [])
    (pair : ∀ rest,motive rest → motive ('\r' :: '\n' :: rest))
    (cr : ∀ rest,rest.head? ≠ some '\n' → motive rest → motive ('\r' :: rest))
    (lf : ∀ rest,motive rest → motive ('\n' :: rest))
    (other : ∀ c rest,c ≠ '\r' → c ≠ '\n' → motive rest → motive (c :: rest)) (s : List Char) : motive s := by
  induction n : s.length using Nat.strong_induction_on generalizing s with
  | _ n ih =>
    subst n
    cases s with
    | nil => exact nil
    | cons c rest =>
      have later : motive rest := ih rest.length (Nat.lt_succ_self _) rest rfl
      by_cases isCr : c = '\r'
      · subst isCr
        by_cases follows : rest.head? = some '\n'
        · obtain ⟨rest,rfl⟩ := List.head?_eq_some_iff.mp follows
          apply pair
          exact ih rest.length (Nat.lt_succ_of_lt (Nat.lt_succ_self _)) rest rfl
        · exact cr rest follows later
      by_cases isLf : c = '\n'
      · rw [isLf]
        exact lf rest later
      · exact other c rest isCr isLf later

end Sharko.Script.WebApi
