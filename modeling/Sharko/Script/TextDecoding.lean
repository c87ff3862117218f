import Mathlib
import Sharko.Library.Marks
import Sharko.Library.Transducer

/-! The native one-shot decoder. Its answers are code points; none stands for an error, which
is a replacement character or, for a fatal decoder, the end. -/

namespace Sharko.Script.TextDecoding

open Library

abbrev Bytes := List UInt8

/-- A string, as its code points. -/
abbrev Text := List Nat

def replacement : Nat := 0xfffd

def byteOrderMark : Nat := 0xfeff

def text (items : List (Option Nat)) : Text := items.map fun item => item.getD replacement

theorem text_single (point : Nat) : text [some point] = [point] := rfl

theorem text_append (first second : List (Option Nat)) : text (first ++ second) = text first ++ text second :=
  List.map_append

theorem text_flatten (parts : List (List (Option Nat))) : text parts.flatten = (parts.map text).flatten :=
  List.map_flatten

namespace Utf8

inductive State where
  | start
  | inside (needed codePoint lower upper : Nat)
  deriving DecidableEq

def first (b : Nat) : State × List (Option Nat) :=
  if b ≤ 0x7f then (.start,[some b])
  else if 0xc2 ≤ b ∧ b ≤ 0xdf then (.inside 1 (b - 0xc0) 0x80 0xbf,[])
  else if 0xe0 ≤ b ∧ b ≤ 0xef then
    (.inside 2 (b - 0xe0) (if b = 0xe0 then 0xa0 else 0x80) (if b = 0xed then 0x9f else 0xbf),[])
  else if 0xf0 ≤ b ∧ b ≤ 0xf4 then
    (.inside 3 (b - 0xf0) (if b = 0xf0 then 0x90 else 0x80) (if b = 0xf4 then 0x8f else 0xbf),[])
  else (.start,[none])

def next : State → UInt8 → State × List (Option Nat)
  | .start,b => first b.toNat
  | .inside needed codePoint lower upper,b =>
    if lower ≤ b.toNat ∧ b.toNat ≤ upper then
      let codePoint := codePoint * 64 + (b.toNat - 0x80)
      if needed = 1 then (.start,[some codePoint]) else (.inside (needed - 1) codePoint 0x80 0xbf,[])
    else
      -- the byte is put back
      ((first b.toNat).1,none :: (first b.toNat).2)

def finish : State → List (Option Nat)
  | .start => []
  | .inside .. => [none]

def decoder : Transducer State UInt8 (Option Nat) := ⟨.start,next,finish,rfl⟩

def Continues (b : UInt8) : Prop := 0x80 ≤ b.toNat ∧ b.toNat ≤ 0xbf

set_option maxRecDepth 20000 in
theorem continues_iff (b : UInt8) : b &&& 0xc0 = 0x80 ↔ Continues b := by
  have all : ∀ n : Fin 256,UInt8.ofNat n &&& 0xc0 = 0x80 ↔ 0x80 ≤ n.val ∧ n.val ≤ 0xbf := by
    decide
  have here := all ⟨b.toNat,UInt8.toNat_lt b⟩
  rw [UInt8.ofNat_toNat] at here
  exact here

def needed : State → Nat
  | .start => 0
  | .inside needed .. => needed

def Fits : State → Prop
  | .start => True
  | .inside needed _ lower upper => 1 ≤ needed ∧ needed ≤ 3 ∧ 0x80 ≤ lower ∧ upper ≤ 0xbf

theorem first_cases (b : Nat) : (b ≤ 0x7f ∧ first b = (.start,[some b])) ∨
    (0xc2 ≤ b ∧ b ≤ 0xdf ∧ first b = (.inside 1 (b - 0xc0) 0x80 0xbf,[])) ∨
    (∃ lower upper,0xe0 ≤ b ∧ b ≤ 0xef ∧ 0x80 ≤ lower ∧ upper ≤ 0xbf ∧
      first b = (.inside 2 (b - 0xe0) lower upper,[])) ∨
    (∃ lower upper,0xf0 ≤ b ∧ 0x80 ≤ lower ∧ upper ≤ 0xbf ∧ (b = 0xf0 → 0x90 ≤ lower) ∧
      first b = (.inside 3 (b - 0xf0) lower upper,[])) ∨ (0x80 ≤ b ∧ first b = (.start,[none])) := by
  unfold first
  by_cases ascii : b ≤ 0x7f
  · exact .inl ⟨ascii,if_pos ascii⟩
  rw [if_neg ascii]
  by_cases two : 0xc2 ≤ b ∧ b ≤ 0xdf
  · exact .inr (.inl ⟨two.1,two.2,if_pos two⟩)
  rw [if_neg two]
  by_cases three : 0xe0 ≤ b ∧ b ≤ 0xef
  · rw [if_pos three]
    exact .inr (.inr (.inl ⟨_,_,three.1,three.2,by split <;> omega,by split <;> omega,rfl⟩))
  rw [if_neg three]
  by_cases four : 0xf0 ≤ b ∧ b ≤ 0xf4
  · rw [if_pos four]
    exact .inr (.inr (.inr (.inl ⟨_,_,four.1,by split <;> omega,by split <;> omega,
      fun least => by rw [if_pos least],rfl⟩)))
  rw [if_neg four]
  exact .inr (.inr (.inr (.inr ⟨by omega,rfl⟩)))

theorem first_fits (b : Nat) : Fits (first b).1 := by
  rcases first_cases b with ⟨-,same⟩ | ⟨-,-,same⟩ | ⟨_,_,-,-,low,high,same⟩ | ⟨_,_,-,low,high,-,same⟩ | ⟨-,same⟩
  all_goals rw [same]
  · exact trivial
  · simp [Fits]
  · exact ⟨by omega,by omega,low,high⟩
  · exact ⟨by omega,by omega,low,high⟩
  · exact trivial

theorem next_fits {s : State} (fits : Fits s) (b : UInt8) : Fits (next s b).1 := by
  cases s with
  | start => exact first_fits b.toNat
  | inside n codePoint lower upper =>
    obtain ⟨some_,few,-⟩ := fits
    unfold next
    dsimp only
    split_ifs with bounded last
    · exact trivial
    · simp only [Fits]
      omega
    · exact first_fits b.toNat

theorem run_fits {s : State} (fits : Fits s) (bytes : Bytes) : Fits (decoder.run s bytes).1 := by
  induction bytes generalizing s with
  | nil => exact fits
  | cons b rest ih => exact ih (next_fits fits b)

theorem needed_le {s : State} (fits : Fits s) : needed s ≤ 3 := by
  cases s with
  | start => exact Nat.zero_le 3
  | inside n codePoint lower upper => exact fits.2.1

theorem start_of_needed {s : State} (fits : Fits s) (zero : needed s = 0) : s = .start := by
  cases s with
  | start => rfl
  | inside n codePoint lower upper =>
    have some_ : 1 ≤ n := fits.1
    have zero : n = 0 := zero
    omega

theorem next_lead {s : State} (fits : Fits s) {b : UInt8} (lead : ¬ Continues b) :
    next s b = ((first b.toNat).1,finish s ++ (first b.toNat).2) := by
  cases s with
  | start => rfl
  | inside n codePoint lower upper =>
    obtain ⟨-,-,low,high⟩ := fits
    exact if_neg fun bounded => lead ⟨by omega,by omega⟩

theorem needed_continues {s : State} {b : UInt8} (continues : Continues b) :
    needed (next s b).1 ≤ needed s - 1 := by
  obtain ⟨low,high⟩ := continues
  have alone : (first b.toNat).1 = .start := by
    unfold first
    rw [if_neg (by omega),if_neg (by omega),if_neg (by omega),if_neg (by omega)]
  cases s with
  | start =>
    rw [show (next .start b).1 = (first b.toNat).1 from rfl,alone]
    exact Nat.le_refl 0
  | inside n codePoint lower upper =>
    unfold next
    dsimp only
    split_ifs
    · exact Nat.zero_le _
    · exact Nat.le_refl _
    · rw [alone]
      exact Nat.zero_le _

theorem calm_lead {s : State} (fits : Fits s) {b : UInt8} (lead : ¬ Continues b) (rest : Bytes) :
    decoder.Calm s (b :: rest) := .inr (.inr ⟨b,rest,rfl,next_lead fits lead⟩)

theorem read_eq_nil {bytes : Bytes} : decoder.read bytes = [] ↔ bytes = [] := by
  constructor
  · intro nothing
    by_contra inhabited
    refine Transducer.emit_ne_nil ?_ ?_ (.inr inhabited) nothing
    · intro s inside
      cases s with
      | start => exact absurd rfl inside
      | inside n codePoint lower upper => exact List.cons_ne_nil _ _
    · intro s b
      have alone : (first b.toNat).2 ≠ [] ∨ (first b.toNat).1 ≠ .start := by
        unfold first
        split_ifs <;> simp
      cases s with
      | start => exact alone
      | inside n codePoint lower upper =>
        show (next _ b).2 ≠ [] ∨ (next _ b).1 ≠ .start
        unfold next
        dsimp only
        split_ifs <;> simp
  · rintro rfl
    exact Transducer.read_nil

theorem read_bom (rest : Bytes) :
    decoder.read (0xef :: 0xbb :: 0xbf :: rest) = some byteOrderMark :: decoder.read rest := rfl

theorem emit_last {codePoint lower upper c : Nat} {bytes : Bytes}
    (read : (decoder.emit (.inside 1 codePoint lower upper) bytes).head? = some (some c)) :
    ∃ b rest,bytes = b :: rest ∧ (lower ≤ b.toNat ∧ b.toNat ≤ upper) ∧
      c = codePoint * 64 + (b.toNat - 0x80) := by
  cases bytes with
  | nil => cases read
  | cons b rest =>
    rw [Transducer.emit_cons,show decoder.next = next from rfl] at read
    by_cases bounded : lower ≤ b.toNat ∧ b.toNat ≤ upper
    · have stepped : next (.inside 1 codePoint lower upper) b =
          (.start,[some (codePoint * 64 + (b.toNat - 0x80))]) := if_pos bounded
      rw [stepped] at read
      exact ⟨b,rest,rfl,bounded,(Option.some.inj (Option.some.inj read)).symm⟩
    · have stepped : next (.inside 1 codePoint lower upper) b =
          ((first b.toNat).1,none :: (first b.toNat).2) := if_neg bounded
      rw [stepped] at read
      cases Option.some.inj read

theorem emit_more {n codePoint lower upper c : Nat} {bytes : Bytes} (more : n ≠ 0)
    (read : (decoder.emit (.inside (n + 1) codePoint lower upper) bytes).head? = some (some c)) :
    ∃ b rest,bytes = b :: rest ∧ (lower ≤ b.toNat ∧ b.toNat ≤ upper) ∧
      (decoder.emit (.inside n (codePoint * 64 + (b.toNat - 0x80)) 0x80 0xbf) rest).head? = some (some c) := by
  cases bytes with
  | nil => cases read
  | cons b rest =>
    rw [Transducer.emit_cons,show decoder.next = next from rfl] at read
    by_cases bounded : lower ≤ b.toNat ∧ b.toNat ≤ upper
    · have stepped : next (.inside (n + 1) codePoint lower upper) b =
          (.inside n (codePoint * 64 + (b.toNat - 0x80)) 0x80 0xbf,[]) := by
        unfold next
        simp [bounded,more]
      rw [stepped] at read
      exact ⟨b,rest,rfl,bounded,read⟩
    · have stepped : next (.inside (n + 1) codePoint lower upper) b =
          ((first b.toNat).1,none :: (first b.toNat).2) := if_neg bounded
      rw [stepped] at read
      cases Option.some.inj read

theorem bom_of_read {bytes : Bytes} (read : (decoder.read bytes).head? = some (some byteOrderMark)) :
    ∃ rest,bytes = 0xef :: 0xbb :: 0xbf :: rest := by
  cases bytes with
  | nil => cases read
  | cons a rest =>
    unfold Transducer.read byteOrderMark at read
    rw [Transducer.emit_cons,show decoder.next decoder.start a = first a.toNat from rfl] at read
    rcases first_cases a.toNat with ⟨ascii,same⟩ | ⟨low,high,same⟩ | ⟨_,_,low,high,low',high',same⟩ |
      ⟨_,_,low,low',high',least,same⟩ | ⟨-,same⟩
    all_goals rw [same] at read
    · have same : a.toNat = 0xfeff := Option.some.inj (Option.some.inj read)
      omega
    · obtain ⟨b,rest,rfl,bounds,value⟩ := emit_last read
      omega
    · obtain ⟨b,rest,rfl,bounds,read⟩ := emit_more one_ne_zero read
      obtain ⟨c,rest,rfl,bounds',value⟩ := emit_last read
      refine ⟨rest,?_⟩
      have ha : a = 0xef := UInt8.toNat_inj.mp (show a.toNat = 0xef by omega)
      have hb : b = 0xbb := UInt8.toNat_inj.mp (show b.toNat = 0xbb by omega)
      have hc : c = 0xbf := UInt8.toNat_inj.mp (show c.toNat = 0xbf by omega)
      rw [ha,hb,hc]
    · obtain ⟨b,rest,rfl,bounds,read⟩ := emit_more two_ne_zero read
      obtain ⟨c,rest,rfl,bounds',read⟩ := emit_more one_ne_zero read
      obtain ⟨d,rest,rfl,bounds'',value⟩ := emit_last read
      by_cases only : a.toNat = 0xf0
      · have least := least only
        omega
      · omega
    · cases Option.some.inj read

end Utf8

namespace Utf16

inductive Item where
  | unit (value : Nat)
  | stray
  deriving DecidableEq

def items (big : Bool) : Bytes → List Item
  | [] => []
  | [_] => [.stray]
  | a :: b :: rest =>
    .unit (if big then a.toNat * 256 + b.toNat else b.toNat * 256 + a.toNat) :: items big rest

def IsHigh (u : Nat) : Prop := 0xd800 ≤ u ∧ u ≤ 0xdbff

def IsLow (u : Nat) : Prop := 0xdc00 ≤ u ∧ u ≤ 0xdfff

instance (u : Nat) : Decidable (IsHigh u) := inferInstanceAs (Decidable (_ ∧ _))

instance (u : Nat) : Decidable (IsLow u) := inferInstanceAs (Decidable (_ ∧ _))

def pair (high low : Nat) : Nat := 0x10000 + (high - 0xd800) * 0x400 + (low - 0xdc00)

def first : Item → Option Nat × List (Option Nat)
  | .stray => (none,[none])
  | .unit u => if IsHigh u then (some u,[]) else if IsLow u then (none,[none]) else (none,[some u])

def next : Option Nat → Item → Option Nat × List (Option Nat)
  | none,item => first item
  | some _,.stray => (none,[none])
  | some high,.unit u =>
    if IsLow u then (none,[some (pair high u)])
    else
      -- the unit is put back
      ((first (.unit u)).1,none :: (first (.unit u)).2)

def finish : Option Nat → List (Option Nat)
  | none => []
  | some _ => [none]

def decoder : Transducer (Option Nat) Item (Option Nat) := ⟨none,next,finish,rfl⟩

theorem pair_astral (high low : Nat) : 0x10000 ≤ pair high low := by
  unfold pair
  omega

def mark : Item := .unit byteOrderMark

theorem items_append {first : Bytes} (even : first.length % 2 = 0) (big : Bool) (second : Bytes) :
    items big (first ++ second) = items big first ++ items big second := by
  induction first using items.induct with
  | case1 => rfl
  | case2 a => simp at even
  | case3 a b rest ih =>
    have even : rest.length % 2 = 0 := by
      simp only [List.length_cons] at even
      omega
    simp only [List.cons_append,items,ih even]

theorem items_eq_nil {big : Bool} {bytes : Bytes} : items big bytes = [] ↔ bytes = [] := by
  unfold items
  split <;> simp

theorem read_mark (rest : List Item) : decoder.read (mark :: rest) = some byteOrderMark :: decoder.read rest := rfl

theorem speaks (s : Option Nat) (silent : ∀ item ∈ decoder.finish s,¬ item = none) : s = decoder.start := by
  cases s with
  | none => rfl
  | some high => exact absurd rfl (silent none List.mem_cons_self)

theorem emit_high (high : Nat) (rest : List Item) : (rest = [] ∧ decoder.emit (some high) rest = [none]) ∨
    (∃ later,rest = .stray :: later ∧ decoder.emit (some high) rest = none :: decoder.read later) ∨
    (∃ c later,rest = .unit c :: later ∧ IsLow c ∧ ∃ point,0x10000 ≤ point ∧
      decoder.emit (some high) rest = some point :: decoder.read later) ∨
    (rest ≠ [] ∧ decoder.Calm (some high) rest ∧ decoder.emit (some high) rest = none :: decoder.read rest) := by
  cases rest with
  | nil => exact .inl ⟨rfl,rfl⟩
  | cons item later =>
    cases item with
    | stray => exact .inr (.inl ⟨later,rfl,rfl⟩)
    | unit u =>
      by_cases low : IsLow u
      · refine .inr (.inr (.inl ⟨u,later,rfl,low,pair high u,pair_astral high u,?_⟩))
        rw [Transducer.emit_cons]
        have stepped : decoder.next (some high) (.unit u) =
            (none,[some (pair high u)]) := if_pos low
        rw [stepped]
        rfl
      · have calm : decoder.Calm (some high) (.unit u :: later) :=
          .inr (.inr ⟨.unit u,later,rfl,if_neg low⟩)
        exact .inr (.inr (.inr ⟨List.cons_ne_nil _ _,calm,calm.emit⟩))

theorem read_eq_nil {rest : List Item} : decoder.read rest = [] ↔ rest = [] := by
  constructor
  · intro nothing
    by_contra inhabited
    have alone : ∀ item,(first item).2 ≠ [] ∨ (first item).1 ≠ none := by
      intro item
      unfold first
      cases item with
      | stray => simp
      | unit u =>
        dsimp only
        split_ifs <;> simp
    refine Transducer.emit_ne_nil ?_ ?_ (.inr inhabited) nothing
    · intro s inside
      cases s with
      | none => exact absurd rfl inside
      | some high => exact List.cons_ne_nil _ _
    · intro s item
      cases s with
      | none => exact alone item
      | some high =>
        cases item with
        | stray => exact .inl (List.cons_ne_nil _ _)
        | unit u =>
          show (next _ _).2 ≠ [] ∨ (next _ _).1 ≠ none
          unfold next
          dsimp only
          split_ifs <;> simp
  · rintro rfl
    exact Transducer.read_nil

theorem mark_of_read {rest : List Item} (read : (decoder.read rest).head? = some (some byteOrderMark)) :
    ∃ later,rest = mark :: later := by
  cases rest with
  | nil => cases read
  | cons item later =>
    cases item with
    | stray => cases Option.some.inj read
    | unit u =>
      unfold Transducer.read at read
      rw [Transducer.emit_cons,show decoder.next decoder.start (.unit u) = first (.unit u) from rfl] at read
      unfold first at read
      dsimp only at read
      split_ifs at read with high low
      · rcases emit_high u later with ⟨-,same⟩ | ⟨_,-,same⟩ | ⟨_,_,-,-,point,astral,same⟩ | ⟨-,-,same⟩
        all_goals rw [List.nil_append,same] at read
        · cases Option.some.inj read
        · cases Option.some.inj read
        · have same : point = 0xfeff := Option.some.inj (Option.some.inj read)
          omega
        · cases Option.some.inj read
      · cases Option.some.inj read
      · have same : u = byteOrderMark := Option.some.inj (Option.some.inj read)
        exact ⟨later,by rw [same]; rfl⟩

theorem count_first (item : Item) :
    (text (first item).2).count byteOrderMark = if item = mark then 1 else 0 := by
  cases item with
  | stray => rfl
  | unit u =>
    unfold first
    dsimp only
    by_cases same : u = byteOrderMark
    · have high : ¬ IsHigh u := by rw [same]; decide
      have low : ¬ IsLow u := by rw [same]; decide
      have here : (if Item.unit u = mark then 1 else 0) = 1 := if_pos (congrArg Item.unit same)
      rw [if_neg high,if_neg low,here,same]
      exact List.count_singleton_self
    · have other : ¬ Item.unit u = mark := fun h => same (Item.unit.inj h)
      rw [if_neg other]
      split_ifs
      · rfl
      · rfl
      · simp [text,same]

theorem count_next (s : Option Nat) (item : Item) :
    (text (decoder.next s item).2).count byteOrderMark = if item = mark then 1 else 0 := by
  cases s with
  | none => exact count_first item
  | some high =>
    cases item with
    | stray => rfl
    | unit u =>
      by_cases low : IsLow u
      · have stepped : decoder.next (some high) (.unit u) = (none,[some (pair high u)]) := if_pos low
        have other : ¬ Item.unit u = mark := by
          intro h
          rw [Item.unit.inj h] at low
          exact absurd low (by decide)
        have astral : ¬ pair high u = byteOrderMark := by
          intro same
          have large := pair_astral high u
          rw [same] at large
          exact absurd large (by decide)
        rw [stepped,if_neg other,text_single,List.count_cons_of_ne astral,List.count_nil]
      · have stepped : decoder.next (some high) (.unit u) =
            ((first (.unit u)).1,none :: (first (.unit u)).2) := if_neg low
        have error : ¬ replacement = byteOrderMark := by decide
        rw [stepped,← count_first (.unit u)]
        show List.count byteOrderMark (replacement :: text (first (.unit u)).2) = _
        rw [List.count_cons_of_ne error]

theorem count_emit (s : Option Nat) (rest : List Item) :
    (text (decoder.emit s rest)).count byteOrderMark = rest.count mark := by
  induction rest generalizing s with
  | nil => cases s <;> rfl
  | cons item later ih =>
    rw [Transducer.emit_cons,text_append,List.count_append,count_next s item,ih,List.count_cons,Nat.add_comm]
    simp

theorem length_flatten (pieces : List (List Item)) :
    (decoder.read pieces.flatten).length ≤ ((pieces.map decoder.read).flatten).length := by
  have stray : ∀ later,(decoder.read (.stray :: later)).length = (decoder.read later).length + 1 :=
    fun _ => rfl
  have cut : ∀ s rest,(decoder.emit s rest).length ≤ (decoder.finish s).length + (decoder.read rest).length := by
    intro s rest
    cases s with
    | none => exact Nat.le_add_left _ _
    | some high =>
      have one : (decoder.finish (some high)).length = 1 := rfl
      rcases emit_high high rest with ⟨rfl,same⟩ | ⟨later,rfl,same⟩ | ⟨c,later,rfl,low,_,-,same⟩ | ⟨-,-,same⟩
      · rw [same,one]
        exact Nat.le_add_right _ _
      · rw [same,one,stray,List.length_cons]
        omega
      · have alone : (decoder.read (.unit c :: later)).length = (decoder.read later).length + 1 := by
          have high : ¬ IsHigh c := fun high => by unfold IsLow at low; unfold IsHigh at high; omega
          have stepped : decoder.next decoder.start (.unit c) = (none,[none]) :=
            (if_neg high).trans (if_pos low)
          rw [Transducer.read,Transducer.emit_cons,stepped]
          rfl
        rw [same,one,alone,List.length_cons]
        omega
      · rw [same,one,List.length_cons,Nat.add_comm]
  induction pieces with
  | nil => exact Nat.le_refl _
  | cons piece rest ih =>
    have here := cut (decoder.run decoder.start piece).1 rest.flatten
    rw [List.flatten_cons,List.map_cons,List.flatten_cons,Transducer.read_eq_append,Transducer.read_eq]
    simp only [List.length_append]
    omega

theorem unbroken_of_text {pieces : List (List Item)}
    (same : text (pieces.map decoder.read).flatten = text (decoder.read pieces.flatten)) :
    decoder.Unbroken pieces := by
  induction pieces with
  | nil => exact trivial
  | cons piece rest ih =>
    rw [List.map_cons,List.flatten_cons,List.flatten_cons,Transducer.read_eq_append,Transducer.read_eq,
      List.append_assoc,text_append,text_append,text_append] at same
    have same := List.append_cancel_left same
    unfold Transducer.Unbroken
    cases stopped : (decoder.run decoder.start piece).1 with
    | none =>
      rw [stopped] at same
      exact ⟨.inl rfl,ih same⟩
    | some high =>
      rw [stopped] at same
      have error : text (decoder.finish (some high)) = [replacement] := rfl
      rw [error] at same
      rcases emit_high high rest.flatten with ⟨empty,written⟩ | ⟨later,strayed,written⟩ |
        ⟨c,later,-,-,point,astral,written⟩ | ⟨-,calm,written⟩
      · rw [written] at same
        have nothing := List.tail_eq_of_cons_eq same
        refine ⟨.inr (.inl empty),ih ?_⟩
        rw [empty,Transducer.read_nil]
        exact nothing
      · rw [written] at same
        have longer := length_flatten rest
        have short : (text (rest.map decoder.read).flatten).length = (text (decoder.read later)).length :=
          congrArg List.length (List.tail_eq_of_cons_eq same)
        rw [strayed,show (decoder.read (.stray :: later)).length = (decoder.read later).length + 1 from rfl] at longer
        simp only [text,List.length_map] at short
        omega
      · rw [written] at same
        have here : replacement = point := List.head_eq_of_cons_eq same
        unfold replacement at here
        omega
      · rw [written] at same
        exact ⟨calm,ih (List.tail_eq_of_cons_eq same)⟩

end Utf16

/-- Of a legacy encoding no more is known than that a machine decodes it. -/
inductive Encoding (σ : Type) where
  | utf8
  | utf16 (big : Bool)
  | legacy (decoder : Transducer σ UInt8 (Option Nat))

namespace Encoding

variable {σ : Type} (enc : Encoding σ)

def bom : Encoding σ → Bytes
  | .utf8 => [0xef,0xbb,0xbf]
  | .utf16 big => if big then [0xfe,0xff] else [0xff,0xfe]
  | .legacy _ => []

def oneShot (bytes : Bytes) : List (Option Nat) :=
  match enc with
  | .utf8 => Utf8.decoder.read bytes
  | .utf16 big => Utf16.decoder.read (Utf16.items big bytes)
  | .legacy decoder => decoder.read bytes

def decodeText (bytes : Bytes) (fatal : Bool) : Option Text :=
  let items := enc.oneShot (Marks.unmark enc.bom bytes)
  if fatal ∧ none ∈ items then none else some (text items)

end Encoding

end Sharko.Script.TextDecoding
