import Mathlib
import Sharko.Browser.Launcher

/-! The names of version directories: what a version and its staging directory parse to, and
where the launcher looks for a version. -/

namespace Sharko.Browser.Update
open Library

theorem dropWhile_before {part : Char → Bool} (a b : Text) {c : Char} (stop : part c = false) :
    (a ++ c :: b).dropWhile part = a.dropWhile part ++ c :: b := by
  induction a with
  | nil => simp [stop]
  | cons x rest ih =>
    rw [List.cons_append,List.dropWhile_cons,List.dropWhile_cons]
    split
    · exact ih
    · rfl

theorem trim_around (a b : Text) {c : Char} (solid : Text.isWhitespace c = false) :
    ∃ b', trim (a ++ c :: b) = a.dropWhile Text.isWhitespace ++ c :: b' ∧
      b' = (b.reverse.dropWhile Text.isWhitespace).reverse := by
  refine ⟨_,?_,rfl⟩
  rw [trim,dropWhile_before _ _ solid,List.reverse_append,List.reverse_cons,List.append_assoc,
    List.singleton_append,dropWhile_before _ _ solid]
  simp

theorem parse_marked (a b : Text) {mark : Char} (marks : isSuffixMark mark = true)
    (plain : ∀ c ∈ a, isSuffixMark c = false) : parseVersion (a ++ mark :: b) =
      (((a.dropWhile Text.isWhitespace).dropWhile (· = 'v')).splitOn '.').mapM parseU64 := by
  have solid : Text.isWhitespace mark = false := by
    rcases Bool.or_eq_true_iff.mp marks with is | is
    · rw [of_decide_eq_true is]
      decide
    · rw [of_decide_eq_true is]
      decide
  have notV : decide (mark = 'v') = false := by
    rcases Bool.or_eq_true_iff.mp marks with is | is
    · rw [of_decide_eq_true is]
      decide
    · rw [of_decide_eq_true is]
      decide
  obtain ⟨b',trimmed,-⟩ := trim_around a b solid
  have stays : ∀ c ∈ (a.dropWhile Text.isWhitespace).dropWhile (· = 'v'), isSuffixMark c = false := by
    intro c mem
    exact plain c ((List.dropWhile_suffix _).subset ((List.dropWhile_suffix _).subset mem))
  unfold parseVersion
  rw [trimmed,dropWhile_before _ _ notV]
  dsimp only
  rw [List.takeWhile_append_of_pos (fun c mem => by simp [stays c mem])]
  simp [marks]

theorem first_mark {version : Text} (marked : version.any isSuffixMark = true) :
    ∃ a mark b, version = a ++ mark :: b ∧ isSuffixMark mark = true ∧ ∀ c ∈ a, isSuffixMark c = false := by
  induction version with
  | nil => cases marked
  | cons x rest ih =>
    by_cases here : isSuffixMark x = true
    · exact ⟨[],x,rest,rfl,here,nofun⟩
    · rw [List.any_cons,Bool.eq_false_of_not_eq_true here,Bool.false_or] at marked
      obtain ⟨a,mark,b,rfl,marks,plain⟩ := ih marked
      refine ⟨x :: a,mark,b,rfl,marks,?_⟩
      intro c mem
      rcases List.mem_cons.mp mem with rfl | later
      · exact Bool.eq_false_of_not_eq_true here
      · exact plain c later

theorem parse_staging_marked {version : Text} (marked : version.any isSuffixMark = true) :
    parseVersion (version ++ ".partial".toList) = parseVersion version := by
  obtain ⟨a,mark,b,rfl,marks,plain⟩ := first_mark marked
  rw [List.append_assoc,List.cons_append,parse_marked _ _ marks plain,parse_marked _ _ marks plain]

theorem mapM_none (part : Text) {parts : List Text} (mem : part ∈ parts)
    (unparsed : parseU64 part = none) : parts.mapM parseU64 = none := by
  induction parts with
  | nil => cases mem
  | cons first rest ih =>
    rw [List.mapM_cons]
    rcases List.mem_cons.mp mem with rfl | later
    · rw [unparsed]
      rfl
    · rw [ih later]
      cases parseU64 first <;> rfl

theorem parse_staging_plain {version : Text} (plain : version.any isSuffixMark = false) :
    parseVersion (version ++ ".partial".toList) = none := by
  have split_ : version ++ ".partial".toList = (version ++ '.' :: "partia".toList) ++ 'l' :: [] := by
    simp
  obtain ⟨b',trimmed,empty⟩ :=
    trim_around (version ++ '.' :: "partia".toList) [] (show Text.isWhitespace 'l' = false by decide)
  rw [List.reverse_nil,List.dropWhile_nil,List.reverse_nil] at empty
  rw [dropWhile_before _ _ (show Text.isWhitespace '.' = false by decide),empty] at trimmed
  have core : trim (version ++ ".partial".toList) =
      version.dropWhile Text.isWhitespace ++ '.' :: "partial".toList := by
    rw [split_,trimmed]
    simp
  have suffix : ∀ c ∈ '.' :: "partial".toList, (!isSuffixMark c) = true :=
    List.all_eq_true.mp (by decide)
  have plain' : ∀ c ∈ (version.dropWhile Text.isWhitespace).dropWhile (· = 'v') ++
      '.' :: "partial".toList, (!isSuffixMark c) = true := by
    intro c mem
    rcases List.mem_append.mp mem with inside | last
    · have there := (List.dropWhile_suffix _).subset ((List.dropWhile_suffix _).subset inside)
      rw [Bool.eq_false_of_not_eq_true (List.any_eq_false.mp plain c there)]
      rfl
    · exact suffix c last
  unfold parseVersion
  rw [core,dropWhile_before _ _ (show decide ('.' = 'v') = false by decide)]
  dsimp only
  rw [List.takeWhile_eq_self_iff.mpr plain']
  refine mapM_none "partial".toList ?_ (by decide)
  rw [List.splitOn,List.splitOnP_append_cons _ _ (by decide)]
  exact List.mem_append_right _ (by decide)

theorem alpha_range {c : Char} (alpha : c.isAlpha = true) : 65 ≤ c.toNat ∧ c.toNat ≤ 122 := by
  have bounds : (65 ≤ c.val ∧ c.val ≤ 90) ∨ (97 ≤ c.val ∧ c.val ≤ 122) := by
    simpa [Char.isAlpha,Char.isUpper,Char.isLower] using alpha
  have value : c.val.toNat = c.toNat := rfl
  simp only [UInt32.le_iff_toNat_le,value] at bounds
  change (65 ≤ c.toNat ∧ c.toNat ≤ 90) ∨ (97 ≤ c.toNat ∧ c.toNat ≤ 122) at bounds
  omega

theorem alpha_ne {c : Char} (alpha : c.isAlpha = true) {d : Char} (low : d.toNat < 65) : c ≠ d := by
  rintro rfl
  exact absurd (alpha_range alpha).1 (by omega)

theorem alpha_solid {c : Char} (alpha : c.isAlpha = true) : Text.isWhitespace c = false := by
  obtain ⟨low,high⟩ := alpha_range alpha
  have apart : c.toNat ∉ [0x20,0x85,0xa0,0x1680,0x2028,0x2029,0x202f,0x205f,0x3000] := by
    simp only [List.mem_cons,List.not_mem_nil,or_false]
    omega
  unfold Text.isWhitespace
  rw [List.contains_eq_mem,decide_eq_false apart]
  simp only [Bool.or_false,Bool.or_eq_false_iff,Bool.and_eq_false_iff,decide_eq_false_iff_not]
  omega

theorem parse_first {c : Char} {w : Text} (digit : ¬('0' ≤ c ∧ c ≤ '9')) (sign : c ≠ '+')
    (dot : c ≠ '.') : (List.splitOn '.' (c :: w)).mapM parseU64 = none := by
  rw [List.splitOn_cons_eq_if_modifyHead,if_neg (by simpa using dot)]
  cases parts : List.splitOn '.' w with
  | nil => exact absurd parts (List.splitOn_ne_nil _ _)
  | cons part rest =>
    refine mapM_none (c :: part) List.mem_cons_self ?_
    have noDigits : (c :: part).all (fun c => '0' ≤ c ∧ c ≤ '9') = false := by
      rw [List.all_cons,decide_eq_false digit,Bool.false_and]
    have unsigned : (c :: part).head? ≠ some '+' := fun first => sign (Option.some.inj first)
    unfold parseU64
    rw [if_neg unsigned]
    exact if_neg fun both => by rw [noDigits] at both; cases both.2

theorem parse_drive {platform : Platform} {t : Text} {d : Text × Text}
    (onDrive : drive platform t = some d) : parseVersion t = none := by
  unfold drive at onDrive
  split at onDrive
  case h_2 => cases onDrive
  case h_1 letter rest =>
    split_ifs at onDrive with isDrive
    have alpha : letter.isAlpha = true := (Bool.and_eq_true_iff.mp isDrive).2
    obtain ⟨b',trimmed,-⟩ :=
      trim_around [letter] rest (show Text.isWhitespace ':' = false by decide)
    rw [List.dropWhile_cons,if_neg (by rw [alpha_solid alpha]; decide)] at trimmed
    have letterPlain : (!isSuffixMark letter) = true := by
      have minus := alpha_ne alpha (show '-'.toNat < 65 by decide)
      have plus := alpha_ne alpha (show '+'.toNat < 65 by decide)
      rw [isSuffixMark,decide_eq_false minus,decide_eq_false plus]
      rfl
    have colonPlain : (!isSuffixMark ':') = true := by decide
    unfold parseVersion
    change trim (letter :: ':' :: rest) = letter :: ':' :: b' at trimmed
    rw [trimmed,List.dropWhile_cons,List.dropWhile_cons,if_neg (show ¬decide (':' = 'v') = true by decide)]
    dsimp only
    split
    · rw [List.takeWhile_cons,if_pos colonPlain]
      exact parse_first (by decide) (by decide) (by decide)
    · rw [List.takeWhile_cons,if_pos letterPlain]
      refine parse_first ?_ (alpha_ne alpha (by decide)) (alpha_ne alpha (by decide))
      rintro ⟨-,high⟩
      have := (alpha_range alpha).1
      have small : letter.toNat ≤ 57 := high
      omega

theorem joinText_version (platform : Platform) (root : Path) {t : Text}
    (parses : (parseVersion t).isSome) (plain : '/' ∉ t) : Launcher.joinText platform root t = root ++ [t] := by
  have noDrive : drive platform t = none := by
    cases onDrive : drive platform t with
    | none => rfl
    | some d =>
      rw [parse_drive onDrive] at parses
      cases parses
  have relative : t.head? ≠ some '/' := fun first => plain (List.mem_of_mem_head? first)
  have component : ¬(t = [] ∨ t = ".".toList) ∧ t ≠ "..".toList := by
    refine ⟨?_,?_⟩
    · rintro (rfl | rfl)
      · revert parses
        decide
      · revert parses
        decide
    · rintro rfl
      revert parses
      decide
  unfold Launcher.joinText
  rw [List.splitOn_eq_singleton plain,if_neg relative,List.foldl_cons,List.foldl_nil,join,noDrive]
  exact (if_neg component.1).trans (if_neg component.2)

theorem trim_trim (t : Text) : trim (trim t) = trim t := by
  have inner : (trim t).dropWhile Text.isWhitespace = trim t := by
    cases start : t.dropWhile Text.isWhitespace with
    | nil => rw [trim,start]; rfl
    | cons c rest =>
      have solid : Text.isWhitespace c = false := by
        have some_ : t.dropWhile Text.isWhitespace ≠ [] := by
          rw [start]
          exact List.cons_ne_nil _ _
        simpa [start] using List.head_dropWhile_not Text.isWhitespace some_
      rw [trim,start,List.reverse_cons,dropWhile_before _ _ solid,List.reverse_append]
      simp [solid]
  rw [trim,inner]
  exact List.rdropWhile_idempotent _ _

theorem parse_trim (t : Text) : parseVersion (trim t) = parseVersion t := by
  unfold parseVersion
  rw [trim_trim]

theorem mem_trim {t : Text} {c : Char} (mem : c ∈ trim t) : c ∈ t := by
  unfold trim at mem
  have inside := (List.dropWhile_suffix _).subset (List.mem_reverse.mp mem)
  exact (List.dropWhile_suffix _).subset (List.mem_reverse.mp inside)

end Sharko.Browser.Update
