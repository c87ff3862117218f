import Mathlib

/-! A word as a delimiter: a sequence cut at its first occurrence, split at all of them, and
searched for a key in any case. Each is read off a sequence that was put together from pieces,
where a character that the word has not stands at the edge of a piece. -/

namespace Sharko.Library

variable {α β : Type*}

namespace Delimiting

variable {x : α} {word first rest : List α}

theorem first_unique {part tail : List α} (clean : x ∉ word) (absent : x ∉ part)
    (same : word ++ x :: rest = part ++ x :: tail) : word = part ∧ rest = tail := by
  induction word generalizing part with
  | nil =>
    cases part with
    | nil => exact ⟨rfl,(List.cons.inj same).2⟩
    | cons c part => exact absurd ((List.cons.inj same).1 ▸ List.mem_cons_self) absent
  | cons w word ih =>
    cases part with
    | nil => exact absurd ((List.cons.inj same).1 ▸ List.mem_cons_self) clean
    | cons c part =>
      obtain ⟨rfl,later⟩ := List.cons.inj same
      obtain ⟨rfl,rest_⟩ := ih (fun inside => clean (List.mem_cons_of_mem _ inside))
        (fun inside => absent (List.mem_cons_of_mem _ inside)) later
      exact ⟨rfl,rest_⟩

theorem prefix_of_missing (missing : x ∉ word) (here : word <+: first ++ x :: rest) : word <+: first := by
  have shown : first ++ [x] <+: first ++ x :: rest := ⟨rest,List.append_assoc first [x] rest⟩
  rcases List.prefix_or_prefix_of_prefix here shown with inside | covers
  · rcases List.prefix_concat_iff.mp inside with whole | inside
    · exact absurd (whole ▸ List.mem_append_right first (List.mem_singleton_self x)) missing
    · exact inside
  · exact absurd (covers.subset (List.mem_append_right first (List.mem_singleton_self x))) missing

theorem infix_of_missing (missing : x ∉ word) (here : word <:+: first ++ x :: rest) :
    word <:+: first ∨ word <:+: rest := by
  induction first with
  | nil =>
    rw [List.nil_append] at here
    rcases List.infix_cons_iff.mp here with start | later
    · have none : word <+: [] := prefix_of_missing missing start
      exact .inl none.isInfix
    · exact .inr later
  | cons c first ih =>
    rw [List.cons_append] at here
    rcases List.infix_cons_iff.mp here with start | later
    · have inside : word <+: c :: first := prefix_of_missing missing start
      exact .inl inside.isInfix
    · rcases ih later with inside | beyond
      · exact .inl (List.infix_cons inside)
      · exact .inr beyond

theorem prefix_marked {part : List α} (clean : x ∉ word) (absent : x ∉ part) :
    word ++ [x] <+: part ++ x :: rest ↔ word = part := by
  induction word generalizing part with
  | nil =>
    cases part with
    | nil => exact iff_of_true ⟨rest,rfl⟩ rfl
    | cons c part =>
      refine iff_of_false (fun begins => ?_) (List.cons_ne_nil c part).symm
      exact List.ne_of_not_mem_cons absent (List.cons_prefix_cons.mp begins).1
  | cons d word ih =>
    cases part with
    | nil =>
      refine iff_of_false (fun begins => ?_) (List.cons_ne_nil d word)
      exact List.ne_of_not_mem_cons clean (List.cons_prefix_cons.mp begins).1.symm
    | cons c part =>
      rw [List.cons_append,List.cons_append,List.cons_prefix_cons,List.cons.injEq,
        ih (List.not_mem_of_not_mem_cons clean) (List.not_mem_of_not_mem_cons absent)]

theorem map_prefix_iff {fold : α → α} (lone : ∀ c,fold c = fold x → c = x) (clean : x ∉ word) (absent : x ∉ first) :
    (word ++ [x]).map fold <+: (first ++ x :: rest).map fold ↔ word.map fold = first.map fold := by
  have apart : ∀ {l : List α},x ∉ l → fold x ∉ l.map fold := by
    intro l absent mem
    obtain ⟨d,mem,same⟩ := List.mem_map.mp mem
    exact absent (lone d same ▸ mem)
  rw [List.map_append,List.map_append]
  exact prefix_marked (apart clean) (apart absent)

/-- Parts of a sequence are replaced, each by something in which no occurrence of the word can
begin and which none can enter. -/
inductive Rewritten (word : List α) : List α → List α → Prop where
  | nil : Rewritten word [] []
  | keep (a : α) {old new : List α} : Rewritten word old new → Rewritten word (a :: old) (a :: new)
  | change (gone : List α) {c : α} {chunk old new : List α} : c ∉ word →
    (∀ start ∈ word.head?,start ∉ c :: chunk) → Rewritten word old new →
    Rewritten word (gone ++ old) (c :: chunk ++ new)

namespace Rewritten

variable {old new old' new' : List α}

theorem refl (l : List α) : Rewritten word l l := by
  induction l with
  | nil => exact .nil
  | cons a l ih => exact ih.keep a

theorem append (here : Rewritten word old new) (there : Rewritten word old' new') :
    Rewritten word (old ++ old') (new ++ new') := by
  induction here with
  | nil => exact there
  | keep a _ ih => exact ih.keep a
  | change gone other apart _ ih =>
    rw [List.append_assoc,List.append_assoc]
    exact .change gone other apart ih

theorem replaced (gone : List α) {c : α} {chunk : List α} (other : c ∉ word)
    (apart : ∀ start ∈ word.head?,start ∉ c :: chunk) : Rewritten word gone (c :: chunk) := by
  have whole := Rewritten.change gone other apart .nil
  rwa [List.append_nil,List.append_nil] at whole

theorem flatMap {f g : β → List α} {items : List β} (each : ∀ item ∈ items,Rewritten word (f item) (g item)) :
    Rewritten word (items.flatMap f) (items.flatMap g) := by
  induction items with
  | nil => exact .nil
  | cons item items ih =>
    exact (each item List.mem_cons_self).append (ih fun other mem => each other (List.mem_cons_of_mem item mem))

theorem prefix_old {part : List α} (inside : part ⊆ word) (here : Rewritten word old new)
    (start : part <+: new) : part <+: old := by
  induction here generalizing part with
  | nil => exact start
  | keep a _ ih =>
    cases part with
    | nil => exact List.nil_prefix
    | cons b part =>
      obtain ⟨same,later⟩ := List.cons_prefix_cons.mp start
      exact List.cons_prefix_cons.mpr ⟨same,ih (List.subset_of_cons_subset inside) later⟩
  | change gone other _ _ _ =>
    cases part with
    | nil => exact List.nil_prefix
    | cons b part =>
      obtain ⟨rfl,-⟩ := List.cons_prefix_cons.mp start
      exact absurd (inside List.mem_cons_self) other

theorem infix_beyond {start : α} {tail chunk : List α} (apart : start ∉ chunk)
    (here : start :: tail <:+: chunk ++ new) : start :: tail <:+: new := by
  induction chunk with
  | nil => exact here
  | cons c chunk ih =>
    rw [List.mem_cons,not_or] at apart
    rcases List.infix_cons_iff.mp here with begins | later
    · exact absurd (List.cons_prefix_cons.mp begins).1 apart.1
    · exact ih apart.2 later

theorem infix_old {start : α} {tail : List α} (here : Rewritten (start :: tail) old new)
    (occurs : start :: tail <:+: new) : start :: tail <:+: old := by
  induction here with
  | nil => exact occurs
  | @keep a old new further ih =>
    rcases List.infix_cons_iff.mp occurs with begins | later
    · exact ((further.keep a).prefix_old (List.Subset.refl _) begins).isInfix
    · exact List.infix_cons (ih later)
  | change gone _ apart _ ih =>
    exact List.infix_append_of_infix_right (ih (infix_beyond (apart start rfl) occurs))

end Rewritten

section
variable [DecidableEq α]

def cut (word : List α) : List α → Option (List α × List α)
  | [] => none
  | c :: rest =>
    if word <+: c :: rest then some ([],(c :: rest).drop word.length)
    else (cut word rest).map fun p => (c :: p.1,p.2)

/-- The pieces between the occurrences, found from the left; the number of characters that
still belong to the last one comes first. -/
def splitFrom (word : List α) : Nat → List α → List (List α)
  | _,[] => [[]]
  | skip + 1,_ :: rest => splitFrom word skip rest
  | 0,c :: rest =>
    if word <+: c :: rest then [] :: splitFrom word (word.length - 1) rest
    else (splitFrom word 0 rest).modifyHead (c :: ·)

theorem cut_here (inhabited : word ≠ []) (rest : List α) : cut word (word ++ rest) = some ([],rest) := by
  cases word with
  | nil => exact absurd rfl inhabited
  | cons c tail =>
    rw [List.cons_append,cut,if_pos (List.cons_prefix_cons.mpr ⟨rfl,List.prefix_append tail rest⟩),
      ← List.cons_append,List.drop_left]

theorem cut_cons {c : α} (other : ¬ word <+: c :: rest) :
    cut word (c :: rest) = (cut word rest).map fun p => (c :: p.1,p.2) := if_neg other

theorem cut_append {start : α} {tail : List α} (apart : start ∉ first) (rest : List α) :
    cut (start :: tail) (first ++ rest) = (cut (start :: tail) rest).map fun p => (first ++ p.1,p.2) := by
  induction first with
  | nil => exact Option.map_id'.symm
  | cons c first ih =>
    rw [List.mem_cons,not_or] at apart
    rw [List.cons_append,cut_cons fun begins => apart.1 (List.cons_prefix_cons.mp begins).1,ih apart.2,
      Option.map_map]
    rfl

theorem splitFrom_skip (here : List α) (rest : List α) :
    splitFrom word here.length (here ++ rest) = splitFrom word 0 rest := by
  induction here with
  | nil => rfl
  | cons c here ih =>
    rw [List.cons_append,List.length_cons,splitFrom,ih]

theorem splitFrom_here (inhabited : word ≠ []) (rest : List α) :
    splitFrom word 0 (word ++ rest) = [] :: splitFrom word 0 rest := by
  cases word with
  | nil => exact absurd rfl inhabited
  | cons c tail =>
    rw [List.cons_append,splitFrom,if_pos (List.cons_prefix_cons.mpr ⟨rfl,List.prefix_append tail rest⟩),
      List.length_cons,Nat.add_sub_cancel,splitFrom_skip]

theorem splitFrom_append (inhabited : word ≠ []) (missing : x ∉ word) (absent : ¬ word <:+: first)
    (rest : List α) :
    splitFrom word 0 (first ++ x :: (word ++ rest)) = (first ++ [x]) :: splitFrom word 0 rest := by
  induction first with
  | nil =>
    have other : ¬ word <+: x :: (word ++ rest) := by
      intro begins
      have none : word <+: [] := prefix_of_missing missing begins
      exact inhabited (List.prefix_nil.mp none)
    rw [List.nil_append,splitFrom,if_neg other,splitFrom_here inhabited]
    rfl
  | cons c first ih =>
    have other : ¬ word <+: c :: (first ++ x :: (word ++ rest)) := by
      intro begins
      have inside : word <+: c :: first := prefix_of_missing missing begins
      exact absent inside.isInfix
    rw [List.cons_append,splitFrom,if_neg other,ih fun inside => absent (List.infix_cons inside)]
    rfl

theorem splitFrom_absent (absent : ¬ word <:+: first) : splitFrom word 0 first = [first] := by
  induction first with
  | nil => rfl
  | cons c first ih =>
    rw [splitFrom,if_neg fun begins => absent begins.isInfix,ih fun inside => absent (List.infix_cons inside)]
    rfl

end

section
variable [DecidableEq α]

/-- The first place where a key stands, up to a folding of characters, and where what comes
after it can be read. -/
def search (fold : α → α) (key : List α) (read : List α → Option β) : List α → Option β
  | [] => none
  | c :: rest =>
    (if key.map fold <+: (c :: rest).map fold then read ((c :: rest).drop key.length) else none).or
      (search fold key read rest)

variable {fold : α → α} {key : List α} {read : List α → Option β}

theorem search_other {c : α} (other : ¬ key.map fold <+: (c :: rest).map fold) :
    search fold key read (c :: rest) = search fold key read rest := by
  rw [search,if_neg other,Option.none_or]

theorem search_here {c : α} (here : key.map fold <+: (c :: rest).map fold) : search fold key read (c :: rest) =
      (read ((c :: rest).drop key.length)).or (search fold key read rest) := by
  rw [search,if_pos here]

theorem search_found {c : α} {found : β} (here : key.map fold <+: (c :: rest).map fold)
    (reads : read ((c :: rest).drop key.length) = some found) : search fold key read (c :: rest) = some found := by
  rw [search_here here,reads,Option.some_or]

/-- A key that ends in a character which it has nowhere else: it stands at the first such
character, or after it. -/
theorem search_last (lone : ∀ c,fold c = fold x → c = x) (clean : x ∉ word) (absent : x ∉ first) :
    search fold (word ++ [x]) read (first ++ x :: rest) =
      if word.map fold <:+ first.map fold then (read rest).or (search fold (word ++ [x]) read rest)
      else search fold (word ++ [x]) read rest := by
  induction first with
  | nil =>
    have iff : (word ++ [x]).map fold <+: (x :: rest).map fold ↔ word.map fold = [] :=
      map_prefix_iff lone clean absent
    rw [List.map_nil,List.nil_append]
    by_cases none : word = []
    · subst none
      rw [search_here (iff.mpr rfl),List.map_nil,if_pos List.nil_suffix]
      rfl
    · have other : word.map fold ≠ [] := fun nothing => none (List.map_eq_nil_iff.mp nothing)
      rw [search_other fun here => other (iff.mp here),if_neg fun ends => other (List.suffix_nil.mp ends)]
  | cons c first ih =>
    have iff : (word ++ [x]).map fold <+: (c :: (first ++ x :: rest)).map fold ↔
        word.map fold = (c :: first).map fold := map_prefix_iff lone clean absent
    have later := ih fun mem => absent (List.mem_cons_of_mem c mem)
    rw [List.cons_append]
    by_cases here : word.map fold = (c :: first).map fold
    · have length : word.length = first.length + 1 := by
        have same := congrArg List.length here
        rwa [List.length_map,List.length_map] at same
      have short : ¬ word.map fold <:+ first.map fold := by
        intro ends
        have le := ends.length_le
        rw [List.length_map,List.length_map,length] at le
        omega
      have dropped : (c :: (first ++ x :: rest)).drop (word ++ [x]).length = rest := by
        rw [List.length_append,length,show c :: (first ++ x :: rest) = (c :: first ++ [x]) ++ rest by simp]
        exact List.drop_left' (by simp)
      rw [if_neg short] at later
      rw [if_pos (here ▸ List.suffix_refl _),search_here (iff.mpr here),dropped,later]
    · rw [search_other fun begins => here (iff.mp begins),later]
      congr 1
      rw [List.map_cons] at here ⊢
      rw [List.suffix_cons_iff,or_iff_right here]

theorem search_across (missing : fold x ∉ key.map fold) (inhabited : key ≠ [])
    (always : ∀ tail,(read (tail ++ x :: rest)).isSome) :
    search fold key read (first ++ x :: rest) =
      match search fold key some first with
      | some tail => read (tail ++ x :: rest)
      | none => search fold key read rest := by
  induction first with
  | nil =>
    apply search_other
    intro here
    have none : key.map fold <+: [] := prefix_of_missing missing here
    exact inhabited (List.map_eq_nil_iff.mp (List.prefix_nil.mp none))
  | cons c first ih =>
    by_cases here : key.map fold <+: (c :: first).map fold
    · have short : key.length ≤ (c :: first).length := by
        have le := here.length_le
        rwa [List.length_map,List.length_map] at le
      have begins : key.map fold <+: (c :: (first ++ x :: rest)).map fold := by
        rw [← List.cons_append,List.map_append]
        exact here.trans (List.prefix_append _ _)
      have dropped : (c :: (first ++ x :: rest)).drop key.length = (c :: first).drop key.length ++ x :: rest := by
        rw [← List.cons_append]
        exact List.drop_append_of_le_length short
      obtain ⟨found,reads⟩ := Option.isSome_iff_exists.mp (always ((c :: first).drop key.length))
      have plain : search fold key some (c :: first) = some ((c :: first).drop key.length) := search_found here rfl
      rw [plain,List.cons_append,search_found begins (dropped ▸ reads)]
      exact reads.symm
    · have other : ¬ key.map fold <+: (c :: (first ++ x :: rest)).map fold := by
        intro begins
        rw [← List.cons_append,List.map_append,List.map_cons (a := x)] at begins
        exact here (prefix_of_missing missing begins)
      rw [List.cons_append,search_other other,ih,search_other here]

theorem search_suffix {tail : List α} (found : search fold key some first = some tail) : tail <:+ first := by
  induction first with
  | nil => cases found
  | cons c first ih =>
    by_cases here : key.map fold <+: (c :: first).map fold
    · rw [search_found here rfl,Option.some.injEq] at found
      exact found ▸ List.drop_suffix key.length (c :: first)
    · rw [search_other here] at found
      exact (ih found).trans (List.suffix_cons c first)

end

end Delimiting

end Sharko.Library
