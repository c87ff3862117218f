import Mathlib.Data.List.Nodup

/-! Lists of entries labelled with a document and a number inside it: when an
entry may be appended, exchanged or renumbered without confusing two entries.
Nothing here depends on what an entry or a document is. -/

namespace Sharko.Session.Numbering

variable {Doc : Type*}

/-- The document of an entry and the number of the entry among those of the document. -/
abbrev Label (Doc : Type*) := Doc × Nat

def Contiguous (labels : List (Label Doc)) : Prop :=
  ∀ (i j k : Nat) (a b c : Label Doc), i < j → j < k →
    labels[i]? = some a → labels[j]? = some b → labels[k]? = some c → a.1 = c.1 → b.1 = a.1

def Distinct (labels : List (Label Doc)) : Prop :=
  ∀ (i j : Nat) (a : Label Doc), labels[i]? = some a → labels[j]? = some a → i = j

def Fresh (doc : Doc) (labels : List (Label Doc)) : Prop := ∀ a ∈ labels, a.1 ≠ doc

theorem Fresh.at {doc : Doc} {labels : List (Label Doc)} (fresh : Fresh doc labels)
    {i : Nat} {a : Label Doc} (found : labels[i]? = some a) : a.1 ≠ doc :=
  fresh a (List.mem_of_getElem? found)

theorem take_lookup {labels : List (Label Doc)} {n i : Nat} {a : Label Doc}
    (found : (labels.take n)[i]? = some a) : i < n ∧ labels[i]? = some a := by
  rw [List.getElem?_take] at found
  split at found
  · exact ⟨‹_›,found⟩
  · contradiction

theorem Contiguous.take {labels : List (Label Doc)} (run : Contiguous labels) (n : Nat) :
    Contiguous (labels.take n) := by
  intro i j k a b c ij jk fi fj fk same
  exact run i j k a b c ij jk (take_lookup fi).2 (take_lookup fj).2 (take_lookup fk).2 same

theorem Distinct.take {labels : List (Label Doc)} (distinct : Distinct labels) (n : Nat) :
    Distinct (labels.take n) := by
  intro i j a fi fj
  exact distinct i j a (take_lookup fi).2 (take_lookup fj).2

theorem append_lookup {labels : List (Label Doc)} {last a : Label Doc} {i : Nat} :
    (labels ++ [last])[i]? = some a ↔ labels[i]? = some a ∨ (i = labels.length ∧ a = last) := by
  rcases Nat.lt_trichotomy i labels.length with inside | rfl | outside
  · rw [List.getElem?_append_left inside]
    constructor
    · exact Or.inl
    · rintro (found | ⟨here,_⟩)
      · exact found
      · omega
  · simp [eq_comm]
  · rw [List.getElem?_eq_none (by simp; omega),List.getElem?_eq_none (by omega)]
    constructor
    · intro found; contradiction
    · rintro (found | ⟨here,_⟩)
      · contradiction
      · omega

theorem Contiguous.append {labels : List (Label Doc)} {last : Label Doc} (run : Contiguous labels)
    (joined : ∀ a, labels.getLast? = some a → last.1 = a.1 ∨ Fresh last.1 labels) :
    Contiguous (labels ++ [last]) := by
  intro i j k a b c ij jk fi fj fk same
  rcases append_lookup.mp fk with inside | ⟨rfl,rfl⟩
  · have kept {n : Nat} {x : Label Doc} (before : n < k)
        (found : (labels ++ [last])[n]? = some x) : labels[n]? = some x := by
      rcases append_lookup.mp found with old | ⟨rfl,_⟩
      · exact old
      · have := (List.getElem?_eq_some_iff.mp inside).1
        omega
    exact run i j k a b c ij jk (kept (by omega) fi) (kept jk fj) inside same
  · have oldI : labels[i]? = some a := by
      rcases append_lookup.mp fi with old | ⟨here,_⟩
      · exact old
      · omega
    have oldJ : labels[j]? = some b := by
      rcases append_lookup.mp fj with old | ⟨here,_⟩
      · exact old
      · omega
    have nonempty : labels ≠ [] := by
      intro empty
      simp [empty] at oldI
    rcases joined _ (List.getLast?_eq_some_getLast nonempty) with joins | fresh
    · have final : labels[labels.length - 1]? = some (labels.getLast nonempty) := by
        rw [← List.getLast?_eq_getElem?,List.getLast?_eq_some_getLast nonempty]
      rcases (by omega : j = labels.length - 1 ∨ j < labels.length - 1) with rfl | inner
      · have := Option.some.inj (oldJ.symm.trans final)
        rw [this,same,joins]
      · exact run i j _ a b _ ij inner oldI oldJ final (same.trans joins)
    · exact absurd same (fresh.at oldI)

theorem Distinct.append_iff {labels : List (Label Doc)} {last : Label Doc} (distinct : Distinct labels) :
    Distinct (labels ++ [last]) ↔ ∀ i : Nat, labels[i]? ≠ some last := by
  constructor
  · intro all i found
    have here : (labels ++ [last])[labels.length]? = some last := append_lookup.mpr (.inr ⟨rfl,rfl⟩)
    have := all i labels.length last (append_lookup.mpr (.inl found)) here
    have := (List.getElem?_eq_some_iff.mp found).1
    omega
  · intro absent i j a fi fj
    rcases append_lookup.mp fi with oldI | ⟨hereI,rfl⟩ <;>
      rcases append_lookup.mp fj with oldJ | ⟨hereJ,sameJ⟩
    · exact distinct i j a oldI oldJ
    · exact absurd (sameJ ▸ oldI) (absent i)
    · exact absurd oldJ (absent j)
    · omega

theorem Fresh.not_last {doc : Doc} {labels : List (Label Doc)} (fresh : Fresh doc labels)
    (n i : Nat) : labels[i]? ≠ some (doc,n) :=
  fun found => fresh.at found rfl

theorem set_lookup {labels : List (Label Doc)} {position i : Nat} {new a : Label Doc}
    (found : (labels.set position new)[i]? = some a) :
    (i ≠ position ∧ labels[i]? = some a) ∨ (i = position ∧ a = new) := by
  rw [List.getElem?_set] at found
  split at found
  · split at found
    · exact .inr ⟨by omega,(Option.some.inj found).symm⟩
    · contradiction
  · exact .inl ⟨by omega,found⟩

theorem set_other {labels : List (Label Doc)} {position i : Nat} {new : Label Doc}
    (other : i ≠ position) : (labels.set position new)[i]? = labels[i]? :=
  List.getElem?_set_ne (Ne.symm other)

theorem Distinct.exchange {labels : List (Label Doc)} (distinct : Distinct labels)
    {doc : Doc} (fresh : Fresh doc labels) (position n : Nat) : Distinct (labels.set position (doc,n)) := by
  intro i j a fi fj
  rcases set_lookup fi with ⟨_,oldI⟩ | ⟨hereI,rfl⟩ <;>
    rcases set_lookup fj with ⟨_,oldJ⟩ | ⟨hereJ,newJ⟩
  · exact distinct i j a oldI oldJ
  · exact absurd (newJ ▸ oldI) (fresh.not_last n i)
  · exact absurd oldJ (fresh.not_last n j)
  · omega

/-- The entry stands strictly between two others of its own document. -/
def Inside (labels : List (Label Doc)) (position : Nat) : Prop :=
  ∃ i k : Nat, ∃ a b c : Label Doc, i < position ∧ position < k ∧ labels[i]? = some a ∧
    labels[position]? = some b ∧ labels[k]? = some c ∧ a.1 = b.1 ∧ c.1 = b.1

theorem Contiguous.exchange_iff {labels : List (Label Doc)} (run : Contiguous labels)
    {doc : Doc} (fresh : Fresh doc labels) (position n : Nat) :
    Contiguous (labels.set position (doc,n)) ↔ ¬ Inside labels position := by
  constructor
  · rintro split ⟨i,k,a,b,c,before,after,fi,fp,fk,left,right⟩
    have here : (labels.set position (doc,n))[position]? = some (doc,n) := by
      rw [List.getElem?_set_self (List.getElem?_eq_some_iff.mp fp).1]
    have := split i position k a (doc,n) c before after
      ((set_other (by omega)).trans fi) here ((set_other (by omega)).trans fk) (left.trans right.symm)
    exact fresh.at fi this.symm
  · intro outer i j k a b c ij jk fi fj fk same
    rcases set_lookup fi with ⟨ni,oldI⟩ | ⟨rfl,rfl⟩
    · rcases set_lookup fk with ⟨nk,oldK⟩ | ⟨rfl,rfl⟩
      · rcases set_lookup fj with ⟨_,oldJ⟩ | ⟨rfl,rfl⟩
        · exact run i j k a b c ij jk oldI oldJ oldK same
        · exfalso
          have bound := (List.getElem?_eq_some_iff.mp oldK).1
          obtain ⟨old,found⟩ : ∃ old, labels[j]? = some old :=
            ⟨_,List.getElem?_eq_getElem (by omega : j < labels.length)⟩
          have middle := run i j k a old c ij jk oldI found oldK same
          exact outer ⟨i,k,a,old,c,ij,jk,oldI,found,oldK,middle.symm,same.symm.trans middle.symm⟩
      · exact absurd same (fresh.at oldI)
    · rcases set_lookup fk with ⟨_,oldK⟩ | ⟨here,_⟩
      · exact absurd same.symm (fresh.at oldK)
      · omega

section Restart
variable [DecidableEq Doc]

def relabel (old new : Doc) (a : Label Doc) : Label Doc := if a.1 = old then (new,a.2) else a

def restart (labels : List (Label Doc)) (old new : Doc) (position : Nat) : List (Label Doc) :=
  (labels.map (relabel old new)).set position (new,0)

theorem restart_lookup {labels : List (Label Doc)} {old new : Doc} {position i : Nat}
    {x : Label Doc} (found : (restart labels old new position)[i]? = some x) :
    ∃ a, labels[i]? = some a ∧ (x = if i = position then (new,0) else relabel old new a) := by
  rw [restart,List.getElem?_set] at found
  split at found
  · subst i
    split at found
    · rename_i inside
      rw [List.length_map] at inside
      exact ⟨_,List.getElem?_eq_getElem inside,by simpa using (Option.some.inj found).symm⟩
    · contradiction
  · rename_i other
    rw [List.getElem?_map,Option.map_eq_some_iff] at found
    obtain ⟨a,lookup,rfl⟩ := found
    exact ⟨a,lookup,by simp [Ne.symm other]⟩

theorem restart_at {labels : List (Label Doc)} {old new : Doc} {position i : Nat} {a : Label Doc}
    (found : labels[i]? = some a) : (restart labels old new position)[i]? =
      some (if i = position then (new,0) else relabel old new a) := by
  have bound := (List.getElem?_eq_some_iff.mp found).1
  by_cases same : i = position
  · subst i
    simp [restart,bound]
  · simp [restart,Ne.symm same,same,found]

theorem relabel_doc {old new : Doc} {a b : Label Doc} (ha : a.1 ≠ new) (hb : b.1 ≠ new) :
    (relabel old new a).1 = (relabel old new b).1 ↔ a.1 = b.1 := by
  unfold relabel
  split_ifs with first second second
  · simp [first,second]
  · simp only [first]
    exact ⟨fun e => absurd e.symm hb,fun e => absurd e.symm second⟩
  · simp only [second]
    exact ⟨fun e => absurd e ha,fun e => absurd e first⟩
  · rfl

theorem relabel_injective {old new : Doc} {a b : Label Doc} (ha : a.1 ≠ new) (hb : b.1 ≠ new)
    (same : relabel old new a = relabel old new b) : a = b := by
  have docs := (relabel_doc ha hb).mp (congrArg Prod.fst same)
  have numbers : a.2 = b.2 := by
    have := congrArg Prod.snd same
    unfold relabel at this
    split_ifs at this <;> exact this
  exact Prod.ext docs numbers

theorem restart_doc {labels : List (Label Doc)} {old new : Doc} {position i : Nat}
    {x here : Label Doc} (current : labels[position]? = some here) (owner : here.1 = old)
    (found : (restart labels old new position)[i]? = some x) :
    ∃ a, labels[i]? = some a ∧ x.1 = (relabel old new a).1 := by
  obtain ⟨a,lookup,shape⟩ := restart_lookup found
  refine ⟨a,lookup,?_⟩
  rw [shape]
  split_ifs with same
  · subst i
    have : a = here := Option.some.inj (lookup.symm.trans current)
    simp [relabel,this,owner]
  · rfl

theorem Contiguous.restart {labels : List (Label Doc)} (run : Contiguous labels)
    {old new : Doc} (fresh : Fresh new labels) {position : Nat} {here : Label Doc}
    (current : labels[position]? = some here) (owner : here.1 = old) :
    Contiguous (restart labels old new position) := by
  intro i j k x y z ij jk fi fj fk same
  obtain ⟨a,la,ha⟩ := restart_doc current owner fi
  obtain ⟨b,lb,hb⟩ := restart_doc current owner fj
  obtain ⟨c,lc,hc⟩ := restart_doc current owner fk
  rw [ha,hc,relabel_doc (fresh.at la) (fresh.at lc)] at same
  rw [hb,ha,relabel_doc (fresh.at lb) (fresh.at la)]
  exact run i j k a b c ij jk la lb lc same

theorem Distinct.restart_iff {labels : List (Label Doc)} (distinct : Distinct labels)
    {old new : Doc} (fresh : Fresh new labels) {position : Nat} {here : Label Doc}
    (current : labels[position]? = some here) : Distinct (restart labels old new position) ↔
      ∀ i : Nat, i ≠ position → labels[i]? ≠ some (old,0) := by
  constructor
  · intro all i other found
    have left : (restart labels old new position)[i]? = some (new,0) := by
      rw [restart_at found]
      simp [other,relabel]
    have right : (restart labels old new position)[position]? = some (new,0) := by
      rw [restart_at current]
      simp
    exact other (all i position _ left right)
  · intro absent i j x fi fj
    obtain ⟨a,la,ha⟩ := restart_lookup fi
    obtain ⟨b,lb,hb⟩ := restart_lookup fj
    have unlike {n : Nat} {c : Label Doc} (away : n ≠ position) (found : labels[n]? = some c) :
        relabel old new c ≠ (new,0) := by
      intro same
      unfold relabel at same
      split_ifs at same with owned
      · apply absent n away
        have zero : c.2 = 0 := congrArg Prod.snd same
        rw [found,← owned,← zero]
      · exact fresh.at found (congrArg Prod.fst same)
    split_ifs at ha hb with atI atJ atJ
    · omega
    · exact absurd (hb.symm.trans ha) (unlike atJ lb)
    · exact absurd (ha.symm.trans hb) (unlike atI la)
    · have same : a = b := relabel_injective (fresh.at la) (fresh.at lb) (ha.symm.trans hb)
      exact distinct i j a la (same ▸ lb)

end Restart

end Sharko.Session.Numbering
