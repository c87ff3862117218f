import Mathlib.Data.List.Basic
import Mathlib.Data.List.GetD
import Mathlib.Data.List.TakeDrop

/-! The primitives that a draw call assembles from its indices, and primitive restart: which modes draw the
runs between the restart indices as sequences of their own. -/

namespace Sharko.Script.WebGl

inductive Mode where
  | points
  | lines
  | lineStrip
  | lineLoop
  | triangles
  | triangleStrip
  | triangleFan
  deriving DecidableEq

/-- The provoking vertex is the last one. -/
inductive Primitive where
  | point (v : ℕ)
  | line (a b : ℕ)
  | triangle (a b c : ℕ)
  deriving DecidableEq

namespace Primitive

def vertices : Primitive → List ℕ
  | point v => [v]
  | line a b => [a,b]
  | triangle a b c => [a,b,c]

end Primitive

namespace Mode

def width? : Mode → Option ℕ
  | points => some 1
  | lines => some 2
  | triangles => some 3
  | _ => none

end Mode

open Primitive (point line triangle)

def slice (mode : Mode) (V : ℕ → ℕ) (start i : ℕ) : List Primitive :=
  let len := i - start
  match mode with
  | .lineStrip => (List.range (len - 1)).map fun k => line (V (start + k)) (V (start + k + 1))
  | .lineLoop =>
    if len ≥ 2 then
      ((List.range (len - 1)).map fun k => line (V (start + k)) (V (start + k + 1)))
        ++ [line (V (i - 1)) (V start)]
    else []
  | .triangleStrip => (List.range (len - 2)).map fun k =>
    let a := V (start + k)
    let b := V (start + k + 1)
    let c := V (start + k + 2)
    if k % 2 = 1 then triangle b a c else triangle a b c
  | .triangleFan => (List.range (len - 2)).map fun k =>
    triangle (V start) (V (start + (k + 1))) (V (start + (k + 1) + 1))
  | _ => []

def vertex (seq : List ℕ) (i : ℕ) : ℕ := seq.getD i 0

def scan (mode : Mode) (seq : List ℕ) (restart : Option ℕ) (state : ℕ × List Primitive) (i : ℕ) :
    ℕ × List Primitive :=
  if i = seq.length ∨ seq[i]? = restart ∧ restart ≠ none then
    (i + 1,state.2 ++ slice mode (vertex seq) state.1 i)
  else state

def assemble (mode : Mode) (seq : List ℕ) (restart : Option ℕ) : List Primitive :=
  let V := vertex seq
  let n := seq.length
  match mode with
  | .points => (List.range n).map fun i => point (V i)
  | .lines => (List.range (n / 2)).map fun j => line (V (2 * j)) (V (2 * j + 1))
  | .triangles =>
    (List.range (n / 3)).map fun j => triangle (V (3 * j)) (V (3 * j + 1)) (V (3 * j + 2))
  | mode => ((List.range (n + 1)).foldl (scan mode seq restart) (0,[])).2

inductive IndexSize where
  | byte
  | short
  | int
  deriving DecidableEq

def IndexSize.restartIndex : IndexSize → ℕ
  | byte => 255
  | short => 65535
  | int => 4294967295

def drawElements (mode : Mode) (size : IndexSize) (seq : List ℕ) : List Primitive :=
  assemble mode seq (some size.restartIndex)

/-- Drawing the sequence is drawing the runs between the restart indices one after another, and none of
these is a vertex. -/
def RestartLaw (mode : Mode) (size : IndexSize) (seq : List ℕ) : Prop :=
  drawElements mode size seq = (seq.splitOn size.restartIndex).flatMap (drawElements mode size) ∧
    ∀ p ∈ drawElements mode size seq,size.restartIndex ∉ p.vertices

theorem slice_congr {mode : Mode} {V W : ℕ → ℕ} {start i : ℕ}
    (same : ∀ k < i - start,V (start + k) = W k) : slice mode V start i = slice mode W 0 (i - start) := by
  cases mode with
  | points => rfl
  | lines => rfl
  | triangles => rfl
  | lineStrip =>
    apply List.map_congr_left
    intro k hk
    rw [List.mem_range] at hk
    rw [same k (by omega),Nat.add_assoc,same (k + 1) (by omega)]
    simp
  | lineLoop =>
    simp only [slice,Nat.sub_zero]
    split_ifs with two
    · congr 1
      · apply List.map_congr_left
        intro k hk
        rw [List.mem_range] at hk
        rw [same k (by omega),Nat.add_assoc,same (k + 1) (by omega)]
        simp
      · have last := same (i - start - 1) (by omega)
        have first := same 0 (by omega)
        rw [show start + (i - start - 1) = i - 1 by omega] at last
        rw [Nat.add_zero] at first
        rw [last,first]
    · rfl
  | triangleStrip =>
    apply List.map_congr_left
    intro k hk
    rw [List.mem_range] at hk
    rw [same k (by omega),Nat.add_assoc start k 1,Nat.add_assoc start k 2,same (k + 1) (by omega),
      same (k + 2) (by omega)]
    simp
  | triangleFan =>
    apply List.map_congr_left
    intro k hk
    rw [List.mem_range] at hk
    have first := same 0 (by omega)
    rw [Nat.add_zero] at first
    rw [first,same (k + 1) (by omega),Nat.add_assoc start (k + 1) 1,same (k + 1 + 1) (by omega)]
    simp

theorem vertex_mem {seq : List ℕ} {i : ℕ} (inside : i < seq.length) : vertex seq i ∈ seq := by
  rw [vertex,List.getD_eq_getElem _ _ inside]
  exact List.getElem_mem inside

theorem vertices_of_slice {mode : Mode} {run : List ℕ} {p : Primitive}
    (mem : p ∈ slice mode (vertex run) 0 run.length) : ∀ v ∈ p.vertices,v ∈ run := by
  cases mode with
  | points => cases mem
  | lines => cases mem
  | triangles => cases mem
  | lineStrip =>
    obtain ⟨k,hk,rfl⟩ := List.mem_map.mp mem
    rw [List.mem_range] at hk
    simp only [Primitive.vertices,List.mem_cons,List.not_mem_nil,or_false,forall_eq_or_imp,forall_eq]
    exact ⟨vertex_mem (by omega),vertex_mem (by omega)⟩
  | lineLoop =>
    simp only [slice] at mem
    split_ifs at mem with two
    · rcases List.mem_append.mp mem with mem | mem
      · obtain ⟨k,hk,rfl⟩ := List.mem_map.mp mem
        rw [List.mem_range] at hk
        simp only [Primitive.vertices,List.mem_cons,List.not_mem_nil,or_false,forall_eq_or_imp,forall_eq]
        exact ⟨vertex_mem (by omega),vertex_mem (by omega)⟩
      · obtain rfl := List.mem_singleton.mp mem
        simp only [Primitive.vertices,List.mem_cons,List.not_mem_nil,or_false,forall_eq_or_imp,forall_eq]
        exact ⟨vertex_mem (by omega),vertex_mem (by omega)⟩
    · cases mem
  | triangleStrip =>
    obtain ⟨k,hk,rfl⟩ := List.mem_map.mp mem
    rw [List.mem_range] at hk
    split_ifs <;>
      simp only [Primitive.vertices,List.mem_cons,List.not_mem_nil,or_false,forall_eq_or_imp,forall_eq] <;>
      exact ⟨vertex_mem (by omega),vertex_mem (by omega),vertex_mem (by omega)⟩
  | triangleFan =>
    obtain ⟨k,hk,rfl⟩ := List.mem_map.mp mem
    rw [List.mem_range] at hk
    simp only [Primitive.vertices,List.mem_cons,List.not_mem_nil,or_false,forall_eq_or_imp,forall_eq]
    exact ⟨vertex_mem (by omega),vertex_mem (by omega),vertex_mem (by omega)⟩

section strips

variable {mode : Mode} {seq : List ℕ} {r : ℕ}

/-- After so many turns: the runs that are closed are drawn, and the open one goes up to this place. -/
structure Scanned (mode : Mode) (seq : List ℕ) (r j : ℕ) (state : ℕ × List Primitive)
    (closed : List (List ℕ)) : Prop where
  start : state.1 ≤ j
  inner : r ∉ (seq.take j).drop state.1
  split : ∀ rest,(seq.take j ++ rest).splitOn r = closed ++ ((seq.take j).drop state.1 ++ rest).splitOn r
  clean : ∀ run ∈ closed,r ∉ run
  drawn : state.2 = closed.flatMap fun run => slice mode (vertex run) 0 run.length

theorem slice_run {start j : ℕ} (inside : j ≤ seq.length) : slice mode (vertex seq) start j =
      slice mode (vertex ((seq.take j).drop start)) 0 ((seq.take j).drop start).length := by
  have len : ((seq.take j).drop start).length = j - start := by
    rw [List.length_drop,List.length_take,Nat.min_eq_left inside]
  rw [len]
  apply slice_congr
  intro k hk
  rw [vertex,vertex,List.getD_eq_getElem?_getD,List.getD_eq_getElem?_getD,List.getElem?_drop,
    List.getElem?_take_of_lt (by omega)]

theorem Scanned.turn {j : ℕ} {state : ℕ × List Primitive} {closed : List (List ℕ)}
    (h : Scanned mode seq r j state closed) (inside : j < seq.length) :
    ∃ closed',Scanned mode seq r (j + 1) (scan mode seq (some r) state j) closed' := by
  have longer : seq.take (j + 1) = seq.take j ++ [seq[j]] := List.take_succ_eq_append_getElem inside
  have len : (seq.take j).length = j := by rw [List.length_take,Nat.min_eq_left (Nat.le_of_lt inside)]
  have notLast : j ≠ seq.length := Nat.ne_of_lt inside
  by_cases hit : seq[j] = r
  · have step : scan mode seq (some r) state j =
        (j + 1,state.2 ++ slice mode (vertex seq) state.1 j) := by
      rw [scan,if_pos (Or.inr ⟨by rw [List.getElem?_eq_getElem inside,hit],by simp⟩)]
    rw [step]
    have empty : (seq.take (j + 1)).drop (j + 1) = [] := by
      rw [List.drop_eq_nil_iff,List.length_take]
      omega
    refine ⟨closed ++ [(seq.take j).drop state.1],⟨Nat.le_refl _,?_,?_,?_,?_⟩⟩
    · simp [empty]
    · intro rest
      rw [empty,longer,List.append_assoc,List.singleton_append,hit,h.split,
        List.splitOn_append_cons_self,List.splitOn_eq_singleton h.inner]
      simp
    · intro run mem
      rcases List.mem_append.mp mem with mem | mem
      · exact h.clean run mem
      · rw [List.mem_singleton.mp mem]
        exact h.inner
    · rw [List.flatMap_append,← h.drawn,slice_run (Nat.le_of_lt inside)]
      simp
  · have step : scan mode seq (some r) state j = state := by
      rw [scan,if_neg]
      rintro (last | ⟨at_,-⟩)
      · exact notLast last
      · rw [List.getElem?_eq_getElem inside] at at_
        exact hit (Option.some.inj at_)
    have grown : (seq.take (j + 1)).drop state.1 = (seq.take j).drop state.1 ++ [seq[j]] := by
      rw [longer,List.drop_append_of_le_length (by rw [len]; exact h.start)]
    rw [step]
    refine ⟨closed,⟨Nat.le_succ_of_le h.start,?_,?_,h.clean,h.drawn⟩⟩
    · rw [grown,List.mem_append,List.mem_singleton]
      rintro (mem | eq)
      · exact h.inner mem
      · exact hit eq.symm
    · intro rest
      rw [grown,longer,List.append_assoc,h.split,List.append_assoc]

theorem scanned (mode : Mode) (seq : List ℕ) (r : ℕ) {j : ℕ} (inside : j ≤ seq.length) :
    ∃ closed,Scanned mode seq r j ((List.range j).foldl (scan mode seq (some r)) (0,[])) closed := by
  induction j with
  | zero => exact ⟨[],⟨Nat.le_refl _,by simp,by simp,by simp,by simp⟩⟩
  | succ j ih =>
    obtain ⟨closed,h⟩ := ih (by omega)
    rw [List.range_succ,List.foldl_append]
    exact h.turn inside

theorem assemble_of_strip (strip : mode.width? = none) : assemble mode seq (some r) =
      ((List.range (seq.length + 1)).foldl (scan mode seq (some r)) (0,[])).2 := by
  cases mode <;> first | rfl | cases strip

theorem assemble_strip (strip : mode.width? = none) (seq : List ℕ) (r : ℕ) : assemble mode seq (some r) =
        (seq.splitOn r).flatMap (fun run => slice mode (vertex run) 0 run.length) ∧
      ∀ run ∈ seq.splitOn r,r ∉ run := by
  obtain ⟨closed,h⟩ := scanned mode seq r (Nat.le_refl seq.length)
  have split := h.split []
  rw [List.append_nil,List.append_nil,List.splitOn_eq_singleton h.inner,List.take_length] at split
  constructor
  · rw [assemble_of_strip strip,List.range_succ,List.foldl_append,List.foldl_cons,List.foldl_nil,scan,if_pos (Or.inl rfl),
      h.drawn,slice_run (Nat.le_refl _),split,List.flatMap_append,List.take_length]
    simp
  · intro run mem
    rw [split,List.mem_append,List.mem_singleton] at mem
    rcases mem with mem | rfl
    · exact h.clean run mem
    · have := h.inner
      rwa [List.take_length] at this

end strips

theorem restartLaw_strip {mode : Mode} (strip : mode.width? = none) (size : IndexSize) (seq : List ℕ) :
    RestartLaw mode size seq := by
  obtain ⟨whole,clean⟩ := assemble_strip strip seq size.restartIndex
  have own : ∀ run ∈ seq.splitOn size.restartIndex,
      drawElements mode size run = slice mode (vertex run) 0 run.length := by
    intro run mem
    rw [drawElements,(assemble_strip strip run size.restartIndex).1,
      List.splitOn_eq_singleton (clean run mem)]
    simp
  constructor
  · rw [drawElements,whole]
    exact (List.flatMap_congr own).symm
  · intro p mem vertexOf
    rw [drawElements,whole,List.mem_flatMap] at mem
    obtain ⟨run,hrun,mem⟩ := mem
    exact clean run hrun (vertices_of_slice mem _ vertexOf)

section lists

variable {seq run rest : List ℕ} {r : ℕ}

def single (mode : Mode) (V : ℕ → ℕ) (i : ℕ) : Primitive :=
  match mode with
  | .points => point (V i)
  | .lines => line (V i) (V (i + 1))
  | _ => triangle (V i) (V (i + 1)) (V (i + 2))

theorem assemble_list {mode : Mode} {k : ℕ} (list : mode.width? = some k) (seq : List ℕ) (restart : Option ℕ) :
    0 < k ∧ assemble mode seq restart =
      (List.range (seq.length / k)).map fun j => single mode (vertex seq) (k * j) := by
  cases mode with
  | points =>
    cases list
    exact ⟨by decide,by simp [assemble,single]⟩
  | lines =>
    cases list
    exact ⟨by decide,rfl⟩
  | triangles =>
    cases list
    exact ⟨by decide,rfl⟩
  | lineStrip => cases list
  | lineLoop => cases list
  | triangleStrip => cases list
  | triangleFan => cases list

theorem vertices_single {mode : Mode} {k : ℕ} (list : mode.width? = some k) (V : ℕ → ℕ) (i : ℕ) :
    (single mode V i).vertices = (List.range k).map fun a => V (i + a) := by
  cases mode with
  | points => cases list; rfl
  | lines => cases list; rfl
  | triangles => cases list; rfl
  | lineStrip => cases list
  | lineLoop => cases list
  | triangleStrip => cases list
  | triangleFan => cases list

theorem single_congr {mode : Mode} {k : ℕ} (list : mode.width? = some k) {V W : ℕ → ℕ} {i : ℕ}
    (same : ∀ a < k,V (i + a) = W (i + a)) : single mode V i = single mode W i := by
  cases mode with
  | points => cases list; exact congrArg _ (same 0 (by decide))
  | lines =>
    cases list
    have h₀ := same 0 (by decide)
    have h₁ := same 1 (by decide)
    rw [Nat.add_zero] at h₀
    rw [single,single,h₀,h₁]
  | triangles =>
    cases list
    have h₀ := same 0 (by decide)
    have h₁ := same 1 (by decide)
    have h₂ := same 2 (by decide)
    rw [Nat.add_zero] at h₀
    simp only [single,h₀,h₁,h₂]
  | lineStrip => cases list
  | lineLoop => cases list
  | triangleStrip => cases list
  | triangleFan => cases list

theorem drawRuns_of_short {mode : Mode} {k : ℕ} (list : mode.width? = some k) (restart : Option ℕ)
    (short : seq.length < k) : (seq.splitOn r).flatMap (fun run => assemble mode run restart) = [] := by
  have alone : ∀ run : List ℕ,run.length < k → assemble mode run restart = [] := by
    intro run shorter
    rw [(assemble_list list run restart).2,Nat.div_eq_of_lt shorter]
    rfl
  induction n : seq.length using Nat.strongRecOn generalizing seq with
  | _ n ih =>
    subst n
    by_cases mem : r ∈ seq
    · obtain ⟨front,back,rfl,first⟩ := List.eq_append_cons_of_mem mem
      simp only [List.length_append,List.length_cons] at short ih
      rw [List.splitOn_append_cons_self,List.splitOn_eq_singleton first,List.flatMap_append,
        ih back.length (by omega) (by omega) rfl]
      simp [alone front (by omega)]
    · rw [List.splitOn_eq_singleton mem]
      simp [alone seq short]

theorem drawRuns_of_trailing {mode : Mode} {k : ℕ} (list : mode.width? = some k) (restart : Option ℕ)
    (trailing : r ∉ seq.take (k * (seq.length / k))) :
    (seq.splitOn r).flatMap (fun run => assemble mode run restart) = assemble mode seq restart := by
  obtain ⟨pos,whole⟩ := assemble_list list seq restart
  by_cases mem : r ∈ seq
  · obtain ⟨front,back,rfl,first⟩ := List.eq_append_cons_of_mem mem
    have covered : k * ((front ++ r :: back).length / k) ≤ front.length := by
      by_contra beyond
      apply trailing
      rw [List.take_append,List.mem_append]
      right
      obtain ⟨d,hd⟩ : ∃ d,k * ((front ++ r :: back).length / k) - front.length = d + 1 :=
        ⟨k * ((front ++ r :: back).length / k) - front.length - 1,by omega⟩
      rw [hd,List.take_succ_cons]
      exact List.mem_cons_self
    have rest : (front ++ r :: back).length < k * ((front ++ r :: back).length / k) + k := by
      have := Nat.div_add_mod (front ++ r :: back).length k
      have := Nat.mod_lt (front ++ r :: back).length pos
      omega
    have count : front.length / k = (front ++ r :: back).length / k := by
      apply Nat.le_antisymm
      · exact Nat.div_le_div_right (by simp)
      · rw [Nat.le_div_iff_mul_le pos,Nat.mul_comm]
        exact covered
    rw [List.splitOn_append_cons_self,List.splitOn_eq_singleton first,List.flatMap_append,
      drawRuns_of_short list restart (by simp only [List.length_append,List.length_cons] at rest covered; omega),
      List.append_nil,whole]
    simp only [List.flatMap_cons,List.flatMap_nil,List.append_nil]
    rw [(assemble_list list front restart).2,count]
    apply List.map_congr_left
    intro j hj
    rw [List.mem_range] at hj
    apply single_congr list
    intro a ha
    have : k * j + k ≤ k * ((front ++ r :: back).length / k) := by
      rw [← Nat.mul_succ]
      exact Nat.mul_le_mul_left k hj
    rw [vertex,vertex,List.getD_append _ _ _ _ (by omega)]
  · rw [List.splitOn_eq_singleton mem]
    simp

theorem drawn_of_mem_take {mode : Mode} {k : ℕ} (list : mode.width? = some k) (restart : Option ℕ) {v : ℕ}
    (mem : v ∈ seq.take (k * (seq.length / k))) : ∃ p ∈ assemble mode seq restart,v ∈ p.vertices := by
  obtain ⟨pos,whole⟩ := assemble_list list seq restart
  obtain ⟨i,hi,rfl⟩ := List.mem_iff_getElem.mp mem
  rw [List.length_take] at hi
  refine ⟨single mode (vertex seq) (k * (i / k)),?_,?_⟩
  · rw [whole,List.mem_map]
    refine ⟨i / k,?_,rfl⟩
    rw [List.mem_range,Nat.div_lt_iff_lt_mul pos,Nat.mul_comm]
    omega
  · rw [vertices_single list,List.mem_map]
    refine ⟨i % k,List.mem_range.mpr (Nat.mod_lt i pos),?_⟩
    rw [Nat.div_add_mod,List.getElem_take,vertex,List.getD_eq_getElem]

theorem restartLaw_list {mode : Mode} {k : ℕ} (list : mode.width? = some k) (size : IndexSize) :
    RestartLaw mode size seq ↔ size.restartIndex ∉ seq.take (k * (seq.length / k)) := by
  constructor
  · rintro ⟨-,unused⟩ mem
    obtain ⟨p,hp,vertexOf⟩ := drawn_of_mem_take list (some size.restartIndex) mem
    exact unused p hp vertexOf
  · intro trailing
    refine ⟨(drawRuns_of_trailing list _ trailing).symm,?_⟩
    intro p mem vertexOf
    obtain ⟨pos,whole⟩ := assemble_list list seq (some size.restartIndex)
    rw [drawElements,whole,List.mem_map] at mem
    obtain ⟨j,hj,rfl⟩ := mem
    rw [List.mem_range] at hj
    rw [vertices_single list,List.mem_map] at vertexOf
    obtain ⟨a,ha,at_⟩ := vertexOf
    rw [List.mem_range] at ha
    have below : k * j + a < k * (seq.length / k) := by
      have := Nat.mul_le_mul_left k hj
      rw [Nat.mul_succ] at this
      omega
    have inside : k * j + a < seq.length := Nat.lt_of_lt_of_le below (Nat.mul_div_le _ _)
    apply trailing
    rw [← at_,vertex,List.getD_eq_getElem _ _ inside,List.mem_take_iff_getElem]
    exact ⟨k * j + a,by omega,rfl⟩

end lists

/-- Points, separate lines and separate triangles do not restart: the law holds for them as long as no
restart index is among the indices of complete primitives. -/
theorem restart_iff_trailing (mode : Mode) (size : IndexSize) (seq : List ℕ) : RestartLaw mode size seq ↔
      ∀ k,mode.width? = some k → size.restartIndex ∉ seq.take (k * (seq.length / k)) := by
  cases list : mode.width? with
  | none => simp [restartLaw_strip list]
  | some k =>
    rw [restartLaw_list list]
    simp

/-- A restart index between two triangles is drawn as a vertex. -/
theorem sample_triangles_restart : ¬ RestartLaw .triangles .byte [0,1,2,255,3,4,5] := by
  rintro ⟨-,unused⟩
  exact unused (triangle 255 3 4) (by decide) (by decide)

end Sharko.Script.WebGl
