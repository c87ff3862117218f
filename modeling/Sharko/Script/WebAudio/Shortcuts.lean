import Mathlib.Data.Rat.Floor
import Sharko.Script.WebAudio.Automation

/-! A quantum that is not computed sample by sample has the values of the timeline, as long as no event is
put inside a curve. -/

namespace Sharko.Script.WebAudio

variable {F : Type} [Field F] [LinearOrder F]

def NoneInside (events : List (Event F)) : Prop :=
  ∀ c ∈ events,c.kind.isCurve = true → ∀ e ∈ events,¬ (c.time < e.time ∧ e.time < c.finish)

def ClearAt (events : List (Event F)) (kind : EventKind F) (t : F) : Prop :=
  (∃ e ∈ events,e.time = t ∧ e.kind.same kind = true) ∨
    ∀ e ∈ events,e.kind.isCurve = true → ¬ (e.time ≤ t ∧ t < e.finish)

def Precedes (a b : Event F) : Prop := a.time ≤ b.time ∧ (a.kind.isCurve = true → a.finish ≤ b.time)

def Orderly (events : List (Event F)) : Prop := events.Pairwise Precedes

theorem Orderly.noneInside {events : List (Event F)} (orderly : Orderly events) : NoneInside events := by
  induction events with
  | nil => exact fun c mem => nomatch mem
  | cons a events ih =>
    obtain ⟨first,orderly⟩ := List.pairwise_cons.mp orderly
    intro c hc curve e he
    rcases List.mem_cons.mp hc with rfl | hc'
    · rcases List.mem_cons.mp he with rfl | he'
      · exact fun h => absurd h.1 (lt_irrefl _)
      · exact fun h => absurd h.2 (not_lt_of_ge ((first e he').2 curve))
    · rcases List.mem_cons.mp he with rfl | he'
      · exact fun h => absurd h.1 (not_lt_of_ge (first c hc').1)
      · exact ih orderly c hc' curve e he'

omit [Field F] in
theorem mem_insertSorted {ev x : Event F} {events : List (Event F)} (mem : x ∈ insertSorted ev events) :
    x = ev ∨ x ∈ events := by
  induction events with
  | nil => exact Or.inl (List.mem_singleton.mp mem)
  | cons e events ih =>
    rw [insertSorted] at mem
    split_ifs at mem
    · rcases List.mem_cons.mp mem with rfl | mem
      · exact Or.inl rfl
      · exact Or.inr (List.mem_cons_of_mem _ mem)
    · rcases List.mem_cons.mp mem with rfl | mem
      · exact Or.inr List.mem_cons_self
      · exact (ih mem).imp_right (List.mem_cons_of_mem _)
    · rcases List.mem_cons.mp mem with rfl | mem
      · exact Or.inl rfl
      · exact Or.inr mem

/-- A curve that starts no later than an event has finished then, where the event takes the place of one
that is after it, and else by assumption. -/
theorem Orderly.insert {ev : Event F} {events : List (Event F)} (orderly : Orderly events)
    (before : (∃ e ∈ events,e.time = ev.time ∧ e.kind.same ev.kind = true ∧ ev.kind.isCurve = false) ∨
      ∀ e ∈ events,e.kind.isCurve = true → e.time ≤ ev.time → e.finish ≤ ev.time)
    (after : ∀ e ∈ events,ev.kind.isCurve = true → ev.time < e.time → ev.finish ≤ e.time) :
    Orderly (insertSorted ev events) := by
  induction events with
  | nil => exact List.pairwise_singleton _ _
  | cons e events ih =>
    obtain ⟨first,orderly⟩ := List.pairwise_cons.mp orderly
    rw [insertSorted]
    split_ifs with earlier replaced
    · obtain ⟨same,-,noCurve⟩ := replaced
      refine List.pairwise_cons.mpr ⟨fun b mem => ⟨?_,?_⟩,orderly⟩
      · rw [← same]
        exact (first b mem).1
      · intro curve
        rw [noCurve] at curve
        cases curve
    · have finished : e.kind.isCurve = true → e.finish ≤ ev.time := by
        rcases before with ⟨e',mem,same⟩ | before
        · rcases List.mem_cons.mp mem with rfl | mem
          · exact absurd same replaced
          · rw [← same.1]
            exact (first e' mem).2
        · exact fun curve => before e List.mem_cons_self curve earlier
      refine List.pairwise_cons.mpr ⟨fun b mem => ?_,ih orderly ?_ fun x mem =>
        after x (List.mem_cons_of_mem _ mem)⟩
      · rcases mem_insertSorted mem with rfl | mem
        · exact ⟨earlier,finished⟩
        · exact first b mem
      · rcases before with ⟨e',mem,same⟩ | before
        · rcases List.mem_cons.mp mem with rfl | mem
          · exact absurd same replaced
          · exact Or.inl ⟨e',mem,same⟩
        · exact Or.inr fun x mem => before x (List.mem_cons_of_mem _ mem)
    · have later : ev.time < e.time := lt_of_not_ge earlier
      refine List.pairwise_cons.mpr ⟨fun b mem => ⟨?_,?_⟩,List.pairwise_cons.mpr ⟨first,orderly⟩⟩
      · rcases List.mem_cons.mp mem with rfl | mem
        · exact later.le
        · exact later.le.trans (first b mem).1
      · intro curve
        rcases List.mem_cons.mp mem with rfl | mem
        · exact after _ List.mem_cons_self curve later
        · exact (after e List.mem_cons_self curve later).trans (first b mem).1

structure Tidy (events : List (Event F)) : Prop where
  orderly : Orderly events
  lasting : ∀ e ∈ events,e.time ≤ e.finish

theorem Tidy.filter {events : List (Event F)} (tidy : Tidy events) (p : Event F → Bool) :
    Tidy (events.filter p) :=
  ⟨tidy.orderly.filter p,fun e mem => tidy.lasting e (List.mem_filter.mp mem).1⟩

theorem Tidy.put {events : List (Event F)} (tidy : Tidy events) {kind : EventKind F} {t : F}
    (clear : ClearAt events kind t) (noCurve : kind.isCurve = false) (v : F) :
    Tidy (insertSorted ⟨kind,t,v⟩ events) := by
  constructor
  · refine tidy.orderly.insert ?_ ?_
    · rcases clear with ⟨e,mem,time,same⟩ | clear
      · exact Or.inl ⟨e,mem,time,same,noCurve⟩
      · exact Or.inr fun e mem curve earlier =>
          le_of_not_gt fun running => clear e mem curve ⟨earlier,running⟩
    · intro e mem curve
      rw [noCurve] at curve
      cases curve
  · intro e mem
    rcases mem_insertSorted mem with rfl | mem
    · cases kind with
      | curve duration points => cases noCurve
      | _ => exact le_rfl
    · exact tidy.lasting e mem

theorem Tidy.putCurve [IsStrictOrderedRing F] {events : List (Event F)} (tidy : Tidy events)
    {points : List F} {t d : F} (long : ¬ d ≤ 0) (free : events.any (overlaps t d) = false) (v : F) :
    Tidy (insertSorted ⟨.curve d points,t,v⟩ events) := by
  have free : ∀ e ∈ events,overlaps t d e = false := fun e mem => by
    simpa using List.any_eq_false.mp free e mem
  have grows : t < t + d := by
    rw [lt_add_iff_pos_right]
    exact lt_of_not_ge long
  constructor
  · refine tidy.orderly.insert (Or.inr fun e mem curve earlier => ?_) fun e mem _ later => ?_
    · have := free e mem
      unfold overlaps at this
      cases kind : e.kind with
      | curve d' points' =>
        rw [kind] at this
        rw [decide_eq_false_iff_not] at this
        exact le_of_not_gt fun running => this ⟨running,earlier.trans_lt grows⟩
      | _ =>
        rw [kind] at curve
        cases curve
    · show t + d ≤ e.time
      have later : t < e.time := later
      have := free e mem
      unfold overlaps at this
      refine le_of_not_gt fun inside => ?_
      cases kind : e.kind with
      | curve d' points' =>
        rw [kind,decide_eq_false_iff_not] at this
        exact this ⟨later.trans_le (tidy.lasting e mem),inside⟩
      | _ =>
        rw [kind,decide_eq_false_iff_not] at this
        exact this ⟨later,inside⟩
  · intro e mem
    rcases mem_insertSorted mem with rfl | mem
    · exact grows.le
    · exact tidy.lasting e mem

theorem ClearAt.filter {events : List (Event F)} {t : F} (clear : ClearAt events .set t) :
    ClearAt (events.filter fun e => decide (e.time ≤ t)) .set t := by
  rcases clear with ⟨e,mem,time,same⟩ | clear
  · exact Or.inl ⟨e,List.mem_filter.mpr ⟨mem,decide_eq_true time.le⟩,time,same⟩
  · exact Or.inr fun e mem => clear e (List.mem_filter.mp mem).1

variable [FloorRing F]

inductive Action (F : Type) where
  | call (c : Call F)
  | setAutomationRate (kRate : Bool)
  | render (startFrame n : ℕ) (sr : F) (sum : Option (List F))

def act (math : Math F) (p : Param F) : Action F → Param F
  | .call c => match schedule math p c with
    | .ok p' => p'
    | .error _ => p
  | .setAutomationRate kRate => { p with kRate := kRate }
  | .render startFrame n sr sum => (computeParam math p startFrame n sr sum).1

def Call.puts : Call F → Option (EventKind F × F)
  | .setValue now _ => some (.set,now)
  | .setValueAtTime _ t => some (.set,t)
  | .linearRampToValueAtTime _ t => some (.linear,t)
  | .exponentialRampToValueAtTime _ t => some (.exponential,t)
  | .setTargetAtTime _ t timeConstant => some (.target timeConstant,t)
  | .cancelAndHoldAtTime t => some (.set,t)
  | .setValueCurveAtTime _ _ _ | .cancelScheduledValues _ => none

def Action.Clear (p : Param F) : Action F → Prop
  | .call c => ∀ kind t,c.puts = some (kind,t) → ClearAt p.events kind t
  | _ => True

def AllClear (math : Math F) : Param F → List (Action F) → Prop
  | _,[] => True
  | p,a :: actions => a.Clear p ∧ AllClear math (act math p a) actions

def timelineSamples (math : Math F) (p : Param F) (startFrame n : ℕ) (sr : F) : List F :=
  (List.range n).map fun i =>
    math.fround (valueAtTime math p ((if p.kRate then startFrame else startFrame + i : ℕ) / sr))

theorem Tidy.schedule [IsStrictOrderedRing F] {math : Math F} {p p' : Param F} (tidy : Tidy p.events) {c : Call F}
    (clear : ∀ kind t,c.puts = some (kind,t) → ClearAt p.events kind t)
    (done : WebAudio.schedule math p c = .ok p') : Tidy p'.events := by
  cases c with
  | setValue now v =>
    cases done
    have put := tidy.put (clear _ _ rfl) rfl (math.fround v)
    show Tidy (insertSorted _ _)
    split_ifs <;> exact put
  | setValueAtTime v t =>
    rw [WebAudio.schedule] at done
    split_ifs at done
    cases done
    exact tidy.put (clear _ _ rfl) rfl _
  | linearRampToValueAtTime v t =>
    rw [WebAudio.schedule] at done
    split_ifs at done
    cases done
    exact tidy.put (clear _ _ rfl) rfl _
  | exponentialRampToValueAtTime v t =>
    rw [WebAudio.schedule] at done
    split_ifs at done
    cases done
    exact tidy.put (clear _ _ rfl) rfl _
  | setTargetAtTime v t timeConstant =>
    rw [WebAudio.schedule] at done
    split_ifs at done
    cases done
    exact tidy.put (clear _ _ rfl) rfl _
  | setValueCurveAtTime values t d =>
    rw [WebAudio.schedule] at done
    split_ifs at done with _ _ long overlap
    cases done
    exact tidy.putCurve long (Bool.eq_false_iff.mpr overlap) _
  | cancelScheduledValues t =>
    rw [WebAudio.schedule] at done
    split_ifs at done
    cases done
    exact tidy.filter _
  | cancelAndHoldAtTime t =>
    rw [WebAudio.schedule] at done
    split_ifs at done
    cases done
    exact (tidy.filter _).put (clear _ _ rfl).filter rfl _

theorem timelineValues_events (math : Math F) (p : Param F) (startFrame n : ℕ) (sr : F) :
    (timelineValues math p startFrame n sr).1.events = p.events := by
  unfold timelineValues
  dsimp only
  split
  · rfl
  · split
    · rfl
    · split_ifs <;> rfl

theorem Tidy.act [IsStrictOrderedRing F] {math : Math F} {p : Param F} (tidy : Tidy p.events) {a : Action F}
    (clear : a.Clear p) : Tidy (WebAudio.act math p a).events := by
  cases a with
  | call c =>
    rw [WebAudio.act]
    cases done : WebAudio.schedule math p c with
    | ok p' => exact tidy.schedule clear done
    | error e => exact tidy
  | setAutomationRate kRate => exact tidy
  | render startFrame n sr sum =>
    show Tidy (timelineValues math p startFrame n sr).1.events
    rw [timelineValues_events]
    exact tidy

theorem Tidy.run [IsStrictOrderedRing F] {math : Math F} {p : Param F} (tidy : Tidy p.events)
    {actions : List (Action F)} (clear : AllClear math p actions) :
    Tidy (actions.foldl (WebAudio.act math) p).events := by
  induction actions generalizing p with
  | nil => exact tidy
  | cons a actions ih => exact ih (tidy.act clear.1) clear.2

theorem walk_settled (math : Math F) {events : List (Event F)} {t : F}
    (isOver : ∀ e ∈ events,e.time ≤ t ∧ e.finish ≤ t) {last : Event F} (found : events.getLast? = some last)
    (settles : last.kind.settles = true) (rest : List (Event F)) (value prevValue prevTime : F) :
    walk math t value prevValue prevTime (events ++ rest) =
      walk math t last.value last.value last.time rest := by
  induction events generalizing value prevValue prevTime with
  | nil => cases found
  | cons e events ih =>
    obtain ⟨reached,finished⟩ := isOver e List.mem_cons_self
    have isOver := fun e mem => isOver e (List.mem_cons_of_mem _ mem)
    cases events with
    | nil =>
      obtain rfl : e = last := by simpa using found
      rw [List.singleton_append,walk,if_neg (not_lt_of_ge reached)]
      cases kind : e.kind with
      | set => rfl
      | linear => rfl
      | exponential => rfl
      | target timeConstant =>
        rw [kind] at settles
        cases settles
      | curve duration points =>
        rw [kind] at settles
        cases settles
    | cons next later =>
      rw [List.getLast?_cons_cons] at found
      rw [List.cons_append,walk,if_neg (not_lt_of_ge reached)]
      cases kind : e.kind with
      | set => exact ih isOver found _ _ _
      | linear => exact ih isOver found _ _ _
      | exponential => exact ih isOver found _ _ _
      | target timeConstant =>
        rw [List.cons_append]
        dsimp only
        rw [if_neg (not_lt_of_ge (isOver next List.mem_cons_self).1)]
        exact ih isOver found _ _ _
      | curve duration points =>
        rw [Event.finish,kind] at finished
        dsimp only
        rw [if_neg (not_lt_of_ge finished)]
        exact ih isOver found _ _ _

omit [FloorRing F] in
theorem Orderly.isOver {events : List (Event F)} (orderly : Orderly events) {last : Event F}
    (found : events.getLast? = some last) (settles : last.kind.settles = true) {t : F}
    (reached : last.time ≤ t) : ∀ e ∈ events,e.time ≤ t ∧ e.finish ≤ t := by
  obtain ⟨before,rfl⟩ := List.getLast?_eq_some_iff.mp found
  have earlier := List.pairwise_append.mp orderly
  intro e mem
  rcases List.mem_append.mp mem with mem | mem
  · obtain ⟨time,curve⟩ := earlier.2.2 e mem last (List.mem_singleton_self last)
    refine ⟨time.trans reached,?_⟩
    cases isCurve : e.kind.isCurve with
    | true => exact (curve isCurve).trans reached
    | false =>
      rw [Event.finish_of_not_curve isCurve]
      exact time.trans reached
  · obtain rfl := List.mem_singleton.mp mem
    rw [Event.finish_of_not_curve (EventKind.not_curve_of_settles settles)]
    exact ⟨reached,reached⟩

theorem valueAtTime_settled {math : Math F} {p : Param F} (orderly : Orderly p.events) {t v : F}
    (found : settled p t = some v) {s : F} (later : t ≤ s) : valueAtTime math p s = v := by
  obtain ⟨last,isLast,found⟩ := Option.bind_eq_some_iff.mp found
  split_ifs at found with settles
  cases found
  have isOver := orderly.isOver isLast settles.2 (settles.1.trans later)
  rw [valueAtTime]
  cases events : p.events with
  | nil =>
    rw [events] at isLast
    cases isLast
  | cons e rest =>
    rw [events] at isLast isOver
    have := walk_settled math isOver isLast settles.2 [] p.initial p.initial 0
    rw [List.append_nil] at this
    exact this

theorem valueAtTime_before {math : Math F} {p : Param F} {first : Event F} {rest : List (Event F)}
    (events : p.events = first :: rest) (noRamp : first.kind.isRamp = false) {t : F} (early : t < first.time) :
    valueAtTime math p t = p.initial := by
  rw [valueAtTime,events]
  dsimp only
  rw [walk,if_pos early,if_neg (by rw [noRamp]; exact Bool.false_ne_true)]

theorem timelineValues_eq [IsStrictOrderedRing F] {math : Math F} {p : Param F} (tidy : Tidy p.events)
    (startFrame n : ℕ) {sr : F} (pos : 0 < sr) :
    (timelineValues math p startFrame n sr).2.1 = timelineSamples math p startFrame n sr := by
  -- All samples are alike.
  have constant : ∀ v,(∀ i < n,math.fround (valueAtTime math p
      ((if p.kRate then startFrame else startFrame + i : ℕ) / sr)) = v) →
      List.replicate n v = timelineSamples math p startFrame n sr := by
    intro v all
    refine (List.eq_replicate_iff.mpr ⟨?_,fun x mem => ?_⟩).symm
    · rw [timelineSamples,List.length_map,List.length_range]
    · obtain ⟨i,below,rfl⟩ := List.mem_map.mp mem
      exact all i (List.mem_range.mp below)
  have late : ∀ i,(startFrame : F) / sr ≤ ((if p.kRate then startFrame else startFrame + i : ℕ) : F) / sr := by
    intro i
    refine div_le_div_of_nonneg_right (Nat.cast_le.mpr ?_) pos.le
    split_ifs
    · exact le_rfl
    · exact Nat.le_add_right _ _
  unfold timelineValues
  cases events : p.events with
  | nil =>
    refine constant _ fun i _ => ?_
    rw [valueAtTime,events]
  | cons first rest =>
    dsimp only
    cases found : settled p ((startFrame : F) / sr) with
    | some v =>
      refine constant _ fun i _ => ?_
      rw [valueAtTime_settled tidy.orderly found (late i)]
    | none =>
      dsimp only
      split_ifs with shortcut
      · refine constant _ fun i inside => ?_
        rw [math.fround_fround]
        by_cases kRate : p.kRate = true
        · rw [if_pos kRate]
        · obtain ⟨ends,noRamp⟩ := shortcut.resolve_left kRate
          have early : ∀ k < n,((startFrame + k : ℕ) : F) / sr < first.time := by
            intro k below
            refine (div_lt_div_of_pos_right (Nat.cast_lt.mpr ?_) pos).trans_le ends
            omega
          rw [if_neg kRate,valueAtTime_before events noRamp (early i inside)]
          have start := early 0 (by omega)
          rw [Nat.add_zero] at start
          rw [valueAtTime_before events noRamp start]
      · have aRate : ¬ p.kRate = true := fun kRate => shortcut (Or.inl kRate)
        simp only [timelineSamples,if_neg aRate]

/-- As long as no call puts an event inside a curve that it has to share the time with, no event is inside
a curve and the shortcuts have the values of the timeline. -/
theorem shortcuts_agree [IsStrictOrderedRing F] (math : Math F) (default : F) (min max : Option F)
    (actions : List (Action F)) (clear : AllClear math (newParam default min max) actions) :
    let p := actions.foldl (act math) (newParam default min max)
    NoneInside p.events ∧ ∀ (startFrame n : ℕ) (sr : F),0 < sr →
      (timelineValues math p startFrame n sr).2.1 = timelineSamples math p startFrame n sr := by
  have tidy := Tidy.run (p := newParam default min max) ⟨List.Pairwise.nil,fun e mem => nomatch mem⟩ clear
  exact ⟨tidy.orderly.noneInside,fun startFrame n sr pos => timelineValues_eq tidy startFrame n pos⟩

def sampleMath : Math ℚ := ⟨fun x y => if y = 0 then 1 else x,fun _ => 1,id,fun _ => rfl⟩

theorem shortcuts_agree_after_curve :
    let p := [Action.call (.setValueCurveAtTime [0,1] 0 1),Action.call (.setValueAtTime 5 1)].foldl
      (act sampleMath) (newParam (0 : ℚ) none none)
    NoneInside p.events ∧ ∀ (startFrame n : ℕ) (sr : ℚ),0 < sr →
      (timelineValues sampleMath p startFrame n sr).2.1 = timelineSamples sampleMath p startFrame n sr :=
  shortcuts_agree sampleMath 0 none none _ ⟨(fun _ _ puts => nomatch puts),fun _ _ puts => by
    cases puts
    exact Or.inr (by decide +kernel),trivial⟩

def insideCurve : List (Action ℚ) :=
  [.call (.setValueCurveAtTime [0,1] 0 10),.call (.setValueAtTime 5 5)]

theorem sample_inside_curve : ¬ ∀ actions : List (Action ℚ),
    let p := actions.foldl (act sampleMath) (newParam 0 none none)
    NoneInside p.events ∧ ∀ (startFrame n : ℕ) (sr : ℚ),0 < sr →
      (timelineValues sampleMath p startFrame n sr).2.1 = timelineSamples sampleMath p startFrame n sr := by
  intro all
  have := (all insideCurve).2 6 1 1 (by decide)
  revert this
  decide +kernel

end Sharko.Script.WebAudio
