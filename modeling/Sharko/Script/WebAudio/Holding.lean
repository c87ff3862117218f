import Mathlib
import Sharko.Script.WebAudio.Shortcuts

/-! What `cancelAndHoldAtTime` leaves of a timeline: where nothing runs at the time the past stays and the
value is held. -/

namespace Sharko.Script.WebAudio

variable {F : Type} [Field F] [LinearOrder F]

def kept (p : Param F) (t : F) : List (Event F) := p.events.filter fun e => decide (e.time ≤ t)

def dropped (p : Param F) (t : F) : List (Event F) := p.events.filter fun e => decide (t < e.time)

def EventKind.isTarget : EventKind F → Bool
  | target _ => true
  | _ => false

/-- Nothing runs at the time: no curve, no ramp that has begun, and no approach which begins there together
with another event that sets the value. Without events up to the time the value before is the one that the
parameter has by itself. -/
structure Quiet (p : Param F) (t : F) : Prop where
  curve : ∀ c ∈ p.events,c.kind.isCurve = true → c.time ≤ t → c.finish ≤ t
  ramp : ∀ r,(dropped p t).head? = some r → r.kind.isRamp = true →
    (kept p t = [] ∧ t = 0) ∨ ∃ e,(kept p t).getLast? = some e ∧ (e.kind.isTarget = true ∨ e.finish = t)
  target : ∀ e,(kept p t).getLast? = some e → e.kind.isTarget = true → e.time = t →
    ∀ e' ∈ kept p t,¬ (e'.kind = .set ∧ e'.time = t)
  start : kept p t = [] → p.events = [] ∨ t = 0 ∨ p.base = p.initial

structure Sorted (events : List (Event F)) : Prop where
  sorted : events.Pairwise fun a b => a.time ≤ b.time
  lasting : ∀ c ∈ events,c.kind.isCurve = true → c.time < c.finish

theorem Sorted.filter {events : List (Event F)} (sorted : Sorted events) (p : Event F → Bool) :
    Sorted (events.filter p) :=
  ⟨sorted.sorted.filter p,fun e mem => sorted.lasting e (List.mem_filter.mp mem).1⟩

theorem Sorted.put {events : List (Event F)} (sorted : Sorted events) {ev : Event F}
    (lasting : ev.kind.isCurve = true → ev.time < ev.finish) : Sorted (insertSorted ev events) := by
  constructor
  · obtain ⟨sorted,-⟩ := sorted
    induction events with
    | nil => exact List.pairwise_singleton _ _
    | cons e events ih =>
      obtain ⟨first,rest⟩ := List.pairwise_cons.mp sorted
      rw [insertSorted]
      split_ifs with earlier replaced
      · refine List.pairwise_cons.mpr ⟨fun b mem => ?_,rest⟩
        rw [← replaced.1]
        exact first b mem
      · refine List.pairwise_cons.mpr ⟨fun b mem => ?_,ih rest⟩
        rcases mem_insertSorted mem with rfl | mem
        · exact earlier
        · exact first b mem
      · have later : ev.time ≤ e.time := (lt_of_not_ge earlier).le
        refine List.pairwise_cons.mpr ⟨fun b mem => ?_,sorted⟩
        rcases List.mem_cons.mp mem with rfl | mem
        · exact later
        · exact later.trans (first b mem)
  · intro c mem curve
    rcases mem_insertSorted mem with rfl | mem
    · exact lasting curve
    · exact sorted.lasting c mem curve

theorem kept_append_dropped {p : Param F} (sorted : Sorted p.events) (t : F) :
    kept p t ++ dropped p t = p.events := by
  obtain ⟨sorted,-⟩ := sorted
  unfold kept dropped
  generalize p.events = events at sorted
  induction events with
  | nil => rfl
  | cons e events ih =>
    obtain ⟨first,rest⟩ := List.pairwise_cons.mp sorted
    by_cases early : e.time ≤ t
    · rw [List.filter_cons_of_pos (by simpa using early),List.filter_cons_of_neg (by simpa using early),
        List.cons_append,ih rest]
    · have late : t < e.time := lt_of_not_ge early
      have none : events.filter (fun e => decide (e.time ≤ t)) = [] := by
        rw [List.filter_eq_nil_iff]
        intro b mem
        simpa using late.trans_le (first b mem)
      have all := ih rest
      rw [none,List.nil_append] at all
      rw [List.filter_cons_of_neg (by simpa using late),List.filter_cons_of_pos (by simpa using late),none,
        List.nil_append,all]

omit [Field F] in
theorem insertSorted_cases {ev : Event F} {events : List (Event F)} (early : ∀ e ∈ events,e.time ≤ ev.time) :
    insertSorted ev events = events ++ [ev] ∨
      ∃ before e after,events = before ++ e :: after ∧ e.time = ev.time ∧ e.kind.same ev.kind = true ∧
        insertSorted ev events = before ++ ev :: after := by
  induction events with
  | nil => exact Or.inl rfl
  | cons e events ih =>
    rw [insertSorted,if_pos (early e List.mem_cons_self)]
    by_cases replaced : e.time = ev.time ∧ e.kind.same ev.kind = true ∧ ev.kind.isCurve = false
    · rw [if_pos replaced]
      exact Or.inr ⟨[],e,events,rfl,replaced.1,replaced.2.1,rfl⟩
    · rw [if_neg replaced]
      rcases ih (fun x mem => early x (List.mem_cons_of_mem _ mem)) with last | ⟨before,e',after,rfl,h⟩
      · rw [last]
        exact Or.inl rfl
      · obtain ⟨time,same,inserted⟩ := h
        rw [inserted]
        exact Or.inr ⟨e :: before,e',after,rfl,time,same,rfl⟩

variable [FloorRing F]

theorem Sorted.act [IsStrictOrderedRing F] {math : Math F} {p : Param F} (sorted : Sorted p.events)
    (a : Action F) : Sorted (WebAudio.act math p a).events := by
  have put : ∀ {kind : EventKind F} {t v : F},kind.isCurve = false → ∀ {events : List (Event F)},
      Sorted events → Sorted (insertSorted ⟨kind,t,v⟩ events) := by
    intro kind t v noCurve events sorted
    refine sorted.put fun curve => ?_
    have curve : kind.isCurve = true := curve
    rw [noCurve] at curve
    cases curve
  cases a with
  | setAutomationRate kRate => exact sorted
  | render startFrame n sr sum =>
    show Sorted (timelineValues math p startFrame n sr).1.events
    rw [timelineValues_events]
    exact sorted
  | call c =>
    rw [WebAudio.act]
    cases done : WebAudio.schedule math p c with
    | error e => exact sorted
    | ok p' =>
      cases c with
      | setValue now v =>
        cases done
        show Sorted (insertSorted _ _)
        split_ifs <;> exact put rfl sorted
      | setValueCurveAtTime values t d =>
        rw [WebAudio.schedule] at done
        split_ifs at done with _ _ long overlap
        cases done
        refine sorted.put fun _ => ?_
        show t < t + d
        rw [lt_add_iff_pos_right]
        exact lt_of_not_ge long
      | cancelScheduledValues t =>
        rw [WebAudio.schedule] at done
        split_ifs at done
        cases done
        exact sorted.filter _
      | cancelAndHoldAtTime t =>
        rw [WebAudio.schedule] at done
        split_ifs at done
        cases done
        exact put rfl (sorted.filter _)
      | _ =>
        rw [WebAudio.schedule] at done
        split_ifs at done
        cases done
        exact put rfl sorted

theorem Sorted.run [IsStrictOrderedRing F] {math : Math F} {p : Param F} (sorted : Sorted p.events)
    (actions : List (Action F)) : Sorted (actions.foldl (WebAudio.act math) p).events := by
  induction actions generalizing p with
  | nil => exact sorted
  | cons a actions ih => exact ih (sorted.act a)

/-- What comes next is later, and a ramp has not begun: its start is still to come or is an approach. -/
def Upcoming (events rest : List (Event F)) (s : F) : Prop :=
  ∀ r,rest.head? = some r → s < r.time ∧
    (r.kind.isRamp = true → ∃ e,events.getLast? = some e ∧ (e.kind.isTarget = true ∨ s < e.finish))

omit [FloorRing F] in
theorem Upcoming.tail {e : Event F} {events rest : List (Event F)} {s : F}
    (upcoming : Upcoming (e :: events) rest s) (settled : e.kind.isTarget = false) (isOver : ¬ s < e.finish) :
    Upcoming events rest s := by
  intro r found
  obtain ⟨later,ramp⟩ := upcoming r found
  refine ⟨later,fun isRamp => ?_⟩
  obtain ⟨last,isLast,running⟩ := ramp isRamp
  cases events with
  | nil =>
    obtain rfl : e = last := by simpa using isLast
    rcases running with target | running
    · rw [settled] at target
      cases target
    · exact absurd running isOver
  | cons next events =>
    rw [List.getLast?_cons_cons] at isLast
    exact ⟨last,isLast,running⟩

theorem walk_upcoming (math : Math F) {rest : List (Event F)} {s : F} (upcoming : Upcoming [] rest s)
    (value prevValue prevTime : F) : walk math s value prevValue prevTime rest = value := by
  cases rest with
  | nil => rfl
  | cons r rest =>
    obtain ⟨later,ramp⟩ := upcoming r rfl
    rw [walk,if_pos later,if_neg]
    intro isRamp
    obtain ⟨last,none,-⟩ := ramp isRamp
    cases none

theorem walk_past (math : Math F) {events rest rest' : List (Event F)} {s : F}
    (upcoming : Upcoming events rest s) (upcoming' : Upcoming events rest' s) (value prevValue prevTime : F) :
    walk math s value prevValue prevTime (events ++ rest) =
      walk math s value prevValue prevTime (events ++ rest') := by
  induction events generalizing value prevValue prevTime with
  | nil => rw [List.nil_append,List.nil_append,walk_upcoming math upcoming,walk_upcoming math upcoming']
  | cons e events ih =>
    rw [List.cons_append,List.cons_append,walk,walk]
    by_cases early : s < e.time
    · rw [if_pos early,if_pos early]
    · rw [if_neg early,if_neg early]
      have onwards : e.kind.isTarget = false → ¬ s < e.finish → ∀ v pv pt,
          walk math s v pv pt (events ++ rest) = walk math s v pv pt (events ++ rest') :=
        fun settled isOver => ih (upcoming.tail settled isOver) (upcoming'.tail settled isOver)
      cases kind : e.kind with
      | set => exact onwards (by rw [kind]; rfl) (by rw [Event.finish,kind]; exact early) _ _ _
      | linear => exact onwards (by rw [kind]; rfl) (by rw [Event.finish,kind]; exact early) _ _ _
      | exponential => exact onwards (by rw [kind]; rfl) (by rw [Event.finish,kind]; exact early) _ _ _
      | target timeConstant =>
        cases events with
        | cons next events =>
          rw [List.cons_append,List.cons_append]
          dsimp only
          split_ifs
          · rfl
          · refine ih ?_ ?_ _ _ _
            all_goals
              intro r found
              rw [← List.getLast?_cons_cons]
            · exact upcoming r found
            · exact upcoming' r found
        | nil =>
          have approach : ∀ rest,Upcoming [e] rest s →
              walk math s value prevValue prevTime (e :: rest) = targetValue math e timeConstant value s := by
            intro rest upcoming
            rw [walk,if_neg early,kind]
            cases rest with
            | nil => rfl
            | cons r rest => exact if_pos (upcoming r rfl).1
          have same := (approach rest upcoming).trans (approach rest' upcoming').symm
          rw [walk,walk,if_neg early,if_neg early,kind] at same
          exact same
      | curve duration points =>
        dsimp only
        split_ifs with running
        · rfl
        · exact onwards (by rw [kind]; rfl) (by rw [Event.finish,kind]; exact running) _ _ _

omit [FloorRing F] in
theorem rampValue_start [IsStrictOrderedRing F] {math : Math F} (power : ∀ x,math.pow x 0 = 1)
    {next : Event F} {t : F} (later : t < next.time) (v : F) : rampValue math v t next t = v := by
  have span : ¬ next.time - t ≤ 0 := not_le_of_gt (sub_pos.mpr later)
  unfold rampValue
  dsimp only
  split_ifs
  · rw [sub_self,zero_div,mul_zero,add_zero]
  · rfl
  · rw [sub_self,zero_div,power,mul_one]

theorem walk_start [IsStrictOrderedRing F] {math : Math F} (power : ∀ x,math.pow x 0 = 1)
    {rest : List (Event F)} {t : F} (later : ∀ r,rest.head? = some r → t < r.time) (v : F) :
    walk math t v v t rest = v := by
  cases rest with
  | nil => rfl
  | cons r rest =>
    have later := later r rfl
    rw [walk,if_pos later]
    split_ifs
    · exact rampValue_start power later v
    · rfl

theorem valueAtTime_of_ne_nil {math : Math F} {p : Param F} (some : p.events ≠ []) (s : F) :
    valueAtTime math p s = walk math s p.initial p.initial 0 p.events := by
  rw [valueAtTime]
  cases events : p.events with
  | nil => exact absurd events some
  | cons e rest => rfl

omit [FloorRing F] in
theorem Quiet.isOver {p : Param F} {t : F} (quiet : Quiet p t) {s : F} (later : t ≤ s) :
    ∀ e ∈ kept p t,e.time ≤ s ∧ e.finish ≤ s := by
  intro e mem
  obtain ⟨mem,early⟩ := List.mem_filter.mp mem
  have early : e.time ≤ t := of_decide_eq_true early
  refine ⟨early.trans later,?_⟩
  cases curve : e.kind.isCurve with
  | true => exact (quiet.curve e mem curve early).trans later
  | false =>
    rw [Event.finish_of_not_curve curve]
    exact early.trans later

omit [Field F] [FloorRing F] in
theorem dropped_later {p : Param F} {t : F} {r : Event F} (found : (dropped p t).head? = some r) : t < r.time :=
  of_decide_eq_true (List.mem_filter.mp (List.mem_of_head? found)).2

omit [Field F] [LinearOrder F] [FloorRing F] in
theorem EventKind.eq_set_of_same {kind : EventKind F} (same : kind.same .set = true) : kind = .set := by
  cases kind <;> first | rfl | cases same

omit [FloorRing F] in
theorem Quiet.last_settles {p : Param F} {t : F} (quiet : Quiet p t) (sorted : Sorted p.events)
    {e last : Event F} (isLast : (kept p t).getLast? = some last) (time : last.time = t) (mem : e ∈ kept p t)
    (set : e.kind = .set) (now : e.time = t) : last.kind.settles = true := by
  have inside : last ∈ p.events := (List.mem_filter.mp (List.mem_of_getLast? isLast)).1
  cases kind : last.kind with
  | target timeConstant =>
    exact absurd ⟨set,now⟩ (quiet.target last isLast (by rw [kind]; rfl) time e mem)
  | curve duration points =>
    have curve : last.kind.isCurve = true := by
      rw [kind]
      rfl
    have lasting := sorted.lasting last inside curve
    have finished := quiet.curve last inside curve time.le
    rw [time] at lasting
    exact absurd lasting (not_lt_of_ge finished)
  | _ => rfl

theorem cancelAndHold_events {math : Math F} (exactly : ∀ x,math.fround x = x) (p : Param F) (t : F) :
    (cancelAndHoldAtTime math p t).events = insertSorted ⟨.set,t,valueAtTime math p t⟩ (kept p t) := by
  rw [cancelAndHoldAtTime,exactly]
  rfl

omit [Field F] [FloorRing F] in
theorem kept_early (p : Param F) (t : F) : ∀ e ∈ kept p t,e.time ≤ t :=
  fun _ mem => of_decide_eq_true (List.mem_filter.mp mem).2

theorem cancelAndHold_after [IsStrictOrderedRing F] {math : Math F} (exactly : ∀ x,math.fround x = x)
    (power : ∀ x,math.pow x 0 = 1) {p : Param F} (sorted : Sorted p.events) {t : F} (quiet : Quiet p t)
    {s : F} (later : t ≤ s) : valueAtTime math (cancelAndHoldAtTime math p t) s = valueAtTime math p t := by
  have events := cancelAndHold_events exactly p t
  -- The new event is over at once.
  have new : ∀ v : F,(⟨.set,t,v⟩ : Event F).time ≤ s ∧ (⟨.set,t,v⟩ : Event F).finish ≤ s :=
    fun v => ⟨later,later⟩
  have value : ∀ {list : List (Event F)} {last : Event F},
      (cancelAndHoldAtTime math p t).events = list → (∀ e ∈ list,e.time ≤ s ∧ e.finish ≤ s) →
      list.getLast? = some last → last.kind.settles = true →
      valueAtTime math (cancelAndHoldAtTime math p t) s = last.value := by
    intro list last same isOver isLast settles
    have some : (cancelAndHoldAtTime math p t).events ≠ [] := by
      rw [same]
      rintro rfl
      cases isLast
    rw [valueAtTime_of_ne_nil some,same]
    have walked := walk_settled math isOver isLast settles [] (cancelAndHoldAtTime math p t).initial
      (cancelAndHoldAtTime math p t).initial 0
    rw [List.append_nil] at walked
    exact walked
  have place := @insertSorted_cases F _ ⟨.set,t,valueAtTime math p t⟩ (kept p t) (kept_early p t)
  rcases place with last | ⟨before,e,after,whole,time,same,inserted⟩
  · rw [last] at events
    refine value events ?_ List.getLast?_concat rfl
    rw [List.forall_mem_append,List.forall_mem_singleton]
    exact ⟨quiet.isOver later,new _⟩
  · rw [inserted] at events
    have set : e.kind = .set := EventKind.eq_set_of_same same
    have isOver := quiet.isOver later
    rw [whole,List.forall_mem_append,List.forall_mem_cons] at isOver
    have all : ∀ x ∈ before ++ ⟨.set,t,valueAtTime math p t⟩ :: after,x.time ≤ s ∧ x.finish ≤ s := by
      rw [List.forall_mem_append,List.forall_mem_cons]
      exact ⟨isOver.1,new _,isOver.2.2⟩
    rcases List.eq_nil_or_concat after with rfl | ⟨others,last,rfl⟩
    · exact value events all List.getLast?_concat rfl
    · rw [List.concat_eq_append] at events whole all
      -- The last event is at the time too, and has set the value that is held.
      have isLast : (kept p t).getLast? = some last := by
        rw [whole,← List.cons_append,← List.append_assoc]
        exact List.getLast?_concat
      have lastTime : last.time = t := by
        refine le_antisymm (kept_early p t last (List.mem_of_getLast? isLast)) ?_
        have order := (sorted.filter fun e => decide (e.time ≤ t)).sorted
        rw [show p.events.filter (fun e => decide (e.time ≤ t)) = kept p t from rfl,whole] at order
        have first := (List.pairwise_cons.mp (List.pairwise_append.mp order).2.1).1 last (by simp)
        rwa [time] at first
      have mem : e ∈ kept p t := by
        rw [whole]
        simp
      have settles := quiet.last_settles sorted isLast lastTime mem set time
      have isLast' : (before ++ ⟨.set,t,valueAtTime math p t⟩ :: (others ++ [last])).getLast? =
          some last := by
        rw [← List.cons_append,← List.append_assoc]
        exact List.getLast?_concat
      rw [value events all isLast' settles]
      have some : p.events ≠ [] := by
        intro none
        rw [kept,none] at mem
        cases mem
      rw [valueAtTime_of_ne_nil some,← kept_append_dropped sorted t,
        walk_settled math (quiet.isOver le_rfl) isLast settles,lastTime]
      exact (walk_start power (fun r found => dropped_later found) _).symm

omit [FloorRing F] in
theorem Quiet.upcoming {p : Param F} {t : F} (quiet : Quiet p t) (some : kept p t ≠ []) {s : F}
    (past : s < t) : Upcoming (kept p t) (dropped p t) s := by
  intro r found
  refine ⟨past.trans (dropped_later found),fun isRamp => ?_⟩
  rcases quiet.ramp r found isRamp with ⟨none,-⟩ | ⟨e,isLast,target | finish⟩
  · exact absurd none some
  · exact ⟨e,isLast,Or.inl target⟩
  · refine ⟨e,isLast,Or.inr ?_⟩
    rw [finish]
    exact past

omit [Field F] [FloorRing F] in
theorem upcoming_set [Field F] {events rest : List (Event F)} {t s v : F} (past : s < t) :
    Upcoming events (⟨.set,t,v⟩ :: rest) s := by
  intro r found
  cases found
  exact ⟨past,fun isRamp => nomatch isRamp⟩

theorem cancelAndHold_before {math : Math F} (exactly : ∀ x,math.fround x = x) {p : Param F}
    (sorted : Sorted p.events) {t : F} (quiet : Quiet p t) {s : F} (nonneg : 0 ≤ s) (past : s < t) :
    valueAtTime math (cancelAndHoldAtTime math p t) s = valueAtTime math p s := by
  have events := cancelAndHold_events exactly p t
  have initial : (cancelAndHoldAtTime math p t).initial = if kept p t = [] then p.base else p.initial := rfl
  have whole := kept_append_dropped sorted t
  by_cases none : kept p t = []
  · rw [none] at events whole
    rw [if_pos none] at initial
    rw [List.nil_append] at whole
    have value : valueAtTime math (cancelAndHoldAtTime math p t) s = p.base := by
      rw [valueAtTime_of_ne_nil (by rw [events]; exact List.cons_ne_nil _ _),events,initial]
      exact walk_upcoming math (upcoming_set past) _ _ _
    rw [value]
    have positive : t ≠ 0 := (nonneg.trans_lt past).ne'
    rcases quiet.start none with empty | zero | same
    · rw [valueAtTime,empty]
    · exact absurd zero positive
    · by_cases empty : p.events = []
      · rw [valueAtTime,empty]
      · rw [valueAtTime_of_ne_nil empty,← whole,same]
        refine (walk_upcoming math (fun r found => ⟨past.trans (dropped_later found),fun isRamp => ?_⟩)
          _ _ _).symm
        rcases quiet.ramp r found isRamp with ⟨-,zero⟩ | ⟨e,isLast,-⟩
        · exact absurd zero positive
        · rw [none] at isLast
          cases isLast
  · rw [if_neg none] at initial
    have some : p.events ≠ [] := by
      intro empty
      rw [kept,empty] at none
      exact none rfl
    rw [valueAtTime_of_ne_nil some,← whole]
    have place := @insertSorted_cases F _ ⟨.set,t,valueAtTime math p t⟩ (kept p t) (kept_early p t)
    rcases place with last | ⟨before,e,after,split,time,same,inserted⟩
    · rw [last] at events
      rw [valueAtTime_of_ne_nil (by rw [events]; simp),events,initial]
      exact walk_past math (upcoming_set past) (quiet.upcoming none past) _ _ _
    · rw [inserted] at events
      rw [valueAtTime_of_ne_nil (by rw [events]; simp),events,initial,split,List.append_assoc]
      obtain ⟨kind,now,v⟩ := e
      obtain rfl : now = t := time
      obtain rfl : kind = .set := EventKind.eq_set_of_same same
      exact walk_past math (upcoming_set past) (upcoming_set past) _ _ _

/-- Where nothing runs at the time, the values up to it stay and from it on its value is held, whatever
calls have made the timeline. -/
theorem cancelAndHold_quiet [IsStrictOrderedRing F] {math : Math F} (exactly : ∀ x,math.fround x = x)
    (power : ∀ x,math.pow x 0 = 1) (default : F) (min max : Option F) (actions : List (Action F)) (t : F)
    (quiet : Quiet (actions.foldl (act math) (newParam default min max)) t) :
    let p := actions.foldl (act math) (newParam default min max)
    (∀ s,0 ≤ s → s ≤ t → valueAtTime math (cancelAndHoldAtTime math p t) s = valueAtTime math p s) ∧
      ∀ s,t ≤ s → valueAtTime math (cancelAndHoldAtTime math p t) s = valueAtTime math p t := by
  have sorted := @Sorted.run F _ _ _ _ math (newParam default min max)
    ⟨List.Pairwise.nil,fun e mem => nomatch mem⟩ actions
  refine ⟨fun s nonneg past => ?_,fun s later => cancelAndHold_after exactly power sorted quiet later⟩
  rcases past.lt_or_eq with past | rfl
  · exact cancelAndHold_before exactly sorted quiet nonneg past
  · exact cancelAndHold_after exactly power sorted quiet le_rfl

def setTwice : List (Action ℚ) := [.call (.setValueAtTime 1 0),.call (.setValueAtTime 2 10)]

theorem setTwice_quiet : Quiet (setTwice.foldl (act sampleMath) (newParam 0 none none)) 5 := by
  have events : (setTwice.foldl (act sampleMath) (newParam 0 none none)).events =
      [⟨.set,0,1⟩,⟨.set,10,2⟩] := by rfl
  have before : kept (setTwice.foldl (act sampleMath) (newParam 0 none none)) 5 = [⟨.set,0,1⟩] := by
    rw [kept,events]
    rfl
  have after : dropped (setTwice.foldl (act sampleMath) (newParam 0 none none)) 5 = [⟨.set,10,2⟩] := by
    rw [dropped,events]
    rfl
  constructor
  · rw [events]
    decide
  · rw [after]
    intro r found isRamp
    cases found
    cases isRamp
  · rw [before]
    intro e found isTarget
    cases found
    cases isTarget
  · rw [before]
    intro none
    cases none

theorem cancelAndHold_quiet_setTwice :
    let p := setTwice.foldl (act sampleMath) (newParam (0 : ℚ) none none)
    (∀ s,0 ≤ s → s ≤ 5 →
        valueAtTime sampleMath (cancelAndHoldAtTime sampleMath p 5) s = valueAtTime sampleMath p s) ∧
      ∀ s,5 ≤ s →
        valueAtTime sampleMath (cancelAndHoldAtTime sampleMath p 5) s = valueAtTime sampleMath p 5 :=
  @cancelAndHold_quiet ℚ _ _ _ _ sampleMath (fun _ => rfl) (fun x => by simp [sampleMath]) 0 none none
    setTwice 5 setTwice_quiet

/-- A ramp that is dropped while it runs: the value before was on it. -/
theorem sample_dropped_ramp : ¬ ∀ (actions : List (Action ℚ)) (t : ℚ),
    let p := actions.foldl (act sampleMath) (newParam 0 none none)
    (∀ s,0 ≤ s → s ≤ t →
        valueAtTime sampleMath (cancelAndHoldAtTime sampleMath p t) s = valueAtTime sampleMath p s) ∧
      ∀ s,t ≤ s →
        valueAtTime sampleMath (cancelAndHoldAtTime sampleMath p t) s = valueAtTime sampleMath p t := by
  intro all
  have := (all [.call (.setValueAtTime 0 0),.call (.linearRampToValueAtTime 10 10)] 5).1 2 (by decide)
    (by decide)
  revert this
  decide +kernel

end Sharko.Script.WebAudio
