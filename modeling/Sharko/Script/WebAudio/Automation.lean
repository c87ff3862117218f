import Mathlib.Algebra.Order.Floor.Ring
import Mathlib.Algebra.Order.Field.Basic
import Mathlib.Data.List.Pairwise

/-! The timeline of an audio parameter: its events, the value at a time, and the values of a quantum.
Times and values are exact; the power, the exponential and the rounding of stored values are given. -/

namespace Sharko.Script.WebAudio

/-- The functions of the run time. Rounding to a single leaves a single alone. -/
structure Math (F : Type) where
  pow : F → F → F
  exp : F → F
  fround : F → F
  fround_fround : ∀ x,fround (fround x) = fround x

inductive EventKind (F : Type) where
  | set
  | linear
  | exponential
  | target (timeConstant : F)
  | curve (duration : F) (points : List F)
  deriving DecidableEq

/-- For a target the value is where it goes, for a curve its last point. -/
structure Event (F : Type) where
  kind : EventKind F
  time : F
  value : F
  deriving DecidableEq

structure Param (F : Type) where
  base : F
  initial : F
  current : F
  events : List (Event F) := []
  kRate : Bool := false
  min : Option F := none
  max : Option F := none
  deriving DecidableEq

inductive Rejection where
  | negativeTime
  | zeroValue
  | negativeTimeConstant
  | shortCurve
  | nonpositiveDuration
  | overlap
  deriving DecidableEq

section

variable {F : Type} [Field F] [LinearOrder F] [FloorRing F]

namespace EventKind

def same : EventKind F → EventKind F → Bool
  | set,set | linear,linear | exponential,exponential | target _,target _ | curve _ _,curve _ _ => true
  | _,_ => false

def isCurve : EventKind F → Bool
  | curve _ _ => true
  | _ => false

def isRamp : EventKind F → Bool
  | linear | exponential => true
  | _ => false

def settles : EventKind F → Bool
  | set | linear | exponential => true
  | _ => false

end EventKind

def Event.finish (e : Event F) : F :=
  match e.kind with
  | .curve duration _ => e.time + duration
  | _ => e.time

omit [LinearOrder F] [FloorRing F] in
theorem Event.finish_of_not_curve {e : Event F} (noCurve : e.kind.isCurve = false) : e.finish = e.time := by
  unfold Event.finish
  cases kind : e.kind with
  | curve duration points =>
    rw [kind] at noCurve
    cases noCurve
  | _ => rfl

omit [Field F] [LinearOrder F] [FloorRing F] in
theorem EventKind.not_curve_of_settles {kind : EventKind F} (settles : kind.settles = true) :
    kind.isCurve = false := by
  cases kind with
  | curve duration points => cases settles
  | _ => rfl

variable (math : Math F)

def rampValue (prevValue prevTime : F) (next : Event F) (t : F) : F :=
  let span := next.time - prevTime
  if next.kind = .linear then
    if span ≤ 0 then next.value else prevValue + (next.value - prevValue) * ((t - prevTime) / span)
  else if span ≤ 0 ∨ prevValue = 0 ∨ (decide (prevValue < 0) ≠ decide (next.value < 0)) then prevValue
  else prevValue * math.pow (next.value / prevValue) ((t - prevTime) / span)

def targetValue (e : Event F) (timeConstant start t : F) : F :=
  if timeConstant = 0 then e.value
  else e.value + (start - e.value) * math.exp (-(t - e.time) / timeConstant)

def curveValue (e : Event F) (duration : F) (points : List F) (t : F) : F :=
  let pos := (points.length - 1 : ℕ) * (t - e.time) / duration
  let k := min (points.length - 2 : ℤ) ⌊pos⌋
  points.getD k.toNat 0 + (points.getD (k.toNat + 1) 0 - points.getD k.toNat 0) * (pos - k)

def walk (t value prevValue prevTime : F) : List (Event F) → F
  | [] => value
  | e :: rest =>
    if t < e.time then if e.kind.isRamp then rampValue math prevValue prevTime e t else value
    else match e.kind with
      | .set | .linear | .exponential => walk t e.value e.value e.time rest
      | .target timeConstant =>
        match rest with
        | [] => targetValue math e timeConstant value t
        | next :: _ =>
          if t < next.time then targetValue math e timeConstant value t
          else
            let value := targetValue math e timeConstant value next.time
            walk t value value next.time rest
      | .curve duration points =>
        if t < e.time + duration then curveValue e duration points t
        else
          let value := points.getLastD 0
          walk t value value (e.time + duration) rest

def valueAtTime (p : Param F) (t : F) : F :=
  match p.events with
  | [] => p.base
  | _ => walk math t p.initial p.initial 0 p.events

def insertSorted (ev : Event F) : List (Event F) → List (Event F)
  | [] => [ev]
  | e :: rest =>
    if e.time ≤ ev.time then
      if e.time = ev.time ∧ e.kind.same ev.kind = true ∧ ev.kind.isCurve = false then ev :: rest
      else e :: insertSorted ev rest
    else ev :: e :: rest

def insertEvent (p : Param F) (ev : Event F) : Param F :=
  { p with
    initial := if p.events = [] then p.base else p.initial
    events := insertSorted ev p.events }

def overlaps (t d : F) (e : Event F) : Bool :=
  match e.kind with
  | .curve _ _ => decide (t < e.finish ∧ e.time < t + d)
  | _ => decide (t < e.time ∧ e.time < t + d)

def newParam (default : F) (min max : Option F) : Param F :=
  { base := default,initial := default,current := default,min := min,max := max }

inductive Call (F : Type) where
  | setValue (now v : F)
  | setValueAtTime (v t : F)
  | linearRampToValueAtTime (v t : F)
  | exponentialRampToValueAtTime (v t : F)
  | setTargetAtTime (v t timeConstant : F)
  | setValueCurveAtTime (values : List F) (t d : F)
  | cancelScheduledValues (t : F)
  | cancelAndHoldAtTime (t : F)

def cancelAndHoldAtTime (p : Param F) (t : F) : Param F :=
  let held := valueAtTime math p t
  insertEvent { p with events := p.events.filter fun e => decide (e.time ≤ t) }
    ⟨.set,t,math.fround held⟩

def schedule (p : Param F) : Call F → Except Rejection (Param F)
  | .setValue now v =>
    let n := math.fround v
    let p := if p.events = [] then { p with base := n,current := n,initial := n } else { p with current := n }
    .ok (insertEvent p ⟨.set,now,n⟩)
  | .setValueAtTime v t =>
    if t < 0 then .error .negativeTime else .ok (insertEvent p ⟨.set,t,math.fround v⟩)
  | .linearRampToValueAtTime v t =>
    if t < 0 then .error .negativeTime else .ok (insertEvent p ⟨.linear,t,math.fround v⟩)
  | .exponentialRampToValueAtTime v t =>
    if t < 0 then .error .negativeTime
    else if math.fround v = 0 then .error .zeroValue
    else .ok (insertEvent p ⟨.exponential,t,math.fround v⟩)
  | .setTargetAtTime v t timeConstant =>
    if t < 0 then .error .negativeTime
    else if timeConstant < 0 then .error .negativeTimeConstant
    else .ok (insertEvent p ⟨.target timeConstant,t,math.fround v⟩)
  | .setValueCurveAtTime values t d =>
    let arr := values.map math.fround
    if t < 0 then .error .negativeTime
    else if arr.length < 2 then .error .shortCurve
    else if d ≤ 0 then .error .nonpositiveDuration
    else if p.events.any (overlaps t d) then .error .overlap
    else .ok (insertEvent p ⟨.curve d arr,t,arr.getLastD 0⟩)
  | .cancelScheduledValues t =>
    if t < 0 then .error .negativeTime
    else .ok { p with
      events := p.events.filter fun e => decide (e.time < t) && !(e.kind.isCurve && decide (t < e.finish)) }
  | .cancelAndHoldAtTime t =>
    if t < 0 then .error .negativeTime else .ok (cancelAndHoldAtTime math p t)

def settled (p : Param F) (t0 : F) : Option F :=
  p.events.getLast?.bind fun last => if last.time ≤ t0 ∧ last.kind.settles = true then some last.value else none

/-- The values that the timeline puts into the buffer, which holds singles, and whether they vary. -/
def timelineValues (p : Param F) (startFrame n : ℕ) (sr : F) : Param F × List F × Bool :=
  let t0 := startFrame / sr
  let t1 := (startFrame + n : ℕ) / sr
  match p.events with
  | [] => ({ p with current := p.base },List.replicate n (math.fround p.base),false)
  | first :: _ =>
    match settled p t0 with
    | some v => ({ p with current := v,base := v },List.replicate n (math.fround v),false)
    | none =>
      let v := math.fround (valueAtTime math p t0)
      if p.kRate ∨ t1 ≤ first.time ∧ first.kind.isRamp = false then
        ({ p with current := v },List.replicate n (math.fround v),false)
      else
        let buf := (List.range n).map fun i => math.fround (valueAtTime math p ((startFrame + i : ℕ) / sr))
        ({ p with current := buf.headD p.current },buf,true)

def clamp (p : Param F) (v : F) : F :=
  match p.min,p.max with
  | some lo,some hi => if v < lo then math.fround lo else if hi < v then math.fround hi else v
  | some lo,none => if v < lo then math.fround lo else v
  | none,some hi => if hi < v then math.fround hi else v
  | none,none => v

def computeParam (p : Param F) (startFrame n : ℕ) (sr : F) (sum : Option (List F)) :
    Param F × List F × Bool :=
  let (p,buf,varies) := timelineValues math p startFrame n sr
  let (buf,varies) := match sum with
    | some sum => (buf.zipWith (fun x y => math.fround (x + y)) sum,true)
    | none => (buf,varies)
  (p,buf.map (clamp math p),varies)

end

end Sharko.Script.WebAudio
