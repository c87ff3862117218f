import Sharko.Common.DisplayList
import Sharko.Library.Runs

/-! Frames from the renderer of a tab to the browser process (`produce_frame` and
`load_html` in `crates/engine/src/renderer.rs`, `Shared::send` in `host.rs`,
`process_event` and `respawn_tab` in `crates/browser/src/lib.rs`). What a scene draws,
and whether the transport takes the frame, is up to the action. -/

namespace Sharko.Engine.Frames
open Library Common Display

structure Frame (Data Geometry : Type) where
  seq : Nat
  geometry : Geometry
  captureId : Option Nat
  list : DisplayList Data

structure Page (Data Geometry : Type) where
  lastSent : Option (Geometry × List (Cmd Data))

structure Tab (Data Geometry : Type) where
  /-- The renderer process. -/
  sent : SentResources
  page : Option (Page Data Geometry)
  frameSeq : Nat
  inFlight : List (Frame Data Geometry)
  undelivered : List (DisplayList Data)
  /-- The browser process. -/
  resources : ResourceCache
  frame : Option (Frame Data Geometry)
  applied : List (Frame Data Geometry)

inductive Action (Data Geometry : Type) where
  | loadHtml
  | produceFrame (scene : List (PaintOp Data)) (geometry : Geometry) (capture : Option Nat) (took : Bool)
  | deliver
  | respawnTab

namespace Tab
variable {Data Geometry : Type} [DecidableEq Data] [DecidableEq Geometry]

def new : Tab Data Geometry where
  sent := .empty
  page := none
  frameSeq := 0
  inFlight := []
  undelivered := []
  resources := .empty
  frame := none
  applied := []

def send (s : Tab Data Geometry) (frame : Frame Data Geometry) (took : Bool) : Tab Data Geometry :=
  if took then {s with inFlight := s.inFlight ++ [frame]}
  else {s with undelivered := s.undelivered ++ [frame.list]}

def produceFrame (s : Tab Data Geometry) (scene : List (PaintOp Data)) (geometry : Geometry)
    (capture : Option Nat) (took : Bool) : Tab Data Geometry :=
  match s.page with
  | none => s
  | some page =>
    let recorder := DisplayListRecorder.record s.sent scene
    let list := recorder.list
    let unchanged := capture.isNone && list.newFonts.isEmpty && list.newImages.isEmpty &&
      page.lastSent == some (geometry,list.cmds)
    if unchanged then {s with sent := recorder.sent}
    else
      {s with
        sent := recorder.sent
        page := some ⟨if capture.isNone then some (geometry,list.cmds) else none⟩
        frameSeq := s.frameSeq + 1}.send ⟨s.frameSeq + 1,geometry,capture,list⟩ took

def step (s : Tab Data Geometry) : Action Data Geometry → Option (Tab Data Geometry)
  -- The "already sent" set is kept: fonts are shared across documents.
  | .loadHtml => some {s with page := some ⟨none⟩}
  | .produceFrame scene geometry capture took => some (s.produceFrame scene geometry capture took)
  | .deliver =>
    match s.inFlight with
    | [] => none
    | frame :: rest => some {s with
        inFlight := rest
        resources := s.resources.ingest frame.list
        frame := if frame.captureId.isSome then s.frame
          else some {frame with list := {frame.list with newFonts := [], newImages := []}}
        applied := s.applied ++ [frame]}
  | .respawnTab => some new

end Tab

section
variable {Data Geometry : Type} {s s' : Tab Data Geometry}

/-- Every frame that was applied has its resources. -/
def Displayable (s : Tab Data Geometry) : Prop := ∀ frame ∈ s.applied, Complete frame.list s.resources

/-- The data of the resource went with a frame that was not delivered. -/
def Lost (s : Tab Data Geometry) (r : Resource) : Prop := ∃ list ∈ s.undelivered, list.carries r

/-- A frame that is delivered draws with nothing that was lost. -/
def Unharmed (s : Tab Data Geometry) : Action Data Geometry → Prop
  | .deliver => ∀ frame ∈ s.inFlight.head?, ∀ r, frame.list.uses r → ¬ Lost s r
  | _ => True

structure Tracked (s : Tab Data Geometry) : Prop where
  known : ∀ r, s.sent.has r ↔ s.resources.has r ∨ (∃ frame ∈ s.inFlight, frame.list.carries r) ∨ Lost s r
  apart : ∀ r, Lost s r → ¬ s.resources.has r ∧ ∀ frame ∈ s.inFlight, ¬ frame.list.carries r
  uses : ∀ before frame after, s.inFlight = before ++ frame :: after → ∀ r, frame.list.uses r →
    s.resources.has r ∨ (∃ earlier ∈ before ++ [frame], earlier.list.carries r) ∨ Lost s r

theorem new_tracked : Tracked (Tab.new : Tab Data Geometry) := by
  refine ⟨?_,?_,by simp [Tab.new]⟩
  · intro r
    cases r <;> simp [Tab.new,SentResources.empty,SentResources.has,ResourceCache.empty,ResourceCache.has,Lost]
  · rintro r ⟨list,member,_⟩
    cases member

theorem Tracked.send (ok : Tracked s) {rec : DisplayListRecorder Data} (recorded : Recorded s.sent rec)
    (frame : Frame Data Geometry) (list : frame.list = rec.list) (page : Option (Page Data Geometry))
    (seq : Nat) (took : Bool) :
    Tracked ({s with sent := rec.sent, page := page, frameSeq := seq}.send frame took) := by
  have unknown : ∀ r, rec.list.carries r → ¬ s.resources.has r ∧
      (∀ frame ∈ s.inFlight, ¬ frame.list.carries r) ∧ ¬ Lost s r := by
    intro r carried
    have unsent := recorded.apart r carried
    rw [ok.known r,not_or,not_or] at unsent
    obtain ⟨uncached,unsent,unlost⟩ := unsent
    exact ⟨uncached,fun frame member carries => unsent ⟨frame,member,carries⟩,unlost⟩
  cases took with
  | true =>
    refine ⟨?_,?_,?_⟩
    · intro r
      show rec.sent.has r ↔ s.resources.has r ∨
        (∃ other ∈ s.inFlight ++ [frame], other.list.carries r) ∨ Lost s r
      rw [recorded.known r,ok.known r]
      simp only [List.mem_append,List.mem_singleton,or_and_right,exists_or,exists_eq_left,list]
      grind
    · intro r lost
      have lost : Lost s r := lost
      obtain ⟨uncached,others⟩ := ok.apart r lost
      refine ⟨uncached,?_⟩
      intro other member carries
      rcases List.mem_append.mp member with old | new
      · exact others other old carries
      · rw [List.mem_singleton.mp new,list] at carries
        exact (unknown r carries).2.2 lost
    · intro before last after split r uses
      have split : s.inFlight ++ [frame] = before ++ last :: after := split
      show s.resources.has r ∨ (∃ earlier ∈ before ++ [last], earlier.list.carries r) ∨ Lost s r
      rcases List.eq_nil_or_concat after with rfl | ⟨middle,final,rfl⟩
      · obtain ⟨rfl,same⟩ := List.append_inj' split rfl
        cases same
        have has := recorded.uses r (list ▸ uses)
        rw [recorded.known r,ok.known r] at has
        simp only [List.mem_append,List.mem_singleton,or_and_right,exists_or,exists_eq_left,list]
        grind
      · have inside : s.inFlight = before ++ last :: middle := by
          have split' : s.inFlight ++ [frame] = (before ++ last :: middle) ++ [final] := by
            simpa using split
          exact (List.append_inj' split' rfl).1
        exact ok.uses before last middle inside r uses
  | false =>
    have grown : ∀ r, Lost ({s with sent := rec.sent, page := page, frameSeq := seq}.send frame false) r ↔
        Lost s r ∨ rec.list.carries r := by
      intro r
      show (∃ other ∈ s.undelivered ++ [frame.list], other.carries r) ↔ _
      simp only [List.mem_append,List.mem_singleton,or_and_right,exists_or,exists_eq_left,list,Lost]
    refine ⟨?_,?_,?_⟩
    · intro r
      rw [grown r]
      show rec.sent.has r ↔ s.resources.has r ∨ (∃ other ∈ s.inFlight, other.list.carries r) ∨ _
      rw [recorded.known r,ok.known r]
      grind
    · intro r lost
      rcases (grown r).mp lost with old | new
      · exact ok.apart r old
      · exact ⟨(unknown r new).1,(unknown r new).2.1⟩
    · intro before last after split r uses
      rw [grown r]
      have has := ok.uses before last after split r uses
      show s.resources.has r ∨ (∃ earlier ∈ before ++ [last], earlier.list.carries r) ∨ _
      grind

theorem Tracked.deliver (ok : Tracked s) {frame : Frame Data Geometry} {rest : List (Frame Data Geometry)}
    (queue : s.inFlight = frame :: rest) (shown : Option (Frame Data Geometry)) : Tracked {s with
      inFlight := rest
      resources := s.resources.ingest frame.list
      frame := shown
      applied := s.applied ++ [frame]} := by
  refine ⟨?_,?_,?_⟩
  · intro r
    show s.sent.has r ↔ (s.resources.ingest frame.list).has r ∨ (∃ other ∈ rest, other.list.carries r) ∨ Lost s r
    rw [ok.known r,ingest_has,queue]
    simp only [List.mem_cons,or_and_right,exists_or,exists_eq_left]
    grind
  · intro r lost
    obtain ⟨uncached,others⟩ := ok.apart r lost
    rw [queue] at others
    refine ⟨?_,fun other member => others other (List.mem_cons_of_mem _ member)⟩
    simp only [ingest_has,not_or]
    exact ⟨uncached,others frame List.mem_cons_self⟩
  · intro before last after split r uses
    have has := ok.uses (frame :: before) last after (by rw [queue]; exact congrArg _ split) r uses
    show (s.resources.ingest frame.list).has r ∨ (∃ earlier ∈ before ++ [last], earlier.list.carries r) ∨ Lost s r
    rw [ingest_has]
    simp only [List.cons_append,List.mem_cons,or_and_right,exists_or,exists_eq_left] at has
    grind

variable [DecidableEq Data] [DecidableEq Geometry]

theorem Tracked.produceFrame (ok : Tracked s) (scene : List (PaintOp Data)) (geometry : Geometry)
    (capture : Option Nat) (took : Bool) : Tracked (s.produceFrame scene geometry capture took) := by
  have recorded := record_recorded s.sent scene
  unfold Tab.produceFrame
  cases s.page with
  | none => exact ok
  | some page =>
    simp only
    split
    · rename_i unchanged
      have nothing : ∀ r, ¬ (DisplayListRecorder.record s.sent scene).list.carries r := by
        simp only [Bool.and_eq_true,List.isEmpty_iff] at unchanged
        obtain ⟨⟨⟨_,fonts⟩,images⟩,_⟩ := unchanged
        intro r
        cases r <;> simp [DisplayList.carries,fonts,images]
      refine ⟨?_,ok.apart,ok.uses⟩
      intro r
      show (DisplayListRecorder.record s.sent scene).sent.has r ↔ _
      rw [recorded.known r,ok.known r]
      simp only [nothing r,or_false]
      rfl
    · exact ok.send recorded _ rfl _ _ took

theorem produceFrame_applied (s : Tab Data Geometry) (scene : List (PaintOp Data)) (geometry : Geometry) (capture : Option Nat)
    (took : Bool) : (s.produceFrame scene geometry capture took).applied = s.applied ∧
      (s.produceFrame scene geometry capture took).resources = s.resources := by
  unfold Tab.produceFrame
  cases s.page with
  | none => exact ⟨rfl,rfl⟩
  | some page =>
    simp only
    split
    · exact ⟨rfl,rfl⟩
    · cases took <;> exact ⟨rfl,rfl⟩

theorem step_displayable (ok : Tracked s) (shown : Displayable s) {a : Action Data Geometry}
    (taken : s.step a = some s') : Tracked s' ∧ (Displayable s' ↔ Unharmed s a) := by
  cases a with
  | loadHtml =>
    cases taken
    exact ⟨⟨ok.known,ok.apart,ok.uses⟩,iff_of_true shown trivial⟩
  | produceFrame scene geometry capture took =>
    cases taken
    refine ⟨ok.produceFrame scene geometry capture took,iff_of_true ?_ trivial⟩
    obtain ⟨applied,resources⟩ := produceFrame_applied s scene geometry capture took
    intro frame member
    rw [applied] at member
    rw [resources]
    exact shown frame member
  | deliver =>
    cases queue : s.inFlight with
    | nil => simp [Tab.step,queue] at taken
    | cons frame rest =>
      simp only [Tab.step,queue,Option.some.injEq] at taken
      subst taken
      refine ⟨ok.deliver queue _,?_⟩
      have earlier : ∀ other ∈ s.applied, Complete other.list (s.resources.ingest frame.list) := by
        intro other member r uses
        exact (ingest_has _ _ r).mpr (.inl (shown other member r uses))
      constructor
      · intro later head inside r uses lost
        rw [queue] at inside
        cases inside
        have has := later frame (List.mem_append_right _ (List.mem_singleton.mpr rfl)) r uses
        obtain ⟨uncached,others⟩ := ok.apart r lost
        rcases (ingest_has _ _ r).mp has with old | new
        · exact uncached old
        · exact others frame (by rw [queue]; exact List.mem_cons_self) new
      · intro unharmed other member
        rcases List.mem_append.mp member with old | new
        · exact earlier other old
        · rw [List.mem_singleton.mp new]
          intro r uses
          rcases ok.uses [] frame rest queue r uses with cached | ⟨carrier,inside,carries⟩ | lost
          · exact (ingest_has _ _ r).mpr (.inl cached)
          · rw [List.nil_append,List.mem_singleton] at inside
            rw [inside] at carries
            exact (ingest_has _ _ r).mpr (.inr carries)
          · exact absurd lost (unharmed frame (by rw [queue]; rfl) r uses)
  | respawnTab =>
    cases taken
    refine ⟨new_tracked,iff_of_true ?_ trivial⟩
    intro frame member
    cases member

end

/-- The frames that are applied have their resources all along a run exactly if none of
them draws with a font or an image whose data went with a frame that was not delivered. -/
theorem displayable_iff {Data Geometry : Type} [DecidableEq Data] [DecidableEq Geometry]
    (actions : List (Action Data Geometry)) :
    Runs.Always Tab.step Displayable Tab.new actions ↔ Runs.Guarded Tab.step Unharmed Tab.new actions := by
  have kept : ∀ (s : Tab Data Geometry) a s', Tracked s → Displayable s → s.step a = some s' →
      Tracked s' ∧ (Displayable s' ↔ Unharmed s a) :=
    fun s a s' ok shown taken => step_displayable ok shown taken
  apply Runs.always_iff_guarded_unrefused Tab.step kept ?_ actions Tab.new new_tracked (by simp [Displayable,Tab.new])
  intro s a refused
  cases a with
  | deliver =>
    intro frame inside
    cases queue : s.inFlight with
    | nil =>
      rw [queue] at inside
      cases inside
    | cons first rest => simp [Tab.step,queue] at refused
  | _ => trivial

/-- A frame with an image is refused; the next one only names it. -/
theorem image_never_sent : ¬ Runs.Always Tab.step Displayable (Tab.new : Tab Unit Unit) [.loadHtml,
         .produceFrame [.fill () (.image ⟨⟨7,[0]⟩,1,1,false,false⟩ ())] () none false,
         .produceFrame [.fill () (.image ⟨⟨7,[0]⟩,1,1,false,false⟩ ()),.other ()] () none true, .deliver] := by
  intro always
  have shown := Runs.always_final Tab.step always rfl
  have uses : DisplayList.uses ⟨[.fill () (.image 7 ()),.other ()],[],[]⟩ (.image 7) :=
    ⟨.fill () (.image 7 ()),List.mem_cons_self,rfl⟩
  have has : (none : Option ImageData).isSome = true := shown _ List.mem_cons_self (.image 7) uses
  cases has

end Sharko.Engine.Frames
