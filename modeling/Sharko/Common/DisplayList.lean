import Mathlib.Data.Finset.Basic
import Mathlib.Logic.Function.Basic

/-! Display lists (`crates/common/src/display_list.rs`): the recorder sends a font or an
image along the first time a page draws with it, the receiver keeps what it was sent.
`Data` is what a command draws apart from its resources (shapes, transforms, colors,
glyph positions). -/

namespace Sharko.Common.Display

structure Blob where
  id : Nat
  data : List UInt8
deriving DecidableEq

structure FontData where
  data : Blob
  index : Nat
deriving DecidableEq

structure ImageData where
  data : Blob
  width : Nat
  height : Nat
  bgra : Bool
  premultiplied : Bool
deriving DecidableEq

structure FontResource where
  id : Nat
  data : List UInt8
deriving DecidableEq

structure ImageResource where
  id : Nat
  width : Nat
  height : Nat
  format : Nat
  alphaType : Nat
  data : List UInt8
deriving DecidableEq

inductive Paint (Data : Type) where
  | solid (color : Data)
  | gradient (gradient : Data)
  | image (image : ImageData) (sampler : Data)
  | unsupported

inductive BrushData (Data : Type) where
  | solid (color : Data)
  | gradient (gradient : Data)
  | image (id : Nat) (sampler : Data)
  | none
deriving DecidableEq

inductive Cmd (Data : Type) where
  | fill (data : Data) (brush : BrushData Data)
  | stroke (data : Data) (brush : BrushData Data)
  | glyphs (data : Data) (fontId fontIndex : Nat) (brush : BrushData Data)
  | other (data : Data)
deriving DecidableEq

structure DisplayList (Data : Type) where
  cmds : List (Cmd Data)
  newFonts : List FontResource
  newImages : List ImageResource
deriving DecidableEq

def DisplayList.empty {Data : Type} : DisplayList Data := ⟨[],[],[]⟩

/-- The ids that the receiver is taken to have. -/
structure SentResources where
  fonts : Finset Nat
  images : Finset Nat

def SentResources.empty : SentResources := ⟨∅,∅⟩

structure DisplayListRecorder (Data : Type) where
  list : DisplayList Data
  sent : SentResources

inductive PaintOp (Data : Type) where
  | reset
  | fill (data : Data) (paint : Paint Data)
  | stroke (data : Data) (paint : Paint Data)
  | glyphs (data : Data) (font : FontData) (paint : Paint Data)
  | other (data : Data)

def imageResource (image : ImageData) : ImageResource where
  id := image.data.id
  width := image.width
  height := image.height
  format := if image.bgra then 1 else 0
  alphaType := if image.premultiplied then 1 else 0
  data := image.data.data

section
variable {Data : Type}

namespace DisplayListRecorder

def brush (rec : DisplayListRecorder Data) : Paint Data → DisplayListRecorder Data × BrushData Data
  | .solid color => (rec,.solid color)
  | .gradient gradient => (rec,.gradient gradient)
  | .image image sampler =>
    (if image.data.id ∈ rec.sent.images then rec
      else {
        sent := {rec.sent with images := insert image.data.id rec.sent.images}
        list := {rec.list with newImages := rec.list.newImages ++ [imageResource image]}},
     .image image.data.id sampler)
  | .unsupported => (rec,.none)

def font (rec : DisplayListRecorder Data) (font : FontData) : DisplayListRecorder Data × Nat :=
  (if font.data.id ∈ rec.sent.fonts then rec
    else {
      sent := {rec.sent with fonts := insert font.data.id rec.sent.fonts}
      list := {rec.list with newFonts := rec.list.newFonts ++ [⟨font.data.id,font.data.data⟩]}},
   font.data.id)

def push (rec : DisplayListRecorder Data) (cmd : Cmd Data) : DisplayListRecorder Data :=
  {rec with list := {rec.list with cmds := rec.list.cmds ++ [cmd]}}

def perform (rec : DisplayListRecorder Data) : PaintOp Data → DisplayListRecorder Data
  | .reset => {rec with list := {rec.list with cmds := []}}
  | .fill data paint =>
    let (rec,brush) := rec.brush paint
    rec.push (.fill data brush)
  | .stroke data paint =>
    let (rec,brush) := rec.brush paint
    rec.push (.stroke data brush)
  | .glyphs data font paint =>
    let (rec,fontId) := rec.font font
    let (rec,brush) := rec.brush paint
    rec.push (.glyphs data fontId font.index brush)
  | .other data => rec.push (.other data)

def record (sent : SentResources) (scene : List (PaintOp Data)) : DisplayListRecorder Data :=
  scene.foldl perform ⟨.empty,sent⟩

end DisplayListRecorder

structure ResourceCache where
  fonts : Nat → Option (List UInt8)
  images : Nat → Option ImageData

def ResourceCache.empty : ResourceCache := ⟨fun _ => none,fun _ => none⟩

def ResourceCache.addFont (cache : ResourceCache) (f : FontResource) : ResourceCache :=
  {cache with fonts := Function.update cache.fonts f.id (some f.data)}

def ResourceCache.addImage (cache : ResourceCache) (i : ImageResource) : ResourceCache :=
  let image := ⟨⟨i.id,i.data⟩,i.width,i.height,i.format == 1,i.alphaType == 1⟩
  {cache with images := Function.update cache.images i.id (some image)}

def ResourceCache.ingest (cache : ResourceCache) (list : DisplayList Data) : ResourceCache :=
  list.newImages.foldl addImage (list.newFonts.foldl addFont cache)

inductive Resource where
  | font (id : Nat)
  | image (id : Nat)
deriving DecidableEq

def SentResources.has (sent : SentResources) : Resource → Prop
  | .font id => id ∈ sent.fonts
  | .image id => id ∈ sent.images

def ResourceCache.has (cache : ResourceCache) : Resource → Prop
  | .font id => (cache.fonts id).isSome
  | .image id => (cache.images id).isSome

def DisplayList.carries (list : DisplayList Data) : Resource → Prop
  | .font id => ∃ f ∈ list.newFonts, f.id = id
  | .image id => ∃ i ∈ list.newImages, i.id = id

def BrushData.uses : BrushData Data → Resource → Prop
  | .image id _,r => r = .image id
  | _,_ => False

def Cmd.uses : Cmd Data → Resource → Prop
  | .fill _ brush,r => brush.uses r
  | .stroke _ brush,r => brush.uses r
  | .glyphs _ fontId _ brush,r => r = .font fontId ∨ brush.uses r
  | .other _,_ => False

def DisplayList.uses (list : DisplayList Data) (r : Resource) : Prop := ∃ cmd ∈ list.cmds, cmd.uses r

def Complete (list : DisplayList Data) (cache : ResourceCache) : Prop := ∀ r, list.uses r → cache.has r

theorem addFonts_has (fonts : List FontResource) (cache : ResourceCache) (r : Resource) :
    (fonts.foldl ResourceCache.addFont cache).has r ↔ cache.has r ∨ ∃ f ∈ fonts, r = .font f.id := by
  induction fonts generalizing cache with
  | nil => simp
  | cons f rest ih =>
    rw [List.foldl_cons,ih,List.exists_mem_cons_iff,← or_assoc]
    apply or_congr_left
    cases r with
    | font id =>
      by_cases same : id = f.id
      · subst same
        simp [ResourceCache.has,ResourceCache.addFont]
      · simp [ResourceCache.has,ResourceCache.addFont,same]
    | image id => simp [ResourceCache.has,ResourceCache.addFont]

theorem addImages_has (images : List ImageResource) (cache : ResourceCache) (r : Resource) :
    (images.foldl ResourceCache.addImage cache).has r ↔ cache.has r ∨ ∃ i ∈ images, r = .image i.id := by
  induction images generalizing cache with
  | nil => simp
  | cons i rest ih =>
    rw [List.foldl_cons,ih,List.exists_mem_cons_iff,← or_assoc]
    apply or_congr_left
    cases r with
    | font id => simp [ResourceCache.has,ResourceCache.addImage]
    | image id =>
      by_cases same : id = i.id
      · subst same
        simp [ResourceCache.has,ResourceCache.addImage]
      · simp [ResourceCache.has,ResourceCache.addImage,same]

theorem ingest_has (cache : ResourceCache) (list : DisplayList Data) (r : Resource) :
    (cache.ingest list).has r ↔ cache.has r ∨ list.carries r := by
  rw [ResourceCache.ingest,addImages_has,addFonts_has,or_assoc]
  apply or_congr_right
  cases r with
  | font id => simp [DisplayList.carries,eq_comm]
  | image id => simp [DisplayList.carries,eq_comm]

/-- A recording that began with `sent`: what it drew with was sent before or is carried
along, and nothing that was sent before is carried again. -/
structure Recorded (sent : SentResources) (rec : DisplayListRecorder Data) : Prop where
  known : ∀ r, rec.sent.has r ↔ sent.has r ∨ rec.list.carries r
  apart : ∀ r, rec.list.carries r → ¬ sent.has r
  uses : ∀ r, rec.list.uses r → rec.sent.has r

namespace Recorded
variable {sent : SentResources} {rec : DisplayListRecorder Data}

theorem push (ok : Recorded sent rec) {cmd : Cmd Data} (has : ∀ r, cmd.uses r → rec.sent.has r) :
    Recorded sent (rec.push cmd) := by
  refine ⟨ok.known,ok.apart,?_⟩
  intro r used
  obtain ⟨other,member,uses⟩ := used
  rcases List.mem_append.mp member with old | new
  · exact ok.uses r ⟨other,old,uses⟩
  · rw [List.mem_singleton.mp new] at uses
    exact has r uses

theorem font (ok : Recorded sent rec) (font : FontData) :
    Recorded sent (rec.font font).1 ∧ (rec.font font).1.sent.has (.font font.data.id) ∧
      ∀ r, rec.sent.has r → (rec.font font).1.sent.has r := by
  unfold DisplayListRecorder.font
  by_cases known : font.data.id ∈ rec.sent.fonts
  · simp only [known,if_true]
    exact ⟨ok,known,fun r has => has⟩
  · simp only [known,if_false]
    have grown : ∀ r, SentResources.has {rec.sent with fonts := insert font.data.id rec.sent.fonts} r ↔
        rec.sent.has r ∨ r = .font font.data.id := by
      intro r
      cases r with
      | font id => simp [SentResources.has,or_comm]
      | image id => simp [SentResources.has]
    have carried : ∀ r, DisplayList.carries {rec.list with
        newFonts := rec.list.newFonts ++ [⟨font.data.id,font.data.data⟩]} r ↔
          rec.list.carries r ∨ r = .font font.data.id := by
      intro r
      cases r with
      | font id => simp [DisplayList.carries,or_and_right,exists_or,eq_comm]
      | image id => simp [DisplayList.carries]
    have unsent : ¬ sent.has (.font font.data.id) := fun has => known ((ok.known (.font font.data.id)).mpr (.inl has))
    refine ⟨⟨?_,?_,?_⟩,(grown _).mpr (.inr rfl),fun r has => (grown r).mpr (.inl has)⟩
    · intro r
      rw [grown,carried,ok.known,or_assoc]
    · intro r new
      rcases (carried r).mp new with old | rfl
      · exact ok.apart r old
      · exact unsent
    · intro r used
      exact (grown r).mpr (.inl (ok.uses r used))

theorem brush (ok : Recorded sent rec) (paint : Paint Data) :
    Recorded sent (rec.brush paint).1 ∧ (∀ r, (rec.brush paint).2.uses r → (rec.brush paint).1.sent.has r) ∧
      ∀ r, rec.sent.has r → (rec.brush paint).1.sent.has r := by
  cases paint with
  | solid color => exact ⟨ok,fun r used => used.elim,fun r has => has⟩
  | gradient gradient => exact ⟨ok,fun r used => used.elim,fun r has => has⟩
  | unsupported => exact ⟨ok,fun r used => used.elim,fun r has => has⟩
  | image image sampler =>
    unfold DisplayListRecorder.brush
    by_cases known : image.data.id ∈ rec.sent.images
    · simp only [known,if_true]
      refine ⟨ok,?_,fun r has => has⟩
      rintro r rfl
      exact known
    · simp only [known,if_false]
      have grown : ∀ r, SentResources.has {rec.sent with images := insert image.data.id rec.sent.images} r ↔
          rec.sent.has r ∨ r = .image image.data.id := by
        intro r
        cases r with
        | font id => simp [SentResources.has]
        | image id => simp [SentResources.has,or_comm]
      have carried : ∀ r, DisplayList.carries {rec.list with
          newImages := rec.list.newImages ++ [imageResource image]} r ↔
            rec.list.carries r ∨ r = .image image.data.id := by
        intro r
        cases r with
        | font id => simp [DisplayList.carries]
        | image id =>
          simp only [DisplayList.carries,List.mem_append,List.mem_singleton,or_and_right,exists_or,
            exists_eq_left,Resource.image.injEq]
          exact or_congr_right eq_comm
      have unsent : ¬ sent.has (.image image.data.id) :=
        fun has => known ((ok.known (.image image.data.id)).mpr (.inl has))
      refine ⟨⟨?_,?_,?_⟩,?_,fun r has => (grown r).mpr (.inl has)⟩
      · intro r
        rw [grown,carried,ok.known,or_assoc]
      · intro r new
        rcases (carried r).mp new with old | rfl
        · exact ok.apart r old
        · exact unsent
      · intro r used
        exact (grown r).mpr (.inl (ok.uses r used))
      · rintro r rfl
        exact (grown _).mpr (.inr rfl)

theorem perform (ok : Recorded sent rec) (op : PaintOp Data) : Recorded sent (rec.perform op) := by
  cases op with
  | reset =>
    refine ⟨ok.known,ok.apart,?_⟩
    rintro r ⟨cmd,member,_⟩
    cases member
  | fill data paint =>
    obtain ⟨ok',has,_⟩ := ok.brush paint
    exact ok'.push has
  | stroke data paint =>
    obtain ⟨ok',has,_⟩ := ok.brush paint
    exact ok'.push has
  | glyphs data font paint =>
    obtain ⟨ok',has,_⟩ := ok.font font
    obtain ⟨ok₂,has₂,kept⟩ := ok'.brush paint
    apply ok₂.push
    rintro r (rfl | used)
    · exact kept _ has
    · exact has₂ r used
  | other data => exact ok.push fun r used => used.elim

end Recorded

theorem record_recorded (sent : SentResources) (scene : List (PaintOp Data)) :
    Recorded sent (DisplayListRecorder.record sent scene) := by
  have fresh : Recorded sent (⟨.empty,sent⟩ : DisplayListRecorder Data) := by
    have nothing : ∀ r, ¬ (DisplayList.empty : DisplayList Data).carries r := by
      intro r
      cases r <;> simp [DisplayList.carries,DisplayList.empty]
    refine ⟨?_,fun r carried => absurd carried (nothing r),?_⟩
    · intro r
      simp [nothing r]
    · rintro r ⟨cmd,member,_⟩
      cases member
  have folded : ∀ rec, Recorded sent rec → Recorded sent (scene.foldl DisplayListRecorder.perform rec) := by
    induction scene with
    | nil => exact fun rec ok => ok
    | cons op rest ih => exact fun rec ok => ih _ (ok.perform op)
  exact folded _ fresh

end

end Sharko.Common.Display
