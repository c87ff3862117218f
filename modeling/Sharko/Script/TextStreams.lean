import Sharko.Script.TextDecoder

/-! When a stream that is decoded in chunks shows what decoding all of it at once does. -/

namespace Sharko.Script.TextDecoding

open Library Marks

variable {σ : Type}

namespace Utf16

theorem unit_inj {a b a' b' : UInt8} (same : a.toNat * 256 + b.toNat = a'.toNat * 256 + b'.toNat) :
    a = a' ∧ b = b' := by
  have ha := UInt8.toNat_lt a
  have hb := UInt8.toNat_lt b
  have ha' := UInt8.toNat_lt a'
  have hb' := UInt8.toNat_lt b'
  exact ⟨UInt8.toNat_inj.mp (by omega),UInt8.toNat_inj.mp (by omega)⟩

theorem marked_pair {big : Bool} {a b : UInt8} {rest : Bytes} :
    Marked (Encoding.utf16 big : Encoding σ).bom (a :: b :: rest) ↔
      Marked [mark] (items big (a :: b :: rest)) := by
  rw [items,marked_cons]
  have feff : byteOrderMark = (0xfe : UInt8).toNat * 256 + (0xff : UInt8).toNat := rfl
  unfold mark Marked
  rw [feff,Item.unit.injEq]
  cases big with
  | true =>
    constructor
    · rintro ⟨-,later,same⟩
      cases same
      rfl
    · intro same
      obtain ⟨rfl,rfl⟩ := unit_inj same
      exact ⟨List.cons_ne_nil _ _,rest,rfl⟩
  | false =>
    constructor
    · rintro ⟨-,later,same⟩
      cases same
      rfl
    · intro same
      obtain ⟨rfl,rfl⟩ := unit_inj same
      exact ⟨List.cons_ne_nil _ _,rest,rfl⟩

theorem bom_length (big : Bool) : (Encoding.utf16 big : Encoding σ).bom.length = 2 := by
  cases big <;> rfl

theorem marked_items {big : Bool} {bytes : Bytes} :
    Marked [mark] (items big bytes) ↔ Marked (Encoding.utf16 big : Encoding σ).bom bytes := by
  have short : ∀ bytes : Bytes,bytes.length < 2 → ¬ Marked (Encoding.utf16 big : Encoding σ).bom bytes := by
    rintro bytes few ⟨-,begins⟩
    have length := begins.length_le
    rw [bom_length] at length
    omega
  rcases bytes with _ | ⟨a,_ | ⟨b,rest⟩⟩
  · exact iff_of_false marked_nil (short [] (by simp))
  · refine iff_of_false ?_ (short [a] (by simp))
    rw [items,marked_cons]
    rintro ⟨⟩
  · exact marked_pair.symm

theorem unmark_items (big : Bool) (bytes : Bytes) :
    unmark [mark] (items big bytes) = items big (unmark (Encoding.utf16 big : Encoding σ).bom bytes) := by
  by_cases marked : Marked (Encoding.utf16 big : Encoding σ).bom bytes
  · have both := @marked_items σ big bytes
    rw [unmark,if_pos (both.mpr marked),unmark,if_pos marked,bom_length]
    rcases bytes with _ | ⟨a,_ | ⟨b,rest⟩⟩
    · rfl
    · exact absurd (both.mpr marked) (by rw [items,marked_cons]; rintro ⟨⟩)
    · rfl
  · have both := @marked_items σ big bytes
    rw [unmark_unmarked fun h => marked (both.mp h),unmark_unmarked marked]

def texts (pieces : List (List Item)) : Text := (pieces.map fun piece => text (decoder.read piece)).flatten

theorem marked_read (items : List Item) :
    Marked [byteOrderMark] (text (decoder.read items)) ↔ Marked [mark] items := by
  constructor
  · intro marked
    cases read : decoder.read items with
    | nil =>
      rw [read] at marked
      exact absurd marked marked_nil
    | cons item later =>
      rw [read] at marked
      have here : item.getD replacement = byteOrderMark := marked_cons.mp marked
      cases item with
      | none => exact absurd here (by decide)
      | some point =>
        have front : (decoder.read items).head? = some (some byteOrderMark) := by
          rw [read,show point = byteOrderMark from here]
          rfl
        obtain ⟨later,rfl⟩ := mark_of_read front
        exact marked_cons.mpr rfl
  · intro marked
    rw [marked_eq marked,read_mark]
    exact marked_cons.mpr rfl

theorem unmark_read (items : List Item) :
    unmark [byteOrderMark] (text (decoder.read items)) = text (decoder.read (unmark [mark] items)) := by
  by_cases marked : Marked [mark] items
  · conv_lhs => rw [marked_eq marked,read_mark]
    exact if_pos (marked_cons.mpr rfl)
  · rw [unmark_unmarked fun h => marked ((marked_read items).mp h),unmark_unmarked marked]

theorem marked_texts (pieces : List (List Item)) :
    Marked [byteOrderMark] (texts pieces) ↔ Marked [mark] pieces.flatten := by
  induction pieces with
  | nil => exact iff_of_false marked_nil marked_nil
  | cons piece rest ih =>
    unfold texts
    rw [List.map_cons,List.flatten_cons,List.flatten_cons]
    by_cases nothing : piece = []
    · rw [nothing,Transducer.read_nil]
      exact ih
    · have said : text (decoder.read piece) ≠ [] :=
        fun h => nothing (read_eq_nil.mp (List.map_eq_nil_iff.mp h))
      rw [marked_append said,marked_append nothing,marked_read]

theorem count_texts (pieces : List (List Item)) :
    (texts pieces).count byteOrderMark = pieces.flatten.count mark := by
  induction pieces with
  | nil => rfl
  | cons piece rest ih =>
    unfold texts at ih ⊢
    rw [List.map_cons,List.flatten_cons,List.count_append,ih,List.flatten_cons,List.count_append]
    exact congrArg (· + _) (count_emit none piece)

def shown (stays : Bool) (pieces : List (List Item)) : Text :=
  let out := texts (pieces.map (unmark [mark]))
  if stays then out else unmark [byteOrderMark] out

theorem count_shown (stays : Bool) (pieces : List (List Item)) :
    (shown stays pieces).count byteOrderMark = (kept [mark] stays pieces).count mark := by
  have all := count_texts (pieces.map (unmark [mark]))
  unfold shown kept
  cases stays with
  | true => exact all
  | false =>
    have first := count_unmark (m := byteOrderMark) (texts (pieces.map (unmark [mark])))
    have second := count_unmark (m := mark) (pieces.map (unmark [mark])).flatten
    simp only [marked_texts] at first
    simp only [Bool.false_eq_true,if_false]
    omega

theorem eq_of_unmark {m : Nat} {first second : Text} (same : unmark [m] first = unmark [m] second)
    (marked : Marked [m] first ↔ Marked [m] second) : first = second := by
  by_cases here : Marked [m] first
  · rw [marked_eq here,marked_eq (marked.mp here),same]
  · rw [unmark_unmarked here,unmark_unmarked fun h => here (marked.mpr h)] at same
    exact same

theorem texts_of_shown {stays : Bool} {pieces : List (List Item)} (same : Same [mark] stays pieces)
    (equal : shown stays pieces = shown stays [pieces.flatten]) :
    texts (pieces.map (unmark [mark])) = text (decoder.read (pieces.map (unmark [mark])).flatten) := by
  have remains := same.kept
  rw [kept_single] at remains
  have single : ∀ items,texts [items] = text (decoder.read items) := fun _ => List.flatten_singleton
  unfold shown at equal
  rw [List.map_singleton,single] at equal
  unfold kept at remains
  cases stays with
  | true =>
    simp only [if_true] at equal remains
    rw [equal,remains]
  | false =>
    simp only [Bool.false_eq_true,if_false] at equal remains
    rw [unmark_read,← remains,← unmark_read] at equal
    exact eq_of_unmark equal ((marked_texts _).trans (marked_read _).symm)

theorem run_mark (items : List Item) : (decoder.run decoder.start (unmark [mark] items)).1 =
    (decoder.run decoder.start items).1 := by
  by_cases marked : Marked [mark] items
  · conv_rhs => rw [marked_eq marked]
    rfl
  · rw [unmark_unmarked marked]

theorem unbroken_bare {pieces : List (List Item)} (bare : ∀ piece ∈ pieces,¬ Marked [mark] piece)
    (unbroken : decoder.Unbroken (pieces.map (unmark [mark]))) : decoder.Unbroken pieces := by
  rw [List.map_congr_left fun piece listed => unmark_unmarked (bare piece listed),List.map_id'] at unbroken
  exact unbroken

theorem unbroken_of_unmark {stays : Bool} {pieces : List (List Item)} (same : Same [mark] stays pieces)
    (unbroken : decoder.Unbroken (pieces.map (unmark [mark]))) : decoder.Unbroken pieces := by
  have solid := (Transducer.unbroken_filter (T := decoder) (f := unmark [mark]) rfl).mpr unbroken
  have given : decoder.Unbroken ((pieces.filter (· ≠ [])).map id) ↔ decoder.Unbroken (pieces.map id) :=
    Transducer.unbroken_filter rfl
  rw [List.map_id,List.map_id] at given
  refine given.mp ?_
  unfold Same at same
  generalize pieces.filter (· ≠ []) = pieces at same solid
  cases pieces with
  | nil => exact trivial
  | cons first later =>
    obtain ⟨calm,rest⟩ := solid
    rcases same with bare | ⟨-,rfl,second,last,rfl,-,-,bare⟩
    · refine ⟨?_,unbroken_bare bare rest⟩
      rw [unmark_flatten_bare bare,run_mark] at calm
      exact calm
    · obtain ⟨calm,rest⟩ := rest
      refine ⟨.inl rfl,?_,unbroken_bare bare rest⟩
      rw [unmark_flatten_bare bare,run_mark] at calm
      exact calm

theorem sound_of_shown {stays : Bool} {pieces : List (List Item)}
    (equal : shown stays pieces = shown stays [pieces.flatten]) :
    Same [mark] stays pieces ∧ decoder.Unbroken pieces := by
  have same : Same [mark] stays pieces := by
    refine same_of_count ?_
    rw [← count_shown,equal,count_shown]
  have texts_ := texts_of_shown same equal
  have unbroken : decoder.Unbroken (pieces.map (unmark [mark])) := by
    refine unbroken_of_text ?_
    rw [← texts_,text_flatten,List.map_map]
    rfl
  exact ⟨same,unbroken_of_unmark same unbroken⟩

end Utf16

namespace Encoding

variable {enc : Encoding σ}

/-- UTF-8 and UTF-16 have a byte order mark. -/
def Unicode : Encoding σ → Prop
  | .legacy _ => False
  | _ => True

theorem oneShot_nil : enc.oneShot [] = [] := by
  cases enc with
  | utf8 => exact Transducer.read_nil
  | utf16 big => exact Transducer.read_nil
  | legacy decoder => exact Transducer.read_nil

theorem oneShot_marked (unicode : enc.Unicode) {bytes : Bytes} (marked : Marked enc.bom bytes) :
    enc.oneShot bytes = some byteOrderMark :: enc.oneShot (unmark enc.bom bytes) := by
  cases enc with
  | utf8 =>
    obtain ⟨rest,rfl⟩ := marked.2
    rw [unmark,if_pos marked,List.drop_left]
    rfl
  | utf16 big =>
    show Utf16.decoder.read (Utf16.items big bytes) = _ :: Utf16.decoder.read (Utf16.items big _)
    rw [← Utf16.unmark_items,marked_eq (Utf16.marked_items.mpr marked),Utf16.read_mark]
    simp [unmark_cons]
  | legacy decoder => exact unicode.elim

theorem marked_of_oneShot (unicode : enc.Unicode) {bytes : Bytes}
    (read : (enc.oneShot bytes).head? = some (some byteOrderMark)) : Marked enc.bom bytes := by
  cases enc with
  | utf8 =>
    obtain ⟨rest,rfl⟩ := Utf8.bom_of_read read
    exact ⟨List.cons_ne_nil _ _,rest,rfl⟩
  | utf16 big =>
    obtain ⟨later,same⟩ := Utf16.mark_of_read read
    refine Utf16.marked_items.mp ?_
    rw [same,marked_cons]
  | legacy decoder => exact unicode.elim

theorem oneShot_eq_nil (unicode : enc.Unicode) {bytes : Bytes} : enc.oneShot bytes = [] ↔ bytes = [] := by
  cases enc with
  | utf8 => exact Utf8.read_eq_nil
  | utf16 big => exact Utf16.read_eq_nil.trans Utf16.items_eq_nil
  | legacy decoder => exact unicode.elim

theorem marked_text (unicode : enc.Unicode) (bytes : Bytes) :
    Marked [byteOrderMark] (text (enc.oneShot bytes)) ↔ Marked enc.bom bytes := by
  constructor
  · intro marked
    refine marked_of_oneShot unicode ?_
    cases read : enc.oneShot bytes with
    | nil =>
      rw [read] at marked
      exact absurd marked marked_nil
    | cons item later =>
      rw [read] at marked
      have here : item.getD replacement = byteOrderMark := marked_cons.mp marked
      cases item with
      | none => exact absurd here (by decide)
      | some point => rw [show point = byteOrderMark from here]; rfl
  · intro marked
    rw [oneShot_marked unicode marked]
    exact marked_cons.mpr rfl

theorem unmark_text (unicode : enc.Unicode) (bytes : Bytes) :
    unmark [byteOrderMark] (text (enc.oneShot bytes)) = text (enc.oneShot (unmark enc.bom bytes)) := by
  by_cases marked : Marked enc.bom bytes
  · rw [oneShot_marked unicode marked]
    exact if_pos (marked_cons.mpr rfl)
  · rw [unmark_unmarked fun h => marked ((marked_text unicode bytes).mp h),unmark_unmarked marked]

theorem text_eq_nil (unicode : enc.Unicode) (bytes : Bytes) : text (enc.oneShot bytes) = [] ↔ bytes = [] := by
  rw [← oneShot_eq_nil unicode]
  exact List.map_eq_nil_iff

theorem eq_bom {bytes : Bytes} (marked : Marked enc.bom bytes) (alone : unmark enc.bom bytes = []) :
    bytes = enc.bom := by
  obtain ⟨-,rest,rfl⟩ := id marked
  rw [unmark,if_pos marked,List.drop_left] at alone
  rw [alone,List.append_nil]

theorem bom_marked (unicode : enc.Unicode) : Marked enc.bom enc.bom ∧ unmark enc.bom enc.bom = [] := by
  have inhabited : enc.bom ≠ [] := by
    cases enc with
    | utf8 => exact List.cons_ne_nil _ _
    | utf16 big => cases big <;> exact List.cons_ne_nil _ _
    | legacy decoder => exact unicode.elim
  have marked : Marked enc.bom enc.bom := ⟨inhabited,List.prefix_refl _⟩
  exact ⟨marked,by rw [unmark,if_pos marked,List.drop_length]⟩

theorem text_eq_bom (unicode : enc.Unicode) (bytes : Bytes) :
    text (enc.oneShot bytes) = [byteOrderMark] ↔ bytes = enc.bom := by
  constructor
  · intro same
    have marked : Marked enc.bom bytes := by
      rw [← marked_text unicode,same]
      exact marked_cons.mpr rfl
    refine eq_bom marked ((text_eq_nil unicode _).mp ?_)
    rw [← unmark_text unicode,same]
    exact if_pos (marked_cons.mpr rfl)
  · rintro rfl
    obtain ⟨marked,alone⟩ := bom_marked unicode
    rw [oneShot_marked unicode marked,alone,oneShot_nil]
    rfl

theorem same_text (unicode : enc.Unicode) {stays : Bool} {pieces : List Bytes} :
    Same [byteOrderMark] stays (pieces.map fun piece => text (enc.oneShot piece)) ↔ Same enc.bom stays pieces :=
  same_map (text_eq_nil unicode) (marked_text unicode) (unmark_text unicode) (text_eq_bom unicode)

/-- No cut is in the midst of something; in UTF-8 none ever is. -/
def Unbroken (enc : Encoding σ) (pieces : List Bytes) : Prop :=
  match enc with
  | .utf8 => True
  | .utf16 big => Utf16.decoder.Unbroken (pieces.map (Utf16.items big))
  | .legacy decoder => decoder.Unbroken pieces

def Speaks : Encoding σ → Prop
  | .legacy decoder => ∀ s,none ∉ decoder.finish s → s = decoder.start
  | _ => True

/-- Every piece loses the byte order mark that the whole loses and is cut off where it may be. -/
def Sound (enc : Encoding σ) (ignoreBOM : Bool) (pieces : List Bytes) : Prop :=
  Same enc.bom ignoreBOM pieces ∧ enc.Unbroken pieces

open TextDecoder

variable (enc) in
theorem Unbroken.oneShot {held : Bytes} {chunks : List Bytes} (unbroken : enc.Unbroken (pieces enc held chunks)) :
    enc.oneShot (held ++ chunks.flatten) = ((pieces enc held chunks).map enc.oneShot).flatten := by
  rw [← pieces_flatten enc]
  cases enc with
  | utf8 => exact (utf8_unbroken held chunks).read_flatten
  | utf16 big =>
    show Utf16.decoder.read (Utf16.items big _) = _
    rw [utf16_items,Transducer.Unbroken.read_flatten unbroken,List.map_map]
    rfl
  | legacy decoder => exact Transducer.Unbroken.read_flatten unbroken

theorem unbroken_of_valid (speaks : enc.Speaks) {pieces : List Bytes}
    (valid : ∀ piece ∈ pieces,none ∉ enc.oneShot piece) : enc.Unbroken pieces := by
  let spoken : Option Nat → Prop := fun item => item = none
  cases enc with
  | utf8 => exact trivial
  | utf16 big =>
    refine @Transducer.unbroken_of_quiet _ _ _ Utf16.decoder spoken Utf16.speaks _ ?_
    intro piece listed item said error
    obtain ⟨bytes,inside,rfl⟩ := List.mem_map.mp listed
    rw [error] at said
    exact valid bytes inside said
  | legacy decoder =>
    refine @Transducer.unbroken_of_quiet _ _ _ decoder spoken ?_ _ ?_
    · intro s silent
      exact speaks s fun error => silent none error rfl
    · intro piece listed item said error
      rw [error] at said
      exact valid piece listed said

def streamed (enc : Encoding σ) (ignoreBOM : Bool) (pieces : List Bytes) : Text :=
  let out := (pieces.map fun piece => text (enc.oneShot (unmark enc.bom piece))).flatten
  if ignoreBOM then out else unmark [byteOrderMark] out

theorem streamed_eq (unicode : enc.Unicode) (ignoreBOM : Bool) (pieces : List Bytes) :
    enc.streamed ignoreBOM pieces =
      kept [byteOrderMark] ignoreBOM (pieces.map fun piece => text (enc.oneShot piece)) := by
  unfold streamed kept
  simp only [List.map_map,Function.comp_def,unmark_text unicode]

theorem streamed_iff (unicode : enc.Unicode) {ignoreBOM : Bool} {held : Bytes} {chunks : List Bytes}
    (unbroken : enc.Unbroken (pieces enc held chunks)) :
    enc.streamed ignoreBOM (pieces enc held chunks) = enc.streamed ignoreBOM [held ++ chunks.flatten] ↔
      Same enc.bom ignoreBOM (pieces enc held chunks) := by
  have whole : text (enc.oneShot (held ++ chunks.flatten)) =
      ((pieces enc held chunks).map fun piece => text (enc.oneShot piece)).flatten := by
    rw [Unbroken.oneShot enc unbroken,text_flatten,List.map_map]
    rfl
  rw [streamed_eq unicode,streamed_eq unicode,List.map_singleton,whole,← same_text unicode]
  exact ⟨fun equal => same_of_count (congrArg (List.count byteOrderMark) equal),Same.kept⟩

theorem streamed_legacy {decoder : Transducer σ UInt8 (Option Nat)} {ignoreBOM : Bool} {held : Bytes}
    {chunks : List Bytes} (unbroken : (legacy decoder).Unbroken (pieces (legacy decoder) held chunks)) :
    (legacy decoder).streamed ignoreBOM (pieces (legacy decoder) held chunks) =
      (legacy decoder).streamed ignoreBOM [held ++ chunks.flatten] := by
  have bare : ∀ bytes : Bytes,unmark (legacy decoder).bom bytes = bytes :=
    fun bytes => unmark_unmarked fun marked => marked.1 rfl
  have whole := Unbroken.oneShot (legacy decoder) unbroken
  unfold streamed
  simp only [bare,List.map_singleton,List.flatten_singleton,whole,text_flatten,List.map_map]
  rfl

theorem streamed_utf16 {big : Bool} (ignoreBOM : Bool) (pieces : List Bytes) :
    (utf16 big : Encoding σ).streamed ignoreBOM pieces =
      Utf16.shown ignoreBOM (pieces.map (Utf16.items big)) := by
  unfold streamed Utf16.shown Utf16.texts
  simp only [List.map_map,Function.comp_def,@Utf16.unmark_items σ]
  rfl

theorem unbroken_of_streamed {big : Bool} {ignoreBOM : Bool} {held : Bytes} {chunks : List Bytes}
    (equal : (utf16 big : Encoding σ).streamed ignoreBOM (pieces (utf16 big : Encoding σ) held chunks) =
      (utf16 big : Encoding σ).streamed ignoreBOM [held ++ chunks.flatten]) :
    (utf16 big : Encoding σ).Unbroken (pieces (utf16 big : Encoding σ) held chunks) := by
  rw [streamed_utf16,streamed_utf16,List.map_singleton,← pieces_flatten (utf16 big : Encoding σ),
    utf16_items] at equal
  exact (Utf16.sound_of_shown equal).2

theorem error_unmark {bytes : Bytes} : none ∈ enc.oneShot (unmark enc.bom bytes) ↔ none ∈ enc.oneShot bytes := by
  by_cases marked : Marked enc.bom bytes
  · have unicode : enc.Unicode := by
      cases enc with
      | utf8 => exact trivial
      | utf16 big => exact trivial
      | legacy decoder => exact absurd rfl marked.1
    rw [oneShot_marked unicode marked,List.mem_cons]
    exact ⟨.inr,fun error => error.resolve_left nofun⟩
  · rw [unmark_unmarked marked]

theorem same_legacy {decoder : Transducer σ UInt8 (Option Nat)} {stays : Bool} {pieces : List Bytes} :
    Same (legacy decoder).bom stays pieces := by
  unfold Same
  cases pieces.filter (· ≠ []) with
  | nil => exact trivial
  | cons first later => exact .inl fun piece _ marked => marked.1 rfl

theorem mapM_decodeText (enc : Encoding σ) (fatal : Bool) (pieces : List Bytes) :
    (pieces.mapM fun piece => enc.decodeText piece fatal) =
      if fatal ∧ ∃ piece ∈ pieces,none ∈ enc.oneShot piece then none
      else some (pieces.map fun piece => text (enc.oneShot (unmark enc.bom piece))) := by
  induction pieces with
  | nil => simp
  | cons piece rest ih =>
    rw [List.mapM_cons,ih]
    unfold decodeText
    simp only [error_unmark,List.exists_mem_cons_iff]
    by_cases here : fatal = true ∧ none ∈ enc.oneShot piece
    · have either : fatal = true ∧ (none ∈ enc.oneShot piece ∨ ∃ piece ∈ rest,none ∈ enc.oneShot piece) :=
        ⟨here.1,.inl here.2⟩
      rw [if_pos here,if_pos either]
      rfl
    · rw [if_neg here]
      by_cases later : fatal = true ∧ ∃ piece ∈ rest,none ∈ enc.oneShot piece
      · have either : fatal = true ∧ (none ∈ enc.oneShot piece ∨ ∃ piece ∈ rest,none ∈ enc.oneShot piece) :=
          ⟨later.1,.inr later.2⟩
        rw [if_pos later,if_pos either]
        rfl
      · have neither : ¬ (fatal = true ∧ (none ∈ enc.oneShot piece ∨ ∃ piece ∈ rest,none ∈ enc.oneShot piece)) := by
          rintro ⟨strict,error | error⟩
          · exact here ⟨strict,error⟩
          · exact later ⟨strict,error⟩
        rw [if_neg later,if_neg neither]
        rfl

theorem stream_eq (enc : Encoding σ) (fatal ignoreBOM : Bool) (chunks : List Bytes) :
    (fresh enc fatal ignoreBOM).decodeChunks chunks =
      if fatal ∧ ∃ piece ∈ pieces enc [] chunks,none ∈ enc.oneShot piece then none
      else some (enc.streamed ignoreBOM (pieces enc [] chunks)) := by
  rw [decodeChunks_eq]
  show Option.map _ ((pieces enc [] chunks).mapM fun piece => enc.decodeText piece fatal) = _
  rw [mapM_decodeText]
  split
  · rfl
  · cases ignoreBOM <;> rfl

theorem whole_eq (enc : Encoding σ) (fatal ignoreBOM : Bool) (bytes : Bytes) :
    ((fresh enc fatal ignoreBOM).decode bytes false).2 =
      if fatal ∧ none ∈ enc.oneShot bytes then none else some (enc.streamed ignoreBOM [bytes]) := by
  rw [decode_last]
  show Option.map _ (enc.decodeText bytes fatal) = _
  unfold decodeText streamed
  simp only [error_unmark,List.map_singleton,List.flatten_singleton]
  split
  · rfl
  · cases ignoreBOM <;> rfl

theorem errors_of_unbroken {chunks : List Bytes} (unbroken : enc.Unbroken (pieces enc [] chunks)) :
    none ∈ enc.oneShot chunks.flatten ↔ ∃ piece ∈ pieces enc [] chunks,none ∈ enc.oneShot piece := by
  have whole := Unbroken.oneShot enc unbroken
  rw [List.nil_append] at whole
  rw [whole,List.mem_flatten]
  simp only [List.mem_map,exists_exists_and_eq_and]

theorem Sound.streamed {ignoreBOM : Bool} {chunks : List Bytes} (sound : enc.Sound ignoreBOM (pieces enc [] chunks)) :
    enc.streamed ignoreBOM (pieces enc [] chunks) = enc.streamed ignoreBOM [chunks.flatten] := by
  have unicode : enc.Unicode → _ := fun unicode => (streamed_iff unicode sound.2).mpr sound.1
  cases enc with
  | utf8 => exact unicode trivial
  | utf16 big => exact unicode trivial
  | legacy decoder => exact streamed_legacy sound.2

theorem sound_of_streamed (unicode : enc.Unicode) {ignoreBOM : Bool} {chunks : List Bytes}
    (equal : enc.streamed ignoreBOM (pieces enc [] chunks) = enc.streamed ignoreBOM [chunks.flatten]) :
    enc.Sound ignoreBOM (pieces enc [] chunks) := by
  have unbroken : enc.Unbroken (pieces enc [] chunks) := by
    cases enc with
    | utf8 => exact trivial
    | utf16 big => exact unbroken_of_streamed equal
    | legacy decoder => exact unicode.elim
  exact ⟨(streamed_iff unicode unbroken).mp equal,unbroken⟩

theorem valid_of_quiet (speaks : enc.Speaks) {chunks : List Bytes}
    (valid : ¬ ∃ piece ∈ pieces enc [] chunks,none ∈ enc.oneShot piece) :
    enc.Unbroken (pieces enc [] chunks) ∧ none ∉ enc.oneShot chunks.flatten := by
  have unbroken : enc.Unbroken (pieces enc [] chunks) :=
    unbroken_of_valid speaks fun piece listed error => valid ⟨piece,listed,error⟩
  exact ⟨unbroken,fun error => valid ((errors_of_unbroken unbroken).mp error)⟩

end Encoding

namespace TextDecoder

/-- A stream that is decoded chunk by chunk shows what decoding all of it at once does where every
piece is got well. With replacement that is the only case in UTF-8 and UTF-16; a fatal decoder also
throws both times where the bytes are not valid. -/
theorem decode_chunks (enc : Encoding σ) (fatal ignoreBOM : Bool) (chunks : List Bytes) :
    let stream := (fresh enc fatal ignoreBOM).decodeChunks chunks
    let whole := ((fresh enc fatal ignoreBOM).decode chunks.flatten false).2
    let sound := enc.Sound ignoreBOM (pieces enc [] chunks)
    (sound → stream = whole) ∧
      (enc.Unicode → fatal = false → (stream = whole ↔ sound)) ∧
      (enc.Speaks → fatal = true → (stream = whole ↔ none ∈ enc.oneShot chunks.flatten ∨ sound)) := by
  intro stream whole sound
  have streams : stream = _ := Encoding.stream_eq enc fatal ignoreBOM chunks
  have wholes : whole = _ := Encoding.whole_eq enc fatal ignoreBOM chunks.flatten
  have enough : sound → stream = whole := by
    intro sound
    rw [streams,wholes,sound.streamed]
    simp only [Encoding.errors_of_unbroken sound.2]
  refine ⟨enough,?_,?_⟩
  · rintro unicode rfl
    refine ⟨?_,enough⟩
    intro equal
    rw [streams,wholes] at equal
    exact Encoding.sound_of_streamed unicode (Option.some.inj equal)
  · rintro speaks rfl
    constructor
    · intro equal
      by_cases error : none ∈ enc.oneShot chunks.flatten
      · exact .inl error
      · have strict : ¬ (true = true ∧ none ∈ enc.oneShot chunks.flatten) := fun h => error h.2
        rw [streams,wholes,if_neg strict] at equal
        split at equal
        · cases equal
        next valid =>
          obtain ⟨unbroken,-⟩ := Encoding.valid_of_quiet speaks fun bad => valid ⟨rfl,bad⟩
          refine .inr ⟨?_,unbroken⟩
          have unicode : enc.Unicode → Marks.Same enc.bom ignoreBOM (pieces enc [] chunks) :=
            fun unicode => (Encoding.streamed_iff unicode unbroken).mp (Option.some.inj equal)
          cases enc with
          | utf8 => exact unicode trivial
          | utf16 big => exact unicode trivial
          | legacy decoder => exact Encoding.same_legacy
    · rintro (error | sound)
      · have bad : ∃ piece ∈ pieces enc [] chunks,none ∈ enc.oneShot piece := by
          by_contra valid
          exact (Encoding.valid_of_quiet speaks valid).2 error
        rw [streams,wholes,if_pos ⟨rfl,bad⟩,if_pos ⟨rfl,error⟩]
      · exact enough sound

/-- A surrogate pair that is cut apart. -/
theorem cut_pair : (fresh (.utf16 false : Encoding Unit) false false).decodeChunks [[0x3d,0xd8],[0x00,0xde]] =
        some [replacement,replacement] ∧
      ((fresh (.utf16 false : Encoding Unit) false false).decode [0x3d,0xd8,0x00,0xde] false).2 =
        some [0x1f600] := by
  decide

end TextDecoder

end Sharko.Script.TextDecoding
