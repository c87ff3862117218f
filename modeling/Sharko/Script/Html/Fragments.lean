import Mathlib
import Sharko.Script.Html.Serializer

/-! The HTML fragment serialization, by recursion on the tree that the nodes of a document are, and
what of it the code computes. -/

namespace Sharko.Script.Html

open Library

/-- Nodes with their later siblings. The contents are those of a template; a container is a document
or a fragment. -/
inductive Dom
  | nil
  | text (content : Text) (next : Dom)
  | comment (contents : Text) (next : Dom)
  | element (el : ElementData) (children contents next : Dom)
  | container (children next : Dom)

def ElementData.isTemplate (el : ElementData) : Bool := el.name.isHtml ["template"]

/-- The nodes are the trees. The contents of a template are its children until they get a fragment. -/
def Document.Shows (doc : Document) : Option ℕ → List ℕ → Dom → Prop
  | _,[],.nil => True
  | parent,id :: ids,.text content next =>
    doc.getNode id = some ⟨parent,[],.text content⟩ ∧ doc.Shows parent ids next
  | parent,id :: ids,.comment contents next =>
    doc.getNode id = some ⟨parent,[],.comment contents⟩ ∧ doc.Shows parent ids next
  | parent,id :: ids,.element el children contents next =>
    (∃ nodes,doc.getNode id = some ⟨parent,nodes,.element el⟩ ∧ el.name.isOneOf [fragmentAtom] = false ∧
      if el.isTemplate then
        match doc.templateContents id with
        | none => children = .nil ∧ doc.Shows (some id) nodes contents
        | some fragment => doc.Shows (some id) nodes children ∧
          ∃ c,doc.getNode fragment = some c ∧ kind c = .fragment ∧
            doc.Shows (some fragment) c.children contents
      else contents = .nil ∧ doc.Shows (some id) (domChildren ⟨parent,nodes,.element el⟩) children) ∧
    doc.Shows parent ids next
  | parent,id :: ids,.container children next =>
    (∃ node,doc.getNode id = some node ∧ (kind node = .document ∨ kind node = .fragment) ∧
      doc.Shows (some id) node.children children) ∧ doc.Shows parent ids next
  | _,_,_ => False

def Document.rawTextUnder (doc : Document) (parent : Option ℕ) : Bool :=
  (parent.bind doc.getNode).any isRawTextParent

namespace Standard

def replaceAll (c : Char) (replacement : String) (s : Text) : Text :=
  s.flatMap fun d => if d = c then replacement.toList else [d]

def escapeString (inAttribute : Bool) (s : Text) : Text :=
  let s := replaceAll '&' "&amp;" s
  let s := replaceAll noBreakSpace "&nbsp;" s
  let s := if inAttribute then replaceAll quote "&quot;" s else s
  replaceAll '>' "&gt;" (replaceAll '<' "&lt;" s)

def serializesAsVoid (el : ElementData) : Bool := el.name.ns = .html && isVoid el.name

/-- The nodes with their end tags; the text of some parents is literal. Scripting is enabled. -/
def serialize : Bool → Dom → Text
  | _,.nil => []
  | literal,.text content next => (if literal then content else escapeString false content) ++ serialize literal next
  | literal,.comment contents next => "<!--".toList ++ contents ++ "-->".toList ++ serialize literal next
  | literal,.element el children contents next =>
    startTag (escapeString true) el ++
      (if serializesAsVoid el then []
        else (if el.isTemplate then serialize false contents else serialize (isRawText el.name) children) ++
          endTag el) ++
      serialize literal next
  | literal,.container children next => serialize false children ++ serialize literal next

def fragment : Dom → Text
  | .element el children contents _ =>
    if serializesAsVoid el then []
    else if el.isTemplate then serialize false contents else serialize (isRawText el.name) children
  | .container children _ => serialize false children
  | _ => []

end Standard

/-- A text that is not empty, a comment or an element is there. -/
def Dom.prints : Dom → Bool
  | .nil => false
  | .text content next => !content.isEmpty || next.prints
  | .comment _ _ | .element _ _ _ _ => true
  | .container children next => children.prints || next.prints

def Dom.isVoidWithContent : Dom → Bool
  | .element el children _ _ => Standard.serializesAsVoid el && children.prints
  | _ => false

theorem escapeChar_eq (attr : Bool) (c : Char) : escapeChar attr c = [c] ∨ needs [c] attr = true := by
  unfold escapeChar
  split_ifs with amp space quoted less greater
  · subst amp
    cases attr <;> exact .inr (by decide)
  · subst space
    cases attr <;> exact .inr (by decide)
  · obtain ⟨rfl,rfl⟩ := quoted
    exact .inr (by decide)
  · subst less
    cases attr <;> exact .inr (by decide)
  · subst greater
    cases attr <;> exact .inr (by decide)
  · exact .inl rfl

theorem needs_cons (c : Char) (s : Text) (attr : Bool) :
    needs (c :: s) attr = (needs [c] attr || needs s attr) := by
  simp only [needs,bytes,List.flatMap_cons,List.flatMap_nil,List.append_nil,List.any_append]

/-- Where no byte asks for it no character is escaped. -/
theorem escapeInto_self {s : Text} {attr : Bool} (fine : needs s attr = false) : escapeInto s attr = s := by
  induction s with
  | nil => rfl
  | cons c s ih =>
    rw [needs_cons,Bool.or_eq_false_iff] at fine
    rcases escapeChar_eq attr c with same | needed
    · rw [escapeInto,List.flatMap_cons,same,← escapeInto,ih fine.2]
      rfl
    · rw [fine.1] at needed
      cases needed

theorem escape_eq (s : Text) (attr : Bool) : escape s attr = escapeInto s attr := by
  unfold escape
  cases fine : needs s attr with
  | false => exact (escapeInto_self fine).symm
  | true => rfl

namespace Standard

theorem escapeString_append (inAttribute : Bool) (s t : Text) :
    escapeString inAttribute (s ++ t) = escapeString inAttribute s ++ escapeString inAttribute t := by
  cases inAttribute <;> simp only [escapeString,replaceAll,List.flatMap_append,if_true,Bool.false_eq_true,if_false]

theorem replaceAll_other {c d : Char} (other : d ≠ c) (replacement : String) :
    replaceAll c replacement [d] = [d] := by
  rw [replaceAll,List.flatMap_singleton,if_neg other]

theorem escapeString_char (inAttribute : Bool) (c : Char) :
    escapeString inAttribute [c] = escapeChar inAttribute c := by
  unfold escapeChar
  split_ifs with amp space quoted less greater
  · subst amp
    cases inAttribute <;> decide
  · subst space
    cases inAttribute <;> decide
  · obtain ⟨rfl,rfl⟩ := quoted
    decide
  · subst less
    cases inAttribute <;> decide
  · subst greater
    cases inAttribute <;> decide
  · cases inAttribute with
    | false =>
      simp only [escapeString,Bool.false_eq_true,if_false,replaceAll_other amp,replaceAll_other space,
        replaceAll_other less,replaceAll_other greater]
    | true =>
      have plain : c ≠ quote := fun same => quoted ⟨same,rfl⟩
      simp only [escapeString,if_true,replaceAll_other amp,replaceAll_other space,
        replaceAll_other plain,replaceAll_other less,replaceAll_other greater]

theorem escapeString_eq (inAttribute : Bool) (s : Text) :
    escapeString inAttribute s = escapeInto s inAttribute := by
  induction s with
  | nil => cases inAttribute <;> rfl
  | cons c s ih =>
    have parts := escapeString_append inAttribute [c] s
    rw [List.singleton_append] at parts
    rw [parts,escapeString_char,ih]
    rfl

end Standard

theorem escape_standard (s : Text) (attr : Bool) : escape s attr = Standard.escapeString attr s := by
  rw [Standard.escapeString_eq,escape_eq]

variable {doc : Document}

theorem QualName.isOneOf_named {name : QualName} {known : String} (named : name.isOneOf [known] = true)
    (names : List String) : name.isOneOf names = names.any fun other => known.toList = other.toList := by
  have same : name.localName = known.toList := by
    rw [isOneOf,List.any_cons,List.any_nil,Bool.or_false] at named
    exact of_decide_eq_true named
  unfold isOneOf
  rw [same]

theorem template_ordinary {el : ElementData} (template : el.isTemplate = true) :
    isVoid el.name = false ∧ isRawText el.name = false ∧ el.name.isHtml ["input"] = false := by
  obtain ⟨-,named⟩ := (Bool.and_eq_true _ _).mp template
  refine ⟨?_,?_,?_⟩
  · rw [isVoid,QualName.isOneOf_named named]
    decide
  · rw [isRawText,QualName.isHtml,QualName.isOneOf_named named,Bool.and_eq_false_iff]
    exact .inr (by decide)
  · rw [QualName.isHtml,QualName.isOneOf_named named,Bool.and_eq_false_iff]
    exact .inr (by decide)

theorem container_data {node : Node} (kinds : kind node = .document ∨ kind node = .fragment) :
    node.data = .document ∨ ∃ el,node.data = .element el ∧ el.name.isOneOf [fragmentAtom] = true := by
  unfold kind at kinds
  cases data : node.data with
  | document => exact .inl rfl
  | element el =>
    rw [data] at kinds
    dsimp only at kinds
    split_ifs at kinds with named
    · exact .inr ⟨el,rfl,named⟩
    · simp at kinds
  | text _ | comment _ | anonymousBlock _ => simp [data] at kinds

/-- A document or a fragment is none of the elements that are told apart. -/
theorem container_plain {node : Node} (kinds : kind node = .document ∨ kind node = .fragment) :
    domChildren node = node.children ∧ isRawTextParent node = false ∧ isHtml node "template" = false := by
  have plain : ∀ names,(∀ name ∈ names,fragmentAtom.toList ≠ name.toList) →
      (node.elementData.any fun el => el.name.isHtml names) = false := by
    intro names apart
    unfold Node.elementData
    rcases container_data kinds with data | ⟨el,data,named⟩
    · rw [data]
      rfl
    · rw [data,Option.any_some,QualName.isHtml,QualName.isOneOf_named named,Bool.and_eq_false_iff]
      refine .inr (List.any_eq_false.mpr fun name member => ?_)
      rw [decide_eq_true_eq]
      exact apart name member
  have input : isHtml node "input" = false := plain _ (by decide)
  refine ⟨?_,plain _ (by decide),plain _ (by decide)⟩
  rw [domChildren,input,Bool.and_false]
  rfl

theorem turn_opening {id : ℕ} {node : Node} (found : doc.getNode id = some node) :
    turn doc (.opening id) = some (openNode doc id node) := by
  rw [turn,found]
  rfl

theorem openNode_element {id : ℕ} {node : Node} {el : ElementData} (data : node.data = .element el)
    (ordinary : el.name.isOneOf [fragmentAtom] = false) :
    openNode doc id node = (if Standard.serializesAsVoid el then [] else inside doc id el ++ [.closing id],
      startTag (Standard.escapeString true) el) := by
  have values : (escape · true) = Standard.escapeString true := funext fun s => escape_standard s true
  unfold openNode
  rw [data]
  simp only [ordinary,Bool.false_eq_true,if_false,values]
  unfold Standard.serializesAsVoid
  split <;> rfl

theorem rawTextUnder_some {id : ℕ} {node : Node} (found : doc.getNode id = some node) :
    doc.rawTextUnder (some id) = isRawTextParent node := by
  rw [Document.rawTextUnder,Option.bind_some,found,Option.any_some]

theorem openNode_container {id : ℕ} {node : Node} (kinds : kind node = .document ∨ kind node = .fragment) :
    openNode doc id node = (node.children.map .opening,[]) := by
  unfold openNode
  rcases container_data kinds with data | ⟨el,data,named⟩
  · rw [data]
  · rw [data]
    exact if_pos named

theorem closing_prints {id : ℕ} {node : Node} {el : ElementData} (found : doc.getNode id = some node)
    (data : node.elementData = some el) : Worklist.Prints (turn doc) [.closing id] (endTag el) := by
  have closed : turn doc (.closing id) = some ([],endTag el) := by
    rw [turn,found,Option.bind_some,data]
    rfl
  have whole := Worklist.Prints.leaf closed .nil
  rwa [List.append_nil] at whole

theorem inside_eq {id container : ℕ} {node : Node} {el : ElementData} (found : doc.getNode container = some node)
    (same : (if el.isTemplate then templateContainer doc id else id) = container) :
    inside doc id el = (domChildren node).map .opening := by
  unfold inside ElementData.isTemplate at *
  rw [same]
  dsimp only
  rw [found]

/-- What stands between the tags, if this is known of the trees below. -/
theorem inside_prints {parent : Option ℕ} {id : ℕ} {ids : List ℕ} {el : ElementData} {children contents next : Dom}
    (ofChildren : ∀ {parent ids},doc.Shows parent ids children → Worklist.Prints (turn doc) (ids.map .opening)
      (Standard.serialize (doc.rawTextUnder parent) children))
    (ofContents : ∀ {parent ids},doc.Shows parent ids contents → Worklist.Prints (turn doc) (ids.map .opening)
      (Standard.serialize (doc.rawTextUnder parent) contents))
    (shown : doc.Shows parent (id :: ids) (.element el children contents next)) :
    Worklist.Prints (turn doc) (inside doc id el)
      (if el.isTemplate then Standard.serialize false contents else Standard.serialize (isRawText el.name) children) := by
  obtain ⟨⟨nodes,found,-,below⟩,-⟩ := shown
  cases template : el.isTemplate with
  | false =>
    rw [template] at below
    have under := ofChildren below.2
    rw [rawTextUnder_some found] at under
    rw [inside_eq found (by rw [template]; rfl)]
    exact under
  | true =>
    rw [template,if_pos rfl] at below
    obtain ⟨-,notRaw,notInput⟩ := template_ordinary template
    have nodesOf : domChildren ⟨parent,nodes,.element el⟩ = nodes := by
      have plain : isHtml ⟨parent,nodes,.element el⟩ "input" = false := notInput
      rw [domChildren,plain,Bool.and_false]
      rfl
    cases held : doc.templateContents id with
    | none =>
      rw [held] at below
      have under := ofContents below.2
      have literal : isRawTextParent ⟨parent,nodes,.element el⟩ = false := notRaw
      rw [rawTextUnder_some found,literal,← nodesOf] at under
      rw [inside_eq found (by rw [template,if_pos rfl,templateContainer,held]; rfl)]
      exact under
    | some fragment =>
      rw [held] at below
      obtain ⟨-,c,there,kindOf,contained⟩ := below
      obtain ⟨children,literal,-⟩ := container_plain (.inr kindOf)
      have under := ofContents contained
      rw [rawTextUnder_some there,literal,← children] at under
      rw [inside_eq there (by rw [template,if_pos rfl,templateContainer,held]; rfl)]
      exact under

theorem shows_prints {dom : Dom} : ∀ {parent : Option ℕ} {ids : List ℕ},doc.Shows parent ids dom →
    Worklist.Prints (turn doc) (ids.map .opening) (Standard.serialize (doc.rawTextUnder parent) dom) := by
  induction dom with
  | nil =>
    intro parent ids shown
    cases ids with
    | nil => exact .nil
    | cons id ids => exact shown.elim
  | text content next ih =>
    intro parent ids shown
    cases ids with
    | nil => exact shown.elim
    | cons id ids =>
      obtain ⟨found,later⟩ := shown
      refine .leaf ((turn_opening found).trans ?_) (ih later)
      rw [← escape_standard]
      rfl
  | comment contents next ih =>
    intro parent ids shown
    cases ids with
    | nil => exact shown.elim
    | cons id ids =>
      obtain ⟨found,later⟩ := shown
      exact .leaf (turn_opening found) (ih later)
  | element el children contents next ihChildren ihContents ih =>
    intro parent ids shown
    cases ids with
    | nil => exact shown.elim
    | cons id ids =>
      have between := inside_prints ihChildren ihContents shown
      obtain ⟨⟨nodes,found,ordinary,-⟩,later⟩ := shown
      have opened := (turn_opening found).trans (congrArg some (openNode_element rfl ordinary))
      rw [Standard.serialize]
      cases void : Standard.serializesAsVoid el with
      | true =>
        rw [void] at opened
        rw [if_pos rfl,List.append_nil]
        exact .leaf opened (ih later)
      | false =>
        rw [void] at opened
        exact .cons opened (between.append (closing_prints found rfl)) (ih later)
  | container children next ihChildren ih =>
    intro parent ids shown
    cases ids with
    | nil => exact shown.elim
    | cons id ids =>
      obtain ⟨⟨node,found,kinds,below⟩,later⟩ := shown
      have under := ihChildren below
      rw [rawTextUnder_some found,(container_plain kinds).2.1] at under
      exact .cons ((turn_opening found).trans (congrArg some (openNode_container kinds))) under (ih later)

/-- What goes behind the text so far, whatever the loop is given beyond the fuel that it needs. -/
def Returns (code : ℕ → Text → Option Text) (text : Text) : Prop :=
  ∀ out,∃ enough,∀ fuel,code (fuel + enough) out = some (out ++ text)

namespace Standard

theorem escapeString_eq_nil {s : Text} : escapeString false s = [] ↔ s = [] := by
  rw [escapeString_eq,escapeInto,List.flatMap_eq_nil_iff]
  constructor
  · intro silent
    cases s with
    | nil => rfl
    | cons c s =>
      have none := silent c List.mem_cons_self
      unfold escapeChar at none
      split_ifs at none <;> exact absurd none (by decide)
  · rintro rfl
    simp

theorem serialize_eq_nil {dom : Dom} : ∀ {literal : Bool},serialize literal dom = [] ↔ dom.prints = false := by
  induction dom with
  | nil => exact iff_of_true rfl rfl
  | text content next ih =>
    intro literal
    rw [serialize,List.append_eq_nil_iff,ih,Dom.prints,Bool.or_eq_false_iff,Bool.not_eq_false',List.isEmpty_iff]
    cases literal with
    | true => exact Iff.rfl
    | false => exact and_congr_left' escapeString_eq_nil
  | comment contents next _ => exact iff_of_false (by simp [serialize]) (by simp [Dom.prints])
  | element el children contents next _ _ _ =>
    exact iff_of_false (by simp [serialize,startTag]) (by simp [Dom.prints])
  | container children next ihChildren ih =>
    intro literal
    rw [serialize,List.append_eq_nil_iff,ihChildren,ih,Dom.prints,Bool.or_eq_false_iff]

end Standard

theorem shows_nil {parent : Option ℕ} {dom : Dom} (shown : doc.Shows parent [] dom) : dom = .nil := by
  cases dom with
  | nil => rfl
  | _ => exact shown.elim

/-- The children of an element that is void are written all the same. -/
theorem serializeChildren_element {parent : Option ℕ} {id : ℕ} {el : ElementData} {children contents next : Dom}
    (shown : doc.Shows parent [id] (.element el children contents next)) : Returns (serializeChildren doc · id)
      (if el.isTemplate then Standard.serialize false contents else Standard.serialize (isRawText el.name) children) := by
  intro out
  have between := inside_prints shows_prints shows_prints shown
  obtain ⟨⟨nodes,found,-,-⟩,-⟩ := shown
  obtain ⟨enough,runs⟩ := between.finishes out
  refine ⟨enough,fun fuel => ?_⟩
  rw [← runs fuel]
  have template : isHtml ⟨parent,nodes,.element el⟩ "template" = el.name.isHtml ["template"] := rfl
  dsimp only [serializeChildren,inside]
  rw [found]
  dsimp only
  rw [template]
  cases doc.getNode (if el.name.isHtml ["template"] then templateContainer doc id else id) with
  | none => cases fuel + enough <;> rfl
  | some c => rfl

theorem serializeChildren_container {parent : Option ℕ} {id : ℕ} {children next : Dom}
    (shown : doc.Shows parent [id] (.container children next)) :
    Returns (serializeChildren doc · id) (Standard.serialize false children) := by
  intro out
  obtain ⟨⟨node,found,kinds,below⟩,-⟩ := shown
  obtain ⟨nodesOf,notRaw,notTemplate⟩ := container_plain kinds
  have under := shows_prints below
  rw [rawTextUnder_some found,notRaw,← nodesOf] at under
  obtain ⟨enough,runs⟩ := under.finishes out
  refine ⟨enough,fun fuel => ?_⟩
  rw [← runs fuel]
  simp [serializeChildren,found,notTemplate]

theorem serializeNode_shown {parent : Option ℕ} {id : ℕ} {node : Node} {tree : Dom}
    (found : doc.getNode id = some node) (kinds : ¬(kind node = .document ∨ kind node = .fragment))
    (shown : doc.Shows parent [id] tree) :
    Returns (serializeNode doc · id) (Standard.serialize (doc.rawTextUnder parent) tree) := by
  intro out
  obtain ⟨enough,runs⟩ := (shows_prints shown).finishes out
  refine ⟨enough,fun fuel => ?_⟩
  rw [← runs fuel]
  dsimp only [serializeNode]
  rw [found]
  dsimp only
  split
  case h_1 same => exact absurd (.inl same) kinds
  case h_2 same => exact absurd (.inr same) kinds
  case h_3 => rfl

/-- A text or a comment has no children to write. -/
theorem serializeChildren_leaf {id : ℕ} {node : Node} (found : doc.getNode id = some node)
    (leaf : node.elementData = none) (alone : node.children = []) : Returns (serializeChildren doc · id) [] := by
  intro out
  refine ⟨0,fun fuel => ?_⟩
  have plain : isHtml node "template" = false := by rw [isHtml,leaf]; rfl
  have nothing : domChildren node = [] := by rw [domChildren,alone]; rfl
  simp only [serializeChildren,found,plain,Bool.false_eq_true,if_false,nothing,List.append_nil]
  cases fuel <;> rfl

/-- The code writes every tree as the standard does, but what is inside of a void element shows in
its inner markup. -/
theorem serializer_iff {parent : Option ℕ} {id : ℕ} {tree : Dom} (shown : doc.Shows parent [id] tree) :
    (∀ s attr,escape s attr = escapeInto s attr ∧ escapeInto s attr = Standard.escapeString attr s) ∧
    Returns (serializeNode doc · id) (Standard.serialize (doc.rawTextUnder parent) tree) ∧
    ∃ inner,Returns (serializeChildren doc · id) inner ∧
      (inner = Standard.fragment tree ↔ tree.isVoidWithContent = false) := by
  refine ⟨fun s attr => ⟨escape_eq s attr,(Standard.escapeString_eq attr s).symm⟩,?_⟩
  cases tree with
  | nil => exact shown.elim
  | text content next =>
    exact ⟨serializeNode_shown shown.1 (by simp [kind]) shown,[],serializeChildren_leaf shown.1 rfl rfl,
      iff_of_true rfl rfl⟩
  | comment contents next =>
    exact ⟨serializeNode_shown shown.1 (by simp [kind]) shown,[],serializeChildren_leaf shown.1 rfl rfl,
      iff_of_true rfl rfl⟩
  | container children next =>
    have inner := serializeChildren_container shown
    have held := shown
    obtain ⟨⟨node,found,kinds,-⟩,later⟩ := held
    obtain rfl := shows_nil later
    refine ⟨fun out => ?_,_,inner,iff_of_true rfl rfl⟩
    obtain ⟨enough,runs⟩ := inner out
    refine ⟨enough,fun fuel => ?_⟩
    rw [Standard.serialize,Standard.serialize,List.append_nil,← runs fuel]
    dsimp only [serializeNode]
    rw [found]
    dsimp only
    rcases kinds with same | same <;> rw [same]
  | element el children contents next =>
    have held := shown
    obtain ⟨⟨nodes,found,ordinary,-⟩,-⟩ := held
    refine ⟨serializeNode_shown found (by simp [kind,ordinary]) shown,_,serializeChildren_element shown,?_⟩
    cases void : Standard.serializesAsVoid el with
    | false => exact iff_of_true (by simp [Standard.fragment,void]) (by simp [Dom.isVoidWithContent,void])
    | true =>
      have plain : el.isTemplate = false := by
        by_contra template
        have other := (template_ordinary ((Bool.not_eq_false _).mp template)).1
        have known := ((Bool.and_eq_true _ _).mp void).2
        rw [other] at known
        cases known
      rw [plain,Standard.fragment,void,if_pos rfl,Dom.isVoidWithContent,void,Bool.true_and]
      exact Standard.serialize_eq_nil

namespace Sample

def html (localName : String) (attrs : List Attribute) : ElementData := ⟨⟨none,.html,localName.toList⟩,attrs⟩

def paragraph : ElementData := html "p" [⟨⟨none,.none,"title".toList⟩,"a\u00a0<".toList⟩]

/-- A paragraph of a text, a line break and a template whose contents have their fragment. -/
def page : Document where
  getNode
    | 0 => some ⟨none,[1,2,3],.element paragraph⟩
    | 1 => some ⟨some 0,[],.text "x&".toList⟩
    | 2 => some ⟨some 0,[],.element (html "br" [])⟩
    | 3 => some ⟨some 0,[],.element (html "template" [])⟩
    | 4 => some ⟨none,[5],.element (html fragmentAtom [])⟩
    | 5 => some ⟨some 4,[],.comment "c".toList⟩
    | _ => none
  templateContents id := if id = 3 then some 4 else none

def tree : Dom :=
  .element paragraph (.text "x&".toList (.element (html "br" []) .nil .nil
    (.element (html "template" []) .nil (.comment "c".toList .nil) .nil))) .nil .nil

theorem page_serialized :
    Returns (serializeNode page · 0)
      "<p title=\"a&nbsp;&lt;\">x&amp;<br><template><!--c--></template></p>".toList ∧
    Returns (serializeChildren page · 0) "x&amp;<br><template><!--c--></template>".toList := by
  have shown : page.Shows none [0] tree := by
    refine ⟨⟨[1,2,3],rfl,rfl,rfl,rfl,⟨⟨[],rfl,rfl,rfl,trivial⟩,?_⟩⟩,trivial⟩
    exact ⟨⟨[],rfl,rfl,trivial,⟨_,rfl,rfl,rfl,trivial⟩⟩,trivial⟩
  obtain ⟨-,outer,inner,returned,same⟩ := serializer_iff shown
  have whole : Standard.serialize (page.rawTextUnder none) tree =
      "<p title=\"a&nbsp;&lt;\">x&amp;<br><template><!--c--></template></p>".toList := by decide
  have inside : Standard.fragment tree = "x&amp;<br><template><!--c--></template>".toList := by decide
  rw [whole] at outer
  rw [same.mpr rfl,inside] at returned
  exact ⟨outer,returned⟩

/-- A line break that a script has appended a text to. -/
def filled : Document where
  getNode
    | 0 => some ⟨none,[1],.element (html "br" [])⟩
    | 1 => some ⟨some 0,[],.text "x".toList⟩
    | _ => none
  templateContents _ := none

theorem void_shows_content : filled.Shows none [0] (.element (html "br" []) (.text "x".toList .nil) .nil .nil) ∧
    serializeChildren filled 1 0 [] = some "x".toList ∧
    Standard.fragment (.element (html "br" []) (.text "x".toList .nil) .nil .nil) = [] :=
  ⟨⟨⟨[1],rfl,rfl,rfl,⟨rfl,trivial⟩⟩,trivial⟩,rfl,rfl⟩

end Sample

end Sharko.Script.Html
