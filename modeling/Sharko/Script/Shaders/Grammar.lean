import Sharko.Script.Shaders.Parser

/-! The grammar of expressions, by levels of precedence, and how a tree is written with as few parentheses
as that grammar allows. -/

namespace Sharko.Script.Shaders.Parser

open Sharko.Library

/-- From the loosest to the tightest; the binary operators have eleven of them. -/
inductive Level where
  | expression
  | assignment
  | binary (k : Fin 11)
  | unary
  | postfixed
  | primary
  deriving DecidableEq

def Level.place : Level → ℕ
  | expression => 0
  | assignment => 1
  | binary k => k.val + 2
  | unary => 13
  | postfixed => 14
  | primary => 15

def binaryLevel : BinOp → Fin 11
  | .or => 0
  | .xor => 1
  | .and => 2
  | .bitOr => 3
  | .bitXor => 4
  | .bitAnd => 5
  | .eq | .ne => 6
  | .lt | .gt | .le | .ge => 7
  | .shl | .shr => 8
  | .add | .sub => 9
  | .mul | .div | .mod => 10

def Level.above : Level → Level
  | expression => assignment
  | assignment => binary 0
  | binary k => if below : k.val < 10 then binary ⟨k.val + 1,by omega⟩ else unary
  | unary => postfixed
  | postfixed | primary => primary

def UnaryOp.punct : UnaryOp → Punct
  | plus => .bin .add
  | minus => .bin .sub
  | not => .not
  | compl => .compl
  | step op => .step op

inductive Separated : List (List Token) → List Token → Prop
  | one (ts : List Token) : Separated [ts] ts
  | more {tss : List (List Token)} {us : List Token} (ts : List Token) (line : ℕ) (later : Separated tss us) :
    Separated (ts :: tss) (ts ++ .p .comma line :: us)

/-- The arguments of a call with the closing parenthesis; `(void)` is a call without arguments. -/
inductive Listed : List (List Token) → List Token → Prop
  | none (line : ℕ) : Listed [] [.p .rparen line]
  | void (line line' : ℕ) : Listed [] [.id "void".toList line,.p .rparen line']
  | some {tss : List (List Token)} {ts : List Token} (line : ℕ) (separated : Separated tss ts) :
    Listed tss (ts ++ [.p .rparen line])

variable {structs : Structs}

/-- The tokens are an expression of the level, with this tree. The assignments and the conditional group
from the right, the binary operators and the comma from the left. -/
inductive Derives : Level → Expr structs → List Token → Prop
  | num (v : Number) (type : Base) (s : Text) (line : ℕ) :
    Derives .primary (.num v type line) [.num v type s line]
  | true (line : ℕ) : Derives .primary (.bool Bool.true line) [.id "true".toList line]
  | false (line : ℕ) : Derives .primary (.bool Bool.false line) [.id "false".toList line]
  | id (name : Name structs) (line : ℕ) : Derives .primary (.id name line) [.id name.val line]
  | call {ts : List Token} (name : Name structs) (args : List (Expr structs × List Token)) (line line' : ℕ)
      (each : ∀ a ∈ args,Derives .assignment a.1 a.2) (listed : Listed (args.map Prod.snd) ts) :
    Derives .primary (.call name (args.map Prod.fst) line) (.id name.val line :: .p .lparen line' :: ts)
  | ctor {ts : List Token} (type : TypeName structs) (args : List (Expr structs × List Token)) (line line' : ℕ)
      (each : ∀ a ∈ args,Derives .assignment a.1 a.2) (listed : Listed (args.map Prod.snd) ts) :
    Derives .primary (.ctor type (args.map Prod.fst) line) (.id type.val line :: .p .lparen line' :: ts)
  | ctorArray {len : Expr structs} {ls ts : List Token} (type : TypeName structs)
      (args : List (Expr structs × List Token)) (line line₁ line₂ line₃ : ℕ)
      (size : Derives .assignment len ls) (each : ∀ a ∈ args,Derives .assignment a.1 a.2)
      (listed : Listed (args.map Prod.snd) ts) :
    Derives .primary (.ctorArray type len (args.map Prod.fst) line)
      (.id type.val line :: .p .lbracket line₁ :: (ls ++ .p .rbracket line₂ :: .p .lparen line₃ :: ts))
  | paren {e : Expr structs} {ts : List Token} (line line' : ℕ) (inner : Derives .expression e ts) :
    Derives .primary e (.p .lparen line :: (ts ++ [.p .rparen line']))
  | index {e i : Expr structs} {ts us : List Token} (line line' : ℕ) (base : Derives .postfixed e ts)
      (inner : Derives .expression i us) :
    Derives .postfixed (.index e i line) (ts ++ .p .lbracket line :: (us ++ [.p .rbracket line']))
  | field {e : Expr structs} {ts : List Token} (name : Text) (line line' : ℕ) (base : Derives .postfixed e ts) :
    Derives .postfixed (.field e name line) (ts ++ [.p .dot line,.id name line'])
  | length {e : Expr structs} {ts : List Token} (line line₁ line₂ line₃ : ℕ) (base : Derives .postfixed e ts) :
    Derives .postfixed (.length e line)
      (ts ++ [.p .dot line,.id "length".toList line₁,.p .lparen line₂,.p .rparen line₃])
  | post {e : Expr structs} {ts : List Token} (op : StepOp) (line : ℕ) (base : Derives .postfixed e ts) :
    Derives .postfixed (.post op e line) (ts ++ [.p (.step op) line])
  | unary {e : Expr structs} {ts : List Token} (op : UnaryOp) (line : ℕ) (operand : Derives .unary e ts) :
    Derives .unary (.unary op e line) (.p op.punct line :: ts)
  | bin {l r : Expr structs} {ts us : List Token} (op : BinOp) (line : ℕ)
      (left : Derives (.binary (binaryLevel op)) l ts)
      (right : Derives (Level.binary (binaryLevel op)).above r us) :
    Derives (.binary (binaryLevel op)) (.bin op l r line) (ts ++ .p (.bin op) line :: us)
  | cond {c a b : Expr structs} {ts us vs : List Token} (line line' : ℕ) (test : Derives (.binary 0) c ts)
      (yes : Derives .expression a us) (no : Derives .assignment b vs) :
    Derives .assignment (.cond c a b line) (ts ++ .p .question line :: (us ++ .p .colon line' :: vs))
  | assign {l r : Expr structs} {ts us : List Token} (op : AssignOp) (line : ℕ)
      (left : Derives (.binary 0) l ts) (right : Derives .assignment r us) :
    Derives .assignment (.assign op l r line) (ts ++ .p (.assign op) line :: us)
  | comma {l r : Expr structs} {ts us : List Token} (line : ℕ) (left : Derives .expression l ts)
      (right : Derives .assignment r us) :
    Derives .expression (.comma l r line) (ts ++ .p .comma line :: us)
  | above {level : Level} {e : Expr structs} {ts : List Token} (inner : Derives level.above e ts) :
    Derives level e ts

theorem place_le (level : Level) : level.place ≤ 15 := by
  cases level with
  | binary k =>
    simp only [Level.place]
    omega
  | _ => decide

theorem place_injective : Function.Injective Level.place := by
  intro a b equal
  cases a <;> cases b <;> simp only [Level.place] at equal
  all_goals first
    | rfl
    | exact congrArg Level.binary (by omega)
    | omega

theorem place_above {level : Level} (other : level ≠ .primary) : level.above.place = level.place + 1 := by
  cases level with
  | binary k =>
    by_cases below : k.val < 10
    · simp [Level.above,Level.place,below]
    · simp only [Level.above,Level.place,dif_neg below]
      omega
  | primary => exact absurd rfl other
  | _ => rfl

theorem place_le_above (level : Level) : level.place ≤ level.above.place := by
  by_cases last : level = .primary
  · rw [last]
    exact le_refl _
  · rw [place_above last]
    exact Nat.le_succ _

theorem Derives.loosen {level tight : Level} {e : Expr structs} {ts : List Token} (derived : Derives tight e ts)
    (order : level.place ≤ tight.place) : Derives level e ts := by
  by_cases same : level = tight
  · rw [same]
    exact derived
  · have apart : level.place ≠ tight.place := fun equal => same (place_injective equal)
    have bound := place_le tight
    have other : level ≠ .primary := by
      intro last
      rw [last] at order apart
      change 15 ≤ tight.place at order
      change 15 ≠ tight.place at apart
      omega
    have above := place_above other
    exact .above (derived.loosen (by omega))
termination_by 15 - level.place

/-- The first tokens of an expression of the level; `void` is a type, so what follows it is no parenthesis
that closes. -/
def Starts (level : Level) : List Token → Prop
  | [] => False
  | .num .. :: _ => True
  | .id v _ :: us => v = "void".toList → ∃ w line vs,us = .p w line :: vs ∧ w ≠ .rparen
  | .p v _ :: _ => v = .lparen ∨ level.place ≤ 13 ∧ v.unaryOp.isSome

theorem Starts.append {level : Level} {ts : List Token} (starts : Starts level ts) (us : List Token) :
    Starts level (ts ++ us) := by
  match ts,starts with
  | .num .. :: _,_ => trivial
  | .id .. :: _,starts =>
    intro void
    obtain ⟨w,line,vs,rfl,other⟩ := starts void
    exact ⟨w,line,vs ++ us,rfl,other⟩
  | .p .. :: _,starts => exact starts

theorem Starts.loosen {level tight : Level} {ts : List Token} (starts : Starts tight ts)
    (order : level.place ≤ tight.place) : Starts level ts := by
  match ts,starts with
  | .num .. :: _,_ => trivial
  | .id .. :: _,starts => exact starts
  | .p .. :: _,.inl paren => exact .inl paren
  | .p .. :: _,.inr ⟨bound,operator⟩ => exact .inr ⟨by omega,operator⟩

theorem isTypeName_void : isTypeName structs "void".toList := by
  simp [isTypeName,basicTypes]

theorem unaryOp_punct (op : UnaryOp) : op.punct.unaryOp = some op := by
  cases op <;> rfl

theorem Derives.starts {level : Level} {e : Expr structs} {ts : List Token} (derived : Derives level e ts) :
    Starts level ts := by
  induction derived with
  | num => trivial
  | true | false =>
    intro void
    exact absurd void (by decide)
  | id name =>
    intro void
    have type : isTypeName structs name.val = Bool.true := by rw [void]; exact isTypeName_void
    rw [name.property.1] at type
    cases type
  | call | ctor | ctorArray => exact fun _ => ⟨_,_,_,rfl,by decide⟩
  | paren => exact .inl rfl
  | unary op => exact .inr ⟨le_refl _,by rw [unaryOp_punct]; rfl⟩
  | index _ _ _ _ ih | field _ _ _ _ ih | length _ _ _ _ _ ih | post _ _ _ ih => exact ih.append _
  | bin _ _ _ _ ih => exact ih.append _
  | cond _ _ _ _ _ ih | assign _ _ _ _ ih => exact (ih.loosen (by decide)).append _
  | comma _ _ _ ih => exact ih.append _
  | @above level _ _ _ ih => exact ih.loosen (place_le_above level)

def Expr.level : Expr structs → Level
  | num .. | bool .. | id .. | call .. | ctor .. | ctorArray .. => .primary
  | index .. | field .. | length .. | post .. => .postfixed
  | unary .. => .unary
  | bin op .. => .binary (binaryLevel op)
  | cond .. | assign .. => .assignment
  | comma .. => .expression

/-- How a number is written, and the line of the tokens whose line no node keeps. -/
structure Layout where
  spell : Number → Base → Text
  line : ℕ

variable (layout : Layout)

def wrap (level : Level) (e : Expr structs) (ts : List Token) : List Token :=
  if e.level.place < level.place then .p .lparen layout.line :: (ts ++ [.p .rparen layout.line]) else ts

mutual

def bare : Expr structs → List Token
  | .num v type line => [.num v type (layout.spell v type) line]
  | .bool v line => [.id (if v then "true" else "false").toList line]
  | .id name line => [.id name.val line]
  | .call name args line => .id name.val line :: .p .lparen layout.line :: (list args ++ [.p .rparen layout.line])
  | .ctor type args line => .id type.val line :: .p .lparen layout.line :: (list args ++ [.p .rparen layout.line])
  | .ctorArray type len args line =>
    .id type.val line :: .p .lbracket layout.line :: (wrap layout .assignment len (bare len) ++
      .p .rbracket layout.line :: .p .lparen layout.line :: (list args ++ [.p .rparen layout.line]))
  | .index e i line =>
    wrap layout .postfixed e (bare e) ++
      .p .lbracket line :: (wrap layout .expression i (bare i) ++ [.p .rbracket layout.line])
  | .field e name line => wrap layout .postfixed e (bare e) ++ [.p .dot line,.id name layout.line]
  | .length e line =>
    wrap layout .postfixed e (bare e) ++
      [.p .dot line,.id "length".toList layout.line,.p .lparen layout.line,.p .rparen layout.line]
  | .post op e line => wrap layout .postfixed e (bare e) ++ [.p (.step op) line]
  | .unary op e line => .p op.punct line :: wrap layout .unary e (bare e)
  | .bin op l r line =>
    wrap layout (.binary (binaryLevel op)) l (bare l) ++
      .p (.bin op) line :: wrap layout (Level.binary (binaryLevel op)).above r (bare r)
  | .cond c a b line =>
    wrap layout (.binary 0) c (bare c) ++
      .p .question line :: (wrap layout .expression a (bare a) ++
        .p .colon layout.line :: wrap layout .assignment b (bare b))
  | .assign op l r line =>
    wrap layout (.binary 0) l (bare l) ++ .p (.assign op) line :: wrap layout .assignment r (bare r)
  | .comma l r line =>
    wrap layout .expression l (bare l) ++ .p .comma line :: wrap layout .assignment r (bare r)

def list : List (Expr structs) → List Token
  | [] => []
  | [e] => wrap layout .assignment e (bare e)
  | e :: es => wrap layout .assignment e (bare e) ++ .p .comma layout.line :: list es

end

/-- The tokens of a tree where an expression of the level can stand. -/
def print (level : Level) (e : Expr structs) : List Token := wrap layout level e (bare layout e)

theorem Derives.wrap {level : Level} {e : Expr structs} {ts : List Token} (derived : Derives e.level e ts) :
    Derives level e (wrap layout level e ts) := by
  unfold Parser.wrap
  split
  next loose =>
    have inner : Derives .expression e ts := derived.loosen (Nat.zero_le _)
    exact (Derives.paren layout.line layout.line inner).loosen (place_le level)
  next tight => exact derived.loosen (Nat.le_of_not_lt tight)

theorem separated_list (e : Expr structs) (es : List (Expr structs)) :
    Separated ((e :: es).map (print layout .assignment)) (list layout (e :: es)) := by
  induction es generalizing e with
  | nil => exact .one _
  | cons e' es ih => exact .more _ _ (ih e')

theorem listed_list (es : List (Expr structs)) :
    Listed (es.map (print layout .assignment)) (list layout es ++ [.p .rparen layout.line]) := by
  cases es with
  | nil => exact .none _
  | cons e es => exact .some _ (separated_list layout e es)

theorem derives_bare (e : Expr structs) : Derives e.level e (bare layout e) := by
  have called (es : List (Expr structs)) (each : ∀ a ∈ es,Derives a.level a (bare layout a)) :
      ∃ args : List (Expr structs × List Token),args.map Prod.fst = es ∧
        (∀ a ∈ args,Derives .assignment a.1 a.2) ∧
        Listed (args.map Prod.snd) (list layout es ++ [.p .rparen layout.line]) := by
    refine ⟨es.map fun a => (a,print layout .assignment a),?_,?_,?_⟩
    · exact (List.map_map ..).trans (List.map_id es)
    · intro a member
      obtain ⟨a,inside,rfl⟩ := List.mem_map.mp member
      exact (each a inside).wrap layout
    · rw [List.map_map]
      exact listed_list layout es
  match e with
  | .num v type line => exact .num v type _ line
  | .bool true line => exact .true line
  | .bool false line => exact .false line
  | .id name line => exact .id name line
  | .call name es line =>
    obtain ⟨args,rfl,each,listed⟩ := called es fun a member => derives_bare a
    exact .call name args line layout.line each listed
  | .ctor type es line =>
    obtain ⟨args,rfl,each,listed⟩ := called es fun a member => derives_bare a
    exact .ctor type args line layout.line each listed
  | .ctorArray type len es line =>
    obtain ⟨args,rfl,each,listed⟩ := called es fun a member => derives_bare a
    exact .ctorArray type args line layout.line layout.line layout.line ((derives_bare len).wrap layout) each listed
  | .index e i line => exact .index line layout.line ((derives_bare e).wrap layout) ((derives_bare i).wrap layout)
  | .field e name line => exact .field name line layout.line ((derives_bare e).wrap layout)
  | .length e line => exact .length line layout.line layout.line layout.line ((derives_bare e).wrap layout)
  | .post op e line => exact .post op line ((derives_bare e).wrap layout)
  | .unary op e line => exact .unary op line ((derives_bare e).wrap layout)
  | .bin op l r line => exact .bin op line ((derives_bare l).wrap layout) ((derives_bare r).wrap layout)
  | .cond c a b line =>
    exact .cond line layout.line ((derives_bare c).wrap layout) ((derives_bare a).wrap layout)
      ((derives_bare b).wrap layout)
  | .assign op l r line => exact .assign op line ((derives_bare l).wrap layout) ((derives_bare r).wrap layout)
  | .comma l r line => exact .comma line ((derives_bare l).wrap layout) ((derives_bare r).wrap layout)
termination_by sizeOf e
decreasing_by
  all_goals simp_wf
  all_goals first
    | omega
    | have inside := List.sizeOf_lt_of_mem member
      omega

theorem derives_print (level : Level) (e : Expr structs) : Derives level e (print layout level e) :=
  (derives_bare layout e).wrap layout

theorem wrap_length_le (level : Level) (e : Expr structs) (ts : List Token) :
    (wrap layout level e ts).length ≤ ts.length + 2 := by
  unfold wrap
  split
  · simp
  · omega

theorem wrap_length_mono {level tight : Level} (order : level.place ≤ tight.place) (e : Expr structs)
    (ts : List Token) : (wrap layout level e ts).length ≤ (wrap layout tight e ts).length := by
  unfold wrap
  split
  next loose => rw [if_pos (by omega)]
  next =>
    split
    · simp only [List.length_cons,List.length_append]
      omega
    · exact le_refl _

theorem own_length_le {level : Level} {e : Expr structs} {n : ℕ} (own : e.level = level)
    (short : (bare layout e).length ≤ n) : (print layout level e).length ≤ n := by
  have tight : ¬ e.level.place < level.place := by
    rw [own]
    exact Nat.lt_irrefl _
  rw [print,wrap,if_neg tight]
  exact short

theorem list_length_le {args : List (Expr structs × List Token)} {tss : List (List Token)} {ts : List Token}
    (separated : Separated tss ts) (shape : args.map Prod.snd = tss)
    (each : ∀ a ∈ args,(print layout .assignment a.1).length ≤ a.2.length) :
    (list layout (args.map Prod.fst)).length ≤ ts.length := by
  induction separated generalizing args with
  | one ts =>
    match args,shape with
    | [a],shape =>
      obtain rfl : a.2 = ts := List.singleton_inj.mp shape
      exact each a List.mem_cons_self
  | more ts line later ih =>
    match args,shape with
    | a :: args,shape =>
      obtain ⟨rfl,later_shape⟩ := List.cons.inj shape
      have first := each a List.mem_cons_self
      have others := ih later_shape fun b member => each b (List.mem_cons_of_mem _ member)
      match args,later with
      | b :: args,_ =>
        simp only [print] at first
        simp only [List.map_cons,list,List.length_append,List.length_cons] at others ⊢
        omega

theorem listed_length_le {args : List (Expr structs × List Token)} {ts : List Token}
    (listed : Listed (args.map Prod.snd) ts)
    (each : ∀ a ∈ args,(print layout .assignment a.1).length ≤ a.2.length) :
    (list layout (args.map Prod.fst)).length + 1 ≤ ts.length := by
  generalize shape : args.map Prod.snd = tss at listed
  cases listed with
  | none | void =>
    obtain rfl := List.map_eq_nil_iff.mp shape
    simp [list]
  | some line separated =>
    have shorter := list_length_le layout separated shape each
    rw [List.length_append]
    exact Nat.add_le_add_right shorter 1

theorem print_length_le {level : Level} {e : Expr structs} {ts : List Token} (derived : Derives level e ts) :
    (print layout level e).length ≤ ts.length := by
  induction derived with
  | num | true | false | id => exact le_refl _
  | call name args line line' _ listed ih =>
    have inside := listed_length_le layout listed ih
    refine own_length_le layout rfl ?_
    simp only [bare,List.length_cons,List.length_append,List.length_nil]
    omega
  | ctor type args line line' _ listed ih =>
    have inside := listed_length_le layout listed ih
    refine own_length_le layout rfl ?_
    simp only [bare,List.length_cons,List.length_append,List.length_nil]
    omega
  | @ctorArray len _ _ type args line _ _ _ _ _ listed size ih =>
    have inside := listed_length_le layout listed ih
    refine own_length_le layout rfl ?_
    simp only [bare,print,List.length_cons,List.length_append,List.length_nil] at size ⊢
    omega
  | @paren e ts _ _ _ ih =>
    have outer := wrap_length_le layout .primary e (bare layout e)
    have loose : wrap layout .expression e (bare layout e) = bare layout e := if_neg (Nat.not_lt_zero _)
    rw [print,loose] at ih
    rw [List.length_cons,List.length_append]
    exact outer.trans (Nat.add_le_add_right ih 2)
  | @index e i _ _ line _ _ _ base inner =>
    refine own_length_le layout rfl ?_
    simp only [bare,print,List.length_cons,List.length_append,List.length_nil] at base inner ⊢
    omega
  | @field e _ name line _ _ base =>
    refine own_length_le layout rfl ?_
    simp only [bare,print,List.length_cons,List.length_append,List.length_nil] at base ⊢
    omega
  | @length e _ line _ _ _ _ base =>
    refine own_length_le layout rfl ?_
    simp only [bare,print,List.length_cons,List.length_append,List.length_nil] at base ⊢
    omega
  | @post e _ op line _ base =>
    refine own_length_le layout rfl ?_
    simp only [bare,print,List.length_cons,List.length_append,List.length_nil] at base ⊢
    omega
  | @unary e _ op line _ operand =>
    refine own_length_le layout rfl ?_
    simp only [bare,print,List.length_cons] at operand ⊢
    omega
  | @bin l r _ _ op line _ _ left right =>
    refine own_length_le layout rfl ?_
    simp only [bare,print,List.length_cons,List.length_append] at left right ⊢
    omega
  | @cond c a b _ _ _ line _ _ _ _ test yes no =>
    refine own_length_le layout rfl ?_
    simp only [bare,print,List.length_cons,List.length_append] at test yes no ⊢
    omega
  | @assign l r _ _ op line _ _ left right =>
    refine own_length_le layout rfl ?_
    simp only [bare,print,List.length_cons,List.length_append] at left right ⊢
    omega
  | @comma l r _ _ line _ _ left right =>
    refine own_length_le layout rfl ?_
    simp only [bare,print,List.length_cons,List.length_append] at left right ⊢
    omega
  | @above level e _ _ ih => exact (wrap_length_mono layout (place_le_above level) e _).trans ih

end Sharko.Script.Shaders.Parser
