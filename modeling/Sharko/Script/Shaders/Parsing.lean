import Sharko.Library.Folds
import Sharko.Library.Fuel
import Sharko.Script.Shaders.Grammar

/-! The parser of expressions accepts what the grammar derives and builds its tree. -/

namespace Sharko.Script.Shaders.Parser

open Sharko.Library.Folds Sharko.Library.Fuel

variable {structs : Structs} {eof : ℕ}

theorem expectP_ok {v : Punct} {ts rest : List Token} :
    expectP eof v ts = .ok rest ↔ ∃ line,ts = .p v line :: rest := by
  match ts with
  | [] => simp [expectP,err]
  | .num .. :: _ => simp [expectP,err]
  | .id .. :: _ => simp [expectP,err]
  | .p w line :: us =>
    by_cases same : w = v
    · simp [expectP,same]
    · simp [expectP,err,same]

/-- The level of the operators in a row of `LEVELS`; below the last one are the unary operators. -/
def rung (k : ℕ) : Level := if below : k < 11 then .binary ⟨k,below⟩ else .unary

theorem rung_above (k : Fin 11) : rung (k.val + 1) = (Level.binary k).above := by
  by_cases below : k.val < 10
  · rw [rung,dif_pos (by omega),Level.above,dif_pos below]
  · rw [rung,dif_neg (by omega),Level.above,dif_neg below]

theorem mem_levels {k : Fin 11} {op : BinOp} : op ∈ levels.getD k.val [] ↔ binaryLevel op = k := by
  cases op <;> revert k <;> decide

def Reads (level : Level) (read : List Token → Result structs) : Prop :=
  ∀ ts e rest,read ts = .ok (e,rest) → ∃ used,ts = used ++ rest ∧ Derives level e used

def Extends (level : Level) (resume : Expr structs → List Token → Result structs) : Prop :=
  ∀ done l,Derives level l done → ∀ ts e rest,resume l ts = .ok (e,rest) →
    ∃ used,ts = used ++ rest ∧ Derives level e (done ++ used)

def ReadsList (shape : List (List Token) → List Token → Prop)
    (read : List Token → Except Failure (List (Expr structs) × List Token)) : Prop :=
  ∀ ts es rest,read ts = .ok (es,rest) → ∃ (used : List Token) (args : List (Expr structs × List Token)),
    ts = used ++ rest ∧ args.map Prod.fst = es ∧ (∀ a ∈ args,Derives .assignment a.1 a.2) ∧
      shape (args.map Prod.snd) used

def Closed (tss : List (List Token)) (ts : List Token) : Prop :=
  ∃ us line,ts = us ++ [.p .rparen line] ∧ Separated tss us

def Assigns (ts : List Token) : Prop := ∃ op line us,ts = .p (.assign op) line :: us

variable (structs eof) in
/-- What a conditional leaves is no assignment if it took one itself after the colon. -/
structure Sound (n : ℕ) : Prop where
  primary : Reads .primary (Parser.primary structs eof n)
  argList : ReadsList Listed (Parser.argList structs eof n)
  arguments : ReadsList Closed (Parser.arguments structs eof n)
  postfixExpr : Reads .postfixed (Parser.postfixExpr structs eof n)
  postfixRest : Extends .postfixed (Parser.postfixRest structs eof n)
  unary : Reads .unary (Parser.unary structs eof n)
  binary (k : ℕ) : Reads (rung k) (Parser.binary structs eof n k)
  binaryRest (k : Fin 11) : Extends (.binary k) (Parser.binaryRest structs eof n k)
  conditional (ts : List Token) (e : Expr structs) (rest : List Token)
    (read : Parser.conditional structs eof n ts = .ok (e,rest)) :
    ∃ used,ts = used ++ rest ∧ (Derives (.binary 0) e used ∨ Derives .assignment e used ∧ ¬ Assigns rest)
  assignment : Reads .assignment (Parser.assignment structs eof n)
  assigned (ts : List Token) (e : Expr structs) (rest : List Token)
    (read : Parser.assignment structs eof n ts = .ok (e,rest)) : ¬ Assigns rest
  expression : Reads .expression (Parser.expression structs eof n)
  expressionRest : Extends .expression (Parser.expressionRest structs eof n)

namespace Sound

variable {n : ℕ}

theorem next_primary (sound : Sound structs eof n) : Reads .primary (Parser.primary structs eof (n + 1)) := by
  intro ts e rest read
  match ts with
  | [] => cases read
  | .num v type s line :: us =>
    cases read
    exact ⟨[.num v type s line],rfl,.num v type s line⟩
  | .p v line :: us =>
    rw [Parser.primary] at read
    split at read
    next paren =>
      rw [bind_ok] at read
      obtain ⟨⟨inner,us'⟩,first,read⟩ := read
      rw [bind_ok] at read
      obtain ⟨us'',closing,read⟩ := read
      obtain ⟨line',rfl⟩ := expectP_ok.mp closing
      cases read
      obtain ⟨used,rfl,derived⟩ := sound.expression _ _ _ first
      rw [paren]
      exact ⟨_,by simp,.paren line line' derived⟩
    next => cases read
  | .id v line :: us =>
    rw [Parser.primary] at read
    split at read
    next literal =>
      cases read
      obtain rfl | rfl := literal
      · exact ⟨[_],rfl,.true line⟩
      · exact ⟨[_],rfl,.false line⟩
    next =>
      split at read
      next type =>
        split at read
        next line₁ us =>
          rw [bind_ok] at read
          obtain ⟨⟨len,us₁⟩,first,read⟩ := read
          rw [bind_ok] at read
          obtain ⟨us₂,bracket,read⟩ := read
          rw [bind_ok] at read
          obtain ⟨us₃,opening,read⟩ := read
          rw [bind_ok] at read
          obtain ⟨⟨es,us₄⟩,list,read⟩ := read
          obtain ⟨line₂,rfl⟩ := expectP_ok.mp bracket
          obtain ⟨line₃,rfl⟩ := expectP_ok.mp opening
          obtain ⟨used,rfl,size⟩ := sound.assignment _ _ _ first
          obtain ⟨inside,args,rfl,rfl,each,listed⟩ := sound.argList _ _ _ list
          cases read
          exact ⟨_,by simp,.ctorArray ⟨v,type⟩ args line line₁ line₂ line₃ size each listed⟩
        next =>
          rw [bind_ok] at read
          obtain ⟨us₁,opening,read⟩ := read
          rw [bind_ok] at read
          obtain ⟨⟨es,us₂⟩,list,read⟩ := read
          obtain ⟨line₁,rfl⟩ := expectP_ok.mp opening
          obtain ⟨inside,args,rfl,rfl,each,listed⟩ := sound.argList _ _ _ list
          cases read
          exact ⟨_,by simp,.ctor ⟨v,type⟩ args line line₁ each listed⟩
      next =>
        split at read
        next => cases read
        next =>
          split at read
          next line₁ us =>
            rw [bind_ok] at read
            obtain ⟨⟨es,us₁⟩,list,read⟩ := read
            obtain ⟨inside,args,rfl,rfl,each,listed⟩ := sound.argList _ _ _ list
            cases read
            exact ⟨_,by simp,.call _ args line line₁ each listed⟩
          next =>
            cases read
            exact ⟨[_],rfl,.id _ line⟩

theorem next_argList (sound : Sound structs eof n) : ReadsList Listed (Parser.argList structs eof (n + 1)) := by
  have some (ts : List Token) (es : List (Expr structs)) (rest : List Token)
      (read : Parser.arguments structs eof n ts = .ok (es,rest)) :
      ∃ (used : List Token) (args : List (Expr structs × List Token)),ts = used ++ rest ∧
        args.map Prod.fst = es ∧ (∀ a ∈ args,Derives .assignment a.1 a.2) ∧
          Listed (args.map Prod.snd) used := by
    obtain ⟨_,args,rfl,rfl,each,us,line,rfl,separated⟩ := sound.arguments _ _ _ read
    exact ⟨_,args,rfl,rfl,each,.some line separated⟩
  intro ts es rest read
  unfold Parser.argList at read
  split at read
  next v line line' us =>
    split at read
    next void =>
      cases read
      rw [void]
      exact ⟨[_,_],[],rfl,rfl,by simp,.void line line'⟩
    next => exact some _ _ _ read
  next line us =>
    cases read
    exact ⟨[_],[],rfl,rfl,by simp,.none line⟩
  next => exact some _ _ _ read

theorem next_arguments (sound : Sound structs eof n) : ReadsList Closed (Parser.arguments structs eof (n + 1)) := by
  intro ts es rest read
  rw [Parser.arguments] at read
  rw [bind_ok] at read
  obtain ⟨⟨e,us⟩,first,read⟩ := read
  obtain ⟨used,rfl,derived⟩ := sound.assignment _ _ _ first
  dsimp only at read
  split at read
  next line us =>
    rw [bind_ok] at read
    obtain ⟨⟨es,us'⟩,later,read⟩ := read
    obtain ⟨_,args,rfl,rfl,each,vs,line',rfl,separated⟩ := sound.arguments _ _ _ later
    cases read
    refine ⟨used ++ .p .comma line :: vs ++ [.p .rparen line'],(e,used) :: args,by simp,rfl,?_,_,line',rfl,
      .more used line separated⟩
    intro a member
    obtain rfl | member := List.mem_cons.mp member
    · exact derived
    · exact each a member
  next =>
    rw [bind_ok] at read
    obtain ⟨us',closing,read⟩ := read
    obtain ⟨line,rfl⟩ := expectP_ok.mp closing
    cases read
    refine ⟨_,[(e,used)],by simp,rfl,?_,used,line,rfl,.one used⟩
    intro a member
    obtain rfl := List.mem_singleton.mp member
    exact derived

theorem next_postfixExpr (sound : Sound structs eof n) :
    Reads .postfixed (Parser.postfixExpr structs eof (n + 1)) := by
  intro ts e rest read
  rw [Parser.postfixExpr,bind_ok] at read
  obtain ⟨⟨l,us⟩,first,read⟩ := read
  obtain ⟨done,rfl,derived⟩ := sound.primary _ _ _ first
  obtain ⟨used,rfl,longer⟩ := sound.postfixRest done l (.above derived) _ _ _ read
  exact ⟨done ++ used,by simp,longer⟩

theorem next_postfixRest (sound : Sound structs eof n) :
    Extends .postfixed (Parser.postfixRest structs eof (n + 1)) := by
  intro done l derived ts e rest read
  unfold Parser.postfixRest at read
  split at read
  next line us =>
    rw [bind_ok] at read
    obtain ⟨⟨i,us'⟩,first,read⟩ := read
    rw [bind_ok] at read
    obtain ⟨us'',closing,read⟩ := read
    obtain ⟨line',rfl⟩ := expectP_ok.mp closing
    obtain ⟨inside,rfl,inner⟩ := sound.expression _ _ _ first
    obtain ⟨used,rfl,longer⟩ := sound.postfixRest _ _ (.index line line' derived inner) _ _ _ read
    exact ⟨.p .lbracket line :: (inside ++ [.p .rbracket line']) ++ used,by simp,by simpa using longer⟩
  next line v line₁ line₂ us =>
    split at read
    next length =>
      rw [bind_ok] at read
      obtain ⟨us',closing,read⟩ := read
      obtain ⟨line₃,rfl⟩ := expectP_ok.mp closing
      obtain ⟨used,rfl,longer⟩ := sound.postfixRest _ _ (.length line line₁ line₂ line₃ derived) _ _ _ read
      refine ⟨[.p .dot line,.id v line₁,.p .lparen line₂,.p .rparen line₃] ++ used,by simp,?_⟩
      rw [length]
      simpa using longer
    next =>
      obtain ⟨used,more,longer⟩ := sound.postfixRest _ _ (.field v line line₁ derived) _ _ _ read
      exact ⟨[.p .dot line,.id v line₁] ++ used,by simp [more],by simpa using longer⟩
  next line v line₁ us _ =>
    obtain ⟨used,rfl,longer⟩ := sound.postfixRest _ _ (.field v line line₁ derived) _ _ _ read
    exact ⟨[.p .dot line,.id v line₁] ++ used,by simp,by simpa using longer⟩
  next us _ _ =>
    cases us <;> cases read
  next op line us =>
    obtain ⟨used,rfl,longer⟩ := sound.postfixRest _ _ (.post op line derived) _ _ _ read
    exact ⟨[.p (.step op) line] ++ used,by simp,by simpa using longer⟩
  next =>
    cases read
    exact ⟨[],rfl,by simpa using derived⟩

theorem unaryOp_some {v : Punct} {op : UnaryOp} (found : v.unaryOp = some op) : v = op.punct := by
  unfold Punct.unaryOp at found
  split at found <;> cases found <;> rfl

theorem next_unary (sound : Sound structs eof n) : Reads .unary (Parser.unary structs eof (n + 1)) := by
  intro ts e rest read
  unfold Parser.unary at read
  split at read
  next v line us =>
    split at read
    next op found =>
      rw [bind_ok] at read
      obtain ⟨⟨l,us'⟩,first,read⟩ := read
      obtain ⟨used,rfl,operand⟩ := sound.unary _ _ _ first
      cases read
      rw [unaryOp_some found]
      exact ⟨_,rfl,.unary op line operand⟩
    next =>
      obtain ⟨used,same,derived⟩ := sound.postfixExpr _ _ _ read
      exact ⟨used,same,.above derived⟩
  next =>
    obtain ⟨used,same,derived⟩ := sound.postfixExpr _ _ _ read
    exact ⟨used,same,.above derived⟩

theorem next_binary (sound : Sound structs eof n) (k : ℕ) :
    Reads (rung k) (Parser.binary structs eof (n + 1) k) := by
  intro ts e rest read
  unfold Parser.binary at read
  split at read
  next last =>
    have loose : ¬ k < 11 := Nat.not_lt.mpr last
    rw [rung,dif_neg loose]
    exact sound.unary _ _ _ read
  next inner =>
    have below : k < 11 := Nat.lt_of_not_le inner
    rw [bind_ok] at read
    obtain ⟨⟨l,us⟩,first,read⟩ := read
    obtain ⟨done,rfl,derived⟩ := sound.binary (k + 1) _ _ _ first
    rw [rung_above ⟨k,below⟩] at derived
    obtain ⟨used,rfl,longer⟩ := sound.binaryRest ⟨k,below⟩ done l (.above derived) _ _ _ read
    rw [rung,dif_pos below]
    exact ⟨done ++ used,by simp,longer⟩

theorem next_binaryRest (sound : Sound structs eof n) (k : Fin 11) :
    Extends (.binary k) (Parser.binaryRest structs eof (n + 1) k) := by
  intro done l derived ts e rest read
  unfold Parser.binaryRest at read
  split at read
  next op line us =>
    split at read
    next member =>
      obtain rfl := mem_levels.mp member
      rw [bind_ok] at read
      obtain ⟨⟨r,us'⟩,first,read⟩ := read
      obtain ⟨right,rfl,operand⟩ := sound.binary _ _ _ _ first
      rw [rung_above] at operand
      obtain ⟨used,rfl,longer⟩ := sound.binaryRest _ _ _ (.bin op line derived operand) _ _ _ read
      exact ⟨.p (.bin op) line :: right ++ used,by simp,by simpa using longer⟩
    next =>
      cases read
      exact ⟨[],rfl,by simpa using derived⟩
  next =>
    cases read
    exact ⟨[],rfl,by simpa using derived⟩

theorem next_conditional (sound : Sound structs eof n) (ts : List Token) (e : Expr structs) (rest : List Token)
    (read : Parser.conditional structs eof (n + 1) ts = .ok (e,rest)) :
    ∃ used,ts = used ++ rest ∧ (Derives (.binary 0) e used ∨ Derives .assignment e used ∧ ¬ Assigns rest) := by
  rw [Parser.conditional,bind_ok] at read
  obtain ⟨⟨c,us⟩,first,read⟩ := read
  obtain ⟨done,rfl,test⟩ := sound.binary 0 _ _ _ first
  dsimp only at read
  split at read
  next line us =>
    rw [bind_ok] at read
    obtain ⟨⟨a,us₁⟩,middle,read⟩ := read
    rw [bind_ok] at read
    obtain ⟨us₂,colon,read⟩ := read
    rw [bind_ok] at read
    obtain ⟨⟨b,us₃⟩,last,read⟩ := read
    obtain ⟨line',rfl⟩ := expectP_ok.mp colon
    have stops := sound.assigned _ _ _ last
    obtain ⟨between,rfl,yes⟩ := sound.expression _ _ _ middle
    obtain ⟨after,rfl,no⟩ := sound.assignment _ _ _ last
    cases read
    exact ⟨done ++ .p .question line :: (between ++ .p .colon line' :: after),by simp,
      .inr ⟨.cond line line' test yes no,stops⟩⟩
  next =>
    cases read
    exact ⟨done,rfl,.inl test⟩

theorem next_assignment (sound : Sound structs eof n) :
    Reads .assignment (Parser.assignment structs eof (n + 1)) := by
  intro ts e rest read
  rw [Parser.assignment,bind_ok] at read
  obtain ⟨⟨l,us⟩,first,read⟩ := read
  obtain ⟨done,rfl,target⟩ := sound.conditional _ _ _ first
  dsimp only at read
  split at read
  next op line us =>
    rw [bind_ok] at read
    obtain ⟨⟨r,us'⟩,last,read⟩ := read
    obtain ⟨after,rfl,right⟩ := sound.assignment _ _ _ last
    cases read
    obtain left | ⟨_,stops⟩ := target
    · exact ⟨done ++ .p (.assign op) line :: after,by simp,.assign op line left right⟩
    · exact absurd ⟨op,line,_,rfl⟩ stops
  next =>
    cases read
    obtain loose | ⟨derived,_⟩ := target
    · exact ⟨done,rfl,.above loose⟩
    · exact ⟨done,rfl,derived⟩

theorem next_assigned (sound : Sound structs eof n) (ts : List Token) (e : Expr structs) (rest : List Token)
    (read : Parser.assignment structs eof (n + 1) ts = .ok (e,rest)) : ¬ Assigns rest := by
  rw [Parser.assignment,bind_ok] at read
  obtain ⟨⟨l,us⟩,first,read⟩ := read
  dsimp only at read
  split at read
  next op line us =>
    rw [bind_ok] at read
    obtain ⟨⟨r,us'⟩,last,read⟩ := read
    cases read
    exact sound.assigned _ _ _ last
  next other =>
    cases read
    rintro ⟨op,line,us,rfl⟩
    exact other op line us rfl

theorem next_expression (sound : Sound structs eof n) :
    Reads .expression (Parser.expression structs eof (n + 1)) := by
  intro ts e rest read
  rw [Parser.expression,bind_ok] at read
  obtain ⟨⟨l,us⟩,first,read⟩ := read
  obtain ⟨done,rfl,derived⟩ := sound.assignment _ _ _ first
  obtain ⟨used,rfl,longer⟩ := sound.expressionRest done l (.above derived) _ _ _ read
  exact ⟨done ++ used,by simp,longer⟩

theorem next_expressionRest (sound : Sound structs eof n) :
    Extends .expression (Parser.expressionRest structs eof (n + 1)) := by
  intro done l derived ts e rest read
  unfold Parser.expressionRest at read
  split at read
  next line us =>
    rw [bind_ok] at read
    obtain ⟨⟨r,us'⟩,first,read⟩ := read
    obtain ⟨right,rfl,operand⟩ := sound.assignment _ _ _ first
    obtain ⟨used,rfl,longer⟩ := sound.expressionRest _ _ (.comma line derived operand) _ _ _ read
    exact ⟨.p .comma line :: right ++ used,by simp,by simpa using longer⟩
  next =>
    cases read
    exact ⟨[],rfl,by simpa using derived⟩

end Sound

theorem sound (n : ℕ) : Sound structs eof n := by
  induction n with
  | zero =>
    constructor
    case binary =>
      intro k ts e rest read
      cases read
    case binaryRest =>
      intro k done l _ ts e rest read
      cases read
    case postfixRest | expressionRest =>
      intro done l _ ts e rest read
      cases read
    all_goals
      intro ts e rest read
      cases read
  | succ n ih =>
    exact ⟨ih.next_primary,ih.next_argList,ih.next_arguments,ih.next_postfixExpr,ih.next_postfixRest,
      ih.next_unary,ih.next_binary,ih.next_binaryRest,ih.next_conditional,ih.next_assignment,ih.next_assigned,
      ih.next_expression,ih.next_expressionRest⟩

theorem Derives.length_pos {level : Level} {e : Expr structs} {ts : List Token} (derived : Derives level e ts) :
    0 < ts.length := by
  match ts,derived.starts with
  | _ :: _,_ => exact Nat.succ_pos _

theorem Reads.shorter {level : Level} {read : List Token → Result structs} (reads : Reads level read)
    {ts rest : List Token} {e : Expr structs} (done : read ts = .ok (e,rest)) : rest.length < ts.length := by
  obtain ⟨used,rfl,derived⟩ := reads ts e rest done
  rw [List.length_append]
  exact Nat.lt_add_of_pos_left derived.length_pos

theorem conditional_shorter {n : ℕ} {ts rest : List Token} {e : Expr structs}
    (done : conditional structs eof n ts = .ok (e,rest)) : rest.length < ts.length := by
  obtain ⟨used,rfl,derived | ⟨derived,_⟩⟩ := (sound n).conditional ts e rest done
  all_goals
    rw [List.length_append]
    exact Nat.lt_add_of_pos_left derived.length_pos

theorem fed_err {α : Type} (message : String) (ts : List Token) :
    (err eof message ts : Except Failure α) ≠ .error .outOfFuel := by
  cases ts <;> simp [err]

theorem fed_expectP (v : Punct) (ts : List Token) : expectP eof v ts ≠ .error .outOfFuel := by
  unfold expectP
  split
  next => exact fed_err _ _
  next =>
    split
    next =>
      split
      next => simp
      next => exact fed_err _ _
    next => exact fed_err _ _

variable (structs eof) in
structure Fed (n : ℕ) : Prop where
  primary (ts : List Token) (enough : 20 * ts.length + 1 ≤ n) :
    Parser.primary structs eof n ts ≠ .error .outOfFuel
  argList (ts : List Token) (enough : 20 * ts.length + 19 ≤ n) :
    Parser.argList structs eof n ts ≠ .error .outOfFuel
  arguments (ts : List Token) (enough : 20 * ts.length + 18 ≤ n) :
    Parser.arguments structs eof n ts ≠ .error .outOfFuel
  postfixExpr (ts : List Token) (enough : 20 * ts.length + 2 ≤ n) :
    Parser.postfixExpr structs eof n ts ≠ .error .outOfFuel
  postfixRest (e : Expr structs) (ts : List Token) (enough : 20 * ts.length + 1 ≤ n) :
    Parser.postfixRest structs eof n e ts ≠ .error .outOfFuel
  unary (ts : List Token) (enough : 20 * ts.length + 3 ≤ n) : Parser.unary structs eof n ts ≠ .error .outOfFuel
  binary (k : ℕ) (ts : List Token) (row : k ≤ 11) (enough : 20 * ts.length + (15 - k) ≤ n) :
    Parser.binary structs eof n k ts ≠ .error .outOfFuel
  binaryRest (k : ℕ) (e : Expr structs) (ts : List Token) (row : k < 11) (enough : 20 * ts.length + 1 ≤ n) :
    Parser.binaryRest structs eof n k e ts ≠ .error .outOfFuel
  conditional (ts : List Token) (enough : 20 * ts.length + 16 ≤ n) :
    Parser.conditional structs eof n ts ≠ .error .outOfFuel
  assignment (ts : List Token) (enough : 20 * ts.length + 17 ≤ n) :
    Parser.assignment structs eof n ts ≠ .error .outOfFuel
  expression (ts : List Token) (enough : 20 * ts.length + 18 ≤ n) :
    Parser.expression structs eof n ts ≠ .error .outOfFuel
  expressionRest (e : Expr structs) (ts : List Token) (enough : 20 * ts.length + 1 ≤ n) :
    Parser.expressionRest structs eof n e ts ≠ .error .outOfFuel

namespace Fed

variable {n : ℕ}

theorem next_primary (fed : Fed structs eof n) (ts : List Token) (enough : 20 * ts.length + 1 ≤ n + 1) :
    Parser.primary structs eof (n + 1) ts ≠ .error .outOfFuel := by
  match ts with
  | [] =>
    rw [Parser.primary]
    exact fed_err _ _
  | .num .. :: _ => simp [Parser.primary]
  | .p v line :: us =>
    rw [List.length_cons] at enough
    rw [Parser.primary]
    split
    next =>
      refine fed_bind (fed.expression us (by omega)) fun x _ => ?_
      exact fed_bind (fed_expectP _ _) fun _ _ => by simp
    next => exact fed_err _ _
  | .id v line :: us =>
    rw [List.length_cons] at enough
    rw [Parser.primary]
    split
    next => simp
    next =>
      split
      next type =>
        split
        next line₁ us =>
          rw [List.length_cons] at enough
          refine fed_bind (fed.assignment us (by omega)) fun x found => ?_
          have shorter := (sound n).assignment.shorter found
          refine fed_bind (fed_expectP _ _) fun us₁ bracket => ?_
          obtain ⟨_,same⟩ := expectP_ok.mp bracket
          refine fed_bind (fed_expectP _ _) fun us₂ opening => ?_
          obtain ⟨_,rfl⟩ := expectP_ok.mp opening
          rw [same,List.length_cons,List.length_cons] at shorter
          exact fed_bind (fed.argList us₂ (by omega)) fun _ _ => by simp
        next =>
          refine fed_bind (fed_expectP _ _) fun us₁ opening => ?_
          obtain ⟨_,rfl⟩ := expectP_ok.mp opening
          rw [List.length_cons] at enough
          exact fed_bind (fed.argList us₁ (by omega)) fun _ _ => by simp
      next =>
        split
        next => exact fed_err _ _
        next =>
          split
          next line₁ us =>
            rw [List.length_cons] at enough
            exact fed_bind (fed.argList us (by omega)) fun _ _ => by simp
          next => simp

theorem next_argList (fed : Fed structs eof n) (ts : List Token) (enough : 20 * ts.length + 19 ≤ n + 1) :
    Parser.argList structs eof (n + 1) ts ≠ .error .outOfFuel := by
  unfold Parser.argList
  split
  next =>
    split
    next => simp
    next => exact fed.arguments _ (by omega)
  next => simp
  next => exact fed.arguments _ (by omega)

theorem next_arguments (fed : Fed structs eof n) (ts : List Token) (enough : 20 * ts.length + 18 ≤ n + 1) :
    Parser.arguments structs eof (n + 1) ts ≠ .error .outOfFuel := by
  rw [Parser.arguments]
  refine fed_bind (fed.assignment ts (by omega)) fun x found => ?_
  have shorter := (sound n).assignment.shorter found
  dsimp only
  split
  next line us same =>
    rw [same,List.length_cons] at shorter
    exact fed_bind (fed.arguments us (by omega)) fun _ _ => by simp
  next => exact fed_bind (fed_expectP _ _) fun _ _ => by simp

theorem next_postfixExpr (fed : Fed structs eof n) (ts : List Token) (enough : 20 * ts.length + 2 ≤ n + 1) :
    Parser.postfixExpr structs eof (n + 1) ts ≠ .error .outOfFuel := by
  rw [Parser.postfixExpr]
  refine fed_bind (fed.primary ts (by omega)) fun x found => ?_
  have shorter := (sound n).primary.shorter found
  exact fed.postfixRest x.1 x.2 (by omega)

theorem next_postfixRest (fed : Fed structs eof n) (e : Expr structs) (ts : List Token)
    (enough : 20 * ts.length + 1 ≤ n + 1) : Parser.postfixRest structs eof (n + 1) e ts ≠ .error .outOfFuel := by
  unfold Parser.postfixRest
  split
  next line us =>
    rw [List.length_cons] at enough
    refine fed_bind (fed.expression us (by omega)) fun x found => ?_
    have shorter := (sound n).expression.shorter found
    refine fed_bind (fed_expectP _ _) fun us₁ bracket => ?_
    obtain ⟨_,same⟩ := expectP_ok.mp bracket
    rw [same,List.length_cons] at shorter
    exact fed.postfixRest _ us₁ (by omega)
  next line v line₁ line₂ us =>
    simp only [List.length_cons] at enough
    split
    next =>
      refine fed_bind (fed_expectP _ _) fun us₁ closing => ?_
      obtain ⟨_,rfl⟩ := expectP_ok.mp closing
      rw [List.length_cons] at enough
      exact fed.postfixRest _ us₁ (by omega)
    next => exact fed.postfixRest _ _ (by rw [List.length_cons]; omega)
  next =>
    simp only [List.length_cons] at enough
    exact fed.postfixRest _ _ (by omega)
  next => exact fed_err _ _
  next =>
    rw [List.length_cons] at enough
    exact fed.postfixRest _ _ (by omega)
  next => simp

theorem next_unary (fed : Fed structs eof n) (ts : List Token) (enough : 20 * ts.length + 3 ≤ n + 1) :
    Parser.unary structs eof (n + 1) ts ≠ .error .outOfFuel := by
  unfold Parser.unary
  split
  next v line us =>
    split
    next =>
      rw [List.length_cons] at enough
      exact fed_bind (fed.unary us (by omega)) fun _ _ => by simp
    next => exact fed.postfixExpr _ (by omega)
  next => exact fed.postfixExpr _ (by omega)

theorem next_binary (fed : Fed structs eof n) (k : ℕ) (ts : List Token) (row : k ≤ 11)
    (enough : 20 * ts.length + (15 - k) ≤ n + 1) :
    Parser.binary structs eof (n + 1) k ts ≠ .error .outOfFuel := by
  unfold Parser.binary
  split
  next => exact fed.unary ts (by omega)
  next inner =>
    have below : k < 11 := Nat.lt_of_not_le inner
    refine fed_bind (fed.binary (k + 1) ts below (by omega)) fun x found => ?_
    have shorter := ((sound n).binary (k + 1)).shorter found
    exact fed.binaryRest k x.1 x.2 below (by omega)

theorem next_binaryRest (fed : Fed structs eof n) (k : ℕ) (e : Expr structs) (ts : List Token) (row : k < 11)
    (enough : 20 * ts.length + 1 ≤ n + 1) :
    Parser.binaryRest structs eof (n + 1) k e ts ≠ .error .outOfFuel := by
  unfold Parser.binaryRest
  split
  next op line us =>
    split
    next =>
      rw [List.length_cons] at enough
      refine fed_bind (fed.binary (k + 1) us row (by omega)) fun x found => ?_
      have shorter := ((sound n).binary (k + 1)).shorter found
      exact fed.binaryRest k _ x.2 row (by omega)
    next => simp
  next => simp

theorem next_conditional (fed : Fed structs eof n) (ts : List Token) (enough : 20 * ts.length + 16 ≤ n + 1) :
    Parser.conditional structs eof (n + 1) ts ≠ .error .outOfFuel := by
  rw [Parser.conditional]
  refine fed_bind (fed.binary 0 ts (Nat.zero_le _) (by omega)) fun x found => ?_
  have shorter := ((sound n).binary 0).shorter found
  dsimp only
  split
  next line us same =>
    rw [same,List.length_cons] at shorter
    refine fed_bind (fed.expression us (by omega)) fun y found => ?_
    have shorter' := (sound n).expression.shorter found
    refine fed_bind (fed_expectP _ _) fun us₁ colon => ?_
    obtain ⟨_,same⟩ := expectP_ok.mp colon
    rw [same,List.length_cons] at shorter'
    exact fed_bind (fed.assignment us₁ (by omega)) fun _ _ => by simp
  next => simp

theorem next_assignment (fed : Fed structs eof n) (ts : List Token) (enough : 20 * ts.length + 17 ≤ n + 1) :
    Parser.assignment structs eof (n + 1) ts ≠ .error .outOfFuel := by
  rw [Parser.assignment]
  refine fed_bind (fed.conditional ts (by omega)) fun x found => ?_
  have shorter := conditional_shorter found
  dsimp only
  split
  next op line us same =>
    rw [same,List.length_cons] at shorter
    exact fed_bind (fed.assignment us (by omega)) fun _ _ => by simp
  next => simp

theorem next_expression (fed : Fed structs eof n) (ts : List Token) (enough : 20 * ts.length + 18 ≤ n + 1) :
    Parser.expression structs eof (n + 1) ts ≠ .error .outOfFuel := by
  rw [Parser.expression]
  refine fed_bind (fed.assignment ts (by omega)) fun x found => ?_
  have shorter := (sound n).assignment.shorter found
  exact fed.expressionRest x.1 x.2 (by omega)

theorem next_expressionRest (fed : Fed structs eof n) (e : Expr structs) (ts : List Token)
    (enough : 20 * ts.length + 1 ≤ n + 1) :
    Parser.expressionRest structs eof (n + 1) e ts ≠ .error .outOfFuel := by
  unfold Parser.expressionRest
  split
  next line us =>
    rw [List.length_cons] at enough
    refine fed_bind (fed.assignment us (by omega)) fun x found => ?_
    have shorter := (sound n).assignment.shorter found
    exact fed.expressionRest _ x.2 (by omega)
  next => simp

end Fed

theorem fed (n : ℕ) : Fed structs eof n := by
  induction n with
  | zero =>
    constructor
    all_goals intros; omega
  | succ n ih =>
    exact ⟨ih.next_primary,ih.next_argList,ih.next_arguments,ih.next_postfixExpr,ih.next_postfixRest,
      ih.next_unary,ih.next_binary,ih.next_binaryRest,ih.next_conditional,ih.next_assignment,
      ih.next_expression,ih.next_expressionRest⟩

end Sharko.Script.Shaders.Parser
