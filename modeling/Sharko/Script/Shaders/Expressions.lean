import Sharko.Library.Fuel
import Sharko.Script.Shaders.Parsing

/-! Every expression of the grammar is read as its tree, and the parser never stops for want of fuel. -/

namespace Sharko.Script.Shaders.Parser

open Sharko.Library.Fuel

variable {structs : Structs} {eof : ℕ}

/-- The place of the loosest level whose expressions do not go on with this token. -/
def after : List Token → ℕ
  | .p v _ :: _ =>
    match v with
    | .lparen => 16
    | .lbracket | .dot | .step _ => 15
    | .bin op => (binaryLevel op).val + 3
    | .question | .assign _ => 2
    | .comma => 1
    | _ => 0
  | _ => 0

variable (structs eof) in
def run (level : Level) (n : ℕ) (ts : List Token) : Except Failure (Expr structs × List Token) :=
  match level with
  | .expression => expression structs eof n ts
  | .assignment => assignment structs eof n ts
  | .binary k => binary structs eof n k ts
  | .unary => unary structs eof n ts
  | .postfixed => postfixExpr structs eof n ts
  | .primary => primary structs eof n ts

variable (eof) in
/-- How the reading of a level goes on after an expression of the level. -/
def resume (level : Level) (n : ℕ) (e : Expr structs) (ts : List Token) :
    Except Failure (Expr structs × List Token) :=
  match level with
  | .expression => expressionRest structs eof n e ts
  | .binary k => binaryRest structs eof n k e ts
  | .postfixed => postfixRest structs eof n e ts
  | .assignment | .unary | .primary => .ok (e,ts)

def Level.reach : Level → ℕ
  | expression => 1
  | binary k => k.val + 3
  | postfixed => 15
  | level => level.place

variable (eof) in
/-- The parser reads the tokens as this tree, whatever follows, and goes on from there. -/
def Complete (level : Level) (e : Expr structs) (used : List Token) : Prop :=
  ∀ rest r,after rest ≤ level.reach → Yields .outOfFuel (fun n => resume eof level n e rest) r →
    Yields .outOfFuel (fun n => run structs eof level n (used ++ rest)) r

theorem expressionRest_stops {rest : List Token} (stops : after rest ≤ 0) (n : ℕ) (e : Expr structs) :
    expressionRest structs eof (n + 1) e rest = .ok (e,rest) := by
  unfold expressionRest
  split
  next => simp [after] at stops
  next => rfl

theorem binaryRest_stops {k : Fin 11} {rest : List Token} (stops : after rest ≤ k.val + 2) (n : ℕ)
    (e : Expr structs) : binaryRest structs eof (n + 1) k e rest = .ok (e,rest) := by
  unfold binaryRest
  split
  next op line us =>
    have other : op ∉ levels.getD k.val [] := by
      intro member
      rw [← mem_levels.mp member] at stops
      simp [after] at stops
    rw [if_neg other]
  next => rfl

theorem postfixRest_stops {rest : List Token} (stops : after rest ≤ 14) (n : ℕ) (e : Expr structs) :
    postfixRest structs eof (n + 1) e rest = .ok (e,rest) := by
  unfold postfixRest
  split
  case h_6 => rfl
  all_goals simp [after] at stops

theorem resume_stops {level : Level} {rest : List Token} (stops : after rest ≤ level.place) (e : Expr structs) :
    Yields .outOfFuel (fun n => resume eof level n e rest) (.ok (e,rest)) := by
  cases level with
  | expression => exact .next rfl (fun n => expressionRest_stops stops n e) (yields_self _)
  | binary k => exact .next rfl (fun n => binaryRest_stops stops n e) (yields_self _)
  | postfixed => exact .next rfl (fun n => postfixRest_stops stops n e) (yields_self _)
  | assignment | unary | primary => exact yields_self _

theorem place_le_reach (level : Level) : level.place ≤ level.reach := by
  cases level with
  | binary k => exact Nat.le_succ _
  | _ => decide

theorem Complete.stop {level : Level} {e : Expr structs} {used : List Token} (complete : Complete eof level e used)
    (rest : List Token) (stops : after rest ≤ level.place) :
    Yields .outOfFuel (fun n => run structs eof level n (used ++ rest)) (.ok (e,rest)) :=
  complete rest _ (stops.trans (place_le_reach level)) (resume_stops stops e)

theorem conditional_yields {ts rest : List Token} {c : Expr structs}
    (first : Yields .outOfFuel (fun n => binary structs eof n 0 ts) (.ok (c,rest)))
    (other : ∀ line us,rest ≠ .p .question line :: us) :
    Yields .outOfFuel (fun n => conditional structs eof n ts) (.ok (c,rest)) := by
  refine .next rfl (fun n => by rw [conditional]) (.bind first ?_)
  intro n _
  dsimp only
  split
  next => exact absurd rfl (other _ _)
  next => rfl

theorem not_question {rest : List Token} (stops : after rest ≤ 1) (line : ℕ) (us : List Token) :
    rest ≠ .p .question line :: us := by
  rintro rfl
  simp [after] at stops

theorem assignment_yields {ts rest : List Token} {l : Expr structs}
    (first : Yields .outOfFuel (fun n => conditional structs eof n ts) (.ok (l,rest))) (stops : after rest ≤ 1) :
    Yields .outOfFuel (fun n => assignment structs eof n ts) (.ok (l,rest)) := by
  refine .next rfl (fun n => by rw [assignment]) (.bind first ?_)
  intro n _
  dsimp only
  split
  next => simp [after] at stops
  next => rfl

theorem rung_yields {k : Fin 11} {ts : List Token} {r : Except Failure (Expr structs × List Token)}
    (above : Yields .outOfFuel (fun n => run structs eof (Level.binary k).above n ts) r) :
    Yields .outOfFuel (fun n => binary structs eof n (k.val + 1) ts) r := by
  rw [← rung_above,rung] at above
  split at above
  next => exact above
  next last =>
    refine .next rfl (fun n => ?_) above
    have bottom : levels.length ≤ k.val + 1 := Nat.le_of_not_lt last
    rw [binary,if_pos bottom]
    rfl

theorem binary_yields {k : Fin 11} {ts rest : List Token} {l : Expr structs}
    {r : Except Failure (Expr structs × List Token)}
    (first : Yields .outOfFuel (fun n => binary structs eof n (k.val + 1) ts) (.ok (l,rest)))
    (later : Yields .outOfFuel (fun n => binaryRest structs eof n k l rest) r) :
    Yields .outOfFuel (fun n => binary structs eof n k ts) r := by
  have inner : ¬ levels.length ≤ k.val := Nat.not_le.mpr k.isLt
  exact .next rfl (fun n => by rw [binary,if_neg inner]) (.bind first later)

theorem expression_yields {ts rest : List Token} {l : Expr structs}
    {r : Except Failure (Expr structs × List Token)}
    (first : Yields .outOfFuel (fun n => assignment structs eof n ts) (.ok (l,rest)))
    (later : Yields .outOfFuel (fun n => expressionRest structs eof n l rest) r) :
    Yields .outOfFuel (fun n => expression structs eof n ts) r :=
  .next rfl (fun n => by rw [expression]) (.bind first later)

theorem postfixExpr_yields {ts rest : List Token} {l : Expr structs}
    {r : Except Failure (Expr structs × List Token)}
    (first : Yields .outOfFuel (fun n => primary structs eof n ts) (.ok (l,rest)))
    (later : Yields .outOfFuel (fun n => postfixRest structs eof n l rest) r) :
    Yields .outOfFuel (fun n => postfixExpr structs eof n ts) r :=
  .next rfl (fun n => by rw [postfixExpr]) (.bind first later)

theorem unary_yields {ts : List Token} {r : Except Failure (Expr structs × List Token)}
    (starts : Starts .postfixed ts) (first : Yields .outOfFuel (fun n => postfixExpr structs eof n ts) r) :
    Yields .outOfFuel (fun n => unary structs eof n ts) r := by
  refine .next rfl (fun n => ?_) first
  unfold unary
  split
  next v line us =>
    obtain rfl | ⟨bad,_⟩ := starts
    · rfl
    · cases (Nat.not_succ_le_self _ bad)
  next => rfl

theorem binaryRest_bin (n : ℕ) (l : Expr structs) (op : BinOp) (line : ℕ) (ts : List Token) :
    binaryRest structs eof (n + 1) (binaryLevel op) l (.p (.bin op) line :: ts) =
      binary structs eof n ((binaryLevel op).val + 1) ts >>= fun x =>
        binaryRest structs eof n (binaryLevel op) (.bin op l x.1 line) x.2 :=
  if_pos (mem_levels.mpr rfl)

theorem unary_punct (n : ℕ) (op : UnaryOp) (line : ℕ) (ts : List Token) :
    unary structs eof (n + 1) (.p op.punct line :: ts) =
      unary structs eof n ts >>= fun x => .ok (.unary op x.1 line,x.2) := by
  cases op <;> rfl

theorem postfixRest_field (n : ℕ) (e : Expr structs) (name : Text) (line line' : ℕ) {rest : List Token}
    (stops : after rest ≤ 15) : postfixRest structs eof (n + 1) e (.p .dot line :: .id name line' :: rest) =
      postfixRest structs eof n (.field e name line) rest := by
  match rest with
  | [] | .num .. :: _ | .id .. :: _ => rfl
  | .p v _ :: _ =>
    cases v
    case lparen => exact absurd stops (Nat.not_succ_le_self 15)
    all_goals rfl

namespace Complete

theorem above {level : Level} {e : Expr structs} {used : List Token} (derived : Derives level.above e used)
    (complete : Complete eof level.above e used) : Complete eof level e used := by
  intro rest r stops later
  cases level with
  | expression => exact expression_yields (complete.stop _ stops) later
  | assignment =>
    cases later.const (by simp)
    have first := complete.stop _ (stops.trans (by decide))
    exact assignment_yields (conditional_yields first (not_question stops)) stops
  | binary k =>
    have order : after rest ≤ (Level.binary k).above.place := by
      rw [place_above (by simp)]
      exact stops
    exact binary_yields (rung_yields (complete.stop _ order)) later
  | unary =>
    cases later.const (by simp)
    exact unary_yields (derived.starts.append rest) (complete.stop _ (stops.trans (by decide)))
  | postfixed => exact postfixExpr_yields (complete.stop _ stops) later
  | primary => exact complete rest r stops later

theorem comma {l r : Expr structs} {ts us : List Token} (line : ℕ) (left : Complete eof .expression l ts)
    (right : Complete eof .assignment r us) :
    Complete eof .expression (.comma l r line) (ts ++ .p .comma line :: us) := by
  intro rest result stops later
  rw [List.append_assoc]
  exact left _ result (le_refl _) (.next rfl (fun _ => rfl) (.bind (right.stop _ stops) later))

theorem bin {l r : Expr structs} {ts us : List Token} (op : BinOp) (line : ℕ)
    (left : Complete eof (.binary (binaryLevel op)) l ts)
    (right : Complete eof (Level.binary (binaryLevel op)).above r us) :
    Complete eof (.binary (binaryLevel op)) (.bin op l r line) (ts ++ .p (.bin op) line :: us) := by
  intro rest result stops later
  have order : after rest ≤ (Level.binary (binaryLevel op)).above.place := by
    rw [place_above (by simp)]
    exact stops
  have operand := rung_yields (right.stop _ order)
  rw [List.append_assoc]
  exact left _ result (le_refl _) (.next rfl (fun n => binaryRest_bin n l op line _) (.bind operand later))

theorem unary {e : Expr structs} {ts : List Token} (op : UnaryOp) (line : ℕ) (operand : Complete eof .unary e ts) :
    Complete eof .unary (.unary op e line) (.p op.punct line :: ts) := by
  intro rest r stops later
  cases later.const (by simp)
  exact .next rfl (fun n => unary_punct n op line _) (.bind (operand.stop _ stops) (yields_self _))

theorem post {e : Expr structs} {ts : List Token} (op : StepOp) (line : ℕ) (base : Complete eof .postfixed e ts) :
    Complete eof .postfixed (.post op e line) (ts ++ [.p (.step op) line]) := by
  intro rest r stops later
  rw [List.append_assoc]
  exact base _ r (le_refl _) (.next rfl (fun _ => rfl) later)

theorem length {e : Expr structs} {ts : List Token} (line line₁ line₂ line₃ : ℕ)
    (base : Complete eof .postfixed e ts) : Complete eof .postfixed (.length e line)
      (ts ++ [.p .dot line,.id "length".toList line₁,.p .lparen line₂,.p .rparen line₃]) := by
  intro rest r stops later
  rw [List.append_assoc]
  exact base _ r (le_refl _) (.next rfl (fun _ => rfl) later)

theorem field {e : Expr structs} {ts : List Token} (name : Text) (line line' : ℕ)
    (base : Complete eof .postfixed e ts) :
    Complete eof .postfixed (.field e name line) (ts ++ [.p .dot line,.id name line']) := by
  intro rest r stops later
  rw [List.append_assoc]
  exact base _ r (le_refl _) (.next rfl (fun n => postfixRest_field n e name line line' stops) later)

theorem index {e i : Expr structs} {ts us : List Token} (line line' : ℕ) (base : Complete eof .postfixed e ts)
    (inner : Complete eof .expression i us) :
    Complete eof .postfixed (.index e i line) (ts ++ .p .lbracket line :: (us ++ [.p .rbracket line'])) := by
  intro rest r stops later
  have first := inner.stop (.p .rbracket line' :: rest) (le_refl _)
  rw [List.append_assoc,List.cons_append,List.append_assoc]
  exact base _ r (le_refl _) (.next rfl (fun _ => rfl) (.bind first later))

theorem paren {e : Expr structs} {ts : List Token} (line line' : ℕ) (inner : Complete eof .expression e ts) :
    Complete eof .primary e (.p .lparen line :: (ts ++ [.p .rparen line'])) := by
  intro rest r stops later
  cases later.const (by simp)
  have first := inner.stop (.p .rparen line' :: rest) (le_refl _)
  rw [List.cons_append,List.append_assoc]
  exact .next rfl (fun _ => rfl) (.bind first (yields_self _))

theorem assign {l r : Expr structs} {ts us : List Token} (op : AssignOp) (line : ℕ)
    (left : Complete eof (.binary 0) l ts) (right : Complete eof .assignment r us) :
    Complete eof .assignment (.assign op l r line) (ts ++ .p (.assign op) line :: us) := by
  intro rest result stops later
  cases later.const (by simp)
  have first := left.stop (.p (.assign op) line :: (us ++ rest)) (le_refl _)
  rw [List.append_assoc]
  refine .next rfl (fun n => by rw [run,assignment]; rfl)
    (.bind (conditional_yields first (by simp)) (.bind (right.stop _ stops) (yields_self _)))

theorem cond {c a b : Expr structs} {ts us vs : List Token} (line line' : ℕ) (test : Complete eof (.binary 0) c ts)
    (yes : Complete eof .expression a us) (no : Complete eof .assignment b vs) :
    Complete eof .assignment (.cond c a b line) (ts ++ .p .question line :: (us ++ .p .colon line' :: vs)) := by
  intro rest r stops later
  cases later.const (by simp)
  have first := test.stop (.p .question line :: (us ++ .p .colon line' :: (vs ++ rest))) (le_refl _)
  have second := yes.stop (.p .colon line' :: (vs ++ rest)) (le_refl _)
  rw [List.append_assoc,List.cons_append,List.append_assoc,List.cons_append]
  refine assignment_yields (.next rfl (fun _ => rfl) (.bind first (.bind second ?_))) stops
  exact .bind (yields_self (.ok _)) (.bind (no.stop _ stops) (yields_self _))

end Complete

theorem literal_keyword {v : Text} (literal : v = "true".toList ∨ v = "false".toList) : isKeyword v := by
  obtain rfl | rfl := literal
  · decide
  · decide

theorem typeName_no_keyword {v : Text} (type : isTypeName structs v) : isKeyword v = false := by
  have builtin : ∀ v ∈ (basicTypes ++ typeRe).map String.toList,isKeyword v = false := by decide
  by_contra keyword
  rw [isTypeName,structs.no_keyword v (by simpa using keyword),Bool.or_false] at type
  exact keyword (builtin v (by simpa using type))

theorem no_literal {v : Text} (plain : isKeyword v = false) : ¬ (v = "true".toList ∨ v = "false".toList) := by
  intro literal
  have keyword := literal_keyword literal
  rw [plain] at keyword
  cases keyword

theorem primary_name (n : ℕ) (name : Name structs) (line : ℕ) {rest : List Token} (stops : after rest ≤ 15) :
    primary structs eof (n + 1) (.id name.val line :: rest) = .ok (.id name line,rest) := by
  rw [primary,if_neg (no_literal name.property.2),dif_neg (by rw [name.property.1]; decide),
    dif_neg (by rw [name.property.2]; decide)]
  split
  next => exact absurd stops (Nat.not_succ_le_self 15)
  next => rfl

theorem primary_call (n : ℕ) (name : Name structs) (line line' : ℕ) (ts : List Token) :
    primary structs eof (n + 1) (.id name.val line :: .p .lparen line' :: ts) =
      argList structs eof n ts >>= fun x => .ok (.call name x.1 line,x.2) := by
  rw [primary,if_neg (no_literal name.property.2),dif_neg (by rw [name.property.1]; decide),
    dif_neg (by rw [name.property.2]; decide)]

theorem primary_ctor (n : ℕ) (type : TypeName structs) (line line' : ℕ) (ts : List Token) :
    primary structs eof (n + 1) (.id type.val line :: .p .lparen line' :: ts) =
      argList structs eof n ts >>= fun x => .ok (.ctor type x.1 line,x.2) := by
  rw [primary,if_neg (no_literal (typeName_no_keyword type.property)),dif_pos type.property]
  rfl

theorem primary_ctorArray (n : ℕ) (type : TypeName structs) (line line' : ℕ) (ts : List Token) :
    primary structs eof (n + 1) (.id type.val line :: .p .lbracket line' :: ts) =
      assignment structs eof n ts >>= fun x => expectP eof .rbracket x.2 >>= fun us =>
        expectP eof .lparen us >>= fun us => argList structs eof n us >>= fun y =>
          .ok (.ctorArray type x.1 y.1 line,y.2) := by
  rw [primary,if_neg (no_literal (typeName_no_keyword type.property)),dif_pos type.property]

theorem arguments_yields {args : List (Expr structs × List Token)} {tss : List (List Token)} {ts : List Token}
    (separated : Separated tss ts) (shape : args.map Prod.snd = tss)
    (each : ∀ a ∈ args,Complete eof .assignment a.1 a.2) (line : ℕ) (rest : List Token) :
    Yields .outOfFuel (fun n => arguments structs eof n (ts ++ .p .rparen line :: rest))
      (.ok (args.map Prod.fst,rest)) := by
  induction separated generalizing args with
  | one ts =>
    match args,shape with
    | [a],shape =>
      obtain rfl : a.2 = ts := List.singleton_inj.mp shape
      have first := (each a List.mem_cons_self).stop (.p .rparen line :: rest) (Nat.zero_le _)
      exact .next rfl (fun _ => rfl) (.bind first (yields_self _))
  | @more tss us ts line' later ih =>
    match args,shape with
    | a :: args,shape =>
      obtain ⟨rfl,later_shape⟩ := List.cons.inj shape
      have first := (each a List.mem_cons_self).stop (.p .comma line' :: (us ++ .p .rparen line :: rest)) (le_refl _)
      have others := ih later_shape fun b member => each b (List.mem_cons_of_mem _ member)
      rw [List.append_assoc]
      exact .next rfl (fun _ => rfl) (.bind first (.bind others (yields_self _)))

theorem Separated.starts {tss : List (List Token)} {ts : List Token} (separated : Separated tss ts)
    (each : ∀ us ∈ tss,Starts .assignment us) : Starts .assignment ts := by
  cases separated with
  | one => exact each _ List.mem_cons_self
  | more => exact (each _ List.mem_cons_self).append _

theorem argList_some {ts : List Token} (n : ℕ) (starts : Starts .assignment ts) :
    argList structs eof (n + 1) ts = arguments structs eof n ts := by
  unfold argList
  split
  next v line line' us =>
    split
    next void =>
      obtain ⟨w,_,_,same,other⟩ := starts void
      cases same
      exact absurd rfl other
    next => rfl
  next => cases starts <;> contradiction
  next => rfl

theorem argList_yields {args : List (Expr structs × List Token)} {ts : List Token}
    (listed : Listed (args.map Prod.snd) ts) (derived : ∀ a ∈ args,Derives .assignment a.1 a.2)
    (each : ∀ a ∈ args,Complete eof .assignment a.1 a.2) (rest : List Token) :
    Yields .outOfFuel (fun n => argList structs eof n (ts ++ rest)) (.ok (args.map Prod.fst,rest)) := by
  generalize shape : args.map Prod.snd = tss at listed
  cases listed with
  | none =>
    obtain rfl := List.map_eq_nil_iff.mp shape
    exact .next rfl (fun _ => rfl) (yields_self _)
  | void =>
    obtain rfl := List.map_eq_nil_iff.mp shape
    exact .next rfl (fun _ => rfl) (yields_self _)
  | some line separated =>
    have starts := separated.starts fun us member => by
      rw [← shape] at member
      obtain ⟨a,inside,rfl⟩ := List.mem_map.mp member
      exact (derived a inside).starts
    rw [List.append_assoc]
    exact .next rfl (fun n => argList_some n (starts.append _)) (arguments_yields separated shape each line rest)

theorem Derives.complete {level : Level} {e : Expr structs} {ts : List Token} (derived : Derives level e ts) :
    Complete eof level e ts := by
  induction derived with
  | num | true | false =>
    intro rest r stops later
    cases later.const (by simp)
    exact .next rfl (fun _ => rfl) (yields_self _)
  | id name line =>
    intro rest r stops later
    cases later.const (by simp)
    exact .next rfl (fun n => primary_name n name line stops) (yields_self _)
  | call name args line line' each listed ih =>
    intro rest r stops later
    cases later.const (by simp)
    exact .next rfl (fun n => primary_call n name line line' _)
      (.bind (argList_yields listed each ih rest) (yields_self _))
  | ctor type args line line' each listed ih =>
    intro rest r stops later
    cases later.const (by simp)
    exact .next rfl (fun n => primary_ctor n type line line' _)
      (.bind (argList_yields listed each ih rest) (yields_self _))
  | @ctorArray _ _ us type args line line₁ line₂ line₃ _ each listed size ih =>
    intro rest r stops later
    cases later.const (by simp)
    have first := size.stop (.p .rbracket line₂ :: .p .lparen line₃ :: (us ++ rest)) (Nat.zero_le _)
    rw [List.cons_append,List.cons_append,List.append_assoc]
    exact .next rfl (fun n => primary_ctorArray n type line line₁ _)
      (.bind first (.bind (yields_self (.ok _)) (.bind (yields_self (.ok _))
        (.bind (argList_yields listed each ih rest) (yields_self _)))))
  | paren line line' _ ih => exact .paren line line' ih
  | index line line' _ _ base inner => exact .index line line' base inner
  | field name line line' _ base => exact .field name line line' base
  | length line line₁ line₂ line₃ _ base => exact .length line line₁ line₂ line₃ base
  | post op line _ base => exact .post op line base
  | unary op line _ operand => exact .unary op line operand
  | bin op line _ _ left right => exact .bin op line left right
  | cond line line' _ _ _ test yes no => exact .cond line line' test yes no
  | assign op line _ _ left right => exact .assign op line left right
  | comma line _ _ left right => exact .comma line left right
  | above inner ih => exact .above inner ih

theorem readExpression_derived {ts rest : List Token} {e : Expr structs} (derived : Derives .expression e ts)
    (stops : after rest = 0) : readExpression structs eof (ts ++ rest) = .ok (e,rest) :=
  derived.complete.stop rest (Nat.le_zero.mpr stops) _ ((fed _).expression _ (le_refl _))

/-- Where what follows cannot go on with an expression, the parser accepts what the grammar derives, with its
tree; every tree is read back from how it is written, and there is no shorter way to write it. -/
theorem expression_grammar (structs : Structs) (eof : ℕ) (layout : Layout) :
    (∀ ts,readExpression structs eof ts ≠ .error .outOfFuel) ∧
    (∀ ts e rest,after rest = 0 → (readExpression structs eof ts = .ok (e,rest) ↔
      ∃ used,ts = used ++ rest ∧ Derives .expression e used)) ∧ (∀ e rest,after rest = 0 →
      readExpression structs eof (print layout .expression e ++ rest) = .ok (e,rest)) ∧
    ∀ (e : Expr structs) used,Derives .expression e used → (print layout .expression e).length ≤ used.length := by
  refine ⟨fun ts => (fed _).expression ts (le_refl _),fun ts e rest stops => ⟨fun read => ?_,?_⟩,?_,?_⟩
  · exact (sound _).expression ts e rest read
  · rintro ⟨used,rfl,derived⟩
    exact readExpression_derived derived stops
  · intro e rest stops
    exact readExpression_derived (derives_print layout .expression e) stops
  · intro e used derived
    exact print_length_le layout derived

end Sharko.Script.Shaders.Parser
