import Sharko.Script.Shaders.Folding

/-! The recorded values are right everywhere exactly when no constructor of a type is applied to a constant
of this type whose value it would change. -/

namespace Sharko.Script.Shaders

open Sharko.Library

variable {es3 : Bool} {st : State}

/-- The kind of a value of a type. -/
def Kind : Ty → Prim → Prop
  | .scalar .bool,v => ∃ b,v = .bool b
  | .scalar _,v => ∃ x,v = .num x
  | .other _ _,_ => False

/-- The names stand for literals and for variables; what is recorded of a constant is what it holds. -/
structure Recorded (st : State) : Prop where
  kind : ∀ name r v,st.scope name = some r → r.cv = some v → Kind r.t v
  holds : ∀ name r v,st.scope name = some r → r.cv = some v → r.js.eval st.env = v
  code : ∀ name r,st.scope name = some r →
    (∃ p,r.js = .lit p) ∨ ∃ k < st.next,r.js = .var k ∧ (r.cv.isSome = true → k ∈ st.constants)

end Sharko.Script.Shaders
