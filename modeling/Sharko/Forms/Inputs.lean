import Sharko.Library.Text

/-! The types of `<input>` and the modes of their values. -/

namespace Sharko.Forms

open Library

inductive ValueMode where
  | text
  | default
  | defaultOn
  | filename
  | value
  deriving DecidableEq

def inputTypes : List String :=
  ["text","password","email","number","search","tel","url","hidden","submit","reset","button","image",
    "checkbox","radio","file","range","color","date","month","week","time","datetime-local"]

def inputType (attr : Option String) : String :=
  let t := Text.toAsciiLowercase (Text.trim (attr.getD "text"))
  if inputTypes.contains t then t else "text"

def valueMode (ty : String) : ValueMode :=
  if ["hidden","submit","reset","button","image"].contains ty then .default
  else if ["checkbox","radio"].contains ty then .defaultOn
  else if ty = "file" then .filename
  else if ["range","color","date","month","week","time","datetime-local"].contains ty then .value
  else .text

def isCheckable (attr : Option String) : Option Bool :=
  if inputType attr = "checkbox" then some false
  else if inputType attr = "radio" then some true
  else none

theorem valueMode_checkable {attr : Option String} {radio : Bool}
    (checkable : isCheckable attr = some radio) : valueMode (inputType attr) = .defaultOn := by
  unfold isCheckable at checkable
  split at checkable
  · rename_i is
    rw [is]
    decide
  · split at checkable
    · rename_i is
      rw [is]
      decide
    · cases checkable

theorem checkable_of_valueMode {attr : Option String}
    (mode : valueMode (inputType attr) = .defaultOn) : (isCheckable attr).isSome = true := by
  unfold valueMode at mode
  split at mode
  · cases mode
  split at mode
  · rename_i is
    rw [List.contains_iff_mem,List.mem_cons,List.mem_singleton] at is
    unfold isCheckable
    rcases is with is | is <;> simp [is]
  split at mode
  · cases mode
  split at mode <;> cases mode

end Sharko.Forms
