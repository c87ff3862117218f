import Sharko.Engine.Navigation
import Sharko.Session.Addressing

/-! Whether a navigation stays in the current document is decided twice: the
browser compares the text of the entry's URL with that of the target, the
renderer compares parsed URLs and loads the page again when they are equal. The
two decisions agree exactly on the targets described here. -/

namespace Sharko.Session
open Library Library.Runs Engine.Navigation

/-- The texts are equal up to the first `#`, and neither is an `about:` URL. -/
def SharesText (entry url : String) : Prop :=
  Text.startsWith entry "about:" = false ∧ Text.startsWith url "about:" = false ∧
    Text.before entry '#' = Text.before url '#'

def FragmentApart (crate : Crate) (page url : String) : Prop :=
  ∃ cur new, crate.parse page = some cur ∧ crate.parse url = some new ∧
    cur.base = new.base ∧ cur.asStr ≠ new.asStr

/-- For a page whose URL is in step with the target up to the `#` only two things are left:
the target is a valid URL, and it does not read the same as the URL of the page. -/
def Reaches (crate : Crate) (page url : String) : Prop :=
  if EndsClean page ∧ Text.before page '#' = Text.before url '#' then
    ∃ new, crate.parse url = some new ∧ (crate.parse page).map Url.asStr ≠ some new.asStr
  else FragmentApart crate page url

/-- A GET of a URL with a fragment: either its text continues that of the current entry and
the page reaches it, or neither is the case. -/
def Agrees (crate : Crate) (entry page : Option String) (url method : String) : Prop :=
  Text.eqIgnoreAsciiCase method "GET" = true → Text.contains url '#' = true →
    ((∃ e, entry = some e ∧ SharesText e url) ∧ ∃ p, page = some p ∧ Reaches crate p url) ∨
    ((∀ e, entry = some e → ¬ SharesText e url) ∧ ∀ p, page = some p → ¬ Reaches crate p url)

namespace Sample

def crate : Crate where
  parse text :=
    if Text.startsWith (Text.before text '#') "http://" then
      some ⟨text,Text.before text '#',(Text.splitOnce text '#').map Prod.snd⟩
    else none

def opened : Browser := Browser.new.newTab "http://a/#x" true

end Sample
end Sharko.Session
