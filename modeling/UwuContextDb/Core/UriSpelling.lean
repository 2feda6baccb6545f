import UwuContextDb.Core.UriRoundTrip

/-! `Eq`, `Hash`, `Ord` and `Display` of a `ContextUri`, all of which read the text that it was parsed from. -/

namespace UwuContextDb

instance : Ord UriInner :=
  ⟨compareLex (compareOn (·.tenant))
    (compareLex (compareOn (·.path)) (compareLex (compareOn (·.query)) (compareOn (·.canonical))))⟩

instance : Std.TransOrd UriInner :=
  inferInstanceAs (Std.TransCmp (compareLex (compareOn UriInner.tenant) (compareLex (compareOn UriInner.path)
    (compareLex (compareOn UriInner.query) (compareOn UriInner.canonical)))))

namespace UriInner

open ContextUri

variable (chrono : Chrono)

def segmentsOf (s : String) : List String := splitPath (splitQuery (s.toList.drop scheme.length)).1

/-- `Display`. -/
def display (u : UriInner) : String := u.canonical

variable {chrono}

end UriInner

end UwuContextDb
