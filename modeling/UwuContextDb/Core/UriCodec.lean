import UwuContextDb.Core.Model
import UwuContextDb.Library.Run

/-! The text form of a `uwu://` address with its query parameters, and the operations that build one. -/

namespace UwuContextDb

/-- `chrono`, as far as the codec uses it: the reading of a time, and its RFC 3339 form. -/
structure Chrono where
  parse : String → Option DateTime
  toRfc3339 : DateTime → String

structure Chrono.Documented (chrono : Chrono) : Prop where
  parse_print : ∀ ts, chrono.parse (chrono.toRfc3339 ts) = some ts
  print_ne : ∀ ts, chrono.toRfc3339 ts ≠ ""
  print_chars : ∀ ts, ∀ c ∈ (chrono.toRfc3339 ts).toList, c.isDigit = true ∨ c ∈ ['-', '+', ':', '.', 'T', 'Z']

inductive AsOfTime
  | commit (hash : String)
  | timestamp (ts : DateTime)
  | latest
  deriving DecidableEq

structure QueryParams where
  asOf : Option AsOfTime
  level : Option ContentLevel
  branch : Option String
  limit : Option UInt64
  deriving DecidableEq

namespace QueryParams

/-- `QueryParams::default`. -/
def empty : QueryParams := ⟨none, none, none, none⟩

/-- `val.parse::<usize>()`: decimal digits after an optional sign. -/
def parseUsize (val : List Char) : Option UInt64 :=
  let digits := if val.head? = some '+' then val.tail else val
  if !digits.isEmpty && digits.all Char.isDigit && Nat.ofDigitChars 10 digits 0 < 2 ^ 64 then
    some (UInt64.ofNat (Nat.ofDigitChars 10 digits 0)) else none

variable (chrono : Chrono)

/-- The `as_of` arm of `parse_query_string`. -/
def parseAsOf (val : List Char) : AsOfTime :=
  if val.isEmpty || val == "latest".toList then .latest else
    match chrono.parse (String.ofList val) with
    | some ts => .timestamp ts
    | none => .commit (String.ofList val)

/-- One `key=value` pair of a query string; unknown keys are passed over. -/
def applyPair (params : QueryParams) (pair : List Char) : QueryParams :=
  let key := pair.takeWhile (· != '=')
  let val := (pair.dropWhile (· != '=')).tail
  if key = "as_of".toList then { params with asOf := some (parseAsOf chrono val) }
  else if key = "level".toList then
    { params with level :=
      if val = "l0".toList then some .l0 else if val = "l1".toList then some .l1
      else if val = "l2".toList then some .l2 else none }
  else if key = "branch".toList then if val.isEmpty then params else { params with branch := some (String.ofList val) }
  else if key = "limit".toList then
    match parseUsize val with
    | some n => { params with limit := some n }
    | none => params
  else params

/-- `parse_query_string`. -/
def parse (qs : List Char) : Option QueryParams :=
  if qs.isEmpty then none else some ((qs.splitOn '&').foldl (applyPair chrono) empty)

def asOfText : AsOfTime → String
  | .latest => "latest"
  | .commit hash => hash
  | .timestamp ts => chrono.toRfc3339 ts

/-- `ContentLevel::as_str`. -/
def levelText : ContentLevel → String
  | .l0 => "l0"
  | .l1 => "l1"
  | .l2 => "l2"

/-- The pairs of `query_to_string`. -/
def parts (q : QueryParams) : List String :=
  q.asOf.toList.map (fun asOf => "as_of=" ++ asOfText chrono asOf) ++
    q.level.toList.map (fun level => "level=" ++ levelText level) ++
    q.branch.toList.map (fun branch => "branch=" ++ branch) ++
    q.limit.toList.map (fun n => "limit=" ++ n.toNat.repr)

/-- `query_to_string`. -/
def toText (q : QueryParams) : String := "&".intercalate (parts chrono q)

end QueryParams

/-- A `ContextUri` with its query parameters parsed. -/
structure UriInner where
  tenant : String
  path : List String
  query : Option QueryParams
  canonical : String
  deriving DecidableEq

namespace UriInner

open ContextUri

variable (chrono : Chrono)

def fromString (s : String) : Except ContextError UriInner :=
  if scheme.toList.isPrefixOf s.toList then
    let rest := s.toList.drop scheme.length
    if rest.isEmpty then .error (.invalidUri s!"empty path: {s}") else
      let parts := splitQuery rest
      match splitPath parts.1 with
      | [] => .error (.invalidUri s!"empty path: {s}")
      | tenant::path => .ok ⟨tenant, tenant::path, parts.2.bind (QueryParams.parse chrono), s⟩
  else .error (.invalidUri s!"missing `{scheme}` scheme: {s}")

def deserialize : Json → Except ContextError UriInner
  | .str s => fromString chrono s
  | _ => .error (.serialization "invalid type: expected a string")

def parent (u : UriInner) : Option UriInner :=
  if u.path.length ≤ 1 then none else
    let path := u.path.dropLast
    some ⟨u.path.headD "", path, none, scheme ++ "/".intercalate path⟩

def join (u : UriInner) (seg : String) : UriInner :=
  ⟨u.tenant, u.path ++ [seg], none, trimEndMatches '/' u.canonical ++ "/" ++ seg⟩

/-- The text before the first `?`. -/
def base (u : UriInner) : String := String.ofList (u.canonical.toList.takeWhile (· != '?'))

def withQuery (u : UriInner) (q : QueryParams) : UriInner :=
  ⟨u.tenant, u.path, some q, u.base ++ "?" ++ q.toText chrono⟩

def withoutQuery (u : UriInner) : UriInner :=
  if u.query.isNone then u else
    match fromString chrono u.base with
    | .ok uri => uri
    | .error _ => u

def raw (u : UriInner) : ContextUri :=
  ⟨u.tenant, u.path, ContextUri.parseQueryString (splitQuery (u.canonical.toList.drop scheme.length)).2, u.canonical⟩

end UriInner

end UwuContextDb

/-! The derived order of `ContextUri`: tenant, path, query and text, one after the other. -/

namespace UwuContextDb

open Std (TransCmp LawfulEqOrd)

def AsOfTime.rank : AsOfTime → ℕ
  | .commit _ => 0
  | .timestamp _ => 1
  | .latest => 2

def AsOfTime.hash? : AsOfTime → Option String
  | .commit hash => some hash
  | _ => none

def AsOfTime.timestamp? : AsOfTime → Option DateTime
  | .timestamp ts => some ts
  | _ => none

def ContentLevel.rank : ContentLevel → ℕ
  | .l0 => 0
  | .l1 => 1
  | .l2 => 2

instance : Ord AsOfTime :=
  ⟨compareLex (compareOn AsOfTime.rank) (compareLex (compareOn AsOfTime.hash?) (compareOn AsOfTime.timestamp?))⟩

instance : Ord ContentLevel := ⟨compareOn ContentLevel.rank⟩

instance : Ord QueryParams :=
  ⟨compareLex (compareOn (·.asOf))
    (compareLex (compareOn (·.level)) (compareLex (compareOn (·.branch)) (compareOn (·.limit))))⟩

instance : Std.TransOrd AsOfTime :=
  inferInstanceAs (TransCmp (compareLex (compareOn AsOfTime.rank)
    (compareLex (compareOn AsOfTime.hash?) (compareOn AsOfTime.timestamp?))))

instance : Std.TransOrd ContentLevel := inferInstanceAs (TransCmp (compareOn ContentLevel.rank))

instance : Std.TransOrd QueryParams :=
  inferInstanceAs (TransCmp (compareLex (compareOn QueryParams.asOf) (compareLex (compareOn QueryParams.level)
    (compareLex (compareOn QueryParams.branch) (compareOn QueryParams.limit)))))

namespace ContextUri

variable (chrono : Chrono)

def queryParams (u : ContextUri) : Option QueryParams :=
  (UriInner.fromString chrono u.canonical).toOption.bind (·.query)

/-- `Ord` of `ContextUri`. -/
def cmp : ContextUri → ContextUri → Ordering :=
  compareLex (compareOn (·.tenant)) (compareLex (compareOn (·.path))
    (compareLex (compareOn (queryParams chrono)) (compareOn (·.canonical))))

instance : TransCmp (cmp chrono) :=
  inferInstanceAs (TransCmp (compareLex (compareOn ContextUri.tenant) (compareLex (compareOn ContextUri.path)
    (compareLex (compareOn (queryParams chrono)) (compareOn ContextUri.canonical)))))

theorem canonical_of_cmp {u v : ContextUri} (h : cmp chrono u v = .eq) : u.canonical = v.canonical := by
  simp only [cmp,compareLex,Ordering.then_eq_eq,compareOn] at h
  exact LawfulEqOrd.eq_of_compare h.2.2.2

end ContextUri
end UwuContextDb
