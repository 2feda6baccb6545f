import Mathlib.Data.List.Basic

/-! `uwu://` addresses: parsing, and the segment operations of `ContextUri`. -/

namespace UwuContextDb

/-- The errors of `agent_context_db_core` that the stores raise. -/
inductive ContextError
  | notFound (message : String)
  | invalidUri (message : String)
  | storage (message : String)
  | versionConflict (message : String)
  | permissionDenied (message : String)
  | serialization (message : String)
  | unsupported (message : String)
  deriving DecidableEq

/-- `ContextUri`, with its query string kept unparsed. -/
structure ContextUri where
  tenant : String
  path : List String
  query : Option String
  canonical : String
  deriving DecidableEq

namespace ContextUri

def scheme : String := "uwu://"

def ofTenant (tenant : String) : ContextUri := ⟨tenant, [tenant], none, scheme ++ tenant⟩

/-- The text before the first `?` and, if there is one, the text after it. -/
def splitQuery (rest : List Char) : List Char × Option (List Char) :=
  match rest.dropWhile (· != '?') with
  | [] => (rest.takeWhile (· != '?'), none)
  | _::qs => (rest.takeWhile (· != '?'), some qs)

/-- `path_part.split('/').filter(|seg| !seg.is_empty())`. -/
def splitPath (path : List Char) : List String :=
  ((path.splitOn '/').filter (fun seg => !seg.isEmpty)).map String.ofList

/-- `parse_query_string` keeps nothing of an empty query. -/
def parseQueryString : Option (List Char) → Option String
  | none => none
  | some [] => none
  | some qs => some (String.ofList qs)

/-- `UriInner::from_string`. -/
def parse (s : String) : Except ContextError ContextUri :=
  if scheme.toList.isPrefixOf s.toList then
    let rest := s.toList.drop scheme.length
    if rest.isEmpty then .error (.invalidUri s!"empty path: {s}") else
      let parts := splitQuery rest
      match splitPath parts.1 with
      | [] => .error (.invalidUri s!"empty path: {s}")
      | tenant::path => .ok ⟨tenant, tenant::path, parseQueryString parts.2, s⟩
  else .error (.invalidUri s!"missing `{scheme}` scheme: {s}")

def parent (u : ContextUri) : Option ContextUri :=
  if u.path.length ≤ 1 then none else
    let path := u.path.dropLast
    some ⟨u.path.headD "", path, none, scheme ++ "/".intercalate path⟩

def trimEndMatches (c : Char) (s : String) : String :=
  String.ofList (s.toList.reverse.dropWhile (· == c)).reverse

/-- `ContextUri::join`: the segment is appended as one path element. -/
def join (u : ContextUri) (seg : String) : ContextUri :=
  ⟨u.tenant, u.path ++ [seg], none, trimEndMatches '/' u.canonical ++ "/" ++ seg⟩

theorem parse_canonical {s : String} {u : ContextUri} (h : parse s = .ok u) : u.canonical = s := by
  unfold parse at h
  split at h
  · simp only at h
    split at h
    · simp at h
    · split at h
      · simp at h
      · cases h; rfl
  · simp at h

example : (parse "uwu://t1/user//u1?level=l0").toOption.map (fun u => (u.tenant, u.path, u.query)) =
    some ("t1", ["t1", "user", "u1"], some "level=l0") := by decide

end ContextUri
end UwuContextDb
