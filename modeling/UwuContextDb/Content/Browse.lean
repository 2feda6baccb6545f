import Mathlib.Data.String.Basic
import UwuContextDb.Core.EntrySerde
import UwuContextDb.Core.WriteSecurity
import UwuContextDb.Facade.Model
import UwuContextDb.Library.Like

/-! The rows of `context_entries`, and the texts by which the SQLite store looks for them. -/

namespace UwuContextDb.Content

open ContextUri (trimEndMatches)

/-- `LIKE` of SQLite folds the case of ASCII letters. -/
def sameLetter (a b : Char) : Bool := a.toLower == b.toLower

/-- The signs of `LIKE ? ESCAPE '\'`. -/
def likeSigns : Like.Signs Char := ⟨'\\', '_', '%'⟩

/-- `text LIKE pattern ESCAPE '\'`. -/
def sqlLike (text pattern : String) : Bool := Like.like sameLetter likeSigns pattern.toList text.toList

/-- `str::replace` of a character. -/
def replaceChar (c : Char) (by_ : List Char) (text : List Char) : List Char :=
  text.flatMap (fun d => if d = c then by_ else [d])

def dirPrefix (dir : ContextUri) : String := trimEndMatches '/' dir.canonical ++ "/"

def escapeLike (value : String) : String :=
  String.ofList (replaceChar '_' ['\\', '_'] (replaceChar '%' ['\\', '%'] (replaceChar '\\' ['\\', '\\'] value.toList)))

def prefixPattern (uriPrefix : String) : String := escapeLike uriPrefix ++ "%"

/-- `*` and `?` are the signs of the public glob syntax. -/
def globPattern (glob : String) : String :=
  String.ofList (glob.toList.flatMap (fun c =>
    if c = '*' then ['%'] else if c = '?' then ['_'] else if c = '\\' ∨ c = '%' ∨ c = '_' then ['\\', c] else [c]))

theorem escapeLike_toList (v : String) : (escapeLike v).toList = Like.quote likeSigns v.toList := by
  have hc : ∀ c : Char, replaceChar '_' ['\\', '_'] (replaceChar '%' ['\\', '%'] (replaceChar '\\' ['\\', '\\'] [c])) =
      Like.quoteOne likeSigns c := by
    intro c
    by_cases he : c = '\\'
    · subst he
      decide
    · by_cases hm : c = '%'
      · subst hm
        decide
      · by_cases ho : c = '_'
        · subst ho
          decide
        · simp [replaceChar,Like.quoteOne,likeSigns,he,hm,ho]
  have ha : ∀ c by_ (l l' : List Char), replaceChar c by_ (l++l') = replaceChar c by_ l ++ replaceChar c by_ l' :=
    fun c by_ l l' => List.flatMap_append
  unfold escapeLike
  rw [String.toList_ofList]
  induction v.toList with
  | nil => rfl
  | cons c text ih =>
    have hn : c::text = [c] ++ text := rfl
    rw [hn,ha,ha,ha,ih,hc]
    rfl

/-- A text that begins as `uriPrefix` up to the case of its ASCII letters. -/
def BeginsLike (uriPrefix text : String) : Prop := Like.Begins sameLetter uriPrefix.toList text.toList

theorem sqlLike_prefixPattern (text pre : String) :
    sqlLike text (prefixPattern pre) = true ↔ BeginsLike pre text := by
  have hp : (prefixPattern pre).toList = Like.quote likeSigns pre.toList ++ [likeSigns.many] := by
    rw [prefixPattern,String.toList_append,escapeLike_toList]
    rfl
  unfold sqlLike
  rw [hp]
  exact Like.like_quote_many sameLetter likeSigns (by decide) _ _

/-- A row of `context_entries`, with the columns the enumerations read. -/
structure EntryRow where
  uri : String
  l0Abstract : String
  l1Overview : Option String
  contentType : String
  entryJson : Json
  /-- The entry was printed under the URI that keys its row. -/
  named : entryJson.get? "uri" = some (.str uri)

structure SqliteContextStore where
  entries : List EntryRow
  ordered : entries.Pairwise (fun row row' => row.uri < row'.uri)

/-- `serde_json::from_str::<ContextEntry>(&json)`. -/
def EntryRow.readEntry (row : EntryRow) : Except ContextError ContextEntry :=
  match ContextEntry.fromValue row.entryJson with
  | some entry => .ok entry
  | none => .error (.serialization "invalid entry")

theorem EntryRow.canonical_readEntry {row : EntryRow} {e : ContextEntry} (h : row.readEntry = .ok e) :
    e.uri.canonical = row.uri := by
  unfold readEntry at h
  split at h
  · rename_i entry he
    cases h
    have hn := row.named
    rw [ContextEntry.uri_of_fromValue he] at hn
    simpa using hn
  · cases h

end UwuContextDb.Content

/-! The enumerations of the SQLite store: each selects rows by the text of its scope and cuts a page of them. -/

namespace UwuContextDb.Content

open ContextUri (trimEndMatches)
open Retrieve (PageRequest Page clamp maxPageSize)
open Facade (DirEntry FindPattern GrepHit TreeNode)

def effectiveLimit (page : PageRequest) : ℕ := clamp page.limit 1 maxPageSize

/-- `? IS NULL OR key > ?`. -/
def isAfter (page : PageRequest) (key : String) : Bool := page.after.all (fun cursor => decide (cursor < key))

/-- The rows of a query whose `LIMIT` is one more than the page, cut to the page, and whether one more was there. -/
def cut {α : Type} (page : PageRequest) (rows : List α) : List α × Bool :=
  let fetched := rows.take (effectiveLimit page + 1)
  (fetched.take (effectiveLimit page), decide (effectiveLimit page < fetched.length))

namespace SqliteContextStore

variable (store : SqliteContextStore)

/-- A row of the query behind `ls`. -/
structure ChildRow where
  name : String
  isDir : Bool
  abstract_ : Option String
  contentType : Option String

/-- `substr(uri, length(prefix) + 1)`. -/
def restOf (uriPrefix uri : String) : String := String.ofList (uri.toList.drop uriPrefix.length)

/-- The part of `rest` before its first separator. -/
def firstPart (rest : String) : String := String.ofList (rest.toList.takeWhile (· != '/'))

/-- `max` over a text column; of no rows it is `NULL`. -/
def maxText (texts : List String) : Option String :=
  texts.foldl (fun best text => some (best.elim text (fun b => if b < text then text else b))) none

/-- One group of `GROUP BY name`. -/
def childRow (uriPrefix : String) (selected : List EntryRow) (name : String) : ChildRow :=
  let group := selected.filter (fun row => firstPart (restOf uriPrefix row.uri) == name)
  let leaves := group.filter (fun row => !(restOf uriPrefix row.uri).toList.contains '/')
  ⟨name, group.any (fun row => (restOf uriPrefix row.uri).toList.contains '/'),
    maxText (leaves.map (·.l0Abstract)), maxText (leaves.map (·.contentType))⟩

/-- `children` of the query behind `ls`, in the order of their names. -/
def childRows (uriPrefix : String) (selected : List EntryRow) : List ChildRow :=
  let names := (selected.map (fun row => firstPart (restOf uriPrefix row.uri))).dedup.insertionSort (· ≤ ·)
  names.map (childRow uriPrefix selected)

def dirEntry (uriPrefix : String) (child : ChildRow) : Except ContextError DirEntry :=
  (ContextUri.parse (uriPrefix ++ child.name)).map (fun uri =>
    ⟨uri, child.isDir, child.abstract_.getD "",
      if child.isDir then none else child.contentType.bind ContentType.fromPathSegment⟩)

def ls (dir : ContextUri) (page : PageRequest) : Except ContextError (Page DirEntry) := do
  let uriPrefix := dirPrefix dir
  let selected := store.entries.filter (fun row => sqlLike row.uri (prefixPattern uriPrefix))
  let (rows, hasMore) := cut page ((childRows uriPrefix selected).filter (fun child => isAfter page child.name))
  let items ← rows.mapM (dirEntry uriPrefix)
  return ⟨items, if hasMore then items.getLast?.map (fun item => restOf uriPrefix item.uri.canonical) else none⟩

def find (pattern : FindPattern) (page : PageRequest) : Except ContextError (Page ContextUri) := do
  let scope := (pattern.scope.map (·.canonical)).getD ""
  let kind := pattern.contentType.map ContentType.asPathSegment
  let namePattern := pattern.nameGlob.map (fun glob => "%/" ++ globPattern glob)
  let selected := store.entries.filter (fun row => sqlLike row.uri (prefixPattern scope))
  let (rows, hasMore) := cut page (selected.filter (fun row =>
    kind.all (fun kind => row.contentType == kind) && namePattern.all (fun name => sqlLike row.uri name) &&
      isAfter page row.uri))
  let items ← rows.mapM (fun row => ContextUri.parse row.uri)
  return ⟨items, if hasMore then items.getLast?.map (·.canonical) else none⟩

/-- What `grep` makes of one row; `lower` is `str::to_lowercase`. -/
def grepRow (lower : String → String) (foldedPattern : String) (row : EntryRow) :
    Except ContextError (Option GrepHit) :=
  let holds := fun text : String => WriteSecurity.contains foldedPattern.toList (lower text).toList
  let line := if holds row.l0Abstract then some row.l0Abstract else row.l1Overview.filter holds
  (ContextUri.parse row.uri).map (fun uri => line.map (fun line => ⟨uri, line, .l0⟩))

def grep (lower : String → String) (pattern : String) (scope : ContextUri) : Except ContextError (List GrepHit) := do
  let selected := store.entries.filter (fun row => sqlLike row.uri (prefixPattern scope.canonical))
  let hits ← selected.mapM (grepRow lower (lower pattern))
  return hits.reduceOption

/-- `build_tree`, with `depth` levels left. -/
def buildTree (uris : List String) : ℕ → String → List TreeNode
  | 0, _ => []
  | depth + 1, uriPrefix =>
    let below := uris.filter (fun uri => uriPrefix.toList.isPrefixOf uri.toList)
    let names := (below.map (fun uri => firstPart (restOf uriPrefix uri))).filter (fun name => name != "")
    (names.dedup.insertionSort (· ≤ ·)).filterMap (fun name =>
      let childPrefix := uriPrefix ++ name ++ "/"
      let isDir := uris.any (fun uri => childPrefix.toList.isPrefixOf uri.toList)
      (ContextUri.parse (uriPrefix ++ name)).toOption.map (fun uri =>
        .node uri isDir (if isDir then buildTree uris depth childPrefix else [])))

def tree (root : ContextUri) (depth : ℕ) (page : PageRequest) : Page TreeNode :=
  let uriPrefix := dirPrefix root
  let selected := store.entries.filter (fun row => sqlLike row.uri (prefixPattern uriPrefix))
  let (rows, hasMore) := cut page ((selected.map (·.uri)).filter (isAfter page))
  ⟨[.node root true (buildTree rows depth uriPrefix)], if hasMore then rows.getLast? else none⟩

/-- `uri = ? OR uri LIKE ?`: the scope itself and what is below it. -/
def selected (scope : ContextUri) : List EntryRow :=
  store.entries.filter (fun row => row.uri == scope.canonical || sqlLike row.uri (prefixPattern (dirPrefix scope)))

def entryPage (page : PageRequest) (rows : List EntryRow) : Except ContextError (Page ContextEntry) := do
  let (rows, hasMore) := cut page (rows.filter (fun row => isAfter page row.uri))
  let items ← rows.mapM EntryRow.readEntry
  return ⟨items, if hasMore then items.getLast?.map (·.uri.canonical) else none⟩

def scanByPrefix (uriPrefix : String) (page : PageRequest) : Except ContextError (Page ContextEntry) := do
  let scope ← ContextUri.parse (trimEndMatches '/' uriPrefix)
  entryPage page (store.selected scope)

def scanByType (uriPrefix : String) (contentType : ContentType) (page : PageRequest) :
    Except ContextError (Page ContextEntry) := do
  let scope ← ContextUri.parse (trimEndMatches '/' uriPrefix)
  entryPage page ((store.selected scope).filter (fun row => row.contentType == contentType.asPathSegment))

end SqliteContextStore

end UwuContextDb.Content
