import UwuContextDb.Content.Browse
import UwuContextDb.Library.FixedWidth

/-! `MemoryContextStore`: the versions of every URI in a map, and listings that sort and cut what the map holds. -/

namespace UwuContextDb.Content

open Retrieve (PageRequest Page)
open Facade (DirEntry FindPattern GrepHit TreeNode)

structure VersionEntry where
  version : MvccVersion
  message : String
  ts : DateTime

/-- The versions of a URI, the latest last, and the raw bytes put in for the L2 level. -/
structure MemoryContextStore where
  entries : Std.ExtTreeMap String (List ContextEntry)
  l2Blobs : Std.ExtTreeMap String ByteArray

/-- The order in which a `HashMap` gives what it holds. -/
structure HashOrder where
  order : List (String × List ContextEntry) → List (String × List ContextEntry)
  perm : ∀ held, (order held).Perm held

def HashOrder.asSorted : HashOrder := ⟨id, fun held => .refl held⟩

/-- `keyset_page`: one item more is selected, to see whether there are more. -/
def keysetPage {α : Type} (items : List α) (page : PageRequest) (key : α → String) : Page α :=
  let limit := effectiveLimit page
  let selected := (items.filter (fun item => isAfter page (key item))).take (limit + 1)
  if limit < selected.length then ⟨selected.dropLast, selected.dropLast.getLast?.map key⟩
  else ⟨selected, none⟩

/-- `format!("{:020}", version)`. -/
def paddedVersion (version : MvccVersion) : String := String.ofList ((FixedWidth.digits 10 20 version).map Nat.digitChar)

/-- `Uuid::to_string`: hexadecimal digits in groups of 8, 4, 4, 4 and 12. -/
def uuidText (id : Uuid) : String :=
  String.ofList (FixedWidth.insertAt 8 '-' (FixedWidth.insertAt 12 '-' (FixedWidth.insertAt 16 '-'
    (FixedWidth.insertAt 20 '-' ((FixedWidth.digits 16 32 id).map Nat.digitChar)))))

def stripPrefix (uriPrefix uri : String) : Option String :=
  if uriPrefix.toList.isPrefixOf uri.toList then some (SqliteContextStore.restOf uriPrefix uri) else none

/-- The children `build_memory_tree` finds under a prefix: each name with whether its first URI goes on below it. -/
def treeNames (uriPrefix : String) (uris : List String) : List (String × Bool) :=
  ((uris.filterMap (stripPrefix uriPrefix)).filter (· != "")).map
    (fun rest => (SqliteContextStore.firstPart rest, rest.toList.contains '/'))

/-- `build_memory_tree`, with `depth` levels left. -/
def buildMemoryTree (uris : List String) : ℕ → String → List TreeNode
  | 0, _ => []
  | depth + 1, uriPrefix =>
    let seen := treeNames uriPrefix uris
    ((seen.map Prod.fst).dedup.insertionSort (· ≤ ·)).filterMap (fun name =>
      let isDir := (seen.find? (fun child => child.1 == name)).any Prod.snd
      (ContextUri.parse (uriPrefix ++ name)).toOption.map (fun uri =>
        .node uri isDir (if isDir then buildMemoryTree uris depth (uriPrefix ++ name ++ "/") else [])))

namespace MemoryContextStore

def empty : MemoryContextStore := ⟨∅, ∅⟩

variable (store : MemoryContextStore)

def latest (uri : String) : Option ContextEntry := (store.entries[uri]?).bind List.getLast?

/-- `put_l2_blob`. -/
def putL2Blob (uri : String) (bytes : ByteArray) : MemoryContextStore :=
  { store with l2Blobs := store.l2Blobs.insert uri bytes }

/-- `ContentRepo::write`, at the clock reading `now`. -/
def write (entry : ContextEntry) (now : DateTime) : Except ContextError (MvccVersion × MemoryContextStore) := do
  let entry ← WriteSecurity.sanitizeEntryForWrite entry
  let list := (store.entries[entry.uri.canonical]?).getD []
  let next := list.length + 1
  let written := { entry with mvccVersion := next, updatedAt := now }
  return (next, { store with entries := store.entries.insert entry.uri.canonical (list ++ [written]) })

def delete (uri : ContextUri) : Except ContextError (Unit × MemoryContextStore) :=
  .ok ((), { store with entries := store.entries.erase uri.canonical })

def rename (from_ to_ : ContextUri) : Except ContextError (Unit × MemoryContextStore) :=
  match store.entries[from_.canonical]? with
  | none => .error (.notFound from_.canonical)
  | some val =>
    .ok ((), { store with entries := (store.entries.erase from_.canonical).insert to_.canonical val })

def rollback (uri : ContextUri) (to_ : MvccVersion) : Except ContextError (Unit × MemoryContextStore) :=
  match store.entries[uri.canonical]? with
  | none => .error (.notFound uri.canonical)
  | some list =>
    match list.find? (fun e => e.mvccVersion = to_) with
    | none => .error (.versionConflict s!"no version MvccVersion({to_})")
    | some target =>
      let restored := { target with mvccVersion := list.length + 1 }
      .ok ((), { store with entries := store.entries.insert uri.canonical (list ++ [restored]) })

section Reads

variable (hash : HashOrder) (chrono : Chrono)

def held : List (String × List ContextEntry) := hash.order store.entries.toList

/-- `sort_by(|a, b| a.uri.cmp(&b.uri))`. -/
def sortByUri {α : Type} (uri : α → ContextUri) (items : List α) : List α :=
  items.insertionSort (fun a b => (ContextUri.cmp chrono (uri a) (uri b)).isLE = true)

def dirEntryOf (uriPrefix : String) (held : String × List ContextEntry) : Option DirEntry := do
  let rest ← stripPrefix uriPrefix held.1
  let latest ← held.2.getLast?
  let uri ← (ContextUri.parse held.1).toOption
  return ⟨uri, rest.toList.contains '/', latest.l0Text, latest.metadata.contentType⟩

/-- What `ls` finds, before it is sorted. -/
def childrenOf (dir : ContextUri) : List DirEntry := (store.held hash).filterMap (dirEntryOf (dirPrefix dir))

def ls (dir : ContextUri) (page : PageRequest) : Page DirEntry :=
  keysetPage (sortByUri chrono (·.uri) (store.childrenOf hash dir)) page (fun entry => entry.uri.canonical)

def matchesType (contentType : Option ContentType) (versions : List ContextEntry) : Bool :=
  contentType.all (fun ct => decide (versions.getLast?.bind (·.metadata.contentType) = some ct))

/-- What `find` finds, before it is sorted. -/
def found (pattern : FindPattern) : List ContextUri :=
  let scope := (pattern.scope.map (·.canonical)).getD ""
  ((store.held hash).filter
    (fun held => scope.toList.isPrefixOf held.1.toList && matchesType pattern.contentType held.2)).filterMap
    (fun held => (ContextUri.parse held.1).toOption)

def find (pattern : FindPattern) (page : PageRequest) : Page ContextUri :=
  keysetPage (sortByUri chrono id (store.found hash pattern)) page (·.canonical)

/-- `FsOps::grep`; `lower` is `str::to_lowercase`. -/
def grep (lower : String → String) (pattern : String) (scope : ContextUri) : List GrepHit :=
  (store.held hash).filterMap (fun (uri, versions) =>
    if scope.canonical.toList.isPrefixOf uri.toList then do
      let latest ← versions.getLast?
      let l0 := latest.l0Text
      if WriteSecurity.contains (lower pattern).toList (lower l0).toList then
        (ContextUri.parse uri).toOption.map (fun u => ⟨u, l0, .l0⟩)
      else none
    else none)

/-- `FsOps::tree`: one node, whatever is below it. -/
def tree (root : ContextUri) (depth : ℕ) (page : PageRequest) : Page TreeNode :=
  let uriPrefix := dirPrefix root
  let uris := ((store.held hash).map Prod.fst).filter (fun uri => uriPrefix.toList.isPrefixOf uri.toList)
  keysetPage [.node root true (buildMemoryTree uris depth uriPrefix)] page (fun _ => root.canonical)

def read (uri : ContextUri) (level : ContentLevel) : Except ContextError ContentPayload :=
  match store.latest uri.canonical with
  | none => .error (.notFound uri.canonical)
  | some e =>
    let l0 := e.l0Text
    let l1 := match e.payload with
      | .text _ dense _ => dense
      | _ => ""
    match level with
    | .l0 => .ok (.text l0 l1 l0)
    | .l1 => .ok (.text l0 l1 l0)
    | .l2 =>
      match (store.l2Blobs[uri.canonical]?).filter (fun bytes => bytes.size != 0) with
      | some bytes => .ok (.text l0 l1 ((String.fromUTF8? bytes).getD ""))
      | none =>
        match e.payload with
        | .text _ _ full => .ok (.text l0 l1 full)
        | other => .ok other

/-- The latest entries of the URIs that begin as `uriPrefix`, before they are sorted. -/
def scanned (uriPrefix : String) : List ContextEntry :=
  ((store.held hash).filter (fun held => uriPrefix.toList.isPrefixOf held.1.toList)).filterMap (·.2.getLast?)

def scanByPrefix (uriPrefix : String) (page : PageRequest) : Page ContextEntry :=
  keysetPage (sortByUri chrono (·.uri) (store.scanned hash uriPrefix)) page (fun entry => entry.uri.canonical)

def scannedOfType (uriPrefix : String) (contentType : ContentType) : List ContextEntry :=
  (store.scanned hash uriPrefix).filter (fun entry => entry.metadata.contentType = some contentType)

def scanByType (uriPrefix : String) (contentType : ContentType) (page : PageRequest) : Page ContextEntry :=
  keysetPage (sortByUri chrono (·.uri) (store.scannedOfType hash uriPrefix contentType)) page
    (fun entry => entry.uri.canonical)

def versions (uri : ContextUri) : List VersionEntry :=
  ((store.entries[uri.canonical]?).getD []).map (fun e => ⟨e.mvccVersion, e.l0Text, e.updatedAt⟩)

def versionHistory (uri : ContextUri) (page : PageRequest) : Page VersionEntry :=
  keysetPage (store.versions uri) page (fun entry => paddedVersion entry.version)

def tenants : List TenantId :=
  (((store.held hash).filterMap (fun held => held.2.getLast?.map (·.tenant))).insertionSort (· ≤ ·)).destutter (· ≠ ·)

def listTenants (page : PageRequest) : Page TenantId := keysetPage (store.tenants hash) page uuidText

end Reads

inductive Op
  | write (entry : ContextEntry) (now : DateTime)
  | delete (uri : ContextUri)
  | rename (from_ to_ : ContextUri)
  | rollback (uri : ContextUri) (to_ : MvccVersion)
  | putL2Blob (uri : String) (bytes : ByteArray)

def step : Op → MemoryContextStore
  | .write entry now => ((store.write entry now).map Prod.snd).toOption.getD store
  | .delete uri => ((store.delete uri).map Prod.snd).toOption.getD store
  | .rename from_ to_ => ((store.rename from_ to_).map Prod.snd).toOption.getD store
  | .rollback uri to_ => ((store.rollback uri to_).map Prod.snd).toOption.getD store
  | .putL2Blob uri bytes => store.putL2Blob uri bytes

end MemoryContextStore

end UwuContextDb.Content
