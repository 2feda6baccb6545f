import UwuContextDb.Content.Browse
import UwuContextDb.Core.UriSpelling

/-! `AclProtectedStore`: the rules of a path ACL, and what they leave of the listings of a store. -/

namespace UwuContextDb.Content

open ContextUri (trimEndMatches)
open Retrieve (PageRequest Page)
open Facade (DirEntry FindPattern TreeNode)

structure Permissions where
  read : Bool
  write : Bool
  delete : Bool
  share : Bool

def Permissions.readOnly : Permissions := ⟨true, false, false, false⟩

inductive Principal
  | user (name : String)
  | agent (name : String)
  | role (name : String)
  | anonymous
  deriving DecidableEq

structure AclRule where
  pathPattern : String
  principal : Principal
  permissions : Permissions
  priority : ℕ

/-- `PathAcl`: its rules, the one of highest priority first. -/
structure PathAcl where
  rules : List AclRule
  sorted : rules.Pairwise (fun rule rule' => rule'.priority ≤ rule.priority)

def PathAcl.empty : PathAcl := ⟨[], .nil⟩

def Permissions.covers (p required : Permissions) : Bool :=
  (!required.read || p.read) && (!required.write || p.write) && (!required.delete || p.delete) &&
    (!required.share || p.share)

/-- `PathAcl::add_rule`: the sort is stable. -/
def PathAcl.addRule (acl : PathAcl) (rule : AclRule) : PathAcl where
  rules := (acl.rules ++ [rule]).insertionSort (fun rule rule' => rule'.priority ≤ rule.priority)
  sorted := by
    have htotal : Std.Total (fun rule rule' : AclRule => rule'.priority ≤ rule.priority) := ⟨fun _ _ => le_total _ _⟩
    have htrans : IsTrans AclRule (fun rule rule' => rule'.priority ≤ rule.priority) := ⟨fun _ _ _ h h' => h'.trans h⟩
    exact List.pairwise_insertionSort _ _

/-- `PathAcl::check`: the first rule about the principal and the address decides. -/
def PathAcl.check (acl : PathAcl) (uri : ContextUri) (principal : Principal) (required : Permissions) : Bool :=
  (acl.rules.find? (fun rule =>
    rule.principal = principal && rule.pathPattern.toList.isPrefixOf uri.canonical.toList)).any
      (fun rule => rule.permissions.covers required)

structure ListingPort where
  ls : ContextUri → PageRequest → Except ContextError (Page DirEntry)
  find : FindPattern → PageRequest → Except ContextError (Page ContextUri)
  findByName : ContextUri → String → PageRequest → Except ContextError (Page ContextUri)
  tree : ContextUri → ℕ → PageRequest → Except ContextError (Page TreeNode)
  scanByPrefix : String → PageRequest → Except ContextError (Page ContextEntry)
  scanByType : String → ContentType → PageRequest → Except ContextError (Page ContextEntry)

/-- `AclProtectedStore`; `debug` is `{:?}` of a principal. -/
structure AclProtectedStore where
  inner : ListingPort
  acl : PathAcl
  principal : Principal
  debug : Principal → String

/-- `Display` of an error that an address is not parsed with. -/
def displayError : ContextError → String
  | .notFound message => "not found: " ++ message
  | .invalidUri message => "invalid uri: " ++ message
  | .storage message => "storage: " ++ message
  | .versionConflict message => "version conflict: " ++ message
  | .permissionDenied message => "permission denied: " ++ message
  | .serialization message => "serialization: " ++ message
  | .unsupported message => "unsupported: " ++ message

/-- `FromIterator` of a page: the items, and no cursor. -/
def collectPage {α : Type} (items : List α) : Page α := ⟨items, none⟩

mutual
def filterTree (canRead : ContextUri → Bool) : TreeNode → TreeNode
  | .node uri isDir children => .node uri isDir (filterChildren canRead children)

def filterChildren (canRead : ContextUri → Bool) : List TreeNode → List TreeNode
  | [] => []
  | (.node uri isDir children)::rest =>
    if canRead uri then filterTree canRead (.node uri isDir children) :: filterChildren canRead rest
    else filterChildren canRead rest
end

namespace AclProtectedStore

variable (store : AclProtectedStore)

def canRead (uri : ContextUri) : Bool := store.acl.check uri store.principal .readOnly

def requireRead (uri : ContextUri) : Except ContextError Unit :=
  if store.canRead uri then .ok ()
  else .error (.permissionDenied s!"principal {store.debug store.principal} lacks read permission for {uri.canonical}")

def requireScope : Option ContextUri → Except ContextError Unit
  | some scope => store.requireRead scope
  | none => .ok ()

def readable {α : Type} (uri : α → ContextUri) (page : Page α) : Page α :=
  collectPage (page.items.filter (fun item => store.canRead (uri item)))

def scanScope (call uriPrefix : String) : Except ContextError ContextUri :=
  (ContextUri.parse (trimEndMatches '/' uriPrefix)).mapError
    (fun err => .invalidUri s!"ACL {call} scope parse failed: {displayError err}")

/-- `FsOps::ls` and `BrowsingOps::ls`. -/
def ls (dir : ContextUri) (page : PageRequest) : Except ContextError (Page DirEntry) := do
  store.requireRead dir
  let entries ← store.inner.ls dir page
  return store.readable (·.uri) entries

def find (pattern : FindPattern) (page : PageRequest) : Except ContextError (Page ContextUri) := do
  store.requireScope pattern.scope
  let uris ← store.inner.find pattern page
  return store.readable id uris

/-- `BrowsingOps::find`. -/
def findByName (scope : ContextUri) (pattern : String) (page : PageRequest) :
    Except ContextError (Page ContextUri) := do
  store.requireRead scope
  let uris ← store.inner.findByName scope pattern page
  return store.readable id uris

/-- `FsOps::tree` and `BrowsingOps::tree`. -/
def tree (root : ContextUri) (depth : ℕ) (page : PageRequest) : Except ContextError (Page TreeNode) := do
  store.requireRead root
  let tree ← store.inner.tree root depth page
  return { tree with items := tree.items.map (filterTree store.canRead) }

def scanByPrefix (uriPrefix : String) (page : PageRequest) : Except ContextError (Page ContextEntry) := do
  let scope ← scanScope "scan_by_prefix" uriPrefix
  store.requireRead scope
  let entries ← store.inner.scanByPrefix uriPrefix page
  return store.readable (·.uri) entries

def scanByType (uriPrefix : String) (contentType : ContentType) (page : PageRequest) :
    Except ContextError (Page ContextEntry) := do
  let scope ← scanScope "scan_by_type" uriPrefix
  store.requireRead scope
  let entries ← store.inner.scanByType uriPrefix contentType page
  return store.readable (·.uri) entries

end AclProtectedStore

end UwuContextDb.Content

/-! Which of the rules added to a path ACL decides about a principal and a URI. -/

namespace UwuContextDb.Content

open TopRows

structure Permissions.Grants (p required : Permissions) : Prop where
  read : required.read → p.read
  write : required.write → p.write
  delete : required.delete → p.delete
  share : required.share → p.share

theorem Permissions.covers_iff (p required : Permissions) : p.covers required = true ↔ p.Grants required := by
  have hb : ∀ b c : Bool, (!b || c) = true ↔ (b → c) := by decide
  simp only [Permissions.covers,Bool.and_eq_true,hb]
  constructor
  · intro h
    exact ⟨h.1.1.1,h.1.1.2,h.1.2,h.2⟩
  · intro h
    exact ⟨⟨⟨h.read,h.write⟩,h.delete⟩,h.share⟩

def AclRule.appliesTo (rule : AclRule) (uri : ContextUri) (principal : Principal) : Bool :=
  rule.principal = principal && rule.pathPattern.toList.isPrefixOf uri.canonical.toList

namespace PathAcl

def ofRules (rules : List AclRule) : PathAcl := rules.foldl addRule .empty

theorem ofRules_rules (rules : List AclRule) :
    (ofRules rules).rules = rules.insertionSort (fun rule rule' => rule'.priority ≤ rule.priority) := by
  have ht : Std.Total (fun rule rule' : AclRule => rule'.priority ≤ rule.priority) := ⟨fun _ _ => le_total _ _⟩
  have hr : IsTrans AclRule (fun rule rule' => rule'.priority ≤ rule.priority) := ⟨fun _ _ _ h h' => h'.trans h⟩
  induction rules using List.reverseRecOn with
  | nil => rfl
  | append_singleton rules rule ih =>
    have ha : ofRules (rules++[rule]) = (ofRules rules).addRule rule := by simp [ofRules]
    rw [ha,← insertionSort_append_left,← ih]
    rfl

/-- The first rule of highest priority among those that apply decides. -/
theorem check_iff (rules : List AclRule) (uri : ContextUri) (principal : Principal) (required : Permissions) :
    (ofRules rules).check uri principal required = true ↔
      ∃ rule, FirstBest (·.priority) (rules.filter (·.appliesTo uri principal)) rule ∧
      rule.permissions.Grants required := by
  have ht : Std.Total (fun rule rule' : AclRule => rule'.priority ≤ rule.priority) := ⟨fun _ _ => le_total _ _⟩
  have hr : IsTrans AclRule (fun rule rule' => rule'.priority ≤ rule.priority) := ⟨fun _ _ _ h h' => h'.trans h⟩
  have hf : (ofRules rules).check uri principal required = (((rules.filter (·.appliesTo uri principal)).insertionSort
      (fun rule rule' => rule'.priority ≤ rule.priority)).head?).any (fun rule => rule.permissions.covers required) := by
    rw [← filter_insertionSort, ← ofRules_rules, List.head?_filter]
    rfl
  rw [hf, Option.any_eq_true]
  apply exists_congr
  intro rule
  rw [head?_insertionSort_iff, Permissions.covers_iff]

/-- A rule for one agent decides about the next one, whose name begins with the same characters. -/
theorem sibling_decided : (ofRules [⟨"uwu://t/agent/a", .anonymous, .readOnly, 0⟩]).check
      ⟨"t", ["t", "agent", "ab"], none, "uwu://t/agent/ab"⟩ .anonymous .readOnly = true ∧
    ContextUri.parse "uwu://t/agent/ab" = .ok ⟨"t", ["t", "agent", "ab"], none, "uwu://t/agent/ab"⟩ ∧
    ¬ UriInner.segmentsOf "uwu://t/agent/a" <+: ["t", "agent", "ab"] := by
  decide +kernel

end PathAcl

end UwuContextDb.Content
