import Mathlib.Data.String.Basic
import UwuContextDb.Core.Model
import UwuContextDb.Core.Text
import UwuContextDb.Library.LwwMap

/-! `CrdtMerger`: two entries merged key by key through a last-writer-wins map, or as sets of items. -/

namespace UwuContextDb.Version

open Text (isWhitespace)

inductive CrdtStrategy | lwwKeyValue | setUnion deriving DecidableEq

structure CrdtMergeResult where
  merged : ContextEntry
  conflictsResolved : ℕ
  strategy : CrdtStrategy

/-- What the merger takes from `uwu_crdt::LwwMap`: the value left of the one held and the one set at an equal clock and
node, and the order in which the map is iterated. -/
structure LwwLibrary where
  tie : String → String → String
  order : List (String × String) → List (String × String)
  perm : ∀ held, (order held).Perm held

namespace CrdtMerger

def trim (text : List Char) : List Char := ((text.dropWhile isWhitespace).reverse.dropWhile isWhitespace).reverse

/-- The parts between commas, semicolons and line ends, trimmed, without the empty ones. -/
def items (text : String) : List (List Char) :=
  ((text.toList.splitOnP (fun c => c == ',' || c == ';' || c == '\n')).map trim).filter (fun item => !item.isEmpty)

/-- The key and the value around the first `:`, or around the first `=` if there is no `:`. -/
def keyValue (item : List Char) : Option (String × String) :=
  ((item.findIdx? (· == ':')).or (item.findIdx? (· == '='))).map
    (fun pos => (String.ofList (trim (item.take pos)), String.ofList (trim (item.drop (pos + 1)))))

/-- `parse_kv_pairs`: of a key that is given twice, the later value. -/
def parseKvPairs (text : String) : Std.ExtTreeMap String String :=
  ((items text).filterMap keyValue).foldl (fun map pair => map.insert pair.1 pair.2) ∅

variable (lww : LwwLibrary) (nodeId : String)

/-- The map that `merge_lww` fills, with the values it holds in the end. -/
def mergedMap (a b : ContextEntry) : Std.ExtTreeMap String String :=
  LwwMap.values (LwwMap.setAll lww.tie b.mvccVersion nodeId
    (LwwMap.setAll lww.tie a.mvccVersion nodeId ∅ (parseKvPairs a.l0Text).toList) (parseKvPairs b.l0Text).toList)

def withText (uri : ContextUri) (a b : ContextEntry) (text : String) : ContextEntry :=
  { a with uri := uri, mvccVersion := max a.mvccVersion b.mvccVersion + 1, payload := .text text text text }

def mergeLww (uri : ContextUri) (a b : ContextEntry) : ContextEntry × CrdtStrategy :=
  let text := "; ".intercalate ((lww.order (mergedMap lww nodeId a b).toList).map (fun pair => pair.1 ++ ": " ++ pair.2))
  (withText uri a b text, .lwwKeyValue)

def mergeSetUnion (uri : ContextUri) (a b : ContextEntry) : ContextEntry × CrdtStrategy :=
  let all := (items b.l0Text).foldl (fun all item => if item ∈ all then all else all ++ [item]) (items a.l0Text)
  (withText uri a b ("; ".intercalate (all.map String.ofList)), .setUnion)

def merge (uri : ContextUri) (contentType : ContentType) (a b : ContextEntry) : CrdtMergeResult :=
  let result := match contentType with
    | .profile | .preference => mergeLww lww nodeId uri a b
    | _ => mergeSetUnion uri a b
  ⟨result.1, 1, result.2⟩

/-- Two mergers that are given the sides in opposite order fill one map, exactly if the versions differ or the rule for
ties decides alike, in both directions, about every key that both sides have. -/
theorem mergedMap_comm_iff (lww : LwwLibrary) (nodeId nodeId' : String) (a b : ContextEntry) :
    mergedMap lww nodeId a b = mergedMap lww nodeId' b a ↔
      (a.mvccVersion = b.mvccVersion → ∀ (key v w : String), (parseKvPairs a.l0Text)[key]? = some v →
        (parseKvPairs b.l0Text)[key]? = some w → lww.tie v w = lww.tie w v) :=
  LwwMap.values_setAll_comm_iff _ _

/-- Each side of a tie keeps its own value, or takes the other's, whether the value set first stays or the one set last. -/
theorem mergedMap_tie : ∃ a b : ContextEntry, a.l0Text = "theme: dark" ∧ b.l0Text = "theme: light" ∧
    a.mvccVersion = b.mvccVersion ∧
    (mergedMap ⟨fun held _ => held, id, fun held => .refl held⟩ "n" a b)["theme"]? = some "dark" ∧
    (mergedMap ⟨fun held _ => held, id, fun held => .refl held⟩ "n" b a)["theme"]? = some "light" ∧
    (mergedMap ⟨fun _ new => new, id, fun held => .refl held⟩ "n" a b)["theme"]? = some "light" ∧
    (mergedMap ⟨fun _ new => new, id, fun held => .refl held⟩ "n" b a)["theme"]? = some "dark" :=
  ⟨.newText (.ofTenant "t") 0 "theme: dark" 0, .newText (.ofTenant "t") 0 "theme: light" 0, rfl, rfl, rfl,
    by decide +kernel, by decide +kernel, by decide +kernel, by decide +kernel⟩

end CrdtMerger

end UwuContextDb.Version
