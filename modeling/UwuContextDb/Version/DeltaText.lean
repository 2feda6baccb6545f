import UwuContextDb.Version.Snapshot
import UwuContextDb.Library.Run

/-! The delta rows as the tables keep them: snapshots and entries are JSON texts, an operation is a word, and a row has
every column. The rows of `Snapshot` are what these rows say. -/

namespace UwuContextDb.Version

open StateMachine
open Std.ExtTreeMap (getElem?_map keys_map toList_map mem_toList_iff_getElem?_eq_some ext_getElem? getElem?_insert
  map_fst_toList_eq_keys nodup_keys mem_keys)

structure JsonText where
  print : Json → String
  parse : String → Option Json

def JsonText.RoundTrips (text : JsonText) (s : Snapshot) : Prop :=
  ∀ (uri : String) (v : Json), s[uri]? = some v → text.parse (text.print v) = some v

abbrev TextSnapshot := Std.ExtTreeMap String String

namespace DeltaText

/-- `DeltaRow` of the source. -/
structure DeltaRow where
  uri : String
  op : String
  entryJson : Option Json
  renameFrom : Option String

/-- The columns of `version_entry_deltas` beside the key. -/
structure StoredDelta where
  op : String
  entryJson : Option String
  renameFrom : Option String

abbrev StoredTable := Std.ExtTreeMap String StoredDelta

variable (text : JsonText)

def diffSnapshots (src dst : TextSnapshot) : List DeltaRow :=
  dst.toList.filterMap (fun (uri, dv) =>
    match src[uri]? with
    | none => some ⟨uri, "add", text.parse dv, none⟩
    | some sv => if sv ≠ dv then some ⟨uri, "update", text.parse dv, none⟩ else none) ++
  src.keys.filterMap (fun uri => if uri ∈ dst then none else some ⟨uri, "delete", none, none⟩)

def DeltaRow.stored (d : DeltaRow) : StoredDelta := ⟨d.op, d.entryJson.map text.print, d.renameFrom⟩

def insertDeltas (deltas : List DeltaRow) : StoredTable :=
  deltas.foldl (fun t d => t.insert d.uri (d.stored text)) ∅

/-- One row of `load_deltas`. -/
def loadDelta (row : String × StoredDelta) : Except VersionError DeltaRow :=
  match row.2.entryJson with
  | none => .ok ⟨row.1, row.2.op, none, row.2.renameFrom⟩
  | some raw =>
    match text.parse raw with
    | some v => .ok ⟨row.1, row.2.op, some v, row.2.renameFrom⟩
    | none => .error (.storage "error occurred while decoding column \"entry_json\"")

def loadDeltas (rows : List (String × StoredDelta)) : Except VersionError (List DeltaRow) := rows.mapM (loadDelta text)

/-- One step of `apply_deltas`. -/
def applyDelta (snapshot : TextSnapshot) (d : DeltaRow) : Except VersionError TextSnapshot :=
  if d.op = "add" ∨ d.op = "update" then
    match d.entryJson with
    | some v => .ok (snapshot.insert d.uri (text.print v))
    | none => .error (.storage s!"{d.op} delta for {d.uri} has no entry_json")
  else if d.op = "delete" then .ok (snapshot.erase d.uri)
  else if d.op = "rename" then
    match d.renameFrom with
    | none => .ok snapshot
    | some source =>
      match snapshot[source]? with
      | some v => .ok ((snapshot.erase source).insert d.uri v)
      | none => .ok snapshot
  else .error (.storage s!"unknown delta op {d.op}")

def applyDeltas (snapshot : TextSnapshot) (deltas : List DeltaRow) : Except VersionError TextSnapshot :=
  deltas.foldlM (applyDelta text) snapshot

def DeltaRow.ofRow (d : Version.DeltaRow) : DeltaRow :=
  match d.op with
  | .add v => ⟨d.uri, "add", some v, none⟩
  | .update v => ⟨d.uri, "update", some v, none⟩
  | .delete => ⟨d.uri, "delete", none, none⟩
  | .rename source => ⟨d.uri, "rename", none, some source⟩

variable {text}

theorem print_ne {v w : Json} (hv : text.parse (text.print v) = some v)
    (hw : text.parse (text.print w) = some w) (hn : v ≠ w) :
    text.print v ≠ text.print w := by
  intro he
  rw [he,hw] at hv
  exact hn (Option.some.inj hv).symm

def stored (text : JsonText) (uri : String) (op : DeltaOp) : StoredDelta := (DeltaRow.ofRow ⟨uri, op⟩).stored text

def sampleText : JsonText where
  print v := if v = .ofNat 1 then "1" else if v = .ofNat 2 then "2" else "null"
  parse s := if s = "1" then some (.ofNat 1) else if s = "2" then some (.ofNat 2)
    else if s = "null" then some .null else none

end DeltaText
end UwuContextDb.Version
