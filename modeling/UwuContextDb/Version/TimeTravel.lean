import UwuContextDb.Core.EntrySerde
import UwuContextDb.Version.Memory
import UwuContextDb.Version.SqliteRewrite

/-! Reading the past: `read_at` and `asof_read` of both version stores. -/

namespace UwuContextDb.Version

inductive VersionRef
  | commit (id : CommitId)
  | branch (name : BranchName)
  | tag (name : TagName)
  | head

/-- `{:?}` of a reference. -/
def VersionRef.debug : VersionRef → String
  | .commit id => s!"Commit(CommitId({id}))"
  | .branch name => s!"Branch(BranchName(\"{name.asStr}\"))"
  | .tag name => s!"Tag(TagName(\"{name.asStr}\"))"
  | .head => "Head"

inductive AsOfTime
  | commit (id : CommitId)
  | timestamp (ts : DateTime)

def payloadAt (level : ContentLevel) (e : ContextEntry) : ContentPayload :=
  match level with
  | .l0 => .text e.l0Text e.l0Text e.l0Text
  | .l1 =>
    let dense := match e.payload with
      | .text _ dense _ => dense
      | _ => ""
    .text e.l0Text dense dense
  | .l2 => e.payload

namespace SqliteVersionStore

variable (st : SqliteVersionStore)

end SqliteVersionStore

namespace MemoryVersionStore

variable (st : MemoryVersionStore)

end MemoryVersionStore

end UwuContextDb.Version
