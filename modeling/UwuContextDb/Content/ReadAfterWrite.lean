import UwuContextDb.Content.ReadCoherence
import UwuContextDb.Content.VersionHistory

/-! Reads after writes: a call changes what is read at the addresses that it invalidates, and at no other. -/

namespace UwuContextDb.Content

open StateMachine
open Std.ExtTreeMap (getElem?_insert getElem?_erase)

namespace SqliteTables

variable {lib : StoreLibraries} {config : BatchWriteConfig} {st tx : SqliteTables} {uri : String} {now : DateTime}
  {version : MvccVersion} {entry : ContextEntry}

end SqliteTables

end UwuContextDb.Content
