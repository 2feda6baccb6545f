import UwuContextDb.Core.Model
import UwuContextDb.Core.Text
import UwuContextDb.Library.Words

/-! The write path's scan for sensitive text, and its redaction. -/

namespace UwuContextDb

open Text

inductive SensitiveKind | email | phoneOrLongId | apiKey | privateKey deriving DecidableEq

structure SensitiveFinding where
  kind : SensitiveKind
  count : ℕ
  deriving DecidableEq

abbrev Findings := List SensitiveFinding

namespace WriteSecurity

/-- `push_finding`: one count for each kind, in the order of the first of each. -/
def pushFinding (kind : SensitiveKind) : Findings → Findings
  | [] => [⟨kind, 1⟩]
  | f::findings => if f.kind = kind then ⟨f.kind, f.count + 1⟩::findings else f::pushFinding kind findings

def isAsciiPunctuation (c : Char) : Bool :=
  (0x21 ≤ c.val && c.val ≤ 0x2F) || (0x3A ≤ c.val && c.val ≤ 0x40) || (0x5B ≤ c.val && c.val ≤ 0x60) ||
    (0x7B ≤ c.val && c.val ≤ 0x7E)

def trimMatches (p : Char → Bool) (text : List Char) : List Char :=
  ((text.dropWhile p).reverse.dropWhile p).reverse

/-- `str::split_once` at one character. -/
def splitOnce (c : Char) (text : List Char) : Option (List Char × List Char) :=
  match text.dropWhile (· != c) with
  | [] => none
  | _::after => some (text.takeWhile (· != c), after)

def contains (pattern text : List Char) : Bool := text.tails.any pattern.isPrefixOf

/-- `str::replace` of a pattern that is not empty: `skip` characters of a match are still to be passed. -/
def replaceFrom (pattern mark : List Char) : ℕ → List Char → List Char
  | _, [] => []
  | skip + 1, _::text => replaceFrom pattern mark skip text
  | 0, c::text =>
    if pattern.isPrefixOf (c::text) then mark ++ replaceFrom pattern mark (pattern.length - 1) text
    else c::replaceFrom pattern mark 0 text

def replace (pattern mark text : List Char) : List Char := replaceFrom pattern mark 0 text

/-- `str::len`: the length in bytes. -/
def byteLength (text : List Char) : ℕ := (text.map Char.utf8Size).sum

/-- `str::lines`: a last empty line is left out, and a carriage return at the end of a line. -/
def lines (text : List Char) : List (List Char) :=
  let pieces := text.splitOn '\n'
  let pieces := if pieces.getLast? = some [] then pieces.dropLast else pieces
  pieces.map (fun line => if line.getLast? = some '\r' then line.dropLast else line)

def trimEnd (text : List Char) : List Char := (text.reverse.dropWhile isWhitespace).reverse

def looksLikeEmail (token : List Char) : Bool :=
  match splitOnce '@' token with
  | none => false
  | some (before, domain) => !before.isEmpty && domain.contains '.' && 3 ≤ byteLength domain

def looksLikeApiKey (token : List Char) : Bool :=
  let lower := token.map Char.toLower
  "sk-".toList.isPrefixOf lower || "pk-".toList.isPrefixOf lower || "ghp_".toList.isPrefixOf lower ||
    "github_pat_".toList.isPrefixOf lower ||
    (24 ≤ byteLength token && token.all (fun c => c.isAlphanum || c == '_' || c == '-'))

def looksLikePhoneOrLongId (token : List Char) : Bool :=
  11 ≤ (token.filter Char.isDigit).length && token.all (fun c => c.isDigit || "+-() ".toList.contains c)

abbrev Scan (α : Type) := StateM Findings α

def push (kind : SensitiveKind) : Scan Unit := modify (pushFinding kind)

def redactToken (token : List Char) : Scan (List Char) :=
  let trimmed := trimMatches isAsciiPunctuation token
  if looksLikeEmail trimmed then do
    push .email
    return replace trimmed "[REDACTED_EMAIL]".toList token
  else if looksLikeApiKey trimmed then do
    push .apiKey
    return replace trimmed "[REDACTED_SECRET]".toList token
  else if looksLikePhoneOrLongId trimmed then do
    push .phoneOrLongId
    return replace trimmed "[REDACTED_ID]".toList token
  else return token

def beginMarker : List Char := "-----BEGIN".toList

def endMarker : List Char := "-----END".toList

def keyMarker : List Char := "PRIVATE KEY-----".toList

def keyMark : List Char := "[REDACTED_PRIVATE_KEY]".toList

/-- One line of `redact_private_key_blocks`: the output so far, and whether a key is open. -/
def redactLine (state : List Char × Bool) (line : List Char) : List Char × Bool :=
  if contains beginMarker line && contains keyMarker line then (state.1 ++ keyMark ++ ['\n'], true)
  else if state.2 && contains endMarker line && contains keyMarker line then (state.1, false)
  else if state.2 then state
  else (state.1 ++ line ++ ['\n'], state.2)

def redactPrivateKeyBlocks (text : List Char) : Scan (List Char) :=
  if contains beginMarker text && contains keyMarker text then do
    push .privateKey
    return trimEnd ((lines text).foldl redactLine ([], false)).1
  else return text

/-- `redact_text`: `split_whitespace`, and the tokens joined by a space. -/
def redactText (text : String) : Scan String := do
  let out ← (Words.words isWhitespace text.toList).mapM redactToken
  let redacted ← redactPrivateKeyBlocks ([' '].intercalate out)
  return String.ofList redacted

mutual
/-- `redact_json`; keys are left alone. -/
def redactJson : Json → Scan Json
  | .str s => do
    let s ← redactText s
    return .str s
  | .arr items => do
    let items ← redactItems items
    return .arr items
  | .obj fields => do
    let fields ← redactFields fields
    return .obj fields
  | value => return value

def redactItems : List Json → Scan (List Json)
  | [] => return []
  | item::items => do
    let item ← redactJson item
    let items ← redactItems items
    return item::items

def redactFields : List (String × Json) → Scan (List (String × Json))
  | [] => return []
  | (key, value)::fields => do
    let value ← redactJson value
    let fields ← redactFields fields
    return (key, value)::fields
end

mutual
def scanJson : Json → Scan Unit
  | .str s => discard (redactText s)
  | .arr items => scanItems items
  | .obj fields => scanFields fields
  | _ => return ()

def scanItems : List Json → Scan Unit
  | [] => return ()
  | item::items => do
    scanJson item
    scanItems items

def scanFields : List (String × Json) → Scan Unit
  | [] => return ()
  | (_, value)::fields => do
    scanJson value
    scanFields fields
end

mutual
def redactPayload : ContentPayload → Scan ContentPayload
  | .text sparse dense full => do
    let sparse ← redactText sparse
    let dense ← redactText dense
    let full ← redactText full
    return .text sparse dense full
  | .image thumbnail features raw => return .image thumbnail features raw
  | .audio transcript embedding raw => do
    let transcript ← redactText transcript
    return .audio transcript embedding raw
  | .structured summary schema data => do
    let summary ← redactText summary
    let data ← redactJson data
    return .structured summary schema data
  | .composite summary parts => do
    let summary ← redactText summary
    let parts ← redactParts parts
    return .composite summary parts

def redactParts : List ContentPart → Scan (List ContentPart)
  | [] => return []
  | part::parts => do
    let part ← redactPart part
    let parts ← redactParts parts
    return part::parts

def redactPart : ContentPart → Scan ContentPart
  | .text payload => do
    let payload ← redactPayload payload
    return .text payload
  | .image payload => do
    let payload ← redactPayload payload
    return .image payload
  | .audio payload => do
    let payload ← redactPayload payload
    return .audio payload
  | .reference uri => return .reference uri
end

mutual
def scanPayload : ContentPayload → Scan Unit
  | .text sparse dense full => do
    discard (redactText sparse)
    discard (redactText dense)
    discard (redactText full)
  | .audio transcript _ _ => discard (redactText transcript)
  | .structured summary _ data => do
    discard (redactText summary)
    scanJson data
  | .composite summary parts => do
    discard (redactText summary)
    scanParts parts
  | .image _ _ _ => return ()

def scanParts : List ContentPart → Scan Unit
  | [] => return ()
  | part::parts => do
    scanPart part
    scanParts parts

def scanPart : ContentPart → Scan Unit
  | .text payload => scanPayload payload
  | .image payload => scanPayload payload
  | .audio payload => scanPayload payload
  | .reference _ => return ()
end

/-- `format!("{:?}", finding.kind)`. -/
def kindText : SensitiveKind → String
  | .email => "Email"
  | .phoneOrLongId => "PhoneOrLongId"
  | .apiKey => "ApiKey"
  | .privateKey => "PrivateKey"

def findingsToJson (findings : Findings) : Json :=
  .arr (findings.map (fun finding => .obj [("count", .ofNat finding.count), ("kind", .str (kindText finding.kind))]))

/-- `Map::insert`: the keys of an object are sorted. -/
def insertField (key : String) (value : Json) : List (String × Json) → List (String × Json)
  | [] => [(key, value)]
  | field::fields =>
    if field.1 = key then (key, value)::fields
    else if key < field.1 then (key, value)::field::fields
    else field::insertField key value fields

/-- `ContextMeta::set_custom_field`, whose values can always be serialized here: what is no object is reset. -/
def setCustomField (metadata : ContextMeta) (key : String) (value : Json) : ContextMeta :=
  match metadata.custom with
  | .obj fields => { metadata with custom := .obj (insertField key value fields) }
  | _ => { metadata with custom := .obj [(key, value)] }

def setSecurityRedactions (entry : ContextEntry) (value : Json) : Except ContextError ContextEntry :=
  .ok { entry with metadata := setCustomField entry.metadata "security_redactions" value }

def scanSensitiveEntry (entry : ContextEntry) : Findings := ((scanPayload entry.payload).run []).2

def redactSensitiveEntry (entry : ContextEntry) : Except ContextError (ContextEntry × Findings) :=
  let (payload, findings) := (redactPayload entry.payload).run []
  let redacted := { entry with payload := payload }
  if findings.isEmpty then .ok (redacted, findings) else do
    let redacted ← setSecurityRedactions redacted (findingsToJson findings)
    return (redacted, findings)

def sanitizeEntryForWrite (entry : ContextEntry) : Except ContextError ContextEntry :=
  (redactSensitiveEntry entry).map Prod.fst

end WriteSecurity

end UwuContextDb
