import Edgewit.Protocol
import Edgewit.Indexer

/-!
# The ingest routes

`ingest_doc_handler` and `bulk_handler`: the events they send to the WAL worker, and
the answers they make of what comes back on the oneshot channels.
-/

namespace Edgewit

/-- What a handler reads from its oneshot channel. -/
inductive Received where
  | answer (a : Answer)
  | dropped

/-- An answer, or an error status with its text. -/
abbrev Response := Except (Nat × String) (Nat × Json)

def Response.status : Response → Nat
  | .ok (status, _) => status
  | .error (status, _) => status

def walChannelClosed : Nat × String := (500, "WAL channel closed")

/-! ## One document -/

def ingestDocEvent (index body : String) : IngestEvent := ⟨index, utf8 body⟩

/-- The answer of `ingest_doc_handler`; `none` is a WAL channel that is closed. -/
def ingestDocResponse (index : String) : Option Received → Response
  | none => .error walChannelClosed
  | some (.answer (.ok ())) =>
    .ok (201, .object
      [("_index", .string index),
        ("_shards", .object [("failed", .number (.posInt 0)), ("successful", .number (.posInt 1)),
          ("total", .number (.posInt 1))]),
        ("result", .string "created")])
  | some (.answer (.error e)) => .error (500, e)
  | some .dropped => .error (500, "WAL responder dropped")

/-! ## Lines -/

/-- A line feed ends a line, together with a carriage return before it. -/
def stripCr (line : List Char) : List Char :=
  if line.getLast? = some '\r' then line.dropLast else line

def linesFrom (line : List Char) : List Char → List (List Char)
  | [] => if line = [] then [] else [line]
  | c :: rest =>
    if c = '\n' then stripCr line :: linesFrom [] rest else linesFrom (line ++ [c]) rest

/-- `str::lines`. -/
def lines (body : String) : List (List Char) := linesFrom [] body.toList

/-- `char::is_whitespace`: the property White_Space of Unicode. -/
def isWhitespace (c : Char) : Bool :=
  let n := c.toNat
  (9 ≤ n && n ≤ 13) || n = 0x20 || n = 0x85 || n = 0xA0 || n = 0x1680 ||
    (0x2000 ≤ n && n ≤ 0x200A) || n = 0x2028 || n = 0x2029 || n = 0x202F || n = 0x205F || n = 0x3000

/-! ## Bulk requests -/

/-- The index an action line names. -/
def bulkIndex (x : Externals) (metaLine : List Char) : String :=
  let parsed : Json :=
    match x.fromSlice (utf8 (String.ofList metaLine)) with
    | .ok parsed => parsed
    | .error _ => .null
  (((parsed.get "index").bind (Json.get "_index")).bind Json.asStr).getD "default"

/-- The action lines with the line after each. -/
def bulkEventsOf (x : Externals) : List (List Char) → List IngestEvent
  | metaLine :: docLine :: rest =>
    ⟨bulkIndex x metaLine, utf8 (String.ofList docLine)⟩ :: bulkEventsOf x rest
  | _ => []

/-- The events `bulk_handler` sends, in order. -/
def bulkEvents (x : Externals) (body : String) : List IngestEvent :=
  bulkEventsOf x ((lines body).filter fun line => !line.all isWhitespace)

def bulkStatus : Received → Nat
  | .answer (.ok ()) => 201
  | _ => 500

def bulkItem (index : String) (r : Received) : Json :=
  .object [("index", .object
    [("_index", .string index), ("status", .number (.posInt (UInt64.ofNat (bulkStatus r))))])]

/-- The answer of `bulk_handler`; `none` is a WAL channel that closed before the last
event was sent. -/
def bulkResponse (events : List IngestEvent) : Option (List Received) → Response
  | none => .error walChannelClosed
  | some received =>
    .ok (200, .object
      [("errors", .bool (received.any fun r => bulkStatus r ≠ 201)),
        ("items", .array (List.zipWith (fun event r => bulkItem event.index r) events received)),
        ("took", .number (.posInt 1))])

/-! ## A document and its status -/

/-- A document sent on its own, or one of a bulk body. -/
inductive DocRequest where
  | ingestDoc (index body : String)
  | bulk (body : String) (item : Nat)

namespace DocRequest

def event? (x : Externals) : DocRequest → Option IngestEvent
  | ingestDoc index body => some (ingestDocEvent index body)
  | bulk body item => (bulkEvents x body)[item]?

/-- The status the client reads for the document. -/
def status (r : Received) : DocRequest → Nat
  | ingestDoc index _ => (ingestDocResponse index (some r)).status
  | bulk _ _ => bulkStatus r

/-- The client is told that the document was created exactly when the worker answered Ok. -/
theorem status_created_iff (req : DocRequest) (r : Received) :
    req.status r = 201 ↔ r = .answer (.ok ()) := by
  cases req <;> rcases r with (e | ⟨⟩) | _ <;>
    simp [status, ingestDocResponse, Response.status, bulkStatus]

end DocRequest

namespace Wal

/-- What the responder of a request has got so far. -/
def received (w : Wal) (req : WalRequest) : Option Received :=
  let batches := w.past ++ [w.cur]
  match (batches.flatMap BatchRecord.answers).lookup req with
  | some a => some (.answer a)
  | none => if req ∈ batches.flatMap BatchRecord.dropped then some .dropped else none

end Wal
end Edgewit
