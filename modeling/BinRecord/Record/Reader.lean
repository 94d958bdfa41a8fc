/-
Reading records from data, by index or one after the other. A reader keeps the schemas that it has
compiled; they are looked up by schema text and root name, so options can change at any time.
-/
import BinRecord.Compression.Expand
import BinRecord.Record.Basic

namespace BinRecord

/-! ## Schemas -/

/-- The schemas compiled so far, by schema text and root name. -/
abbrev SchemaCache := List ((String × Option String) × Schema)

variable [Codecs]

/-- Compiles a schema, or finds it among those compiled before. An error carries the text. -/
def SchemaCache.compile (cache : SchemaCache) (text : String) (root : Option String) :
    Except SchemaFailure Schema × SchemaCache :=
  match cache.lookup (text, root) with
  | some schema => (.ok schema, cache)
  | none =>
    match Schema.compile text root with
    | .ok schema => (.ok schema, ((text, root), schema) :: cache)
    | .error e => (.error (e.map fun e => { e with schemaText := some text }), cache)

/-! ## One record -/

namespace ReaderOptions

/-- The part of the data that is looked at. -/
def visible (o : ReaderOptions) (data : Bytes) : Bytes := data.slice 0 o.maxBytes

/-- The header that starts at an offset, and how many bytes it takes. -/
def headerAt (o : ReaderOptions) (data : Bytes) (offset : Nat) :
    Except ReadFailure (Header × Nat) :=
  match Header.detect o.layouts data offset with
  | .ok result => .ok result
  | .error e => .error (e.map .header)

/-- The schema text of a record, given or carried by its header. -/
def schemaTextOf (o : ReaderOptions) (header : Header) (offset : Nat) :
    Except ReadFailure String :=
  match o.schemaText.or header.schemaText? with
  | some text => .ok text
  | none => .error (.error (.header ⟨.noSchema, offset⟩))

/-- Decodes a payload that is not compressed. -/
def plainValue (o : ReaderOptions) (data : Bytes) (header : Header) (schema : Schema)
    (offset : Nat) : Except ReadFailure Value :=
  let size := if o.ignoreDataSize then none else some (header.dataSize : Int)
  match schema.decode data offset size with
  | .ok v => .ok v
  | .error e => .error (e.map .ofPayload)

/-- Expands and decodes a compressed payload. Offsets of faults in what it expands to count from the
start of that. -/
def expandedValue (o : ReaderOptions) (data : Bytes) (header : Header) (schema : Schema)
    (method : CompressionMethod) (offset : Nat) : Except ReadFailure Value :=
  let available := data.length - offset
  if !o.ignoreDataSize && available < header.dataSize then
    .error (.error (.header ⟨.missingBytes header.dataSize available, data.length⟩))
  else
    let rest := data.drop offset
    let raw : Bytes := if o.ignoreDataSize then rest else rest.take header.dataSize
    match method.expand raw with
    | .error fault => .error (.error (.decode ⟨.corrupt method raw.length fault, offset⟩))
    | .ok body =>
      match schema.decode body 0 none with
      | .ok v => .ok v
      | .error e => .error (e.map .ofPayload)

/-- Decodes the payload that starts at an offset. -/
def valueOf (o : ReaderOptions) (data : Bytes) (header : Header) (schema : Schema)
    (offset : Nat) : Except ReadFailure Value :=
  match header.compression? with
  | none => o.plainValue data header schema offset
  | some method => o.expandedValue data header schema method offset

/-- The record whose header and schema are known. -/
def recordOf (o : ReaderOptions) (data : Bytes) (header : Header) (schema : Schema)
    (text : String) (offset payloadOffset : Nat) : Except ReadFailure Record := do
  let value ←
    if o.readBody then (o.valueOf data header schema payloadOffset).map some else .ok none
  .ok ⟨header, schema, text, value, offset, payloadOffset⟩

/-- Reads the record that starts at an offset. -/
def recordAt (o : ReaderOptions) (cache : SchemaCache) (data : Bytes) (offset : Nat) :
    Except ReadFailure Record × SchemaCache :=
  match o.headerAt data offset with
  | .error e => (.error e, cache)
  | .ok (header, size) =>
    match o.schemaTextOf header offset with
    | .error e => (.error e, cache)
    | .ok text =>
      match cache.compile text o.root with
      | (.error e, cache) => (.error (e.map .schema), cache)
      | (.ok schema, cache) =>
        (o.recordOf data header schema text offset (offset + size), cache)

/-! ## Many records -/

/-- The offset of the record `left` records after the one at `offset`, which has index `i`; only
headers are read on the way. -/
def offsetFrom (o : ReaderOptions) (data : Bytes) (wanted i offset : Nat) :
    Nat → Except ReadFailure Nat
  | 0 => .ok offset
  | left + 1 => do
    let (header, size) ← o.headerAt data offset
    let next := offset + (size + header.dataSize)
    if data.length < next then
      .error (.error (.header ⟨.recordPastEnd i wanted, data.length⟩))
    else offsetFrom o data wanted (i + 1) next left

/-- The offset of the record with an index. -/
def offsetOf (o : ReaderOptions) (data : Bytes) : Int → Except ReadFailure Nat
  | .negSucc n => .error (.escaped (.negativeIndex (.negSucc n)))
  | .ofNat n => o.offsetFrom data n 0 0 n

/-- Whether a failure means that no layout recognizes a header. -/
def isUnrecognized : ReadFailure → Bool
  | .error (.header e) => e.fault.kind = .notRecognized
  | _ => false

/-- Reads records from an offset up to the end of the data; `done` holds those before, the latest
first. Bytes after the first record that hold no header end the data. Every header takes at least
one byte, so `fuel` bounds the number of records. -/
def recordsFrom (o : ReaderOptions) (data : Bytes) :
    Nat → SchemaCache → List Record → Nat → (List Record × Option ReadFailure) × SchemaCache
  | 0, cache, done, _ => ((done.reverse, none), cache)
  | fuel + 1, cache, done, offset =>
    if data.length ≤ offset then ((done.reverse, none), cache)
    else
      match o.recordAt cache data offset with
      | (.ok r, cache) => recordsFrom o data fuel cache (r :: done) r.stop
      | (.error e, cache) =>
        if offset ≠ 0 && isUnrecognized e then ((done.reverse, none), cache)
        else ((done.reverse, some e), cache)

end ReaderOptions

/-! ## Readers -/

/-- A reader of the records in some data. -/
structure Reader where
  data : Bytes
  options : ReaderOptions := {}
  schemas : SchemaCache := []

namespace Reader

/-- The part of the data that is looked at. -/
def visible (r : Reader) : Bytes := r.options.visible r.data

/-- Reads the record with an index. -/
def read (r : Reader) (index : Int) : Except ReadFailure Record × Reader :=
  match r.options.offsetOf r.visible index with
  | .error e => (.error e, r)
  | .ok offset =>
    let (result, schemas) := r.options.recordAt r.schemas r.visible offset
    (result, { r with schemas })

/-- Reads only the header of the record with an index; no schema is needed. -/
def readHeader (r : Reader) (index : Int) : Except ReadFailure Header := do
  let offset ← r.options.offsetOf r.visible index
  let (header, _) ← r.options.headerAt r.visible offset
  .ok header

/-- Reads all records, up to the first failure. -/
def records (r : Reader) : (List Record × Option ReadFailure) × Reader :=
  let data := r.visible
  let (result, schemas) := r.options.recordsFrom data (data.length + 1) r.schemas [] 0
  (result, { r with schemas })

/-- Reads on with other options. -/
def setOptions (r : Reader) (options : ReaderOptions) : Reader := { r with options }

end Reader

end BinRecord
