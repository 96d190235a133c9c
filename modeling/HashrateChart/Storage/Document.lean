/-
Stored curves as a document, and a document as curves.

Reading is lenient: what is no list of numbers becomes gaps, every list is
brought to the length of the labels, samples without a finite label are left
out, and only the newest are kept. The document carries a version; one of
another version holds nothing.
-/
import HashrateChart.Json.Printer
import HashrateChart.Json.Reader
import HashrateChart.Series

namespace HashrateChart

/-- The value that a stored text stands for; a text that stands for none is dropped. -/
def storedValue (text : String) : Result (Option Json) :=
  match Json.parse text with
  | .ok j => .ok (some j)
  | .error .malformed => .ok none
  | .error .tooDeep => .error .tooDeep

namespace StoredSeries

/-- The items that stand where the labels are finite. -/
def keepFinite {β : Type} (labels : List Binary64) (items : List β) : List β :=
  ((labels.zip items).filter fun (t, _) => t.isFinite).map (·.2)

/-- The last items, at most a number of them. -/
def newest {β : Type} (most : Int) (items : List β) : List β :=
  items.drop (items.length - most.toNat)

/-- Lists of one length: the newest samples that have a finite label. -/
def normalize (labels : List Binary64) (data : PerChannel (List Binary64)) (most : Int) :
    StoredSeries :=
  let row (items : List Binary64) : List Binary64 := newest most (keepFinite labels items)
  ⟨row labels, data.map fun values => row (Series.fitLength labels.length values)⟩

/-- The numbers of a list; what is no list has none. -/
def numbers : Json → Result (List Binary64)
  | .list items => items.mapM Json.reading
  | _ => .ok []

/-- The curves that a document holds, with how many samples are kept at most. -/
def ofDocument (j : Json) (most : Result Int) : Result StoredSeries := do
  if !j.isObject then throw .noSuchOperation
  let labels ← numbers (j.get "labels")
  let data ← PerChannel.ofFnM fun c => numbers (j.get (fieldName c))
  return normalize labels data (← most)

/-- The version of the documents that are written and read. -/
def version : Int := 2

/-- A value with null for what has no digits. -/
def finiteOrNull (x : Binary64) : Json := if x.isFinite then .real x else .null

/-- The curves as a document. -/
def body (s : StoredSeries) : Json :=
  .object (("schema", .int 1) :: ("labels", .list (s.labels.map .real)) ::
    Channel.all.map fun c => (fieldName c, .list ((s.data.get c).map finiteOrNull)))

/-- The text that is stored at a time. -/
def print (s : StoredSeries) (now : Int) : String :=
  Json.print (.object [("v", .int version), ("ts", .int now), ("state", s.body)])

/-- Whether a document is of the version that is read. -/
def isCurrent (j : Json) : Bool :=
  match j.get "v" with
  | .number n => n.eq (.int version)
  | _ => false

/-- The curves of a document inside a stored text, when there is one of the right version. -/
def state (text : String) : Result (Option Json) := do
  match ← storedValue text with
  | some j =>
    match j.get "state" with
    | .object fields => return if isCurrent j then some (.object fields) else none
    | _ => return none
  | none => return none

end StoredSeries

end HashrateChart
