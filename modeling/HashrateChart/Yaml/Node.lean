/-
From tokens to the nodes of a document.

A node may be missing: before a colon, after one, after a dash and after the
start of a document. What is missing is an empty plain text. Lists and mappings
stand inside one another only so deep; what starts deeper is not read further.
-/
import HashrateChart.Yaml.Token

namespace HashrateChart

namespace Yaml

inductive Node where
  | plain (text : String)
  | quoted (text : String)
  | list (items : List Node)
  | mapping (pairs : List (Node × Node))

namespace Node

/-- Takes something off the front of the tokens. -/
abbrev Reader (α : Type) := List Token → Reading (α × List Token)

def empty : Node := plain ""

/-- Where a node stands: inside brackets, or outside of them, where after a key a list may start
in the same column. -/
inductive Place where
  | flow
  | block
  | beside
  deriving DecidableEq

/-- How many lists and mappings stand inside one another at most. -/
def deepest : Nat := 490

/-- How many lists and mappings may still start inside one that starts. -/
def within : Nat → Reading Nat
  | 0 => .error (.fault .tooDeep)
  | room + 1 => .ok room

/-- Reads a node, unless one of the tokens follows before which it is missing. -/
def orEmpty (ends : List Token) (read : Reader Node) : Reader Node := fun ts =>
  if ts.head?.any ends.contains then .ok (empty, ts) else read ts

/-- Reads a key after its token, and its value. -/
def pair (ends : List Token) (read : Reader Node) : Reader (Node × Node) := fun ts => do
  let (k, ts) ← orEmpty (.value :: ends) read ts
  match ts with
  | .value :: ts =>
    let (v, ts) ← orEmpty (.value :: ends) read ts
    return ((k, v), ts)
  | ts => return ((k, empty), ts)

/-- Passes the comma in front of every part but the first. -/
def passComma (first : Bool) : List Token → Reading (List Token)
  | .comma :: ts => if first then .error .unreadable else .ok ts
  | ts => if first then .ok ts else .error .unreadable

mutual

/-- Reads a node. -/
def read : Nat → Nat → Place → Reader Node
  | 0, _, _, _ => .error .unreadable
  | fuel + 1, room, place, ts =>
    match ts with
    | .plain s :: ts => .ok (plain s, ts)
    | .quoted s :: ts => .ok (quoted s, ts)
    | .openList :: ts => do
      let (xs, ts) ← flowItems fuel (← within room) true ts
      return (list xs, ts)
    | .openMapping :: ts => do
      let (ps, ts) ← flowPairs fuel (← within room) true ts
      return (mapping ps, ts)
    | .listStart :: ts =>
      if place = .flow then .error .unreadable
      else do
        let (xs, ts) ← blockItems fuel (← within room) ts
        return (list xs, ts)
    | .mappingStart :: ts =>
      if place = .flow then .error .unreadable
      else do
        let (ps, ts) ← blockPairs fuel (← within room) ts
        return (mapping ps, ts)
    | .dash :: _ =>
      if place = .beside then do
        let (xs, ts) ← besideItems fuel (← within room) ts
        return (list xs, ts)
      else .error .unreadable
    | _ => .error .unreadable

/-- Reads the items of a list in brackets; an item may be a key with its value. -/
def flowItems : Nat → Nat → Bool → Reader (List Node)
  | 0, _, _, _ => .error .unreadable
  | _, _, _, .closeList :: ts => .ok ([], ts)
  | fuel + 1, room, first, ts => do
    match ← passComma first ts with
    | .closeList :: ts => return ([], ts)
    | .key :: ts =>
      let (p, ts) ← pair [.comma, .closeList] (read fuel (← within room) .flow) ts
      let (xs, ts) ← flowItems fuel room false ts
      return (mapping [p] :: xs, ts)
    | ts =>
      let (x, ts) ← read fuel room .flow ts
      let (xs, ts) ← flowItems fuel room false ts
      return (x :: xs, ts)

/-- Reads the pairs of a mapping in brackets; a key may be without a value. -/
def flowPairs : Nat → Nat → Bool → Reader (List (Node × Node))
  | 0, _, _, _ => .error .unreadable
  | _, _, _, .closeMapping :: ts => .ok ([], ts)
  | fuel + 1, room, first, ts => do
    match ← passComma first ts with
    | .closeMapping :: ts => return ([], ts)
    | .key :: ts =>
      let (p, ts) ← pair [.comma, .closeMapping] (read fuel room .flow) ts
      let (ps, ts) ← flowPairs fuel room false ts
      return (p :: ps, ts)
    | ts =>
      let (k, ts) ← read fuel room .flow ts
      let (ps, ts) ← flowPairs fuel room false ts
      return ((k, empty) :: ps, ts)

/-- Reads the items of a list with a column of its own. -/
def blockItems : Nat → Nat → Reader (List Node)
  | 0, _, _ => .error .unreadable
  | fuel + 1, room, ts =>
    match ts with
    | .blockEnd :: ts => .ok ([], ts)
    | .dash :: ts => do
      let (x, ts) ← orEmpty [.dash, .blockEnd] (read fuel room .block) ts
      let (xs, ts) ← blockItems fuel room ts
      return (x :: xs, ts)
    | _ => .error .unreadable

/-- Reads the items of a list in the column of its key. -/
def besideItems : Nat → Nat → Reader (List Node)
  | 0, _, _ => .error .unreadable
  | fuel + 1, room, ts =>
    match ts with
    | .dash :: ts => do
      let (x, ts) ← orEmpty [.dash, .key, .value, .blockEnd] (read fuel room .block) ts
      let (xs, ts) ← besideItems fuel room ts
      return (x :: xs, ts)
    | ts => .ok ([], ts)

/-- Reads the pairs of a mapping with a column of its own. -/
def blockPairs : Nat → Nat → Reader (List (Node × Node))
  | 0, _, _ => .error .unreadable
  | fuel + 1, room, ts =>
    match ts with
    | .blockEnd :: ts => .ok ([], ts)
    | .key :: ts => do
      let (p, ts) ← pair [.key, .blockEnd] (read fuel room .beside) ts
      let (ps, ts) ← blockPairs fuel room ts
      return (p :: ps, ts)
    | _ => .error .unreadable

end

/-- The node of the only document; an empty text has none, which is empty as well. -/
def ofTokens (ts : List Token) : Reading Node := do
  let fuel := 2 * ts.length + 2
  let (n, rest) ← match ts with
    | [] => .ok (empty, [])
    | .documentStart :: [] => .ok (empty, [])
    | .documentStart :: ts =>
      orEmpty [.documentStart, .documentEnd] (read fuel deepest .block) ts
    | ts => read fuel deepest .block ts
  if rest.all (· = .documentEnd) then return n else throw .unreadable

end Node

end Yaml

end HashrateChart
