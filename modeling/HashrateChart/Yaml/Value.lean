/-
What the nodes of a document stand for.

A key may be of any kind but a list or a mapping. Mappings are not merged, so
the key that would ask for it is not read.
-/
import HashrateChart.Yaml.Meaning
import HashrateChart.Yaml.Node

namespace HashrateChart

namespace Yaml

inductive Value where
  | scalar (value : Json)
  | list (items : List Value)
  | mapping (pairs : List (Value × Value))

namespace Value

/-- Whether a value can be a key. -/
def isScalar : Value → Bool
  | scalar _ => true
  | _ => false

def isText (s : String) : Value → Bool
  | scalar (.text t) => t = s
  | _ => false

/-- Whether a value counts as true. -/
def truthy : Value → Bool
  | scalar j => j.truthy
  | list xs => !xs.isEmpty
  | mapping ps => !ps.isEmpty

mutual

/-- The same value as a document whose mappings have texts as keys; other keys are left out. -/
def toJson : Value → Json
  | scalar j => j
  | list xs => .list (items xs)
  | mapping ps => .object (fields ps [])

def items : List Value → List Json
  | [] => []
  | x :: xs => x.toJson :: items xs

/-- The fields with what comes before them; a key that comes again replaces the value. -/
def fields : List (Value × Value) → List (String × Json) → List (String × Json)
  | [], before => before
  | (k, v) :: ps, before =>
    match k with
    | scalar (.text s) => fields ps (Fields.insert s v.toJson before)
    | _ => fields ps before

end

mutual

/-- The value of a node. -/
def ofNode : Node → Reading Value
  | .plain s => if s = "=" ∨ s = "<<" then .error .unreadable else scalar <$> meaning s
  | .quoted s => .ok (scalar (.text s))
  | .list xs => list <$> ofNodes xs
  | .mapping ps => mapping <$> ofPairs ps

def ofNodes : List Node → Reading (List Value)
  | [] => .ok []
  | n :: ns => do return (← ofNode n) :: (← ofNodes ns)

def ofPairs : List (Node × Node) → Reading (List (Value × Value))
  | [] => .ok []
  | (k, v) :: ps => do
    let k ← match k with
      | .plain "=" => .ok (scalar (.text "="))
      | k => ofNode k
    if !k.isScalar then throw .unreadable
    let v ← ofNode v
    return (k, v) :: (← ofPairs ps)

end

end Value

/-- Line ends of all systems as line feeds. -/
def withLineFeeds : List Char → List Char
  | '\r' :: '\n' :: cs => '\n' :: withLineFeeds cs
  | '\r' :: cs => '\n' :: withLineFeeds cs
  | c :: cs => c :: withLineFeeds cs
  | [] => []

/-- The value of a document's text; an empty one is null. -/
def read (text : String) : Reading Value := do
  let cs := withLineFeeds (← orUnreadable (Text.characters? text))
  if !cs.all isPrintable then throw .unreadable
  Value.ofNode (← Node.ofTokens (← tokens cs))

end Yaml

end HashrateChart
