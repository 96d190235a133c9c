/-
A store as one text, and a text as a store: an object with a text under each
key. What is no such object holds nothing.
-/
import HashrateChart.Json.Printer
import HashrateChart.Json.Reader
import HashrateChart.Storage.Store

namespace HashrateChart

namespace Store

/-- The text that holds all items of a store. -/
def print (s : Store) : String :=
  Json.print (.object (s.items.map fun (k, text) => (k, .text text)))

/-- The items of an object that are texts. -/
def texts : List (String × Json) → Fields String
  | [] => []
  | (k, .text text) :: rest => (k, text) :: texts rest
  | _ :: rest => texts rest

/-- The store that a text holds. -/
def ofText (text : String) : Store :=
  match Json.parse? text with
  | some (.object fields) => .ofItems (texts fields)
  | _ => .ofItems []

end Store

end HashrateChart
