/-
A conversation with a device in lines of text.

A question is a line with the address that is asked; what the monitor shows has
lines of its own. The answer to a question is one line: a document, or an empty
line when the device did not answer.
-/
import HashrateChart.Device.Client
import HashrateChart.Json.Reader
import HashrateChart.Monitor.State

namespace HashrateChart

namespace Conversation

/-- An address with its parameters. -/
def address (r : Client.Request) : String :=
  match r.parameters with
  | [] => r.url
  | ps => r.url ++ "?" ++ String.intercalate "&" (ps.map fun (k, v) => k ++ "=" ++ v)

/-- A question to a device. -/
def question (ip : String) (r : Monitor.Request) : String :=
  match Client.request true ip (.ofInt? r.start) (.int r.chunk) (.int r.span) with
  | .ok asked => "GET " ++ address asked
  | .error _ => ""

/-- A panel, one line for each row. -/
def panelLines (p : Panel) : List String := p.rows.map fun (label, text) => label ++ " " ++ text

/-- What is written when the monitor does something. -/
def lines (ip : String) : Monitor.Event → List String
  | .connect ip _ => ["Monitoring " ++ ip]
  | .info r | .history r => [question ip r]
  | .save samples _ => ["Samples drawn: " ++ Decimal.groupedText samples]
  | .panelUpdate p => panelLines p
  | .panelStart | .panelStop | .sleep _ => []

/-- The reply that a line is. -/
def reply (line : String) : Client.Reply :=
  if line.toList.all Json.Reader.isBlank then .unreachable
  else .received 200 ((Json.parse? line).getD .null)

/-- What a line says about the device, if there is a line. -/
def answer (line : Option String) : Result SystemInfo :=
  match line with
  | some line => Client.receive (reply line)
  | none => .error .connection

/-- The history that a line brings. -/
def history (line : Option String) : Monitor.Answer := (answer line).map (·.history)

/-- A number of seconds in whole milliseconds; what is no such number is none at all. -/
def milliseconds (seconds : Binary64) : Nat :=
  match (seconds * 1000).truncate with
  | .ok n => n.toNat
  | .error _ => 0

/-- The folder of a path, if it names one. -/
def folder? (path : String) : Option String :=
  match (path.splitOn "/").dropLast with
  | [] => none
  | parts => some (String.intercalate "/" parts)

end Conversation

end HashrateChart
