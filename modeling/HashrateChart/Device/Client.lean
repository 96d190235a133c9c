/-
Asking a device over HTTP: what is asked for, and what a reply means.

A reply that is no system information counts as a bad one, whatever is wrong
with it; only a number that is out of range is a fault of its own.
-/
import HashrateChart.Device.Info

namespace HashrateChart

namespace Client

/-- A request: an address and its parameters. -/
structure Request where
  url : String
  parameters : List (String × String)
  deriving DecidableEq

/-- What comes back. -/
inductive Reply where
  | unreachable
  | timedOut
  | received (status : Int) (body : Json)

/-- A parameter with the whole part of a value. -/
def parameter (name : String) (j : Json) : Result (List (String × String)) := do
  return [(name, Decimal.intText (← j.toInt))]

/-- The parameters for history since a time, in chunks, over a span. A missing time is left out,
and so is a chunk or a span of zero. -/
def parameters (start chunk span : Json) : Result (List (String × String)) := do
  let since ← if start.isNull then pure [] else parameter "ts" start
  let size ← if chunk.truthy then parameter "chunk" chunk else pure []
  let length ← if span.truthy then parameter "span" span else pure []
  return since ++ size ++ length

/-- The request to a device, which needs an open session. -/
def request (isOpen : Bool) (ip : String) (start chunk span : Json) : Result Request := do
  if !isOpen then throw .sessionClosed
  return ⟨"http://" ++ ip ++ "/api/system/info", ← parameters start chunk span⟩

/-- The system information of a document. -/
def infoOf (body : Json) : Result SystemInfo :=
  match body with
  | .object fields =>
    match SystemInfo.checkFields fields with
    | .ok info => .ok info
    | .invalid _ => .error .badResponse
    | .failed e => .error e
  | _ => .error .badResponse

/-- What a reply says. -/
def receive : Reply → Result SystemInfo
  | .unreachable => .error .connection
  | .timedOut => .error .timeout
  | .received status body => if 400 ≤ status then .error .connection else infoOf body

/-- Whether a failed question says that the device is not well; other faults stay faults. -/
def isDeviceFault : Fault → Bool
  | .connection | .timeout | .badResponse => true
  | _ => false

/-- Whether the device answers. -/
def isHealthy (answer : Result SystemInfo) : Result Bool :=
  match answer with
  | .ok _ => .ok true
  | .error e => if isDeviceFault e then .ok false else .error e

end Client

end HashrateChart
