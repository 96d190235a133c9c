/-
A batch of the device's own history: times relative to a base, and for each
channel a list of scaled values.

A batch is read leniently. An entry that is no number is a gap, a list that is
none is empty, and a base that is none is zero.
-/
import HashrateChart.Channel
import HashrateChart.Config.Check

namespace HashrateChart

structure HistoryBatch where
  base : Int
  times : List Binary64
  values : PerChannel (List Binary64)
  deriving DecidableEq

namespace HistoryBatch

/-- A value, or what stands for it when it is no number. -/
def lenient {α : Type} (fallback : α) : Result α → Result α
  | .error .badNumeral | .error .wrongType | .error .undefinedNumber => .ok fallback
  | r => r

/-- The entries of a list. -/
def entries : Json → Result (List Binary64)
  | .list xs => xs.mapM fun x => lenient .nan x.toReal
  | _ => .ok []

/-- The batch that a document holds. -/
def check : Json → Checked HistoryBatch :=
  Check.object fun o =>
    let series (key : String) : Checked (List Binary64) :=
      match Fields.lookup key o with
      | some j => .ofResult (entries j)
      | none => .ok []
    let base : Checked Int :=
      match Fields.lookup "timestampBase" o with
      | some j => .ofResult (lenient 0 j.toInt)
      | none => .ok 0
    (fun base times d1m d10m d1h d1d vreg asic => ⟨base, times, d1m, d10m, d1h, d1d, vreg, asic⟩)
      <$> base <*> series "timestamps"
      <*> series (Channel.key .hashrate1m) <*> series (Channel.key .hashrate10m)
      <*> series (Channel.key .hashrate1h) <*> series (Channel.key .hashrate1d)
      <*> series (Channel.key .vregTemp) <*> series (Channel.key .asicTemp)

/-- All lists of a batch, the times first. -/
def lists (b : HistoryBatch) : List (List Binary64) := b.times :: b.values.toList

/-- How many samples all lists reach. -/
def rowCount (b : HistoryBatch) : Nat :=
  b.values.toList.foldl (fun n xs => min n xs.length) b.times.length

end HistoryBatch

end HashrateChart
