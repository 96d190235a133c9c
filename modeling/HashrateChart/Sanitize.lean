/-
Plausible samples: a reading outside the range of its channel becomes a gap.

A hashrate of zero is what a device reports while it boots, so hashrates have a
least value; temperatures have a range.
-/
import HashrateChart.Config

namespace HashrateChart

namespace Sanitize

def hashrate (cfg : SanitizeConfig) (x : Binary64) : Binary64 :=
  if !x.isFinite || x.lt cfg.hashrateMin then .nan else x

def temperature (cfg : SanitizeConfig) (x : Binary64) : Binary64 :=
  if !x.isFinite || x.lt cfg.tempMin || cfg.tempMax.lt x then .nan else x

/-- The reading of a channel, or a gap. -/
def sample (cfg : SanitizeConfig) (c : Channel) (x : Binary64) : Binary64 :=
  if c.isHashrate then hashrate cfg x else temperature cfg x

/-- The reading that a value holds, or a gap. -/
def sampleOf (cfg : SanitizeConfig) (c : Channel) (j : Json) : Result Binary64 := do
  return sample cfg c (← j.reading)

end Sanitize

end HashrateChart
