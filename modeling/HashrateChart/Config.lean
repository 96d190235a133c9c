/-
The configuration of the chart, section by section, with the defaults that
stand where a document says nothing.

`Config.ofDocument` reads a whole configuration: a document that is null or
empty gives the defaults, a bare text under `device` is an address. `toJson`
gives a configuration back as a document with every field.
-/
import HashrateChart.Channel
import HashrateChart.Config.Check

namespace HashrateChart

open Check

/-! ## Samples -/

/-- The range of plausible raw samples. -/
structure SanitizeConfig where
  tempMin : Binary64 := 0.1
  tempMax : Binary64 := 130
  hashrateMin : Binary64 := 1
  deriving DecidableEq

def SanitizeConfig.check : Json → Checked SanitizeConfig :=
  object fun o => SanitizeConfig.mk
    <$> field o "temp_min_c" 0.1 real
    <*> field o "temp_max_c" 130 real
    <*> field o "hashrate_min_hs" 1 real

def SanitizeConfig.toJson (c : SanitizeConfig) : Json :=
  .object [("temp_min_c", .real c.tempMin), ("temp_max_c", .real c.tempMax),
    ("hashrate_min_hs", .real c.hashrateMin)]

/-- How long each channel waits after a restart, and how a restart shows. -/
structure WarmupConfig where
  tempMin : Binary64 := 10
  tempMax : Binary64 := 130
  vregDelay : Int := 1337
  asicDelay : Int := 750
  hashrateDelay : Int := 250
  restartStreak : Int := 1
  deriving DecidableEq

def WarmupConfig.check : Json → Checked WarmupConfig :=
  object fun o => WarmupConfig.mk
    <$> field o "temp_min_valid_c" 10 real
    <*> field o "temp_max_valid_c" 130 real
    <*> field o "vreg_delay_ms" 1337 integer
    <*> field o "asic_delay_ms" 750 integer
    <*> field o "hash1m_delay_ms" 250 integer
    <*> field o "restart_detect_streak" 1 integer

def WarmupConfig.toJson (c : WarmupConfig) : Json :=
  .object [("temp_min_valid_c", .real c.tempMin), ("temp_max_valid_c", .real c.tempMax),
    ("vreg_delay_ms", .int c.vregDelay), ("asic_delay_ms", .int c.asicDelay),
    ("hash1m_delay_ms", .int c.hashrateDelay), ("restart_detect_streak", .int c.restartStreak)]

/-! ## Outlier filter -/

/-- How the outlier filter decides. -/
structure GuardConfig where
  confirmSamples : Int := 2
  liveTolerance : Binary64 := 0.06
  bigStep : Binary64 := 0.20
  stableSamples : Int := 2
  stableSpread : Binary64 := 0.05
  minValid : Binary64 := 1
  tempCeiling : Binary64 := 120
  deriving DecidableEq

def GuardConfig.check : Json → Checked GuardConfig :=
  object fun o => GuardConfig.mk
    <$> field o "confirm_samples" 2 integer
    <*> field o "live_ref_tolerance" 0.06 real
    <*> field o "big_step_rel" 0.20 real
    <*> field o "live_ref_stable_samples" 2 integer
    <*> field o "live_ref_stable_rel" 0.05 real
    <*> field o "min_valid" 1 real
    <*> field o "temp_ceiling_c" 120 real

def GuardConfig.toJson (c : GuardConfig) : Json :=
  .object [("confirm_samples", .int c.confirmSamples),
    ("live_ref_tolerance", .real c.liveTolerance), ("big_step_rel", .real c.bigStep),
    ("live_ref_stable_samples", .int c.stableSamples),
    ("live_ref_stable_rel", .real c.stableSpread), ("min_valid", .real c.minValid),
    ("temp_ceiling_c", .real c.tempCeiling)]

/-- The relative step of each channel that counts as suspicious. -/
abbrev Thresholds := PerChannel Binary64

def Thresholds.standard : Thresholds := ⟨0.01, 0.02, 0.08, 0.10, 0.35, 0.35⟩

def Thresholds.check : Json → Checked Thresholds :=
  object fun o => PerChannel.mk
    <$> field o "hashrate_1m" 0.01 real
    <*> field o "hashrate_10m" 0.02 real
    <*> field o "hashrate_1h" 0.08 real
    <*> field o "hashrate_1d" 0.10 real
    <*> field o "vreg_temp" 0.35 real
    <*> field o "asic_temp" 0.35 real

def Thresholds.toJson (c : Thresholds) : Json :=
  .object [("hashrate_1m", .real c.hashrate1m), ("hashrate_10m", .real c.hashrate10m),
    ("hashrate_1h", .real c.hashrate1h), ("hashrate_1d", .real c.hashrate1d),
    ("vreg_temp", .real c.vregTemp), ("asic_temp", .real c.asicTemp)]

structure GuardSection where
  cfg : GuardConfig := {}
  thresholds : Thresholds := .standard
  spikeGuard : Bool := true
  deriving DecidableEq

def GuardSection.check : Json → Checked GuardSection :=
  object fun o => GuardSection.mk
    <$> field o "cfg" {} GuardConfig.check
    <*> field o "thresholds" .standard Thresholds.check
    <*> field o "enable_hashrate_spike_guard" true truth

def GuardSection.toJson (c : GuardSection) : Json :=
  .object [("cfg", c.cfg.toJson), ("thresholds", c.thresholds.toJson),
    ("enable_hashrate_spike_guard", .bool c.spikeGuard)]

/-! ## Axes -/

/-- Room above and below the curves of the hashrate axis. -/
structure Padding (α : Type) where
  share : α
  shareTop : Option α
  shareBottom : Option α
  /-- The least room, in TH/s. -/
  least : α
  /-- The least room as a share of the largest value, for flat curves. -/
  flatShare : α
  /-- The most room as a share of the largest value. -/
  mostShare : α
  deriving DecidableEq

def Padding.standard : Padding Binary64 := ⟨0.06, some 0.05, some 0.07, 0.03, 0.005, 0.25⟩

def Padding.check : Json → Checked (Padding Binary64) :=
  object fun o => Padding.mk
    <$> field o "pad_pct" 0.06 real
    <*> field o "pad_pct_top" (some 0.05) (optional real)
    <*> field o "pad_pct_bottom" (some 0.07) (optional real)
    <*> field o "min_pad_ths" 0.03 real
    <*> field o "flat_pad_pct_of_max" 0.005 real
    <*> field o "max_pad_pct_of_max" 0.25 real

/-- A number that may be missing. -/
def Json.ofReal? : Option Binary64 → Json
  | some x => .real x
  | none => .null

/-- An integer that may be missing. -/
def Json.ofInt? : Option Int → Json
  | some i => .int i
  | none => .null

def Padding.toJson (c : Padding Binary64) : Json :=
  .object [("pad_pct", .real c.share), ("pad_pct_top", .ofReal? c.shareTop),
    ("pad_pct_bottom", .ofReal? c.shareBottom), ("min_pad_ths", .real c.least),
    ("flat_pad_pct_of_max", .real c.flatShare), ("max_pad_pct_of_max", .real c.mostShare)]

/-- The range into which a tick count is brought. -/
structure TickClamp where
  min : Int := 2
  max : Int := 30
  deriving DecidableEq

def TickClamp.check : Json → Checked TickClamp :=
  object fun o => TickClamp.mk <$> field o "min" 2 integer <*> field o "max" 30 integer

def TickClamp.toJson (c : TickClamp) : Json := .object [("min", .int c.min), ("max", .int c.max)]

/-- The hashrate axis. -/
structure AxisConfig where
  maxTicks : Int := 5
  tickClamp : TickClamp := {}
  /-- The least step between ticks, in TH/s. -/
  minStep : Binary64 := 0.005
  /-- How far other curves may push the axis out, as a share of its range. -/
  softInclude : Binary64 := 0.05
  deriving DecidableEq

def AxisConfig.check : Json → Checked AxisConfig :=
  object fun o => AxisConfig.mk
    <$> field o "hashrate_max_ticks" 5 integer
    <*> field o "hashrate_tick_count_clamp" {} TickClamp.check
    <*> field o "hashrate_min_step_ths" 0.005 real
    <*> field o "hashrate_soft_include_rel" 0.05 real

def AxisConfig.toJson (c : AxisConfig) : Json :=
  .object [("hashrate_max_ticks", .int c.maxTicks),
    ("hashrate_tick_count_clamp", c.tickClamp.toJson),
    ("hashrate_min_step_ths", .real c.minStep),
    ("hashrate_soft_include_rel", .real c.softInclude)]

/-- The temperature axis. -/
structure TempScaleConfig where
  hysteresis : Binary64 := 1
  padBelow : Binary64 := 1
  padAbove : Binary64 := 2
  deriving DecidableEq

def TempScaleConfig.check : Json → Checked TempScaleConfig :=
  object fun o => TempScaleConfig.mk
    <$> field o "hysteresis_c" 1 real
    <*> field o "axis_min_pad_c" 1 real
    <*> field o "axis_max_pad_c" 2 real

def TempScaleConfig.toJson (c : TempScaleConfig) : Json :=
  .object [("hysteresis_c", .real c.hysteresis), ("axis_min_pad_c", .real c.padBelow),
    ("axis_max_pad_c", .real c.padAbove)]

/-- The padding section, which holds that of the hashrate axis. -/
def checkAxisPadding : Json → Checked (Padding Binary64) :=
  object fun o => field o "hashrate" .standard Padding.check

/-! ## Curve -/

/-- How the 1m curve is smoothed. -/
structure SmoothingConfig (α : Type) where
  enabled : Bool
  fastInterval : Int
  mediumInterval : Int
  tensionFast : α
  tensionMedium : α
  tensionSlow : α
  mode : String
  medianPoints : Int
  zoomBoost : α
  windowMin : Int
  windowMax : Int
  windowPerStep : Int
  minPoints : Int
  maxPoints : Int
  snapLast : Bool
  deriving DecidableEq

namespace SmoothingConfig

def standard : SmoothingConfig Binary64 where
  enabled := true
  fastInterval := 6000
  mediumInterval := 12000
  tensionFast := 0.45
  tensionMedium := 0.18
  tensionSlow := 0.12
  mode := "monotone"
  medianPoints := 60
  zoomBoost := 0.08
  windowMin := 0
  windowMax := 180000
  windowPerStep := 20000
  minPoints := 2
  maxPoints := 120
  snapLast := true

/-- The interpolation modes that a curve has. -/
def checkMode (j : Json) : Checked String :=
  match text j with
  | .ok s => if s = "monotone" ∨ s = "default" then .ok s else .problem .valueError
  | r => r

def check : Json → Checked (SmoothingConfig Binary64) :=
  object fun o => SmoothingConfig.mk
    <$> field o "enabled" true truth
    <*> field o "fast_interval_ms" 6000 integer
    <*> field o "medium_interval_ms" 12000 integer
    <*> field o "tension_fast" 0.45 real
    <*> field o "tension_medium" 0.18 real
    <*> field o "tension_slow" 0.12 real
    <*> field o "cubic_interpolation_mode" "monotone" checkMode
    <*> field o "median_window_points" 60 integer
    <*> field o "zoom_boost_per_step" 0.08 real
    <*> field o "ema_window_ms_min" 0 integer
    <*> field o "ema_window_ms_max" 180000 integer
    <*> field o "ema_window_ms_per_step" 20000 integer
    <*> field o "ema_min_points" 2 integer
    <*> field o "ema_max_points" 120 integer
    <*> field o "snap_last_point" true truth

def toJson (c : SmoothingConfig Binary64) : Json :=
  .object [("enabled", .bool c.enabled), ("fast_interval_ms", .int c.fastInterval),
    ("medium_interval_ms", .int c.mediumInterval), ("tension_fast", .real c.tensionFast),
    ("tension_medium", .real c.tensionMedium), ("tension_slow", .real c.tensionSlow),
    ("cubic_interpolation_mode", .text c.mode), ("median_window_points", .int c.medianPoints),
    ("zoom_boost_per_step", .real c.zoomBoost), ("ema_window_ms_min", .int c.windowMin),
    ("ema_window_ms_max", .int c.windowMax), ("ema_window_ms_per_step", .int c.windowPerStep),
    ("ema_min_points", .int c.minPoints), ("ema_max_points", .int c.maxPoints),
    ("snap_last_point", .bool c.snapLast)]

end SmoothingConfig

/-- The range of the visible window and the step between zoom levels, in milliseconds. -/
structure ZoomConfig where
  minWindow : Int := 3600000
  maxWindow : Int := 10800000
  step : Int := 900000
  deriving DecidableEq

def ZoomConfig.check : Json → Checked ZoomConfig :=
  object fun o => ZoomConfig.mk
    <$> field o "min_window_ms" 3600000 integer
    <*> field o "max_window_ms" 10800000 integer
    <*> field o "zoom_step_ms" 900000 integer

def ZoomConfig.toJson (c : ZoomConfig) : Json :=
  .object [("min_window_ms", .int c.minWindow), ("max_window_ms", .int c.maxWindow),
    ("zoom_step_ms", .int c.step)]

/-! ## History and startup -/

/-- How device history is fetched in chunks. -/
structure DrainConfig where
  throttle : Int := 500
  throttled : Bool := true
  suppressed : Bool := false
  chunkSize : Int := 0
  deriving DecidableEq

def DrainConfig.check : Json → Checked DrainConfig :=
  object fun o => DrainConfig.mk
    <$> field o "render_throttle_ms" 500 integer
    <*> field o "use_throttled_render" true truth
    <*> field o "suppress_chart_updates_during_drain" false truth
    <*> field o "chunk_size" 0 integer

def DrainConfig.toJson (c : DrainConfig) : Json :=
  .object [("render_throttle_ms", .int c.throttle), ("use_throttled_render", .bool c.throttled),
    ("suppress_chart_updates_during_drain", .bool c.suppressed), ("chunk_size", .int c.chunkSize)]

/-- How the curves start again after a restart. -/
structure StartupConfig where
  bypassSamples : Int := 0
  unlockRatio : Binary64 := 0.98
  smoothWindow : Int := 15000
  confirmStartup : Int := 5
  confirmNormal : Int := 3
  reloadAfterSmooth : Bool := false
  reloadCooldown : Int := 600000
  deriving DecidableEq

def StartupConfig.check : Json → Checked StartupConfig :=
  object fun o => StartupConfig.mk
    <$> field o "bypass_guard_samples" 0 integer
    <*> field o "expected_unlock_ratio" 0.98 real
    <*> field o "hr1m_smooth_window_ms" 15000 integer
    <*> field o "hr1m_confirm_startup" 5 integer
    <*> field o "hr1m_confirm_normal" 3 integer
    <*> field o "hr1m_reload_after_smooth" false truth
    <*> field o "hr1m_reload_cooldown_ms" 600000 integer

def StartupConfig.toJson (c : StartupConfig) : Json :=
  .object [("bypass_guard_samples", .int c.bypassSamples),
    ("expected_unlock_ratio", .real c.unlockRatio),
    ("hr1m_smooth_window_ms", .int c.smoothWindow),
    ("hr1m_confirm_startup", .int c.confirmStartup),
    ("hr1m_confirm_normal", .int c.confirmNormal),
    ("hr1m_reload_after_smooth", .bool c.reloadAfterSmooth),
    ("hr1m_reload_cooldown_ms", .int c.reloadCooldown)]

/-! ## Storage -/

/-- Under which keys the chart's values are stored. -/
structure StorageKeys where
  chartData : String := "chartData_exp"
  lastTimestamp : String := "lastTimestamp_exp"
  legend : String := "chartLegendVisibility_exp"
  viewMode : String := "tempViewMode_exp"
  minTimestamp : String := "minHistoryTimestampMs_exp"
  deriving DecidableEq

/-- All keys. -/
def StorageKeys.all (k : StorageKeys) : List String :=
  [k.chartData, k.lastTimestamp, k.legend, k.viewMode, k.minTimestamp]

def StorageKeys.check : Json → Checked StorageKeys :=
  object fun o => StorageKeys.mk
    <$> field o "chart_data" "chartData_exp" text
    <*> field o "last_timestamp" "lastTimestamp_exp" text
    <*> field o "legend_visibility" "chartLegendVisibility_exp" text
    <*> field o "view_mode" "tempViewMode_exp" text
    <*> field o "min_history_timestamp_ms" "minHistoryTimestampMs_exp" text

def StorageKeys.toJson (c : StorageKeys) : Json :=
  .object [("chart_data", .text c.chartData), ("last_timestamp", .text c.lastTimestamp),
    ("legend_visibility", .text c.legend), ("view_mode", .text c.viewMode),
    ("min_history_timestamp_ms", .text c.minTimestamp)]

structure StorageConfig where
  keys : StorageKeys := {}
  maxPoints : Int := 20000
  databasePath : String := "./data/chart_state.db"
  deriving DecidableEq

def StorageConfig.check : Json → Checked StorageConfig :=
  object fun o => StorageConfig.mk
    <$> field o "keys" {} StorageKeys.check
    <*> field o "max_persisted_points" 20000 integer
    <*> field o "database_path" "./data/chart_state.db" text

def StorageConfig.toJson (c : StorageConfig) : Json :=
  .object [("keys", c.keys.toJson), ("max_persisted_points", .int c.maxPoints),
    ("database_path", .text c.databasePath)]

/-! ## Appearance and device -/

/-- What the chart shows unless preferences are stored. -/
structure UiDefaults where
  viewMode : String := "bars"
  /-- Whether each curve is hidden. -/
  legendHidden : List Bool := [false, true, true, true, false, false]
  deriving DecidableEq

def UiDefaults.check : Json → Checked UiDefaults :=
  object fun o => UiDefaults.mk
    <$> field o "view_mode" "bars" text
    <*> field o "legend_hidden" [false, true, true, true, false, false] (listOf truth)

def UiDefaults.toJson (c : UiDefaults) : Json :=
  .object [("view_mode", .text c.viewMode), ("legend_hidden", .list (c.legendHidden.map .bool))]

structure DeviceConfig where
  name : String
  ip : String
  timeout : Int
  deriving DecidableEq

def DeviceConfig.check : Json → Checked DeviceConfig :=
  object fun o => DeviceConfig.mk
    <$> field o "name" "bitaxe" text
    <*> required o "ip" text
    <*> field o "timeout" 10 integer

def DeviceConfig.toJson (c : DeviceConfig) : Json :=
  .object [("name", .text c.name), ("ip", .text c.ip), ("timeout", .int c.timeout)]

/-- The picture that a frame is drawn into. -/
structure RenderConfig where
  enabled : Bool := true
  outputPath : String := "./data/chart.png"
  dpi : Int := 120
  style : String := "dark_background"
  size : List Number := [.int 12, .int 6]
  deriving DecidableEq

def RenderConfig.check : Json → Checked RenderConfig :=
  object fun o => RenderConfig.mk
    <$> field o "enabled" true truth
    <*> field o "output_path" "./data/chart.png" text
    <*> field o "dpi" 120 integer
    <*> field o "style" "dark_background" text
    <*> field o "figsize" [.int 12, .int 6] (listOf fun j => Number.real <$> real j)

def RenderConfig.toJson (c : RenderConfig) : Json :=
  .object [("enabled", .bool c.enabled), ("output_path", .text c.outputPath), ("dpi", .int c.dpi),
    ("style", .text c.style), ("figsize", .list (c.size.map .number))]

/-! ## The whole -/

structure Config where
  sanitize : SanitizeConfig := {}
  warmup : WarmupConfig := {}
  guard : GuardSection := {}
  padding : Padding Binary64 := .standard
  axis : AxisConfig := {}
  tempScale : TempScaleConfig := {}
  smoothing : SmoothingConfig Binary64 := .standard
  zoom : ZoomConfig := {}
  drain : DrainConfig := {}
  startup : StartupConfig := {}
  storage : StorageConfig := {}
  ui : UiDefaults := {}
  render : RenderConfig := {}
  device : Option DeviceConfig := none
  pollInterval : Binary64 := 5
  deriving DecidableEq

namespace Config

def check (o : List (String × Json)) : Checked Config :=
  Config.mk
    <$> field o "sanitize" {} SanitizeConfig.check
    <*> field o "warmup" {} WarmupConfig.check
    <*> field o "graph_guard" {} GuardSection.check
    <*> field o "axis_padding" .standard checkAxisPadding
    <*> field o "y_axis" {} AxisConfig.check
    <*> field o "temp_scale" {} TempScaleConfig.check
    <*> field o "smoothing" .standard SmoothingConfig.check
    <*> field o "zoom" {} ZoomConfig.check
    <*> field o "history_drain" {} DrainConfig.check
    <*> field o "startup" {} StartupConfig.check
    <*> field o "storage" {} StorageConfig.check
    <*> field o "ui_defaults" {} UiDefaults.check
    <*> field o "render" {} RenderConfig.check
    <*> field o "device" none (optional DeviceConfig.check)
    <*> field o "poll_interval" 5 real

def toJson (c : Config) : Json :=
  .object [("sanitize", c.sanitize.toJson), ("warmup", c.warmup.toJson),
    ("graph_guard", c.guard.toJson),
    ("axis_padding", .object [("hashrate", c.padding.toJson)]), ("y_axis", c.axis.toJson),
    ("temp_scale", c.tempScale.toJson), ("smoothing", c.smoothing.toJson),
    ("zoom", c.zoom.toJson), ("history_drain", c.drain.toJson), ("startup", c.startup.toJson),
    ("storage", c.storage.toJson), ("ui_defaults", c.ui.toJson), ("render", c.render.toJson),
    ("device", (c.device.map DeviceConfig.toJson).getD .null),
    ("poll_interval", .real c.pollInterval)]

/-- A key and its value from a list of two, an object's two keys, or a text of two places. -/
def pair? : Json → Result (Json × Json)
  | .list [k, v] => .ok (k, v)
  | .object [(k, _), (v, _)] => .ok (.text k, .text v)
  | .text s =>
    match Text.places s with
    | [k, v] => .ok (.text k, .text v)
    | _ => .error .badPair
  | .list _ | .object _ => .error .badPair
  | _ => .error .wrongType

/-- The pairs of a list, none of whose keys is a list or an object. -/
def checkPairs (js : List Json) : Result (List (Json × Json)) :=
  js.mapM fun j => do
    match ← pair? j with
    | (.list _, _) | (.object _, _) => throw .wrongType
    | p => return p

/-- The keys and values of a document that is an object, a list of pairs, or nothing. -/
def documentPairs (j : Json) : Result (List (Json × Json)) :=
  if !j.truthy then .ok []
  else
    match j with
    | .object fields => .ok (fields.map fun (k, v) => (.text k, v))
    | .list js => checkPairs js
    | .text _ => .error .badPair
    | _ => .error .wrongType

/-- The fields of pairs whose keys are all texts; a later one replaces the value of an earlier
one. -/
def fieldsOfPairs (pairs : List (Json × Json)) : Result (List (String × Json)) :=
  pairs.foldlM (fun fields (k, v) =>
    match k with
    | .text k => .ok (Fields.insert k v fields)
    | _ => .error .wrongType) []

/-- A bare text under `device` is the device's address. -/
def expandDevice (fields : List (String × Json)) : List (String × Json) :=
  match Fields.lookup "device" fields with
  | some (.text ip) => Fields.insert "device" (.object [("ip", .text ip)]) fields
  | _ => fields

/-- The configuration that a document holds. -/
def ofDocument (j : Json) : Result Config := do
  (check (expandDevice (← fieldsOfPairs (← documentPairs j)))).toResult

end Config

end HashrateChart
