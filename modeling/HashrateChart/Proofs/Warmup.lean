/-
What a live poll can do to the warmup, stage by stage.

Only a restart locks a machine that is ready, and with it a gap becomes
pending; no other poll touches the pending gap.
-/
import HashrateChart.Warmup

namespace HashrateChart

namespace Warmup

variable (m : Warmup) (now : Int)

theorem advance_breakPending : (m.advance now).breakPending = m.breakPending := by
  unfold advance
  dsimp only
  split
  · split
    · split <;> rfl
    · rfl
  · split
    · split <;> rfl
    · rfl
  · split
    · split <;> rfl
    · rfl
  · rfl

theorem walk_breakPending : (m.walk now).breakPending = m.breakPending := by
  rw [walk, advance_breakPending, advance_breakPending, advance_breakPending]

theorem checkRestart_cases (bootLike : Bool) :
    ((m.checkRestart now bootLike).stage = .locked ∧
      (m.checkRestart now bootLike).breakPending = true) ∨
    ((m.checkRestart now bootLike).stage = m.stage ∧
      (m.checkRestart now bootLike).breakPending = m.breakPending) := by
  unfold checkRestart
  dsimp only
  split
  · split
    · exact .inl ⟨rfl, rfl⟩
    · exact .inr ⟨rfl, rfl⟩
  · exact .inr ⟨rfl, rfl⟩

/-- A poll detects a restart and leaves its gap pending, or leaves the pending gap as it was. -/
theorem poll_cases (vreg asic live : Number) (systemOk : Bool) :
    (m.stage = .ready ∧ (m.poll now vreg asic live systemOk).stage ≠ .ready ∧
      (m.poll now vreg asic live systemOk).breakPending = true) ∨
    (¬ (m.stage = .ready ∧ (m.poll now vreg asic live systemOk).stage ≠ .ready) ∧
      (m.poll now vreg asic live systemOk).breakPending = m.breakPending) := by
  by_cases hr : m.stage = .ready
  · rw [poll, if_pos hr]
    rcases m.checkRestart_cases now
        (!isLive live && (isTempCold m.cfg vreg || isTempCold m.cfg asic || !systemOk)) with
      ⟨hs, hb⟩ | ⟨hs, hb⟩
    · exact .inl ⟨hr, by rw [hs]; decide, hb⟩
    · exact .inr ⟨fun hn => hn.2 (hs.trans hr), hb⟩
  · refine .inr ⟨fun hn => hr hn.1, ?_⟩
    rw [poll, if_neg hr]
    exact walk_breakPending _ now

end Warmup

end HashrateChart
