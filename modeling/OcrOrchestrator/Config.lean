import Mathlib.Data.Rat.Floor

/-!
# Settings

The settings the modelled code reads, with the defaults of the service.  Durations are
exact rationals, in seconds unless the name says otherwise.
-/

namespace OcrOrchestrator

structure Settings where
  pageDeadlineS : ℚ := 300
  degradeAfterS : ℚ := 90
  saturationPauseS : ℚ := 1 / 2
  maxRequeues : ℕ := 50
  /-- Was `max_requeues` supplied by the operator rather than defaulted? -/
  maxRequeuesSet : Bool := false
  stageHandoff : Bool := true
  reaperMinIdleS : ℚ := 30
  resultTtlS : ℕ := 3600
  resultStreamMaxlen : ℕ := 256

namespace Settings

/-- The runaway-loop ceiling: an explicit value as it is, otherwise derived from the
smaller of the two age thresholds and never below the floor. -/
def effectiveMaxRequeues (s : Settings) : ℕ :=
  if s.maxRequeuesSet then s.maxRequeues
  else
    let budgetS := min s.degradeAfterS s.pageDeadlineS
    let perRequeueS := max s.saturationPauseS (1 / 20)
    max s.maxRequeues ((budgetS / perRequeueS).floor.toNat * 2)

/-- `int(reaper_min_idle_s * 1000)`. -/
def reaperMinIdleMs (s : Settings) : ℕ := (s.reaperMinIdleS * 1000).floor.toNat

end Settings
end OcrOrchestrator
