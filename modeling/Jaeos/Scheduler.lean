import Jaeos.Nucleus

/-!
# The scheduler (`phase2/scheduler.c`)

A call of `getNewJob` is modelled with the verdict it ends in. `LDST`, `HALT`,
`PANIC` and `WAIT` do not come back, so what follows them in the source is not
reached.
-/

namespace Jaeos

variable {n : ℕ}

/-- `processJob`. The clock is read into `startTOD` as the handler leaves. -/
def processJob (newJob : Fin n) : NucM n Verdict := do
  modifyGlobals fun g => { g with currentProcess := some newJob }
  modifyClock fun c => { c with startTOD := c.todOut }
  modifyClock fun c => if c.timeLeft < 0 then { c with timeLeft := 0 } else c
  let c := (← globals).clock
  if c.timeLeft < quantum then
    setTIMER c.timeLeft c.todOut
    modifyClock fun c => { c with intTimerFlag := true }
  else
    setTIMER quantum c.todOut
  return .ldst

/-- `getNewJob` -/
def getNewJob : NucM n Verdict := do
  match ← store .removeReady with
  | none =>
    modifyGlobals fun g => { g with currentProcess := none }
    let g ← globals
    if g.processCount = 0 then
      return .halt
    else if g.processCount > 0 then
      if g.softBlockCount = 0 then
        return .panic
      else if g.softBlockCount > 0 then
        setTIMER g.clock.timeLeft g.clock.todIn
        modifyClock fun c => { c with intTimerFlag := true }
        return .wait
      else
        return .returns
    else
      return .returns
  | some newJob => processJob newJob

end Jaeos
