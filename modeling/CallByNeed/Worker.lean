import CallByNeed.Runner

/- Workers: they force the jobs of the pool, the oldest first, and report those of a rally. -/
namespace CallByNeed

inductive Worker where
  | idle
  | force (job : Job) (w : Runner Value)
  /-- The target of the job is forced. -/
  | report (job : Job)

namespace Worker

/-- A worker without a job waits for one. -/
def turn (E : Engine) : Worker → Store → Turn Worker Store
  | .idle, s =>
    match s.pool[0]? with
    | none => .wait s
    | some job =>
      .goOn [.force job (.ready (observe job.target))]
        { s with pool := s.pool.eraseIdxIfInBounds 0 }
  | .force job w, s => w.turn E (.force job) id (fun _ => .goOn [.report job]) s
  | .report job, s =>
    match job.report with
    | some (id, i) => .goOn [.idle] (s.report id i)
    | none => .goOn [.idle] s

theorem store_of_turn_wait {E : Engine} {t : Worker} {s s' : Store} (e : t.turn E s = .wait s') :
    s' = s := by
  cases t with
  | idle =>
    simp only [turn] at e
    split at e <;> simp_all
  | force job w =>
    simp only [turn] at e
    exact Runner.share_of_turn_wait (by simp) e
  | report job =>
    simp only [turn] at e
    split at e <;> simp at e

end Worker
end CallByNeed
