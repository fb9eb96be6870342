/-!
# Schedulers

A tick scheduler queues tasks. A tick takes what is queued and runs it in order; what the tasks
schedule meanwhile goes to the queue and waits for the next tick. An immediate scheduler runs a task
at once, and what it schedules inside it.
-/

namespace StyleEngine

variable {σ τ α : Type}

/-- Takes the queue, which leaves it empty, and runs what was in it in order. Says how much there
was. -/
def drain (queue : σ → List τ) (clear : σ → σ) (run : σ → τ → σ) (s : σ) : Nat × σ :=
  ((queue s).length, (queue s).foldl run (clear s))

/-- A task that writes its label to a log and then schedules more tasks. -/
inductive Job (α : Type) where
  | mk (label : α) (next : List (Job α))

namespace Job

def label : Job α → α
  | mk label _ => label

def next : Job α → List (Job α)
  | mk _ next => next

mutual

/-- The labels of a job and of everything it leads to, in the order of an immediate run. -/
def labels : Job α → List α
  | mk label next => label :: labelsAll next

def labelsAll : List (Job α) → List α
  | [] => []
  | j :: rest => labels j ++ labelsAll rest

end

end Job

/-- A tick scheduler with the log of its jobs. -/
structure Agenda (α : Type) where
  queue : List (Job α) := []
  log : List α := []

namespace Agenda

/-- The number of jobs that wait. -/
def pending (a : Agenda α) : Nat := a.queue.length

def schedule (a : Agenda α) (j : Job α) : Agenda α := { a with queue := a.queue ++ [j] }

/-- Runs a job without queueing it. -/
def runNow (a : Agenda α) (j : Job α) : Agenda α := { a with log := a.log ++ j.labels }

/-- A queued job runs: it writes its label and schedules what it leads to, one after the other. -/
def runJob (a : Agenda α) (j : Job α) : Agenda α :=
  j.next.foldl schedule { a with log := a.log ++ [j.label] }

/-- Runs the queued jobs and says how many there were. -/
def tick (a : Agenda α) : Nat × Agenda α := drain queue (fun a => { a with queue := [] }) runJob a

def describe (a : Agenda α) : String :=
  "TickScheduler \x7b pending: " ++ toString a.pending ++ " \x7d"

end Agenda

end StyleEngine
