import StyleEngine.Scheduler

/-!
# The order of scheduled jobs

A scheduler is used by calls from outside, and jobs that run schedule further jobs. `Happens` takes a tick
apart: it starts by taking the queue, runs what it took, one job after the other, each of which may put jobs
into the queue meanwhile, and finishes.

* At every moment, what was scheduled is what has run, in that order, followed by what the running tick still
  has to run and by what is queued (`Leads.scheduled_eq`).
* A tick runs what was queued at its start and nothing else (`Leads.taken_eq`, `Leads.finish_eq`).
* The scheduler at a moment is what the events up to there make of it (`after`). Calls set off events and do what
  these do (`exists_leads`, `tick_eq_act`, `Leads.run_calls_of_idle`).
* Between calls the jobs that are pending are those that were scheduled less those that have run. What a tick has
  taken is pending no longer, although it has still to run (`Leads.pending_add`, `pending_in_tick`).

The main statement is `jobs_run_once_in_order`.
-/

namespace StyleEngine.Agenda

variable {α : Type}

/-- What is done to a scheduler from outside. -/
inductive Call (α : Type) where
  | schedule (j : Job α)
  | tick

def call (a : Agenda α) : Call α → Agenda α
  | .schedule j => a.schedule j
  | .tick => a.tick.2

/-- The scheduler after calls in order. -/
def run (a : Agenda α) (cs : List (Call α)) : Agenda α := cs.foldl call a

/-! ## What happens, step by step -/

inductive Event (α : Type) where
  /-- A job is scheduled from outside. -/
  | schedule (j : Job α)
  | start
  | run (j : Job α)
  /-- The job that runs schedules another one. -/
  | spawn (j : Job α)
  /-- The tick is over and returns a count. -/
  | finish (count : Nat)

/-- A scheduler between two events. -/
inductive Moment (α : Type) where
  | idle (queue : List (Job α))
  /-- A tick runs, which has still to run what it took, and whose last job has still to schedule some jobs. -/
  | ticking (queue taken spawning : List (Job α)) (count : Nat)

namespace Moment

def queue : Moment α → List (Job α)
  | idle queue => queue
  | ticking queue _ _ _ => queue

def taken : Moment α → List (Job α)
  | idle _ => []
  | ticking _ taken _ _ => taken

def spawning : Moment α → List (Job α)
  | idle _ => []
  | ticking _ _ spawning _ => spawning

end Moment

/-- Calls come while no tick runs. A tick runs a job when the one before has scheduled all of its jobs. -/
inductive Happens : Moment α → Event α → Moment α → Prop
  | schedule (q : List (Job α)) (j : Job α) : Happens (.idle q) (.schedule j) (.idle (q ++ [j]))
  | start (q : List (Job α)) : Happens (.idle q) .start (.ticking [] q [] q.length)
  | run (q : List (Job α)) (j : Job α) (rest : List (Job α)) (n : Nat) :
      Happens (.ticking q (j :: rest) [] n) (.run j) (.ticking q rest j.next n)
  | spawn (q taken : List (Job α)) (j : Job α) (rest : List (Job α)) (n : Nat) :
      Happens (.ticking q taken (j :: rest) n) (.spawn j) (.ticking (q ++ [j]) taken rest n)
  | finish (q : List (Job α)) (n : Nat) : Happens (.ticking q [] [] n) (.finish n) (.idle q)

/-- Events in order lead from one moment to another. -/
inductive Leads : Moment α → List (Event α) → Moment α → Prop
  | nil (m : Moment α) : Leads m [] m
  | cons {m m' m'' : Moment α} {e : Event α} {es : List (Event α)} (he : Happens m e m') (hes : Leads m' es m'') :
      Leads m (e :: es) m''

namespace Event

/-- What an event schedules, from outside or from a job. -/
def scheduled : Event α → List (Job α)
  | schedule j => [j]
  | spawn j => [j]
  | _ => []

def ran : Event α → List (Job α)
  | run j => [j]
  | _ => []

def calls : Event α → List (Call α)
  | schedule j => [.schedule j]
  | start => [.tick]
  | _ => []

/-- What an event does to the scheduler. -/
def act (a : Agenda α) : Event α → Agenda α
  | schedule j => a.schedule j
  | start => { a with queue := [] }
  | run j => { a with log := a.log ++ [j.label] }
  | spawn j => a.schedule j
  | finish _ => a

end Event

def scheduled (es : List (Event α)) : List (Job α) := es.flatMap Event.scheduled
def ran (es : List (Event α)) : List (Job α) := es.flatMap Event.ran
def calls (es : List (Event α)) : List (Call α) := es.flatMap Event.calls

/-- The scheduler after events. A job that runs sees it as it is then. -/
def after (es : List (Event α)) : Agenda α := es.foldl Event.act {}

/-- What was scheduled and has not run. -/
def waiting (es : List (Event α)) : List (Job α) := (scheduled es).drop (ran es).length

theorem scheduled_cons (e : Event α) (es : List (Event α)) : scheduled (e :: es) = e.scheduled ++ scheduled es :=
  List.flatMap_cons

theorem ran_cons (e : Event α) (es : List (Event α)) : ran (e :: es) = e.ran ++ ran es := List.flatMap_cons

theorem calls_cons (e : Event α) (es : List (Event α)) : calls (e :: es) = e.calls ++ calls es := List.flatMap_cons

theorem calls_append (es fs : List (Event α)) : calls (es ++ fs) = calls es ++ calls fs := List.flatMap_append

section Leads

variable {m m' m'' : Moment α} {e : Event α} {es fs before during : List (Event α)} {q : List (Job α)} {n : Nat}

theorem Leads.append (h : Leads m es m') (h' : Leads m' fs m'') : Leads m (es ++ fs) m'' := by
  induction h with
  | nil => exact h'
  | cons he _ ih => exact .cons he (ih h')

theorem Leads.split (h : Leads m (es ++ fs) m'') : ∃ m', Leads m es m' ∧ Leads m' fs m'' := by
  induction es generalizing m with
  | nil => exact ⟨m, .nil m, h⟩
  | cons e es ih =>
    obtain ⟨⟩ | ⟨he, hes⟩ := h
    obtain ⟨m', hleft, hright⟩ := ih hes
    exact ⟨m', .cons he hleft, hright⟩

/-! ## First scheduled, first run -/

/-- An event takes from the front of what waits, and adds at its end. -/
theorem Happens.waits (h : Happens m e m') :
    m.taken ++ m.queue ++ e.scheduled = e.ran ++ (m'.taken ++ m'.queue) := by
  cases h with
  | schedule q j => rfl
  | start q => rfl
  | run q j rest n => exact List.append_nil _
  | spawn q taken j rest n => exact List.append_assoc ..
  | finish q n => exact List.append_nil q

theorem Leads.waits (h : Leads m es m') :
    m.taken ++ m.queue ++ scheduled es = ran es ++ (m'.taken ++ m'.queue) := by
  induction h with
  | nil m => exact List.append_nil _
  | @cons m m₁ m' e es he _ ih =>
    calc m.taken ++ m.queue ++ scheduled (e :: es)
        = m.taken ++ m.queue ++ e.scheduled ++ scheduled es := by rw [scheduled_cons, ← List.append_assoc]
      _ = e.ran ++ (m₁.taken ++ m₁.queue ++ scheduled es) := by rw [he.waits, List.append_assoc]
      _ = ran (e :: es) ++ (m'.taken ++ m'.queue) := by rw [ih, ran_cons, List.append_assoc]

/-- Jobs run in the order in which they were scheduled, none twice and none lost. -/
theorem Leads.scheduled_eq (h : Leads (.idle []) es m) : scheduled es = ran es ++ (m.taken ++ m.queue) := h.waits

theorem Happens.act_eq (h : Happens m e m') (log : List α) :
    e.act { queue := m.queue, log } = { queue := m'.queue, log := log ++ e.ran.map Job.label } := by
  cases h <;> simp [Event.act, Event.ran, Moment.queue, Agenda.schedule]

theorem Leads.foldl_act (h : Leads m es m') (log : List α) :
    es.foldl Event.act { queue := m.queue, log } =
      { queue := m'.queue, log := log ++ (ran es).map Job.label } := by
  induction h generalizing log with
  | nil m => simp [ran]
  | cons he _ ih => rw [List.foldl_cons, he.act_eq, ih, ran_cons, List.map_append, List.append_assoc]

theorem Leads.after_eq (h : Leads (.idle []) es m) :
    after es = { queue := m.queue, log := (ran es).map Job.label } := h.foldl_act []

/-- What is pending was scheduled, has not run, and was not taken by the tick that runs. -/
theorem Leads.pending_add (h : Leads (.idle []) es m) :
    (after es).pending + m.taken.length + (ran es).length = (scheduled es).length := by
  have hpending : (after es).pending = m.queue.length := congrArg pending h.after_eq
  rw [h.scheduled_eq, hpending, List.length_append, List.length_append]
  omega

theorem Leads.waiting_eq (h : Leads (.idle []) es m) : waiting es = m.taken ++ m.queue := by
  rw [waiting, h.scheduled_eq, List.drop_left]

/-! ## A tick runs what was queued -/

/-- While a tick runs, it runs what it took, and what is scheduled goes to the queue. -/
theorem Leads.stays_ticking {taken spawning : List (Job α)} (h : Leads (.ticking q taken spawning n) es m)
    (hes : ∀ k, .finish k ∉ es) :
    ∃ taken' spawning', m = .ticking (q ++ scheduled es) taken' spawning' n ∧ taken = ran es ++ taken' := by
  induction es generalizing q taken spawning with
  | nil =>
    obtain ⟨⟩ | _ := h
    exact ⟨taken, spawning, congrArg (Moment.ticking · taken spawning n) (List.append_nil q).symm, rfl⟩
  | cons e es ih =>
    have hrest : ∀ k, .finish k ∉ es := fun k hk => hes k (List.mem_cons_of_mem _ hk)
    obtain _ | ⟨he, htail⟩ := h
    cases he with
    | run q j rest n =>
      obtain ⟨taken', spawning', rfl, rfl⟩ := ih htail hrest
      exact ⟨taken', spawning', rfl, rfl⟩
    | spawn q taken j rest n =>
      obtain ⟨taken', spawning', rfl, rfl⟩ := ih htail hrest
      exact ⟨taken', spawning', by rw [scheduled_cons, ← List.append_assoc]; rfl, rfl⟩
    | finish q n => exact absurd List.mem_cons_self (hes n)

theorem Leads.during_of_start (h : Leads (.idle []) (before ++ .start :: during) m)
    (hduring : ∀ k, .finish k ∉ during) :
    ∃ taken spawning, m = .ticking (scheduled during) taken spawning (waiting before).length ∧
      waiting before = ran during ++ taken := by
  obtain ⟨m₀, hbefore, hrest⟩ := h.split
  have hwaiting := hbefore.waiting_eq
  obtain _ | ⟨⟨q⟩, htick⟩ := hrest
  rw [hwaiting]
  exact htick.stays_ticking hduring

/-- In the middle of a tick, what was queued at its start has run or is still to run. What was scheduled since
is queued. -/
theorem Leads.taken_eq (h : Leads (.idle []) (before ++ .start :: during) m) (hduring : ∀ k, .finish k ∉ during) :
    waiting before = ran during ++ m.taken ∧ scheduled during = m.queue := by
  obtain ⟨taken, spawning, rfl, hwaiting⟩ := h.during_of_start hduring
  exact ⟨hwaiting, rfl⟩

/-- A tick has run what was queued at its start, and returns how much that was. -/
theorem Leads.finish_eq (h : Leads (.idle []) (before ++ .start :: during ++ [.finish n]) m)
    (hduring : ∀ k, .finish k ∉ during) : ran during = waiting before ∧ n = (waiting before).length := by
  obtain ⟨m₁, htick, hfinish⟩ := h.split
  obtain ⟨taken, spawning, rfl, hwaiting⟩ := htick.during_of_start hduring
  obtain _ | ⟨⟨q, n⟩, _⟩ := hfinish
  exact ⟨(hwaiting.trans (List.append_nil _)).symm, rfl⟩

end Leads

/-! ## Calls and their events -/

theorem foldl_schedule (js : List (Job α)) (a : Agenda α) :
    js.foldl schedule a = { a with queue := a.queue ++ js } := by
  induction js generalizing a with
  | nil => rw [List.append_nil]; rfl
  | cons j rest ih => rw [List.foldl_cons, ih, schedule, List.append_assoc]; rfl

theorem foldl_runJob (js : List (Job α)) (a : Agenda α) :
    js.foldl runJob a = { queue := a.queue ++ js.flatMap Job.next, log := a.log ++ js.map Job.label } := by
  induction js generalizing a with
  | nil => simp
  | cons j rest ih => rw [List.foldl_cons, ih, runJob, foldl_schedule]; simp

theorem tick_eq (a : Agenda α) :
    a.tick = (a.pending, { queue := a.queue.flatMap Job.next, log := a.log ++ a.queue.map Job.label }) := by
  rw [tick, drain, foldl_runJob]
  rfl

/-- The scheduler as soon as no tick runs, when the jobs in `log` have run already. -/
def Moment.settled (m : Moment α) (log : List α) : Agenda α :=
  { queue := m.queue ++ m.spawning ++ m.taken.flatMap Job.next, log := log ++ m.taken.map Job.label }

theorem Moment.settled_idle (q : List (Job α)) (log : List α) : (idle q).settled log = { queue := q, log } := by
  simp [settled, queue, spawning, taken]

/-- A call takes its whole effect at its first event; the other events of a tick carry it out. -/
theorem Happens.run_calls {m m' : Moment α} {e : Event α} (h : Happens m e m') (log : List α) :
    (m.settled log).run e.calls = m'.settled (log ++ e.ran.map Job.label) := by
  cases h with
  | schedule q j => simp [Agenda.run, call, Event.calls, Event.ran, Moment.settled_idle, Agenda.schedule]
  | start q =>
    rw [Moment.settled_idle]
    show (tick _).2 = _
    rw [tick_eq]
    simp [Event.ran, Moment.settled, Moment.queue, Moment.spawning, Moment.taken]
  | run q j rest n | spawn q taken j rest n | finish q n =>
    simp [Agenda.run, Event.calls, Event.ran, Moment.settled, Moment.queue, Moment.spawning, Moment.taken]

theorem Leads.run_calls {m m' : Moment α} {es : List (Event α)} (h : Leads m es m') (log : List α) :
    (m.settled log).run (calls es) = m'.settled (log ++ (ran es).map Job.label) := by
  induction h generalizing log with
  | nil m => exact congrArg m.settled (List.append_nil log).symm
  | @cons m m₁ m' e es he _ ih =>
    calc (m.settled log).run (calls (e :: es))
        = ((m.settled log).run e.calls).run (calls es) := by rw [calls_cons, run, List.foldl_append]; rfl
      _ = m'.settled (log ++ e.ran.map Job.label ++ (ran es).map Job.label) := by rw [he.run_calls, ih]
      _ = m'.settled (log ++ (ran (e :: es)).map Job.label) := by rw [ran_cons, List.map_append, List.append_assoc]

/-- Calls come to what the events come to that they set off. -/
theorem Leads.run_calls_of_idle {es : List (Event α)} {q : List (Job α)} (h : Leads (.idle []) es (.idle q)) :
    run {} (calls es) = { queue := q, log := (ran es).map Job.label } := by
  have hrun := h.run_calls []
  rwa [Moment.settled_idle, Moment.settled_idle, List.nil_append] at hrun

theorem leads_spawn (q taken js : List (Job α)) (n : Nat) :
    Leads (.ticking q taken js n) (js.map .spawn) (.ticking (q ++ js) taken [] n) := by
  induction js generalizing q with
  | nil =>
    rw [List.append_nil]
    exact .nil _
  | cons j rest ih =>
    have hrest := ih (q ++ [j])
    rw [← List.append_cons] at hrest
    exact .cons (.spawn q taken j rest n) hrest

/-- The events of jobs that run one after the other. -/
def deeds (js : List (Job α)) : List (Event α) := js.flatMap fun j => .run j :: j.next.map .spawn

theorem leads_deeds (q js rest : List (Job α)) (n : Nat) :
    Leads (.ticking q (js ++ rest) [] n) (deeds js) (.ticking (q ++ js.flatMap Job.next) rest [] n) := by
  induction js generalizing q with
  | nil =>
    rw [List.flatMap_nil, List.append_nil]
    exact .nil _
  | cons j later ih =>
    rw [deeds, List.flatMap_cons, List.flatMap_cons, ← List.append_assoc]
    exact .cons (.run q j (later ++ rest) n) ((leads_spawn q (later ++ rest) j.next n).append (ih (q ++ j.next)))

/-- The events of a tick on a queue. -/
def course (q : List (Job α)) : List (Event α) := .start :: deeds q ++ [.finish q.length]

theorem leads_course (q : List (Job α)) : Leads (.idle q) (course q) (.idle (q.flatMap Job.next)) := by
  have htaken := leads_deeds [] q [] q.length
  rw [List.append_nil] at htaken
  exact .cons (.start q) (htaken.append (.cons (.finish _ _) (.nil _)))

/-- A job does what its events do. -/
theorem foldl_act_deeds (js : List (Job α)) (a : Agenda α) : (deeds js).foldl Event.act a = js.foldl runJob a := by
  induction js generalizing a with
  | nil => rfl
  | cons j rest ih =>
    have hspawn : (j.next.map Event.spawn).foldl Event.act { a with log := a.log ++ [j.label] } = a.runJob j := by
      rw [List.foldl_map]
      rfl
    rw [deeds, List.flatMap_cons, List.foldl_append, List.foldl_cons, List.foldl_cons, ← ih, ← hspawn]
    rfl

/-- A tick does what its events do, so it passes through their moments. -/
theorem tick_eq_act (a : Agenda α) : a.tick.2 = (course a.queue).foldl Event.act a := by
  rw [course, List.cons_append, List.foldl_cons, List.foldl_append, foldl_act_deeds]
  rfl

theorem calls_course (q : List (Job α)) : calls (course q) = [.tick] := by
  have hspawn : ∀ js : List (Job α), calls (js.map .spawn) = [] := fun js => by
    simp [calls, List.flatMap_map, Event.calls]
  have hrun : calls (deeds q) = [] := by
    induction q with
    | nil => rfl
    | cons j rest ih =>
      rw [deeds, List.flatMap_cons, calls_append, calls_cons, hspawn]
      exact ih
  rw [course, List.cons_append, calls_cons, calls_append, hrun]
  rfl

/-- Calls set off events that come to an end. -/
theorem exists_leads (cs : List (Call α)) (a : Agenda α) :
    ∃ es, Leads (.idle a.queue) es (.idle (run a cs).queue) ∧ calls es = cs := by
  induction cs generalizing a with
  | nil => exact ⟨[], .nil _, rfl⟩
  | cons c cs ih =>
    obtain ⟨es, hes, hcalls⟩ := ih (a.call c)
    cases c with
    | schedule j => exact ⟨.schedule j :: es, .cons (.schedule a.queue j) hes, congrArg (Call.schedule j :: ·) hcalls⟩
    | tick =>
      have hqueue : (a.call .tick).queue = a.queue.flatMap Job.next := by rw [call, tick_eq]
      rw [hqueue] at hes
      refine ⟨course a.queue ++ es, (leads_course a.queue).append hes, ?_⟩
      rw [calls_append, calls_course, hcalls]
      rfl

/-- All calls set off events, a tick does what its events do, and between calls the log holds what ran and the
queue what has still to run. At every moment jobs have run in the order in which they were scheduled, none twice and
none lost, and what is pending is what was scheduled less what has run and less what the running tick has taken and
not run yet. A tick runs what was queued at its start, but nothing that is scheduled meanwhile, and returns how much
was queued. -/
theorem jobs_run_once_in_order :
    (∀ cs : List (Call α), ∃ es, Leads (.idle []) es (.idle (run {} cs).queue) ∧ calls es = cs) ∧
    (∀ a : Agenda α, Leads (.idle a.queue) (course a.queue) (.idle a.tick.2.queue) ∧
      a.tick.2 = (course a.queue).foldl Event.act a) ∧
    (∀ (es : List (Event α)) (q : List (Job α)), Leads (.idle []) es (.idle q) →
      run {} (calls es) = { queue := q, log := (ran es).map Job.label } ∧
        (run {} (calls es)).pending + (ran es).length = (scheduled es).length) ∧
    (∀ (es : List (Event α)) (m : Moment α), Leads (.idle []) es m →
      after es = { queue := m.queue, log := (ran es).map Job.label } ∧
      scheduled es = ran es ++ (m.taken ++ m.queue) ∧
      (after es).pending + m.taken.length + (ran es).length = (scheduled es).length) ∧
    (∀ (before during : List (Event α)) (m : Moment α), Leads (.idle []) (before ++ .start :: during) m →
      (∀ k, .finish k ∉ during) → waiting before = ran during ++ m.taken ∧ scheduled during = m.queue) ∧
    ∀ (before during : List (Event α)) (n : Nat) (m : Moment α),
      Leads (.idle []) (before ++ .start :: during ++ [.finish n]) m → (∀ k, .finish k ∉ during) →
        ran during = waiting before ∧ n = (waiting before).length ∧ (run {} (calls before)).tick.1 = n := by
  refine ⟨fun cs => exists_leads cs {}, fun a => ⟨?_, tick_eq_act a⟩, fun es q h => ?_,
    fun es m h => ⟨h.after_eq, h.scheduled_eq, h.pending_add⟩,
    fun before during m h hduring => h.taken_eq hduring, fun before during n m h hduring => ?_⟩
  · rw [tick_eq]
    exact leads_course a.queue
  · have hrun := h.run_calls_of_idle
    refine ⟨hrun, ?_⟩
    rw [hrun, h.scheduled_eq, List.length_append, Nat.add_comm]
    rfl
  · obtain ⟨hran, hn⟩ := h.finish_eq hduring
    refine ⟨hran, hn, ?_⟩
    obtain ⟨m₁, htick, -⟩ := h.split
    obtain ⟨m₀, hbefore, hrest⟩ := htick.split
    have hwaiting := hbefore.waiting_eq
    obtain _ | ⟨⟨q⟩, _⟩ := hrest
    rw [tick_eq, hbefore.run_calls_of_idle, hn, hwaiting]
    rfl

/-- A job that leads to a second one, which leads to a third. -/
def generations : Job Nat := .mk 1 [.mk 2 [.mk 3 []]]

def queued : List (Event Nat) := [.schedule generations, .schedule (.mk 4 [])]

def firstTick : List (Event Nat) := [.run generations, .spawn (.mk 2 [.mk 3 []]), .run (.mk 4 [])]

theorem jobs_run_once_in_order_generations :
    Leads (.idle []) (queued ++ .start :: firstTick ++ [.finish 2]) (.idle [.mk 2 [.mk 3 []]]) ∧
      ran firstTick = waiting queued ∧ (run {} (calls queued)).tick.1 = 2 ∧
      run {} [.schedule generations, .schedule (.mk 4 []), .tick] =
        { queue := [.mk 2 [.mk 3 []]], log := [1, 4] } := by
  have hleads : Leads (.idle []) (queued ++ .start :: firstTick ++ [.finish 2]) (.idle [.mk 2 [.mk 3 []]]) :=
    .cons (.schedule ..) <| .cons (.schedule ..) <| .cons (.start _) <| .cons (.run ..) <| .cons (.spawn ..) <|
      .cons (.run ..) <| .cons (.finish ..) (.nil _)
  obtain ⟨-, -, hidle, -, -, hfinish⟩ := @jobs_run_once_in_order Nat
  obtain ⟨hran, -, htick⟩ := hfinish queued firstTick 2 _ hleads (by simp [firstTick])
  exact ⟨hleads, hran, htick, (hidle _ _ hleads).1⟩

/-- Two jobs are scheduled and a tick runs the first. -/
def insideFirst : List (Event Nat) := [.schedule (.mk 1 []), .schedule (.mk 2 []), .start, .run (.mk 1 [])]

/-- While the first of two jobs runs none is pending, although two were scheduled and no more than one has run. -/
theorem pending_in_tick :
    Leads (.idle []) insideFirst (.ticking [] [.mk 2 []] [] 2) ∧
      (after insideFirst).pending ≠ (scheduled insideFirst).length - (ran insideFirst).length :=
  ⟨.cons (.schedule ..) <| .cons (.schedule ..) <| .cons (.start _) <| .cons (.run ..) (.nil _), by decide⟩

end StyleEngine.Agenda
