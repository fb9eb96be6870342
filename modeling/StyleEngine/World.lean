import StyleEngine.DebugMode
import StyleEngine.Description.Extend
import StyleEngine.Scheduler
import StyleEngine.Sheet

/-!
# Sheets at work

A world holds sheets, the handles to them, the targets they may be attached to, the queue of the
common tick scheduler, and what debug mode depends on. A step is an operation through a handle, a
tick, or an event from outside.
-/

namespace StyleEngine

/-- A scheduled flush. It writes if its sheet has a handle and its token is still the current one. -/
structure FlushTask where
  sheet : Nat
  token : Nat
  deriving DecidableEq, Repr

structure World where
  sheets : List Sheet := []
  /-- The sheet behind each handle, until the handle is dropped. -/
  handles : List (Option Nat) := []
  targets : List Target := []
  queue : List FlushTask := []
  detector : DebugMode := .auto
  environment : Environment := []

/-- An operation on a sheet. -/
inductive Call where
  | style (ds : List (Option Description))
  | cssRule (selector : String) (ds : List (Option Description))
  | keyframes (k : Keyframes)
  | fontFace (ds : List Description)
  | cssRaw (css : String)
  | stylesheet (named : List (String × Description))
  | setTarget (target : Nat)
  | forceRender
  | reinit

inductive Step where
  | call (handle : Nat) (c : Call)
  | tick
  | write (target : Nat) (text : String)
  | clone (handle : Nat)
  | drop (handle : Nat)
  | detect (mode : DebugMode)
  | setEnvironment (environment : Environment)

/-- What a step returns. -/
inductive Answer where
  | done
  | name (s : String)
  | names (ns : List (String × String))
  | count (n : Nat)
  deriving DecidableEq, Repr

namespace World

/-- A fresh world: one handle to each sheet, and empty targets. -/
def start (configs : List SheetConfig) (targets : Nat) : World where
  sheets := configs.map Sheet.ofConfig
  handles := (List.range configs.length).map some
  targets := List.replicate targets {}

def sheetOf? (w : World) (handle : Nat) : Option Nat := (w.handles[handle]?).join

/-- Whether a handle to the sheet is left. -/
def isAlive (w : World) (id : Nat) : Bool := w.handles.contains (some id)

def modifySheet (w : World) (id : Nat) (f : Sheet → Sheet) : World :=
  { w with sheets := w.sheets.modify id f }

def writeTarget (w : World) (target : Nat) (text : String) : World :=
  { w with targets := w.targets.modify target (·.write text) }

/-- Writes to an outlet of a sheet. -/
def writeOutlet (w : World) (id : Nat) (text : String) : Outlet → World
  | .own => w.modifySheet id fun s => { s with own := s.own.write text }
  | .attached target => w.writeTarget target text

/-- The text of the target behind the outlet of a sheet. -/
def currentText? (w : World) (s : Sheet) : Option String :=
  match s.outlet? with
  | none => none
  | some .own => some s.own.text
  | some (.attached target) => (w.targets[target]?).map Target.text

/-- Writes the text of a sheet to its outlet, which is made if it may be. -/
def flush (w : World) (id : Nat) : World :=
  match w.sheets[id]? with
  | none => w
  | some s =>
    match s.nextOutlet? with
    | none => w
    | some outlet => (w.modifySheet id (·.flushedTo outlet)).writeOutlet id s.css outlet

def isCurrent (w : World) (t : FlushTask) : Bool :=
  (w.sheets[t.sheet]?).any fun s => s.tracker.token = t.token

/-- A stale task and one of a sheet without handles do nothing. -/
def runTask (w : World) (t : FlushTask) : World :=
  if w.isAlive t.sheet && w.isCurrent t then w.flush t.sheet else w

def schedule (w : World) (t : FlushTask) : Delivery → World
  | .immediate => w.runTask t
  | .onTick => { w with queue := w.queue ++ [t] }
  | .unattended => w

/-- Schedules a flush if the outlet lacks something and there is or may be one. -/
def styleUpdated (w : World) (id : Nat) : World :=
  match w.sheets[id]? with
  | none => w
  | some s =>
    if s.needsFlush && s.canFlush then
      (w.modifySheet id Sheet.issueToken).schedule ⟨id, s.tracker.token + 1⟩ s.delivery
    else w

def debugMode (w : World) (s : Sheet) : Bool :=
  s.debug?.getD (w.detector.resolve w.environment)

/-- Stores the registry that a registration leaves, whether it fails or not. A failed one is not
followed by a flush. -/
def register (w : World) (id : Nat) :
    Except StyleError Answer × Registry → Except StyleError Answer × World
  | (.error e, registry) => (.error e, w.modifySheet id fun s => { s with registry })
  | (.ok answer, registry) =>
    (.ok answer, (w.modifySheet id fun s => { s with registry }).styleUpdated id)

/-- Registers the extension of descriptions. -/
def style (w : World) (id : Nat) (s : Sheet) (ds : List (Option Description)) :
    Except StyleError Answer × World :=
  let work := Registry.storeStyle (Description.extend ds) (w.debugMode s)
  w.register id (s.registry.attempt (.name <$> work))

/-- Registers named styles one after the other, until one fails. -/
def stylesheet (w : World) (id : Nat) (classes : List (String × String)) :
    List (String × Description) → Except StyleError Answer × World
  | [] => (.ok (.names classes), w)
  | (name, d) :: rest =>
    match w.sheets[id]? with
    | none => (.ok (.names classes), w)
    | some s =>
      match w.style id s [some (d.withDebugName name)] with
      | (.ok (.name c), w) => w.stylesheet id (Keyed.put name c classes) rest
      | result => result

/-- Attaches a target: the earlier one is cleared, then the new one receives the text at once. -/
def setTarget (w : World) (id : Nat) (s : Sheet) (target : Nat) : World :=
  let attached := w.modifySheet id fun s => s.issueToken.flushedTo (.attached target)
  let cleared :=
    match s.outlet? with
    | none => attached
    | some outlet => attached.writeOutlet id "" outlet
  cleared.writeOutlet id s.css (.attached target)

/-- Drops everything and clears the outlet. -/
def reinit (w : World) (id : Nat) (s : Sheet) : World :=
  let fresh := w.modifySheet id Sheet.reinit
  match s.outlet? with
  | none => fresh
  | some outlet => fresh.writeOutlet id "" outlet

/-- Performs an operation on a sheet. -/
def perform (w : World) (id : Nat) (s : Sheet) : Call → Except StyleError Answer × World
  | .style ds => w.style id s ds
  | .cssRule selector ds =>
    let work := Registry.storeRule selector (Description.extend ds)
    w.register id (s.registry.attempt ((fun () => .done) <$> work))
  | .keyframes k =>
    let work := Registry.storeKeyframes k (w.debugMode s)
    w.register id (s.registry.attempt (.name <$> work))
  | .fontFace ds =>
    let work := Registry.storeFaces ds
    w.register id (s.registry.attempt ((fun () => .done) <$> work))
  | .cssRaw css =>
    if css.isEmpty then (.ok .done, w)
    else
      let changed := w.modifySheet id fun s =>
        { s with raw := s.raw ++ css, tracker := s.tracker.markRaw }
      (.ok .done, changed.styleUpdated id)
  | .stylesheet named => w.stylesheet id [] named
  | .setTarget target => (.ok .done, w.setTarget id s target)
  | .forceRender => (.ok .done, (w.modifySheet id Sheet.issueToken).flush id)
  | .reinit => (.ok .done, w.reinit id s)

/-- Performs an operation through a handle. A dropped handle does nothing. -/
def call (w : World) (handle : Nat) (c : Call) : Except StyleError Answer × World :=
  match w.sheetOf? handle with
  | none => (.ok .done, w)
  | some id =>
    match w.sheets[id]? with
    | none => (.ok .done, w)
    | some s => w.perform id s c

/-- Runs the tasks that are queued and says how many there were. -/
def tick (w : World) : Nat × World := drain queue (fun w => { w with queue := [] }) runTask w

def step (w : World) : Step → Except StyleError Answer × World
  | .call handle c => w.call handle c
  | .tick => (.ok (.count w.tick.1), w.tick.2)
  | .write target text => (.ok .done, w.writeTarget target text)
  | .clone handle => (.ok .done, { w with handles := w.handles ++ [w.sheetOf? handle] })
  | .drop handle => (.ok .done, { w with handles := w.handles.set handle none })
  | .detect mode => (.ok .done, { w with detector := mode })
  | .setEnvironment environment => (.ok .done, { w with environment })

/-- The answers of steps, and the world after them. -/
def run (w : World) : List Step → List (Except StyleError Answer) × World
  | [] => ([], w)
  | s :: rest =>
    let (answer, w) := w.step s
    let (answers, w) := w.run rest
    (answer :: answers, w)

end World

end StyleEngine
