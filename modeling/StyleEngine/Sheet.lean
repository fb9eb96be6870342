import StyleEngine.Registry

/-!
# Style sheets

A sheet is a registry, raw CSS in front of it, and an outlet: the target that receives the text. A
tracker remembers what the outlet has and which scheduled flush is the current one.
-/

namespace StyleEngine

/-- A text that is written as a whole, with the number of writes. -/
structure Target where
  text : String := ""
  writes : Nat := 0
  deriving DecidableEq, Repr

def Target.write (t : Target) (text : String) : Target := ⟨text, t.writes + 1⟩

/-- When a flush runs. -/
inductive Delivery where
  /-- At once. -/
  | immediate
  /-- With the next tick of the common scheduler. -/
  | onTick
  /-- Never: the scheduler of the sheet is its own and nobody ticks it. -/
  | unattended
  deriving DecidableEq, Repr

structure SheetConfig where
  /-- Whether the first flush may make a target when none is attached. -/
  autoTarget : Bool := false
  /-- Debug mode, unless the detector is asked. -/
  debug? : Option Bool := none
  delivery : Delivery := .onTick

def boolText (b : Bool) : String := if b then "true" else "false"

def optionalBoolText : Option Bool → String
  | some b => "Some(" ++ boolText b ++ ")"
  | none => "None"

def SheetConfig.describe (c : SheetConfig) : String :=
  "SheetConfig \x7b auto_generate_target: " ++ boolText c.autoTarget ++ ", debug: " ++
    optionalBoolText c.debug? ++ ", .. \x7d"

/-- What the outlet has received and which flush may write. -/
structure Tracker where
  flushedVersion : Nat := 0
  rawChanged : Bool := false
  token : Nat := 0
  deriving DecidableEq, Repr

namespace Tracker

/-- Whether the outlet lacks something of `version`. -/
def needsFlush (t : Tracker) (version : Nat) : Bool := t.rawChanged || version != t.flushedVersion

def markRaw (t : Tracker) : Tracker := { t with rawChanged := true }

/-- Makes every scheduled flush stale. -/
def issueToken (t : Tracker) : Tracker := { t with token := t.token + 1 }

/-- The outlet has `version`. -/
def flushed (t : Tracker) (version : Nat) : Tracker :=
  { t with flushedVersion := version, rawChanged := false }

/-- Forgets what was flushed. Scheduled flushes become stale. -/
def reset (t : Tracker) : Tracker := { token := t.token + 1 }

end Tracker

/-- Where the text of a sheet goes. -/
inductive Outlet where
  /-- The target that the sheet made for itself. -/
  | own
  /-- An attached target, by its number. -/
  | attached (target : Nat)
  deriving DecidableEq, Repr

structure Sheet where
  registry : Registry := {}
  raw : String := ""
  outlet? : Option Outlet := none
  /-- The target behind `Outlet.own`. -/
  own : Target := {}
  autoTarget : Bool := false
  debug? : Option Bool := none
  tracker : Tracker := {}
  delivery : Delivery := .onTick

namespace Sheet

def ofConfig (c : SheetConfig) : Sheet :=
  { autoTarget := c.autoTarget, debug? := c.debug?, delivery := c.delivery }

/-- Raw CSS, then every rule. -/
def css (s : Sheet) : String := s.raw ++ s.registry.css

def version (s : Sheet) : Nat := s.registry.version

def canFlush (s : Sheet) : Bool := s.outlet?.isSome || s.autoTarget

def needsFlush (s : Sheet) : Bool := s.tracker.needsFlush s.version

/-- The outlet of the next flush. -/
def nextOutlet? (s : Sheet) : Option Outlet :=
  s.outlet?.or (if s.autoTarget then some .own else none)

def issueToken (s : Sheet) : Sheet := { s with tracker := s.tracker.issueToken }

/-- The sheet after its text went to an outlet. -/
def flushedTo (s : Sheet) (outlet : Outlet) : Sheet :=
  { s with outlet? := some outlet, tracker := s.tracker.flushed s.version }

/-- Drops rules and raw CSS. The outlet stays. -/
def reinit (s : Sheet) : Sheet :=
  { s with registry := {}, raw := "", tracker := s.tracker.reset }

def describe (s : Sheet) : String :=
  "StyleSheet \x7b version: " ++ toString s.version ++ ", rules: " ++ toString s.registry.size ++
    ", has_target: " ++ boolText s.outlet?.isSome ++ ", .. \x7d"

end Sheet

end StyleEngine
