/-!
# Debug mode

In debug mode generated names show the debug name. A detector turns it on or off, or leaves it to
the environment.
-/

namespace StyleEngine

inductive DebugMode where
  | on
  | off
  /-- Asks the environment. -/
  | auto
  deriving DecidableEq, Repr

/-- The values of variables. -/
abbrev Environment := List (String × String)

namespace DebugMode

/-- On unless `NODE_ENV` is `production`, and always on when `TYPESTYLE_ENV` is `debug`. -/
def ofEnvironment (environment : Environment) : Bool :=
  environment.lookup "NODE_ENV" != some "production" ||
    environment.lookup "TYPESTYLE_ENV" == some "debug"

def resolve (environment : Environment) : DebugMode → Bool
  | on => true
  | off => false
  | auto => ofEnvironment environment

end DebugMode

end StyleEngine
