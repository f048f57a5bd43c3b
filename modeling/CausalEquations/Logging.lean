/-!
# Log set-up

The library has one shared logger. Each set-up sets its level and makes sure that the requested
destinations are attached: a file at most once per resolved path, the console at most once. A
destination keeps the level of the set-up that attached it.

* `LogHandler`, `Logger` — destinations, and the logger with its destinations in order.
* `LogRequest` — what one set-up asks for.
* `Logger.setUp` — one set-up, for any way of resolving paths.
* `resolvedPath` — a path without idle steps.
-/

namespace CausalEquations

/-- A destination of log records. -/
inductive LogHandler where
  | file (path : String) (level : Int)
  | stream (level : Int)
  deriving DecidableEq, Repr

/-- The shared logger. -/
structure Logger where
  level : Int := 0
  /-- Whether records also go to the enclosing loggers. -/
  propagates : Bool := true
  handlers : List LogHandler := []
  deriving DecidableEq, Repr

/-- What a set-up asks for. -/
structure LogRequest where
  file : Option String := none
  level : Int := 20
  toConsole : Bool := false

namespace LogHandler

/-- Whether the destination is the file at a path. -/
def isFileAt (path : String) : LogHandler → Bool
  | file p _ => p == path
  | stream _ => false

/-- Whether the destination is the console. -/
def isStream : LogHandler → Bool
  | file _ _ => false
  | stream _ => true

end LogHandler

namespace Logger

/-- Attaches a file unless it is attached. -/
def attachFile (path : String) (level : Int) (handlers : List LogHandler) : List LogHandler :=
  if handlers.any (LogHandler.isFileAt path) then handlers else handlers ++ [.file path level]

/-- Attaches the console unless it is attached. -/
def attachStream (level : Int) (handlers : List LogHandler) : List LogHandler :=
  if handlers.any LogHandler.isStream then handlers else handlers ++ [.stream level]

/-- Carries out a request. Records stay with this logger, so that none is written twice. -/
def setUp (resolve : String → String) (request : LogRequest) (logger : Logger) : Logger :=
  let handlers := match request.file with
    | none => logger.handlers
    | some path => attachFile (resolve path) request.level logger.handlers
  let handlers := if request.toConsole then attachStream request.level handlers else handlers
  ⟨request.level, false, handlers⟩

end Logger

/-! ## Paths -/

/-- The steps of a path after one more: an empty step or a dot stays, two dots go back. -/
def takeStep (steps : List String) (step : String) : List String :=
  if step.isEmpty || step == "." then steps
  else if step == ".." then
    match steps with
    | [] => [".."]
    | last :: before => if last == ".." then ".." :: steps else before
  else step :: steps

/-- A relative path without idle steps. -/
def resolvedPath (path : String) : String :=
  match (path.splitOn "/").foldl takeStep [] with
  | [] => "."
  | steps => "/".intercalate steps.reverse

end CausalEquations
