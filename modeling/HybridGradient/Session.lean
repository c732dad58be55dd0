import HybridGradient.Event.Text
import HybridGradient.Sink
import HybridGradient.Solve

/-!
# Loggers and sessions

Where the printed lines of a run go: nowhere, among the messages, into a list, or
into a sink. A line that a sink does not take whole is reported by a warning,
and nothing else comes of it.

A session is a run as those who watch it see it: its events are told in the order
in which they happened, the printed lines to a logger and everything else as
messages. Telling comes after solving, so neither the logger nor the messages can
change what the run finds.

* `Logger.log`: one line;
* `Logger.tellAll`: what is told one after another, in which the printed lines go
  to the logger and everything else is a message;
* `Session.solve?`: a run that is told to a logger.
-/

namespace HybridGradient

/-! ### Loggers -/

/-- A destination of printed lines. -/
inductive Logger where
  /-- Lines are dropped. -/
  | discard
  /-- Lines are told as messages. -/
  | forward
  /-- Lines are collected. -/
  | collect (lines : Array String)
  /-- Lines are written to a sink. -/
  | write (sink : Sink)
  deriving Repr

namespace Logger

/-- The message about a line that was not taken. -/
def failure : Message := ⟨.warn, "IoWriteLogger: failed to write"⟩

/-- The logger after a line, and the messages that come of it. -/
def log : Logger → String → Logger × List Message
  | discard, _ => (discard, [])
  | forward, line => (forward, [⟨.info, line⟩])
  | collect lines, line => (collect (lines.push line), [])
  | write sink, line =>
    let (sink, taken) := sink.writeLine line
    (write sink, if taken then [] else [failure])

/-- The logger after something was told, and the messages that come of it. -/
def tell (l : Logger) : Telling → Logger × List Message
  | .message m => (l, [m])
  | .line text => l.log text

/-- The logger after several things were told, and the messages that come of them in
    order. -/
def tellAll (l : Logger) (tellings : List Telling) : Logger × Array Message :=
  tellings.foldl (fun told t =>
    let next := told.1.tell t
    (next.1, told.2 ++ next.2)) (l, #[])

/-- The logger after several lines, and the messages that come of them in order. -/
def logAll (l : Logger) (lines : List String) : Logger × Array Message :=
  l.tellAll (lines.map .line)

end Logger

/-! ### Sessions -/

variable {α : Type} [Scalar α] [Binary α]

/-- A run, and what became known of it. -/
structure Session (α : Type) where
  /-- What the run finds, or why the parameters are refused. -/
  result : Except ParamError (Solution α)
  /-- The logger after all printed lines. -/
  logger : Logger
  /-- The messages in order. -/
  messages : Array Message

/-- A run on a problem, told to a logger. -/
def Session.solve? (clock : Nat → Float) (logger : Logger) (p : Problem α) (par : Params α) :
    Except Fault (Session α) := do
  let outcome ← HybridGradient.solve? clock p par
  let told := logger.tellAll (outcome.events.toList.map Event.telling)
  return { result := outcome.result, logger := told.1, messages := told.2 }

end HybridGradient
