/-!
# Messages

What a program tells those who watch it run: lines of text, each at a level that
says how much it matters.
-/

namespace HybridGradient

/-- How much a message matters, from most to least. -/
inductive Level where
  | error | warn | info | debug | trace
  deriving Repr, DecidableEq

namespace Level

/-- The rank of a level, least for what matters most. -/
def rank : Level → Nat
  | error => 1
  | warn => 2
  | info => 3
  | debug => 4
  | trace => 5

/-- The name of a level. -/
def name : Level → String
  | error => "ERROR"
  | warn => "WARN"
  | info => "INFO"
  | debug => "DEBUG"
  | trace => "TRACE"

/-- Whether messages of a level are shown to those who asked for messages up to
    another one. -/
def shown (limit l : Level) : Bool := l.rank ≤ limit.rank

end Level

/-- A message at a level. -/
structure Message where
  /-- How much the message matters. -/
  level : Level
  /-- What the message says. -/
  text : String
  deriving Repr, DecidableEq

/-- The messages that are shown to those who asked for messages up to a level. -/
def Message.upTo (limit : Level) (messages : Array Message) : Array Message :=
  messages.filter fun m => limit.shown m.level

end HybridGradient
