import HybridGradient.Event
import HybridGradient.Message

/-!
# The wording of events

Every event is told in one way: either as a message at a level, or as a line
that is printed. Numbers for reading are rounded to a few digits; parameters and
the last iterate are given in full, by the shortest decimals that stand for
them.
-/

namespace HybridGradient

/-- What an event is told by. -/
inductive Telling where
  /-- A message to those who watch. -/
  | message (m : Message)
  /-- A line of the printed table. -/
  | line (text : String)
  deriving Repr, DecidableEq

variable {α : Type} [Binary α]

/-- A vector in brackets. -/
def Vec.text (x : Vec α) : String :=
  "[" ++ String.intercalate ", " (x.toList.map Binary.plain) ++ "]"

/-- What may be absent, given how it is written. -/
def optionText {β : Type} (text : β → String) : Option β → String
  | none => "None"
  | some b => "Some(" ++ text b ++ ")"

/-- Names with their values, in order. -/
def Params.fields (par : Params α) : List (String × String) :=
  [("step_size", optionText Binary.plain par.stepSize),
    ("rescale", toString par.rescale),
    ("rescale_geomean_iters", toString par.meanPasses),
    ("rescale_ruiz_iters", toString par.largestPasses),
    ("record_every", toString par.recordEvery),
    ("print_every", toString par.printEvery),
    ("verbosity", toString par.verbose),
    ("iteration_limit", toString par.iterationLimit),
    ("kkt_tolerance", Binary.plain par.tolerance),
    ("initial_primal_solution", optionText Vec.text par.startPrimal),
    ("initial_dual_solution", optionText Vec.text par.startDual),
    ("eps_zero", Binary.plain par.leastFactor),
    ("power_iter_max", toString par.powerPasses),
    ("power_iter_tol", Binary.plain par.powerTolerance)]

/-- All parameters with their names. -/
def Params.text (par : Params α) : String :=
  "SolverParam \x7b " ++
    String.intercalate ", " (par.fields.map fun f => f.1 ++ ": " ++ f.2) ++ " \x7d"

/-- A range of magnitudes, under a label. -/
def MagnitudeRange.text (label : String) (r : MagnitudeRange α) : String :=
  label ++ ": |A| in [" ++ Binary.scientific 2 r.least ++ ", " ++
    Binary.scientific 2 r.greatest ++ "]"

/-- How an event is told. -/
def Event.telling : Event α → Telling
  | problemRefused cause => .message ⟨.error, cause.detail⟩
  | paramsRefused cause => .message ⟨.error, cause.detail⟩
  | paramsAccepted par => .message ⟨.debug, par.text⟩
  | initializing => .message ⟨.info, "----- Initializing"⟩
  | beforeBalancing range => .message ⟨.debug, range.text "before rescaling"⟩
  | afterBalancing range => .message ⟨.debug, range.text "after rescaling"⟩
  | annihilated seed => .message ⟨.debug, s!"start vector {seed} in the null space"⟩
  | settled pass => .message ⟨.trace, s!"power method converged at {pass}"⟩
  | stepSize t => .message ⟨.debug, "step_size " ++ Binary.scientific 3 t⟩
  | started => .message ⟨.info, "----- Started"⟩
  | examined i e => .message ⟨.debug, toString i ++ ": kkt_error " ++ Binary.scientific 2 e⟩
  | header => .line Row.header
  | row record => .line record.row
  | lastPrimal i x => .message ⟨.trace, toString i ++ ": x " ++ x.text⟩
  | lastDual i y => .message ⟨.trace, toString i ++ ": y " ++ y.text⟩
  | ended .optimal => .message ⟨.info, "----- Converged"⟩
  | ended .iterationLimit => .message ⟨.warn, "----- IterationLimit"⟩

end HybridGradient
