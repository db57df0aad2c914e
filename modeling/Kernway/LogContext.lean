import Kernway.LogJson

namespace Kernway.Log

inductive Format
  | pretty
  | json

structure Logger where
  filter : Filter
  format : Format

/-- The arguments of one log call, and its time. -/
structure Call where
  millis : UInt64
  level : Level
  target : Text
  msg : Text

/-- The fields of the context that is active, before the target. -/
def contextPretty : Option Context → Text
  | some context =>
    if context.isEmpty then []
    else '[' :: List.intercalate [' '] (context.fields.map fun f => f.1 ++ '=' :: f.2) ++ "] ".toList
  | none => []

def formatPretty (current : Option Context) (call : Call) : Text :=
  iso8601 call.millis ++ ' ' :: call.level.padded ++ ' ' :: contextPretty current ++ call.target ++
    ": ".toList ++ call.msg

namespace Logger

variable (logger : Logger)

/-- The line of a call that the filter lets through. -/
def line (current : Option Context) (call : Call) : Option Text :=
  if logger.filter.allows call.target call.level then
    match logger.format with
    | .pretty => some (formatPretty current call)
    | .json => some (formatJson current call.millis call.level call.target call.msg)
  else none

end Logger

/-- A thread: the context that is active on it, and the lines that it has written. -/
structure Thread where
  current : Option Context := none
  sink : List Text := []

def Logger.emit (logger : Logger) (call : Call) (t : Thread) : Thread :=
  { t with sink := t.sink ++ (logger.line t.current call).toList }

/-- How a poll ends. -/
inductive Ending
  | pending
  | ready
  | unwound
  deriving DecidableEq

/-- `Scoped::poll`. The guard is dropped when the inner poll returns and when it unwinds. -/
def pollScoped (context : Context) (inner : Thread → Ending × Thread) (t : Thread) :
    Ending × Thread :=
  let previous := t.current
  let polled := inner { t with current := some context }
  (polled.1, { polled.2 with current := previous })

/-- The scopes below a future, each with those inside it. -/
inductive Scopes
  | node (children : Nat → Context × Scopes)

def Scopes.child : Scopes → Nat → Context × Scopes
  | node children, i => children i

/-- What the code of a future does in one poll: it logs, and it polls the scopes below it. It may
catch the unwinding of such a poll, which else ends its own. -/
inductive Act
  | log (call : Call)
  | poll (child : Nat) (acts : List Act) (ending : Ending) (caught : Bool)

mutual

def Act.run (logger : Logger) (scopes : Scopes) : Act → Thread → Ending × Thread
  | .log call, t => (.ready, logger.emit call t)
  | .poll child acts ending caught, t =>
    let polled := pollScoped (scopes.child child).1
      (fun t => runActs logger (scopes.child child).2 acts ending t) t
    (if caught then .ready else polled.1, polled.2)

/-- One poll of the code of a future, with the ending that it has unless it unwinds before. -/
def runActs (logger : Logger) (scopes : Scopes) : List Act → Ending → Thread → Ending × Thread
  | [], ending, t => (ending, t)
  | act :: acts, ending, t =>
    let done := act.run logger scopes t
    if done.1 = .unwound then done else runActs logger scopes acts ending done.2

end

/-- What happens on a thread: a log call outside every future, or a poll of one of the tasks. -/
inductive Event
  | log (call : Call)
  | poll (task : Nat) (acts : List Act) (ending : Ending)

/-- The executor goes on behind a poll that has unwound. -/
def Event.run (logger : Logger) (tasks : Nat → Scopes) : Event → Thread → Thread
  | .log call, t => logger.emit call t
  | .poll task acts ending, t => (runActs logger (tasks task) acts ending t).2

def runEvents (logger : Logger) (tasks : Nat → Scopes) (events : List Event) (t : Thread) : Thread :=
  events.foldl (fun t (event : Event) => event.run logger tasks t) t

mutual

/-- What an act logs, each call with the context of the innermost scope around it, and whether it
unwinds. -/
def Act.logged (scopes : Scopes) : Act → Option Context → Ending × List (Option Context × Call)
  | .log call, around => (.ready, [(around, call)])
  | .poll child acts ending caught, _ =>
    let inner := loggedActs (scopes.child child).2 acts ending (some (scopes.child child).1)
    (if caught then .ready else inner.1, inner.2)

def loggedActs (scopes : Scopes) : List Act → Ending → Option Context →
    Ending × List (Option Context × Call)
  | [], ending, _ => (ending, [])
  | act :: acts, ending, around =>
    let first := act.logged scopes around
    if first.1 = .unwound then first
    else
      let rest := loggedActs scopes acts ending around
      (rest.1, first.2 ++ rest.2)

end

/-- What an event logs. -/
def Event.logged (tasks : Nat → Scopes) : Event → List (Option Context × Call)
  | .log call => [(none, call)]
  | .poll task acts ending => (loggedActs (tasks task) acts ending none).2

/-- The lines of some calls, each written in its own context. -/
def Logger.lines (logger : Logger) (calls : List (Option Context × Call)) : List Text :=
  calls.filterMap fun c => logger.line c.1 c.2

theorem Logger.lines_append (logger : Logger) (calls calls' : List (Option Context × Call)) :
    logger.lines (calls ++ calls') = logger.lines calls ++ logger.lines calls' :=
  List.filterMap_append

theorem Logger.emit_eq (logger : Logger) (call : Call) (t : Thread) :
    logger.emit call t = { t with sink := t.sink ++ logger.lines [(t.current, call)] } := by
  unfold emit lines
  rw [List.filterMap_cons]
  cases logger.line t.current call <;> rfl

mutual

/-- What an act does to the thread: it leaves the context as it was, and writes its lines. -/
theorem Act.run_eq (logger : Logger) (scopes : Scopes) (act : Act) (t : Thread) :
    act.run logger scopes t =
      ((act.logged scopes t.current).1,
        { t with sink := t.sink ++ logger.lines (act.logged scopes t.current).2 }) := by
  cases act with
  | log call =>
    rw [Act.run, Act.logged, logger.emit_eq]
  | poll child acts ending caught =>
    rw [Act.run, Act.logged, pollScoped, runActs_eq]

theorem runActs_eq (logger : Logger) (scopes : Scopes) (acts : List Act) (ending : Ending)
    (t : Thread) :
    runActs logger scopes acts ending t =
      ((loggedActs scopes acts ending t.current).1,
        { t with sink := t.sink ++ logger.lines (loggedActs scopes acts ending t.current).2 }) := by
  cases acts with
  | nil =>
    rw [runActs, loggedActs]
    simp [Logger.lines]
  | cons act acts =>
    rw [runActs, loggedActs, Act.run_eq logger scopes act t]
    dsimp only
    split
    next => rfl
    next =>
      rw [runActs_eq logger scopes acts ending]
      dsimp only
      rw [Logger.lines_append, List.append_assoc]

end

/-- What an event does to a thread that is outside every scope. -/
theorem Event.run_eq (logger : Logger) (tasks : Nat → Scopes) (event : Event) (sink : List Text) :
    event.run logger tasks { sink := sink } =
      { sink := sink ++ logger.lines (event.logged tasks) } := by
  cases event with
  | log call => exact logger.emit_eq call _
  | poll task acts ending =>
    rw [Event.run, Event.logged, runActs_eq]

theorem run_events (logger : Logger) (tasks : Nat → Scopes) (events : List Event)
    (sink : List Text) :
    runEvents logger tasks events { sink := sink } =
      { sink := sink ++ logger.lines (events.flatMap (Event.logged tasks)) } := by
  induction events generalizing sink with
  | nil => simp [runEvents, Logger.lines]
  | cons event events ih =>
    show runEvents logger tasks events (event.run logger tasks { sink := sink }) = _
    rw [Event.run_eq, ih, List.flatMap_cons, Logger.lines_append,
      List.append_assoc]

end Kernway.Log
