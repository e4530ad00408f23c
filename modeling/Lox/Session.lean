import Lox.Machine.Eval
import Lox.Scope.Resolution
import Lox.Syntax.Parser

/-!
# Sessions

A session runs programs one after another on one machine.  A source text is prepared, that is read
and resolved, and the program can then be executed, more than once and later than others.  What
programs leave behind, global variables above all, is there for the next.

The expressions of each program are numbered from where the last one ended, so what the machine
has learnt of their names stays right.
-/

namespace Lox

/-! ## Failures -/

/-- Why a source text does not run to its end. -/
inductive Failure
  | parse (errors : List ParseError)
  | scope (e : ScopeError)
  | runtime (e : RuntimeError)

namespace Failure

def message : Failure → String
  | parse errors => toString errors.length ++ " parse error(s)"
  | scope e => e.text
  | runtime e => e.text

/-- One line an error, with the text that it is about if it was found before running. -/
def render (source : String) : Failure → List String
  | parse errors => errors.map (·.render source)
  | scope e => [e.render source]
  | runtime e => [e.text]

/-- The status that a process ends with after the failure. -/
def exitCode : Failure → Nat
  | parse _ => 65
  | scope _ => 67
  | runtime _ => 70

end Failure

/-- What comes of running something. -/
inductive Outcome (α : Type)
  | done (a : α)
  | failed (f : Failure)
  | outOfFuel

/-- A program that is ready to run. -/
structure Program where
  body : List Stmt
  warnings : List Warning

structure Session where
  machine : Machine
  /-- The first identity that no expression has yet. -/
  nextId : ExprId

namespace Session

/-- A session at its start, with room for `limit` bytes of output. -/
def start (limit : Option Nat) (time : Nat → Float) : Session := ⟨.start limit time, 0⟩

/-! ## Preparing -/

/-- Reads a source text. -/
def parse (s : Session) (source : String) : Except Failure (List Stmt) × Session :=
  match Tree.parse source s.nextId with
  | .ok tree => (.ok tree.body, { s with nextId := tree.nextId })
  | .error errors => (.error (.parse errors), s)

/-- Resolves the names of a program and tells the machine. -/
def resolve (s : Session) (body : List Stmt) : Except Failure Program × Session :=
  match Resolution.ofProgram body with
  | .ok r => (.ok ⟨body, r.warnings⟩, { s with machine := s.machine.learn r.distances })
  | .error e => (.error (.scope e), s)

/-- Reads and resolves a source text.  Nothing runs yet. -/
def prepare (s : Session) (source : String) : Except Failure Program × Session :=
  match s.parse source with
  | (.ok body, s) => s.resolve body
  | (.error f, s) => (.error f, s)

/-! ## Running -/

/-- The outcome of an evaluation, which the machine's state survives. -/
def evaluate {α : Type} (s : Session) (e : Eval α) : Outcome α × Session :=
  let ⟨machine, nextId⟩ := s
  match e machine with
  | .ok a machine => (.done a, ⟨machine, nextId⟩)
  | .error (.error e) machine => (.failed (.runtime e), ⟨machine, nextId⟩)
  | .error .outOfFuel machine => (.outOfFuel, ⟨machine, nextId⟩)

/-- Runs a prepared program. -/
def execute (s : Session) (fuel : Nat) (p : Program) : Outcome Unit × Session :=
  s.evaluate (Eval.program fuel p.body)

/-- Prepares and runs a source text; the outcome of a run that ends are its warnings. -/
def run (s : Session) (fuel : Nat) (source : String) : Outcome (List Warning) × Session :=
  match s.prepare source with
  | (.error f, s) => (.failed f, s)
  | (.ok p, s) =>
    match s.execute fuel p with
    | (.done _, s) => (.done p.warnings, s)
    | (.failed f, s) => (.failed f, s)
    | (.outOfFuel, s) => (.outOfFuel, s)

end Session

end Lox
