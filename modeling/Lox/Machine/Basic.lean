import Std.Data.TreeMap
import Lox.Heap.Basic
import Lox.Machine.Output
import Lox.Value.Error

/-!
# Machines

A machine is a running program's state: its heap, the current frame, the distances of all locals it
has been told of, and its output.  An evaluation takes a machine to a machine and a value, or stops
it: at a runtime error, or because it was given too little fuel.
-/

namespace Lox

structure Machine where
  heap : Heap
  /-- The frame of the scope that is being run. -/
  frame : FrameId
  distances : Std.TreeMap ExprId Nat
  output : Output
  /-- What the clock shows at the next reading and the ones after it, in seconds. -/
  time : Nat → Float

/-- What ends an evaluation early. -/
inductive Stop
  | error (e : RuntimeError)
  | outOfFuel

/-- A computation on a machine. -/
abbrev Eval := EStateM Stop Machine

/-- What comes after a statement: the next one, or what a loop or function is left by. -/
inductive Signal
  | next
  | break
  | continue
  | return (v : Value)

namespace Machine

/-- A machine at its start, with room for `limit` bytes of output. -/
def start (limit : Option Nat) (time : Nat → Float) : Machine where
  heap := .start
  frame := Heap.globals
  distances := ∅
  output := .empty limit
  time := time

/-- The machine after its clock has been read. -/
def tick (m : Machine) : Machine := { m with time := fun n => m.time (n + 1) }

/-- Tells the machine of the locals of a program. -/
def learn (m : Machine) (distances : List (ExprId × Nat)) : Machine :=
  { m with distances := m.distances.insertMany distances }

/-- The variable that a use of a name means: a local at its distance, else a global. -/
def lookup (m : Machine) (id : ExprId) (name : String) : Except RuntimeErrorKind Value :=
  let found := match m.distances[id]? with
    | some hops => m.heap.getAt? hops m.frame name
    | none => m.heap.get? Heap.globals name
  match found with
  | some v => .ok v
  | none => .error (.undefinedVariable name)

end Machine

namespace Eval

def fail {α : Type} (span : Span) (kind : RuntimeErrorKind) : Eval α :=
  throw (.error ⟨span, kind⟩)

def outOfFuel {α : Type} : Eval α := throw .outOfFuel

/-- The result of an operation, an error of which is at `span`. -/
def located {α : Type} (span : Span) : Except RuntimeErrorKind α → Eval α
  | .ok a => pure a
  | .error kind => fail span kind

/-- Makes something in the heap. -/
@[inline] def make {α : Type} (f : Heap → α × Heap) : Eval α :=
  modifyGet fun m =>
    let (a, heap) := f m.heap
    (a, { m with heap := heap })

/-- Changes the heap. -/
@[inline] def change (f : Heap → Heap) : Eval Unit := modify fun m => { m with heap := f m.heap }

/-- Adds a variable to the current frame. -/
def define (name : String) (v : Value) : Eval Unit :=
  modify fun m => { m with heap := m.heap.define m.frame name v }

/-- The variable that a use of a name means. -/
def lookup (id : ExprId) (name : String) (span : Span) : Eval Value := do
  located span ((← get).lookup id name)

/-- Goes on if an assignment to `name` found its variable. -/
@[inline] def assigned (name : Identifier) (write : Machine → Bool × Heap) : Eval Unit := do
  let found ← modifyGet fun m =>
    let (found, heap) := write m
    (found, { m with heap := heap })
  unless found do fail name.span (.undefinedVariable name.name)

/-- Overwrites the variable that a use of a name means. -/
def assign (id : ExprId) (name : Identifier) (v : Value) : Eval Unit :=
  assigned name fun m =>
    match m.distances[id]? with
    | some hops => m.heap.assignAt hops m.frame name.name v
    | none => m.heap.assign Heap.globals name.name v

/-- Overwrites a variable that the current frame or one around it has. -/
def assignNearest (name : Identifier) (v : Value) : Eval Unit :=
  assigned name fun m => m.heap.assign m.frame name.name v

/-- Prints a line. -/
def printLine (text : String) (span : Span) : Eval Unit := fun m =>
  let (all, output) := m.output.write (text ++ "\n")
  if all then .ok () { m with output := output }
  else .error (.error ⟨span, .outputFailed Output.limitReached⟩) { m with output := output }

/-- Makes a frame the current one. -/
def moveTo (frame : FrameId) : Eval Unit := modify fun m => { m with frame := frame }

/-- Runs in another frame and goes back to the old one, also after an error. -/
def inFrame {α : Type} (frame : FrameId) (body : Eval α) : Eval α := fun m =>
  let outer := m.frame
  match body { m with frame := frame } with
  | .ok a m => .ok a { m with frame := outer }
  | .error e m => .error e { m with frame := outer }

/-- Runs in a new frame around which is the current one. -/
def inNewFrame {α : Type} (body : Eval α) : Eval α := do
  let outer := (← get).frame
  let frame ← make (·.newFrame outer ∅)
  inFrame frame body

end Eval

end Lox
