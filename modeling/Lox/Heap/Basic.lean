import Lox.Table
import Lox.Value.Basic

/-!
# The heap

What a running program can change: frames, which hold the variables of one activation of a scope,
and arrays, classes and instances; traits are here for their identity.  Places are handed out in
order and nothing is taken away.  A frame comes after the one that encloses it and a class after
its superclass, so the walks outward and upward end.
-/

namespace Lox

/-! ## Contents -/

/-- The variables of an activation of a scope, and the frame around it. -/
structure Frame where
  enclosing : Option FrameId
  bindings : Table Value

/-- A class and its static fields. -/
structure Class where
  name : String
  superclass : Option ClassId
  methods : Table Closure
  statics : Table Closure
  fields : Table Value

structure Instance where
  klass : ClassId
  fields : Table Value

/-- Methods to be put into classes. -/
structure Trait where
  name : String
  methods : Table Closure
  statics : Table Closure

structure Heap where
  frames : Array Frame
  arrays : Array (Array Value)
  classes : Array Class
  instances : Array Instance
  traits : Array Trait
  /-- How many functions have been made. -/
  closures : Nat

namespace Heap

/-- The frame of the global variables. -/
def globals : FrameId := ⟨0⟩

/-- The heap of a program that has not begun. -/
def start : Heap where
  frames := Array.singleton ⟨none, .ofPairs (Native.all.map fun f => (f.name, .native f))⟩
  arrays := Array.empty
  classes := Array.empty
  instances := Array.empty
  traits := Array.empty
  closures := 0

/-! ## Making things -/

def newFrame (h : Heap) (enclosing : FrameId) (bindings : Table Value) : FrameId × Heap :=
  (⟨h.frames.size⟩, { h with frames := h.frames.push ⟨some enclosing, bindings⟩ })

def newArray (h : Heap) (elements : List Value) : ArrayId × Heap :=
  (⟨h.arrays.size⟩, { h with arrays := h.arrays.push elements.toArray })

def newClass (h : Heap) (c : Class) : ClassId × Heap :=
  (⟨h.classes.size⟩, { h with classes := h.classes.push c })

def newInstance (h : Heap) (c : ClassId) : InstanceId × Heap :=
  (⟨h.instances.size⟩, { h with instances := h.instances.push ⟨c, ∅⟩ })

def newTrait (h : Heap) (t : Trait) : TraitId × Heap :=
  (⟨h.traits.size⟩, { h with traits := h.traits.push t })

/-- A function with an identity of its own. -/
def newClosure (h : Heap) (f : Function) (frame : FrameId) (kind : FunctionKind) :
    Closure × Heap :=
  (⟨h.closures, f, frame, kind⟩, { h with closures := h.closures + 1 })

/-- Functions by their names, the last of a name counting. -/
def newClosures (h : Heap) (frame : FrameId) (kind : Function → FunctionKind) :
    List Function → Table Closure × Heap :=
  List.foldl (fun (table, h) f =>
    let (closure, h) := h.newClosure f frame (kind f)
    (table.insert f.name.name closure, h)) (∅, h)

/-! ## Variables -/

/-- The frame around a frame. -/
def enclosing? (h : Heap) (f : FrameId) : Option FrameId :=
  match h.frames[f.index]? with
  | some frame => frame.enclosing
  | none => none

/-- The frame `hops` frames out. -/
def ancestor? (h : Heap) : Nat → FrameId → Option FrameId
  | 0, f => some f
  | hops + 1, f =>
    match h.enclosing? f with
    | some outer => h.ancestor? hops outer
    | none => none

/-- The variable of one frame alone. -/
def getIn? (h : Heap) (f : FrameId) (name : String) : Option Value :=
  match h.frames[f.index]? with
  | some frame => frame.bindings.find? name
  | none => none

/-- The frame `hops` frames out, if it has the variable itself. -/
def ownerAt? (h : Heap) (hops : Nat) (f : FrameId) (name : String) : Option FrameId :=
  match h.ancestor? hops f with
  | some g => if (h.getIn? g name).isSome then some g else none
  | none => none

/-- The nearest frame from `f` outward that has the variable. -/
def owner? (h : Heap) (f : FrameId) (name : String) : Option FrameId :=
  if (h.getIn? f name).isSome then some f
  else
    match h.enclosing? f with
    | some outer => if outer.index < f.index then h.owner? outer name else none
    | none => none
termination_by f.index

/-- The variable in the frame `hops` frames out, and there only. -/
def getAt? (h : Heap) (hops : Nat) (f : FrameId) (name : String) : Option Value :=
  match h.ancestor? hops f with
  | some g => h.getIn? g name
  | none => none

/-- The variable in the nearest frame that has it. -/
def get? (h : Heap) (f : FrameId) (name : String) : Option Value :=
  match h.owner? f name with
  | some g => h.getIn? g name
  | none => none

/-- Adds the variable to a frame or overwrites it there. -/
def define (h : Heap) (f : FrameId) (name : String) (v : Value) : Heap :=
  { h with
    frames := h.frames.modify f.index fun frame =>
      { frame with bindings := frame.bindings.insert name v } }

/-- Overwrites the variable in the frame `hops` frames out, and tells whether it is there. -/
def assignAt (h : Heap) (hops : Nat) (f : FrameId) (name : String) (v : Value) : Bool × Heap :=
  match h.ownerAt? hops f name with
  | some g => (true, h.define g name v)
  | none => (false, h)

/-- Overwrites the variable in the nearest frame that has it, and tells whether one has. -/
def assign (h : Heap) (f : FrameId) (name : String) (v : Value) : Bool × Heap :=
  match h.owner? f name with
  | some g => (true, h.define g name v)
  | none => (false, h)

/-! ## Arrays -/

def elements (h : Heap) (a : ArrayId) : Array Value := h.arrays[a.index]?.getD Array.empty

def setElement (h : Heap) (a : ArrayId) (i : Nat) (v : Value) : Heap :=
  { h with arrays := h.arrays.modify a.index (·.setIfInBounds i v) }

def pushElement (h : Heap) (a : ArrayId) (v : Value) : Heap :=
  { h with arrays := h.arrays.modify a.index (·.push v) }

/-! ## Classes and instances -/

/-- The method of instances that a class has itself or inherits. -/
def method? (h : Heap) (c : ClassId) (name : String) : Option Closure :=
  match h.classes[c.index]? with
  | some k =>
    match k.methods.find? name with
    | some f => some f
    | none =>
      match k.superclass with
      | some s => if s.index < c.index then h.method? s name else none
      | none => none
  | none => none
termination_by c.index

/-- What an instance answers to a name: a field as it is, a method still to be bound. -/
inductive Member
  | field (v : Value)
  | method (f : Closure)

/-- The member of an instance: its field, else the method of its class. -/
def member? (h : Heap) (i : InstanceId) (name : String) : Option Member :=
  match h.instances[i.index]? with
  | some o =>
    match o.fields.find? name with
    | some v => some (.field v)
    | none => (h.method? o.klass name).map .method
  | none => none

/-- The static member of a class: its field, else its method, else that of its superclass. -/
def static? (h : Heap) (c : ClassId) (name : String) : Option Value :=
  match h.classes[c.index]? with
  | some k =>
    match k.fields.find? name with
    | some v => some v
    | none =>
      match k.statics.find? name with
      | some f => some (.function f)
      | none =>
        match k.superclass with
        | some s => if s.index < c.index then h.static? s name else none
        | none => none
  | none => none
termination_by c.index

def setStatic (h : Heap) (c : ClassId) (name : String) (v : Value) : Heap :=
  { h with
    classes := h.classes.modify c.index fun k => { k with fields := k.fields.insert name v } }

def className (h : Heap) (c : ClassId) : String :=
  match h.classes[c.index]? with
  | some k => k.name
  | none => ""

def setField (h : Heap) (i : InstanceId) (name : String) (v : Value) : Heap :=
  { h with
    instances := h.instances.modify i.index fun o => { o with fields := o.fields.insert name v } }

/-- The members of a class: those of its traits, a later trait before an earlier one, and its own
before all. -/
def compose (h : Heap) (traits : List TraitId) (members : Trait → Table Closure)
    (own : Table Closure) : Table Closure :=
  let inherited : Table Closure := traits.foldl (fun (table : Table Closure) t =>
    match h.traits[t.index]? with
    | some k => table.insertAll (members k).entries
    | none => table) ∅
  inherited.insertAll own.entries

/-- The function in a frame of its own in which `this` is `receiver`. -/
def bind (h : Heap) (f : Closure) (receiver : Value) : Closure × Heap :=
  let (frame, h) := h.newFrame f.frame (.ofPairs [(Name.this, receiver)])
  h.newClosure f.function frame f.kind

/-- How many arguments a value is called with, if it can be called. -/
def arity? (h : Heap) : Value → Option Nat
  | .native f => some f.arity
  | .function f => some f.arity
  | .klass c =>
    match h.method? c Name.init with
    | some f => some f.arity
    | none => some 0
  | _ => none

end Heap

end Lox
