import HostCall.HostType.Lift
import HostCall.HostType.Lower

/-! The state of one call: its stack, what it can reach, and the first fault met so far. Every
operation runs to its end whatever happened before; a fault is kept only while no earlier one is,
so what an operation does to stack, memory and table never depends on the kept fault. -/

namespace HostCall

structure Frame extends Resources where
  /-- The cells of the stack, its top first. -/
  stack : List Cell
  fault : Option Fault

namespace Frame

variable {α : Type}

/-- A call with `cells` on its stack, given from bottom to top. -/
def start (resources : Resources) (cells : List Cell) : Frame :=
  { toResources := resources, stack := cells.reverse, fault := none }

/-- The stack from bottom to top. -/
def cells (fr : Frame) : List Cell := fr.stack.reverse

/-- Keeps `f` unless a fault is kept already. -/
def fail (fr : Frame) (f : Fault) : Frame := { fr with fault := fr.fault.or (some f) }

/-- The kept fault, and the frame without it. -/
def takeFault (fr : Frame) : Option Fault × Frame := (fr.fault, { fr with fault := none })

/-- The value of `o`, its fault kept. -/
def settle (fr : Frame) (o : Outcome α) : α × Frame :=
  (o.value, { fr with fault := fr.fault.or o.fault })

/-- Runs steps that take cells from the stack. -/
def taking (fr : Frame) (steps : Lifting α) : α × Frame :=
  let o := steps fr.stack
  (o.value.1, { fr with stack := o.value.2, fault := fr.fault.or o.fault })

/-- Runs steps that write to memory and table. -/
def giving (fr : Frame) (steps : Lowering α) : α × Frame :=
  let o := steps fr.toResources
  (o.value.1, { fr with toResources := o.value.2, fault := fr.fault.or o.fault })

def push (fr : Frame) (c : Cell) : Frame := { fr with stack := c :: fr.stack }

/-- Pushes `cells`, the first of them first. -/
def pushAll (fr : Frame) (cells : List Cell) : Frame :=
  { fr with stack := cells.reverse ++ fr.stack }

def pop (fr : Frame) : Cell × Frame := fr.taking Lifting.pop

def lift (fr : Frame) (t : HostType) : t.Val × Frame := fr.taking (t.lift fr.toResources)

def lower (fr : Frame) (t : HostType) (v : t.Val) : Frame :=
  let (cells, fr) := fr.giving (t.lower v)
  fr.pushAll cells

/-- Reads a value in memory form. -/
def readValue (fr : Frame) (t : MemType) (a : Addr) : t.Val × Frame :=
  fr.settle (t.read fr.memory a)

/-- Writes a value in memory form and gives the number of bytes it took at `data`. -/
def writeValue (fr : Frame) (t : MemType) (v : t.Val) (a data : Addr) : UInt32 × Frame :=
  fr.giving (Lowering.onMemory (t.write v a data))

/-- The `n` bytes at `a`, if they are in bounds. -/
def read? (fr : Frame) (a : Addr) (n : UInt32) : Option Bytes × Frame :=
  match fr.memory.read a n with
  | .ok bs => (some bs, fr)
  | .error f => (none, fr.fail f)

def readWord (fr : Frame) (a : Addr) : UInt32 × Frame := fr.settle (fr.memory.loadWord a)

/-- Writes `bs` at `a` and says whether they are in bounds. -/
def write (fr : Frame) (a : Addr) (bs : Bytes) : Bool × Frame :=
  match fr.memory.write a bs with
  | .ok m => (true, { fr with memory := m })
  | .error f => (false, fr.fail f)

def cancel (fr : Frame) : Frame := { fr with cancelled := true }

end Frame

end HostCall
