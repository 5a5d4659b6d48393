import HostCall.Binding.Config
import HostCall.Binding.GuestValue
import HostCall.Binding.Linker

/-! Calls from a guest. Each call has a fresh stack with the cells of its arguments on it and the
guest's memory if that is exported under the configured name. Memory, table and cancellation flag
outlive the call, whether it traps or not. -/

namespace HostCall.Binding

structure Guest where
  memory : Memory
  /-- The name that the memory is exported under. -/
  memoryName : Option String

/-- What all calls of a binding share. -/
structure Shared where
  handles : HandleTable
  cancelled : Bool

variable {ν : Type}

/-- Whether the functions of a binding see the guest's memory. -/
def Guest.exports (guest : Guest) (config : Config) : Bool :=
  guest.memoryName == some config.memoryExport

/-- The frame that a call starts with. -/
def entry (config : Config) (guest : Guest) (shared : Shared) (cells : List Cell) : Frame :=
  let memory := if guest.exports config then guest.memory else .absent
  .start { memory := memory, handles := some shared.handles, cancelled := shared.cancelled } cells

/-- What the guest gets back from a call that ended in `fr`. -/
def outcome (config : Config) (i : Import ν) (fr : Frame) : Except Trap (List GuestValue) :=
  match fr.fault, config.trapOnError with
  | some f, true => .error (.failed i.label f)
  | _, _ =>
    if fr.stack.length = i.results.length then
      .ok (List.zipWith GuestValue.ofCell i.results fr.cells)
    else .error (.resultCount i.label i.results.length fr.stack.length)

/-- A call that has been made, with results of type `ρ` unless it trapped. -/
structure Called (ν ρ : Type) where
  note : ν
  guest : Guest
  shared : Shared
  outcome : Except Trap ρ

/-- Runs the function on the cells of the arguments. -/
def respond (config : Config) (guest : Guest) (shared : Shared) (i : Import ν) (cells : List Cell) :
    Called ν (List GuestValue) :=
  let (note, fr) := i.fn.run (entry config guest shared cells)
  { note := note
    guest := if guest.exports config then { guest with memory := fr.memory } else guest
    shared := { handles := fr.handles.getD shared.handles, cancelled := fr.cancelled }
    outcome := outcome config i fr }

/-- A call with values of the guest. It is refused before anything runs if one of them has no
cell. -/
def invoke (config : Config) (guest : Guest) (shared : Shared) (i : Import ν)
    (args : List GuestValue) : Except ArgumentMismatch (Called ν (List GuestValue)) :=
  match args.mapM GuestValue.cell? with
  | none => .error ⟨i.label⟩
  | some cells => .ok (respond config guest shared i cells)

/-- The cells of the arguments whose bits are given, each cut to the width of its slot. -/
def argumentCells (kinds : List SlotKind) (bits : List Cell) : List Cell :=
  List.zipWith SlotKind.narrow kinds bits

/-- A call of a guest that is given the bits of its arguments and shows those of its results. -/
def call (config : Config) (guest : Guest) (shared : Shared) (i : Import ν) (bits : List Cell) :
    Called ν (List Cell) :=
  let called := respond config guest shared i (argumentCells i.params bits)
  { called with outcome := called.outcome.map fun results => results.filterMap GuestValue.cell? }

end HostCall.Binding
