import HostCall.Fault

/-! A computation that always has a value and may have met a fault on the way. In sequence the
first fault wins, and no later step can see whether there was one. -/

namespace HostCall

structure Outcome (α : Type) where
  value : α
  fault : Option Fault

namespace Outcome

variable {α β : Type}

/-- `a`, with a fault to report. -/
def failing (f : Fault) (a : α) : Outcome α := ⟨a, some f⟩

/-- The value of a check that stops at a fault, or `fallback` in its place. -/
def ofExcept (fallback : α) : Except Fault α → Outcome α
  | .ok a => ⟨a, none⟩
  | .error f => ⟨fallback, some f⟩

instance : Monad Outcome where
  pure a := ⟨a, none⟩
  bind x f :=
    let y := f x.value
    ⟨y.value, x.fault.or y.fault⟩

/-- The values of all of `os` and the first of their faults. -/
def all (os : List (Outcome α)) : Outcome (List α) :=
  ⟨os.map value, os.findSome? fault⟩

@[simp] theorem value_pure (a : α) : (pure a : Outcome α).value = a := rfl

@[simp] theorem fault_pure (a : α) : (pure a : Outcome α).fault = none := rfl

@[simp] theorem value_bind (x : Outcome α) (f : α → Outcome β) :
    (x >>= f).value = (f x.value).value := rfl

@[simp] theorem fault_bind (x : Outcome α) (f : α → Outcome β) :
    (x >>= f).fault = x.fault.or (f x.value).fault := rfl

@[ext] theorem ext {x y : Outcome α} (hv : x.value = y.value) (hf : x.fault = y.fault) : x = y := by
  cases x
  cases y
  simp_all

instance : LawfulMonad Outcome :=
  LawfulMonad.mk' Outcome (fun _ => ext rfl Option.or_none) (fun _ _ => rfl)
    (fun _ _ _ => ext rfl Option.or_assoc)

end Outcome

end HostCall
