import HostCall.Proofs.NameOrder
import HostCall.Registry

/-! Modules over a whole setup. A host builds modules on its own, takes them into the registry and
puts functions into modules there, in any order. All that a step can do to the registry is to put
one module under its own name. Which modules there are can therefore be told from what the steps
have answered: those that were taken in, reached for or given a function. So can what is found under
two names: the first function that was registered there, and none ever takes its place. Main
statements: `SetupStep.effect_on`, `SetupRun.Inv.after`, `registry_history`. -/

namespace HostCall

variable {ν : Type}

namespace Module

/-- The module with one more function. -/
def extend (m : Module ν) (function : String) (fn : HostFn ν) : Module ν :=
  { m with functions := m.functions.set function fn }

theorem insert_of_none {m : Module ν} {function : String} (h : m.functions.get? function = none)
    (fn : HostFn ν) : m.insert function fn = .ok (m.extend function fn) := by
  rw [insert, h]
  rfl

theorem insert_of_isSome {m : Module ν} {function : String}
    (h : (m.functions.get? function).isSome) (fn : HostFn ν) :
    m.insert function fn = .error (.duplicateFunction m.name function) := by
  obtain ⟨old, hold⟩ := Option.isSome_iff_exists.1 h
  rw [insert, hold]

/-- The functions are listed in the order of their names, each once, and they are those that a
look-up finds. -/
structure Listed (m : Module ν) : Prop where
  order : NamesIncrease (m.functions.toList.map (·.1))
  mem_iff : ∀ function fn,
    (function, fn) ∈ m.functions.toList ↔ m.functions.get? function = some fn

theorem listed_of_order {m : Module ν} (h : NamesIncrease (m.functions.toList.map (·.1))) :
    m.Listed :=
  ⟨h, NameMap.mem_toList_iff h⟩

theorem listed_empty (name : String) : (empty name : Module ν).Listed :=
  listed_of_order List.Pairwise.nil

theorem Listed.extend {m : Module ν} (h : m.Listed) (function : String) (fn : HostFn ν) :
    (m.extend function fn).Listed :=
  listed_of_order (NameMap.namesIncrease_set h.order function fn)

end Module

namespace Registry

/-- Puts a module under its own name. -/
def put (r : Registry ν) (m : Module ν) : Registry ν := ⟨r.modules.set m.name m⟩

theorem get?_put (r : Registry ν) (m : Module ν) (name : String) :
    (r.put m).get? name = if name = m.name then some m else r.get? name :=
  NameMap.get?_set r.modules m.name m name

theorem isSome_get?_put (r : Registry ν) (m : Module ν) (name : String) :
    ((r.put m).get? name).isSome ↔ m.name = name ∨ (r.get? name).isSome := by
  rw [get?_put]
  by_cases h : name = m.name
  · simp [h]
  · simp [h, Ne.symm h]

theorem function?_put (r : Registry ν) (m : Module ν) (name function : String) :
    (r.put m).function? name function =
      if name = m.name then m.functions.get? function else r.function? name function := by
  rw [function?, get?_put]
  split <;> rfl

/-- Each module is under its own name, and names are in order. -/
structure WellFormed (r : Registry ν) : Prop where
  name : ∀ name m, r.get? name = some m → m.name = name
  order : NamesIncrease (r.modules.toList.map (·.1))
  listed : ∀ name m, r.get? name = some m → m.Listed

theorem wellFormed_empty : (empty : Registry ν).WellFormed where
  name _ _ h := by contradiction
  order := List.Pairwise.nil
  listed _ _ h := by contradiction

namespace WellFormed

variable {r : Registry ν} {m : Module ν} {name : String}

theorem put (h : r.WellFormed) (hm : m.Listed) : (r.put m).WellFormed where
  name n m' hget := by
    rw [get?_put] at hget
    split at hget
    · next hn =>
      cases hget
      exact hn.symm
    · exact h.name n m' hget
  order := NameMap.namesIncrease_set h.order m.name m
  listed n m' hget := by
    rw [get?_put] at hget
    split at hget
    · cases hget
      exact hm
    · exact h.listed n m' hget

/-- The modules are listed in the order of their names, each once. -/
theorem namesIncrease_toList (h : r.WellFormed) : NamesIncrease (r.toList.map Module.name) := by
  have hnames : r.toList.map Module.name = r.modules.toList.map (·.1) := by
    rw [toList, List.map_map]
    refine List.map_congr_left fun e he => ?_
    exact h.name e.1 e.2 ((NameMap.mem_toList_iff h.order e.1 e.2).1 he)
  rw [hnames]
  exact h.order

/-- They are those that a look-up finds. -/
theorem mem_toList_iff (h : r.WellFormed) (m : Module ν) :
    m ∈ r.toList ↔ r.get? m.name = some m := by
  rw [get?, ← NameMap.mem_toList_iff h.order, toList, List.mem_map]
  constructor
  · rintro ⟨⟨key, m'⟩, hmem, rfl⟩
    have hname := h.name key m' ((NameMap.mem_toList_iff h.order key m').1 hmem)
    rwa [hname]
  · exact fun hmem => ⟨_, hmem, rfl⟩

end WellFormed

section Operations

variable {r : Registry ν} {m : Module ν} {name function : String}

theorem getOrNew_of_some (h : r.get? name = some m) : r.getOrNew name = (m, r) := by
  rw [getOrNew, h]

theorem getOrNew_of_none (h : r.get? name = none) :
    r.getOrNew name = (.empty name, r.put (.empty name)) := by
  rw [getOrNew, h]
  rfl

theorem add_of_none (h : r.get? m.name = none) : r.add m = .ok (r.put m) := by
  rw [add, h]
  rfl

theorem add_of_isSome (h : (r.get? m.name).isSome) :
    r.add m = .error (.duplicateModule m.name) := by
  obtain ⟨old, hold⟩ := Option.isSome_iff_exists.1 h
  rw [add, hold]

/-- The module that is reached holds what is found under its name. -/
theorem get?_functions_getOrNew (r : Registry ν) (name function : String) :
    (r.getOrNew name).1.functions.get? function = r.function? name function := by
  cases h : r.get? name with
  | none =>
    rw [getOrNew_of_none h, function?, h]
    rfl
  | some m =>
    rw [getOrNew_of_some h, function?, h]
    rfl

theorem WellFormed.name_getOrNew (h : r.WellFormed) (name : String) :
    (r.getOrNew name).1.name = name := by
  cases hget : r.get? name with
  | none =>
    rw [getOrNew_of_none hget]
    rfl
  | some m =>
    rw [getOrNew_of_some hget]
    exact h.name name m hget

theorem WellFormed.listed_getOrNew (h : r.WellFormed) (name : String) :
    (r.getOrNew name).1.Listed := by
  cases hget : r.get? name with
  | none =>
    rw [getOrNew_of_none hget]
    exact Module.listed_empty name
  | some m =>
    rw [getOrNew_of_some hget]
    exact h.listed name m hget

theorem insert_eq (r : Registry ν) (name function : String) (fn : HostFn ν) :
    r.insert name function fn = ((r.getOrNew name).1.insert function fn).map fun m =>
      ⟨(r.getOrNew name).2.modules.set name m⟩ :=
  rfl

/-- Putting a function into a module puts the longer module in place of the old one. -/
theorem WellFormed.insert_of_none (h : r.WellFormed) (hnew : r.function? name function = none)
    (fn : HostFn ν) :
    r.insert name function fn = .ok (r.put ((r.getOrNew name).1.extend function fn)) := by
  have hnone : (r.getOrNew name).1.functions.get? function = none := by
    rwa [get?_functions_getOrNew]
  have hname : ((r.getOrNew name).1.extend function fn).name = name := h.name_getOrNew name
  rw [insert_eq, Module.insert_of_none hnone, Registry.put, hname]
  cases hget : r.get? name with
  | none =>
    rw [getOrNew_of_none hget]
    refine congrArg Except.ok (congrArg Registry.mk ?_)
    exact NameMap.set_set r.modules name _ _
  | some m =>
    rw [getOrNew_of_some hget]
    rfl

/-- A function is refused only where the module is there, and reaching that changes nothing. -/
theorem WellFormed.insert_of_isSome (h : r.WellFormed) (hold : (r.function? name function).isSome)
    (fn : HostFn ν) :
    r.insert name function fn = .error (.duplicateFunction name function) ∧
      (r.getOrNew name).2 = r := by
  have hsome : ((r.getOrNew name).1.functions.get? function).isSome := by
    rwa [get?_functions_getOrNew]
  refine ⟨?_, ?_⟩
  · rw [insert_eq, Module.insert_of_isSome hsome, h.name_getOrNew]
    rfl
  · cases hget : r.get? name with
    | none =>
      rw [function?, hget] at hold
      contradiction
    | some m => rw [getOrNew_of_some hget]

end Operations

end Registry

/-- What a host does while it sets up its modules. -/
inductive SetupStep (ν : Type) where
  /-- Puts a function into one of the host's own modules. -/
  | fill (i : Nat) (function : String) (fn : HostFn ν)
  /-- Takes a copy of one of them into the registry. -/
  | add (i : Nat)
  /-- Reaches for a module of the registry, which is there afterwards. -/
  | reach (module : String)
  /-- Reaches for a module of the registry and puts a function into it. -/
  | insert (module function : String) (fn : HostFn ν)

/-- The modules that a host has. -/
structure Setup (ν : Type) where
  /-- Those that it has built on its own. -/
  loose : Nat → Module ν
  registry : Registry ν

/-- `m` in place of the host's `i`-th module. -/
def Setup.refill (s : Setup ν) (i : Nat) (m : Module ν) : Setup ν :=
  { s with loose := fun j => if j = i then m else s.loose j }

namespace SetupStep

/-- What there is after a step, and why it was refused if it was. A module that was reached for is
there also where it then refuses the function. -/
def on (s : Setup ν) : SetupStep ν → Setup ν × Option RegistrationError
  | fill i function fn =>
    match (s.loose i).insert function fn with
    | .ok m => (s.refill i m, none)
    | .error e => (s, some e)
  | add i =>
    match s.registry.add (s.loose i) with
    | .ok r => ({ s with registry := r }, none)
    | .error e => (s, some e)
  | reach module => ({ s with registry := (s.registry.getOrNew module).2 }, none)
  | insert module function fn =>
    match s.registry.insert module function fn with
    | .ok r => ({ s with registry := r }, none)
    | .error e => ({ s with registry := (s.registry.getOrNew module).2 }, some e)

/-- The step gives a name a second time, for which it is refused with `e`. -/
def Refused (s : Setup ν) (e : RegistrationError) : SetupStep ν → Prop
  | fill i function _ =>
    ((s.loose i).functions.get? function).isSome ∧ e = .duplicateFunction (s.loose i).name function
  | add i => (s.registry.get? (s.loose i).name).isSome ∧ e = .duplicateModule (s.loose i).name
  | reach _ => False
  | insert module function _ =>
    (s.registry.function? module function).isSome ∧ e = .duplicateFunction module function

/-- All that a step can do. -/
inductive Effect (s : Setup ν) : SetupStep ν → Setup ν → Option RegistrationError → Prop
  | fill {i : Nat} {function : String} (fn : HostFn ν)
      (hnew : (s.loose i).functions.get? function = none) :
    Effect s (.fill i function fn) (s.refill i ((s.loose i).extend function fn)) none
  | add {i : Nat} (hnew : s.registry.get? (s.loose i).name = none) :
    Effect s (.add i) { s with registry := s.registry.put (s.loose i) } none
  | find {module : String} (hold : (s.registry.get? module).isSome) :
    Effect s (.reach module) s none
  | make {module : String} (hnew : s.registry.get? module = none) :
    Effect s (.reach module) { s with registry := s.registry.put (.empty module) } none
  | insert {module function : String} (fn : HostFn ν)
      (hnew : s.registry.function? module function = none) :
    Effect s (.insert module function fn)
      { s with registry := s.registry.put ((s.registry.getOrNew module).1.extend function fn) } none
  | refuse {step : SetupStep ν} {e : RegistrationError} (h : step.Refused s e) :
    Effect s step s (some e)

theorem effect_on {s : Setup ν} (hs : s.registry.WellFormed) (step : SetupStep ν) :
    Effect s step (step.on s).1 (step.on s).2 := by
  cases step with
  | fill i function fn =>
    cases h : (s.loose i).functions.get? function with
    | none =>
      rw [on, Module.insert_of_none h]
      exact .fill fn h
    | some old =>
      have hold := Option.isSome_of_eq_some h
      rw [on, Module.insert_of_isSome hold]
      exact .refuse ⟨hold, rfl⟩
  | add i =>
    cases h : s.registry.get? (s.loose i).name with
    | none =>
      rw [on, Registry.add_of_none h]
      exact .add h
    | some old =>
      have hold := Option.isSome_of_eq_some h
      rw [on, Registry.add_of_isSome hold]
      exact .refuse ⟨hold, rfl⟩
  | reach module =>
    cases h : s.registry.get? module with
    | none =>
      rw [on, Registry.getOrNew_of_none h]
      exact .make h
    | some m =>
      rw [on, Registry.getOrNew_of_some h]
      exact .find (Option.isSome_of_eq_some h)
  | insert module function fn =>
    cases h : s.registry.function? module function with
    | none =>
      rw [on, hs.insert_of_none h]
      exact .insert fn h
    | some old =>
      have hold := Option.isSome_of_eq_some h
      obtain ⟨herror, hsame⟩ := hs.insert_of_isSome hold fn
      rw [on, herror, hsame]
      exact .refuse ⟨hold, rfl⟩

variable {s s' : Setup ν} {step : SetupStep ν} {answer : Option RegistrationError}

/-- A step that is refused changes nothing. -/
theorem Effect.eq_of_isSome (h : Effect s step s' answer) (ha : answer.isSome) : s' = s := by
  cases h with
  | refuse => rfl
  | _ => contradiction

/-- A step is refused just where it gives a name a second time. -/
theorem Effect.answer_iff (h : Effect s step s' answer) (e : RegistrationError) :
    answer = some e ↔ step.Refused s e := by
  cases h with
  | fill fn hnew | add hnew | insert fn hnew => simp [Refused, hnew]
  | find | make => simp [Refused]
  | @refuse _ e' hrefused =>
    constructor
    · rintro ⟨⟩
      exact hrefused
    · intro h
      cases step with
      | fill | add | insert => rw [hrefused.2, h.2]
      | reach => contradiction

theorem Effect.wellFormed (h : Effect s step s' answer) (hs : s.registry.WellFormed)
    (hloose : ∀ i, (s.loose i).Listed) :
    s'.registry.WellFormed ∧ ∀ i, (s'.loose i).Listed := by
  cases h with
  | @fill i function fn =>
    refine ⟨hs, fun j => ?_⟩
    change (if j = i then _ else s.loose j).Listed
    split
    · exact (hloose i).extend function fn
    · exact hloose j
  | @add i => exact ⟨hs.put (hloose i), hloose⟩
  | @make module => exact ⟨hs.put (Module.listed_empty module), hloose⟩
  | @insert module function fn =>
    exact ⟨hs.put ((hs.listed_getOrNew module).extend function fn), hloose⟩
  | find | refuse => exact ⟨hs, hloose⟩

end SetupStep

/-- A step, and why it was refused if it was. -/
abbrev SetupEvent (ν : Type) := SetupStep ν × Option RegistrationError

namespace SetupEvent

/-- The functions that the host's `i`-th module has taken, in the order of time. The latest event of
`past` is its first. -/
def filled (i : Nat) : (past : List (SetupEvent ν)) → List (String × HostFn ν)
  | [] => []
  | (.fill j function fn, none) :: past =>
    if j = i then filled i past ++ [(function, fn)] else filled i past
  | _ :: past => filled i past

/-- What an event after `past` has registered, where `names` are those of the host's own modules. -/
def gained (names : Nat → String) (past : List (SetupEvent ν)) :
    SetupEvent ν → List ((String × String) × HostFn ν)
  | (.add i, none) => (filled i past).map fun e => ((names i, e.1), e.2)
  | (.insert module function fn, none) => [((module, function), fn)]
  | _ => []

/-- All that has been registered, in the order of time. -/
def registered (names : Nat → String) :
    (past : List (SetupEvent ν)) → List ((String × String) × HostFn ν)
  | [] => []
  | e :: past => registered names past ++ gained names past e

/-- The module that an event leaves in the registry: one that was taken in, reached for or given a
function. An event that was refused leaves none. -/
def module? (names : Nat → String) : SetupEvent ν → Option String
  | (.add i, none) => some (names i)
  | (.reach module, none) | (.insert module _ _, none) => some module
  | _ => none

/-- The modules that the events have left in the registry, some of them perhaps more than once. -/
def placed (names : Nat → String) (past : List (SetupEvent ν)) : List String :=
  past.filterMap (module? names)

theorem mem_placed_cons {names : Nat → String} {e : SetupEvent ν} {past : List (SetupEvent ν)}
    {name : String} : name ∈ placed names (e :: past) ↔
      e.module? names = some name ∨ name ∈ placed names past := by
  simp [placed]

theorem lookup_cons_ite {κ α : Type} [BEq κ] [LawfulBEq κ] [DecidableEq κ] (k key : κ) (a : α)
    (es : List (κ × α)) :
    ((key, a) :: es).lookup k = if k = key then some a else es.lookup k := by
  rw [List.lookup_cons]
  by_cases h : k = key
  · simp [h]
  · have hb : (k == key) = false := beq_false_of_ne h
    simp [h, hb]

theorem lookup_map_module (module : String) (fns : List (String × HostFn ν))
    (name function : String) :
    (fns.map fun e => ((module, e.1), e.2)).lookup (name, function) =
      if name = module then fns.lookup function else none := by
  induction fns with
  | nil => simp
  | cons e fns ih =>
    rw [List.map_cons, lookup_cons_ite, lookup_cons_ite, ih]
    by_cases hn : name = module <;> simp [hn]

end SetupEvent

/-- After a step there are the modules that were there before and the one that it leaves. -/
theorem SetupStep.Effect.isSome_get? {names : Nat → String} {s s' : Setup ν} {step : SetupStep ν}
    {answer : Option RegistrationError} (h : Effect s step s' answer) (hs : s.registry.WellFormed)
    (hname : ∀ i, (s.loose i).name = names i) (name : String) :
    (s'.registry.get? name).isSome ↔
      SetupEvent.module? names (step, answer) = some name ∨ (s.registry.get? name).isSome := by
  cases h with
  | fill => simp [SetupEvent.module?, Setup.refill]
  | @add i => rw [Registry.isSome_get?_put, hname, SetupEvent.module?, Option.some_inj]
  | @find module hold =>
    rw [SetupEvent.module?, Option.some_inj]
    constructor
    · exact .inr
    · rintro (rfl | hsome)
      · exact hold
      · exact hsome
  | @make module =>
    rw [Registry.isSome_get?_put, SetupEvent.module?, Option.some_inj]
    exact Iff.rfl
  | @insert module function fn =>
    have hmodule : ((s.registry.getOrNew module).1.extend function fn).name = module :=
      hs.name_getOrNew module
    rw [Registry.isSome_get?_put, hmodule, SetupEvent.module?, Option.some_inj]
  | @refuse step e =>
    cases step <;> simp [SetupEvent.module?]

/-- The modules of a host and the events so far, the latest first. -/
structure SetupRun (ν : Type) extends Setup ν where
  past : List (SetupEvent ν)

namespace SetupRun

open SetupEvent

/-- Nothing is registered, and the host's own modules, called `names`, are empty. -/
def start (names : Nat → String) : SetupRun ν := ⟨⟨fun i => .empty (names i), .empty⟩, []⟩

def next (run : SetupRun ν) (step : SetupStep ν) : SetupRun ν :=
  ⟨(step.on run.toSetup).1, (step, (step.on run.toSetup).2) :: run.past⟩

def after (run : SetupRun ν) (steps : List (SetupStep ν)) : SetupRun ν := steps.foldl next run

/-- What is true of the modules and the events all along a run. -/
structure Inv (names : Nat → String) (run : SetupRun ν) : Prop where
  wellFormed : run.registry.WellFormed
  listed : ∀ i, (run.loose i).Listed
  name : ∀ i, (run.loose i).name = names i
  placed : ∀ name, (run.registry.get? name).isSome ↔ name ∈ placed names run.past
  filled : ∀ i function,
    (run.loose i).functions.get? function = (filled i run.past).lookup function
  registered : ∀ module function, run.registry.function? module function =
    (registered names run.past).lookup (module, function)

variable {names : Nat → String} {run : SetupRun ν}

theorem inv_start (names : Nat → String) : (start names : SetupRun ν).Inv names where
  wellFormed := Registry.wellFormed_empty
  listed i := Module.listed_empty (names i)
  name _ := rfl
  placed _ := iff_of_false Bool.noConfusion List.not_mem_nil
  filled _ _ := rfl
  registered _ _ := rfl

/-- The host's own modules are as what they have taken says. -/
theorem Inv.next_loose (h : run.Inv names) (step : SetupStep ν) (i : Nat) :
    ((run.next step).loose i).name = names i ∧
      ∀ function, ((run.next step).loose i).functions.get? function =
        (SetupEvent.filled i (run.next step).past).lookup function := by
  have heffect := step.effect_on h.wellFormed
  unfold next
  generalize (step.on run.toSetup).1 = s, (step.on run.toSetup).2 = answer at heffect
  cases heffect with
  | @fill j f fn hnew =>
    dsimp only [Setup.refill, SetupEvent.filled]
    by_cases hij : i = j
    · subst hij
      rw [if_pos rfl, if_pos rfl]
      refine ⟨h.name i, fun function => ?_⟩
      rw [List.lookup_append, ← h.filled, Module.extend, NameMap.get?_set, lookup_cons_ite]
      by_cases hf : function = f
      · simp [hf, hnew]
      · simp [hf]
    · rw [if_neg hij, if_neg (Ne.symm hij)]
      exact ⟨h.name i, h.filled i⟩
  | add | insert | find | make => exact ⟨h.name i, h.filled i⟩
  | @refuse step e =>
    refine ⟨h.name i, fun function => (h.filled i function).trans ?_⟩
    cases step <;> rfl

/-- The registry is as what has been registered says. -/
theorem Inv.next_registered (h : run.Inv names) (step : SetupStep ν) (module function : String) :
    (run.next step).registry.function? module function =
      (SetupEvent.registered names (run.next step).past).lookup (module, function) := by
  have heffect := step.effect_on h.wellFormed
  unfold next
  generalize (step.on run.toSetup).1 = s, (step.on run.toSetup).2 = answer at heffect
  dsimp only [SetupEvent.registered]
  rw [List.lookup_append, ← h.registered]
  cases heffect with
  | fill | find => exact Option.or_none.symm
  | @add i hnew =>
    rw [Registry.function?_put, h.filled, gained, lookup_map_module, h.name]
    rw [h.name] at hnew
    by_cases hm : module = names i
    · have hnone : run.registry.function? module function = none := by
        rw [hm, Registry.function?, hnew]
        rfl
      rw [if_pos hm, if_pos hm, hnone, Option.none_or]
    · rw [if_neg hm, if_neg hm, Option.or_none]
  | @make m hnew =>
    change _ = (run.registry.function? module function).or none
    rw [Registry.function?_put, Option.or_none]
    split
    · next hm =>
      rw [hm, Registry.function?, show run.registry.get? (Module.empty m).name = none from hnew]
      rfl
    · rfl
  | @insert m f fn hnew =>
    have hname := h.wellFormed.name_getOrNew m
    rw [Registry.function?_put, Module.extend, hname, NameMap.get?_set,
      Registry.get?_functions_getOrNew, gained, lookup_cons_ite]
    by_cases hm : module = m
    · by_cases hf : function = f
      · simp [hm, hf, hnew]
      · simp [hm, hf]
    · simp [hm]
  | @refuse step e =>
    cases step <;> exact Option.or_none.symm

/-- The registry has the modules that the events have left there. -/
theorem Inv.next_placed (h : run.Inv names) (step : SetupStep ν) (name : String) :
    ((run.next step).registry.get? name).isSome ↔
      name ∈ SetupEvent.placed names (run.next step).past := by
  have heffect := step.effect_on h.wellFormed
  unfold next
  rw [mem_placed_cons, ← h.placed]
  exact heffect.isSome_get? h.wellFormed h.name name

theorem Inv.next (h : run.Inv names) (step : SetupStep ν) : (run.next step).Inv names :=
  have hkept := (step.effect_on h.wellFormed).wellFormed h.wellFormed h.listed
  { wellFormed := hkept.1
    listed := hkept.2
    name := fun i => (h.next_loose step i).1
    placed := h.next_placed step
    filled := fun i => (h.next_loose step i).2
    registered := h.next_registered step }

theorem Inv.after (h : run.Inv names) (steps : List (SetupStep ν)) :
    (run.after steps).Inv names := by
  induction steps generalizing run with
  | nil => exact h
  | cons step steps ih => exact ih (h.next step)

/-- What has been registered stays registered, and in the same place. -/
theorem registered_after (names : Nat → String) (run : SetupRun ν) (steps : List (SetupStep ν)) :
    SetupEvent.registered names run.past <+:
      SetupEvent.registered names (run.after steps).past := by
  induction steps generalizing run with
  | nil => exact List.prefix_refl _
  | cons step steps ih => exact (List.prefix_append _ _).trans (ih (run.next step))

theorem Inv.function?_after (h : run.Inv names) (later : List (SetupStep ν))
    {module function : String} {fn : HostFn ν}
    (hfound : run.registry.function? module function = some fn) :
    (run.after later).registry.function? module function = some fn := by
  obtain ⟨rest, hrest⟩ := registered_after names run later
  rw [(h.after later).registered, ← hrest, List.lookup_append, ← h.registered, hfound]
  rfl

end SetupRun

/-- What any setup shows of the registry. Each module is under its own name, and those are there that
were taken in, reached for or given a function; under two names stands the function that was
registered there first, and it stands there from then on. A step is refused just where it gives a
name a second time, and then it has changed nothing. Modules, and the functions of each, are listed
once in the order of their names. The host's own modules have the functions that they have taken. -/
theorem registry_history (names : Nat → String) (steps : List (SetupStep ν)) :
    let run := (SetupRun.start names).after steps
    (∀ name m, run.registry.get? name = some m → m.name = name) ∧
    (∀ name, (run.registry.get? name).isSome ↔ name ∈ SetupEvent.placed names run.past) ∧
    (∀ module function, run.registry.function? module function =
      (SetupEvent.registered names run.past).lookup (module, function)) ∧
    (∀ later module function fn, run.registry.function? module function = some fn →
      (run.after later).registry.function? module function = some fn) ∧
    (∀ (step : SetupStep ν) (e : RegistrationError),
      (step.on run.toSetup).2 = some e ↔ step.Refused run.toSetup e) ∧
    (∀ step : SetupStep ν, (step.on run.toSetup).2.isSome → (step.on run.toSetup).1 = run.toSetup) ∧
    (NamesIncrease (run.registry.toList.map Module.name) ∧
      ∀ m, m ∈ run.registry.toList ↔ run.registry.get? m.name = some m) ∧
    (∀ m ∈ run.registry.toList, m.Listed) ∧
    ∀ i, (run.loose i).name = names i ∧ (run.loose i).Listed ∧
      ∀ function, (run.loose i).functions.get? function =
        (SetupEvent.filled i run.past).lookup function := by
  intro run
  have hinv : run.Inv names := (SetupRun.inv_start names).after steps
  have heffect (step : SetupStep ν) := step.effect_on hinv.wellFormed
  refine ⟨hinv.wellFormed.name, hinv.placed, hinv.registered,
    fun later _ _ _ => hinv.function?_after later, fun step e => (heffect step).answer_iff e,
    fun step => (heffect step).eq_of_isSome,
    ⟨hinv.wellFormed.namesIncrease_toList, hinv.wellFormed.mem_toList_iff⟩, fun m hm => ?_,
    fun i => ⟨hinv.name i, hinv.listed i, hinv.filled i⟩⟩
  exact hinv.wellFormed.listed m.name m ((hinv.wellFormed.mem_toList_iff m).1 hm)

/-- A copy in the registry does not get what its original takes later, not even if that is offered
again. A module that was only reached for is there without functions. -/
example (f g : HostFn ν) :
    let steps : List (SetupStep ν) :=
      [.fill 0 "f" f, .add 0, .fill 0 "g" g, .add 0, .insert "env" "f" g, .insert "a" "g" g,
        .reach "b"]
    let run := (SetupRun.start fun _ => "env").after steps
    run.registry.function? "env" "f" = some f ∧ run.registry.function? "env" "g" = none ∧
      run.registry.toList.map Module.name = ["a", "b", "env"] := by
  cbv

end HostCall
