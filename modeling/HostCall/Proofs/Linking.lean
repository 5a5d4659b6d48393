import HostCall.Proofs.GuestCall
import HostCall.Proofs.RegistryHistory

/-! Linking all modules of a registry. The functions come in the order of the names of their modules
and then of their own, no two under the same names, so a linker that started empty refuses none of
them; only a slot that guests have no type for ends the linking, at the first function that has one.
Nothing is said of the linker but that it refuses the names that are taken, and no others. Main
statement: `defineAll_links`. -/

namespace HostCall

variable {ν : Type}

/-- A parameter or the result has a slot that guests have no type for. -/
def HostFn.UsesReference (fn : HostFn ν) : Prop := .externRef ∈ fn.paramSlots ++ fn.results

instance (fn : HostFn ν) : Decidable fn.UsesReference := inferInstanceAs (Decidable (_ ∈ _))

namespace Binding

/-- The order of names of modules and, in a module, of functions. -/
def Before (a b : String × String) : Prop :=
  nameBefore a.1 b.1 = true ∨ a.1 = b.1 ∧ nameBefore a.2 b.2 = true

theorem not_before_self (a : String × String) : ¬Before a a := by
  rintro (h | ⟨-, h⟩)
  · exact not_nameBefore_self _ h
  · exact not_nameBefore_self _ h

theorem Before.asymm {a b : String × String} (h : Before a b) : ¬Before b a := by
  intro h'
  rcases h with h | ⟨heq, h⟩
  · rcases h' with h' | ⟨heq', -⟩
    · exact not_nameBefore_self _ (nameBefore_trans h h')
    · rw [heq'] at h
      exact not_nameBefore_self _ h
  · rcases h' with h' | ⟨-, h'⟩
    · rw [heq] at h'
      exact not_nameBefore_self _ h'
    · exact not_nameBefore_self _ (nameBefore_trans h h')

section Addressed

variable {registry : Registry ν}

theorem mem_addressed_iff (h : registry.WellFormed) (module name : String) (fn : HostFn ν) :
    (module, name, fn) ∈ addressed registry ↔ registry.function? module name = some fn := by
  unfold addressed Registry.function?
  simp only [List.mem_flatMap, List.mem_map, Option.bind_eq_some_iff]
  constructor
  · rintro ⟨m, hm, f, hf, heq⟩
    have hget := (h.mem_toList_iff m).1 hm
    cases heq
    exact ⟨m, hget, ((h.listed _ _ hget).mem_iff _ _).1 hf⟩
  · rintro ⟨m, hget, hfn⟩
    have hname := h.name module m hget
    rw [← hname] at hget ⊢
    exact ⟨m, (h.mem_toList_iff m).2 hget, (name, fn), ((h.listed _ _ hget).mem_iff _ _).2 hfn, rfl⟩

theorem addressed_increase (h : registry.WellFormed) :
    (addressed registry).Pairwise fun e e' => Before (e.1, e.2.1) (e'.1, e'.2.1) := by
  refine List.pairwise_flatMap.2 ⟨fun m hm => ?_, ?_⟩
  · have hlisted := h.listed m.name m ((h.mem_toList_iff m).1 hm)
    refine List.pairwise_map.2 ((List.pairwise_map.1 hlisted.order).imp fun hlt => ?_)
    exact .inr ⟨rfl, hlt⟩
  · refine (List.pairwise_map.1 h.namesIncrease_toList).imp fun hlt e he e' he' => ?_
    obtain ⟨f, -, rfl⟩ := List.mem_map.1 he
    obtain ⟨f', -, rfl⟩ := List.mem_map.1 he'
    exact .inl hlt

end Addressed

namespace Linker

theorem unsupported?_eq (fn : HostFn ν) :
    unsupported? fn = if fn.UsesReference then some .externRef else none := by
  split
  · next h =>
    unfold unsupported?
    cases hfind : (fn.paramSlots ++ fn.results).find? (· == .externRef) with
    | none => simpa using List.find?_eq_none.1 hfind _ h
    | some k => simpa using List.find?_some hfind
  · next h =>
    refine unsupported?_eq_none fun k hk heq => h ?_
    rwa [heq] at hk

end Linker

/-- A linker of a guest's runtime: what a guest finds there, and a try to link one more function. A
name that is taken is refused, and no other. -/
structure LinkTarget (ν σ : Type) where
  fresh : σ
  find? : σ → String → String → Option (Import ν)
  link? : σ → Import ν → Option σ
  find?_fresh : ∀ module name, find? fresh module name = none
  link?_eq_none_iff : ∀ s i, link? s i = none ↔ (find? s i.module i.name).isSome
  find?_of_link? : ∀ s i s', link? s i = some s' → ∀ module name,
    find? s' module name = if module = i.module ∧ name = i.name then some i else find? s module name

/-- What is linked of an addressed function. -/
def importOf (e : String × String × HostFn ν) : Import ν := imported e.1 e.2.1 e.2.2

namespace LinkTarget

variable {σ : Type} (target : LinkTarget ν σ)

/-- Links functions in turn, up to the first that cannot be linked. -/
def defineEach (s : σ) : List (String × String × HostFn ν) → σ × Option LinkError
  | [] => (s, none)
  | (module, name, fn) :: rest =>
    match Linker.unsupported? fn with
    | some kind => (s, some (.unsupportedSlot (label module name) kind))
    | none =>
      match target.link? s (imported module name fn) with
      | none => (s, some (.alreadyDefined module name))
      | some s => defineEach s rest

/-- Links a whole registry. -/
def defineAll (s : σ) (registry : Registry ν) : σ × Option LinkError :=
  target.defineEach s (addressed registry)

section DefineEach

variable {s : σ} {module name : String} {fn : HostFn ν} {rest : List (String × String × HostFn ν)}

theorem defineEach_of_usesReference (h : fn.UsesReference) :
    target.defineEach s ((module, name, fn) :: rest) =
      (s, some (.unsupportedSlot (label module name) .externRef)) := by
  rw [defineEach, Linker.unsupported?_eq, if_pos h]

theorem defineEach_of_link?_eq_none (h : ¬fn.UsesReference)
    (hlink : target.link? s (imported module name fn) = none) :
    target.defineEach s ((module, name, fn) :: rest) = (s, some (.alreadyDefined module name)) := by
  rw [defineEach, Linker.unsupported?_eq, if_neg h]
  dsimp only
  rw [hlink]

theorem defineEach_of_link? {s' : σ} (h : ¬fn.UsesReference)
    (hlink : target.link? s (imported module name fn) = some s') :
    target.defineEach s ((module, name, fn) :: rest) = target.defineEach s' rest := by
  rw [defineEach, Linker.unsupported?_eq, if_neg h]
  dsimp only
  rw [hlink]

end DefineEach

end LinkTarget

namespace Linker

/-- One more function, unless its name is taken. -/
def link? (linker : Linker ν) (i : Import ν) : Option (Linker ν) :=
  match linker.find? i.module i.name with
  | some _ => none
  | none => some ⟨linker.imports ++ [i]⟩

section Link

variable {linker : Linker ν} {i : Import ν}

theorem link?_of_isSome (h : (linker.find? i.module i.name).isSome) : linker.link? i = none := by
  obtain ⟨old, hold⟩ := Option.isSome_iff_exists.1 h
  rw [link?, hold]

theorem link?_of_none (h : linker.find? i.module i.name = none) :
    linker.link? i = some ⟨linker.imports ++ [i]⟩ := by
  rw [link?, h]

theorem link?_eq_none_iff (linker : Linker ν) (i : Import ν) :
    linker.link? i = none ↔ (linker.find? i.module i.name).isSome := by
  cases h : linker.find? i.module i.name with
  | none => simp [link?_of_none h]
  | some old => simp [link?_of_isSome (Option.isSome_of_eq_some h)]

theorem find?_of_link? (linker : Linker ν) (i : Import ν) (linker' : Linker ν)
    (h : linker.link? i = some linker') (module name : String) :
    linker'.find? module name =
      if module = i.module ∧ name = i.name then some i else linker.find? module name := by
  cases hfree : linker.find? i.module i.name with
  | some old =>
    rw [link?_of_isSome (Option.isSome_of_eq_some hfree)] at h
    contradiction
  | none =>
    rw [link?_of_none hfree] at h
    cases h
    unfold find? at hfree ⊢
    rw [List.find?_append, List.find?_singleton]
    by_cases ha : module = i.module ∧ name = i.name
    · rw [if_pos ha, ha.1, ha.2, hfree]
      simp
    · have hother : ¬(i.module == module && i.name == name) = true := by
        rw [Bool.and_eq_true, beq_iff_eq, beq_iff_eq]
        exact fun h => ha ⟨h.1.symm, h.2.symm⟩
      rw [if_neg ha, if_neg hother, Option.or_none]

end Link

/-- The linker behaves as one of a runtime is expected to. -/
def target (ν : Type) : LinkTarget ν (Linker ν) where
  fresh := empty
  find? := find?
  link? := link?
  find?_fresh _ _ := rfl
  link?_eq_none_iff := link?_eq_none_iff
  find?_of_link? := find?_of_link?

theorem defineEach_eq (linker : Linker ν) (fns : List (String × String × HostFn ν)) :
    linker.defineEach fns = (target ν).defineEach linker fns := by
  induction fns generalizing linker with
  | nil => rfl
  | cons e fns ih =>
    obtain ⟨module, name, fn⟩ := e
    by_cases hfn : fn.UsesReference
    · rw [LinkTarget.defineEach_of_usesReference _ hfn, defineEach, define, unsupported?_eq,
        if_pos hfn]
    · cases hfind : linker.find? module name with
      | some i =>
        have htaken : (target ν).link? linker (imported module name fn) = none :=
          link?_of_isSome (Option.isSome_of_eq_some hfind)
        rw [LinkTarget.defineEach_of_link?_eq_none _ hfn htaken, defineEach, define,
          unsupported?_eq, if_neg hfn, hfind]
      | none =>
        have hfree : (target ν).link? linker (imported module name fn) = _ := link?_of_none hfind
        rw [LinkTarget.defineEach_of_link? _ hfn hfree, ← ih, defineEach, define, unsupported?_eq,
          if_neg hfn, hfind]
        rfl

theorem imports_of_foldlM {linked : List (Import ν)} {linker linker' : Linker ν}
    (h : linked.foldlM link? linker = some linker') :
    linker'.imports = linker.imports ++ linked := by
  induction linked generalizing linker with
  | nil =>
    cases h
    exact (List.append_nil _).symm
  | cons i linked ih =>
    obtain ⟨next, hnext, hrest⟩ := Option.bind_eq_some_iff.1 h
    cases hfree : linker.find? i.module i.name with
    | some old =>
      rw [link?_of_isSome (Option.isSome_of_eq_some hfree)] at hnext
      contradiction
    | none =>
      rw [link?_of_none hfree] at hnext
      cases hnext
      rw [ih hrest, List.append_assoc]
      rfl

end Linker

/-- Why linking ends in front of `rest`. -/
def Stops : (rest : List (String × String × HostFn ν)) → (error : Option LinkError) → Prop
  | [], error => error = none
  | (module, name, fn) :: _, error =>
    fn.UsesReference ∧ error = some (.unsupportedSlot (label module name) .externRef)

namespace LinkTarget

variable {σ : Type} (target : LinkTarget ν σ) {s s' : σ}

/-- Functions under names that are free, no two under the same, are linked up to the first with a
reference. -/
theorem exists_linked (fns : List (String × String × HostFn ν))
    (hfree : ∀ e ∈ fns, target.find? s e.1 e.2.1 = none)
    (hincrease : fns.Pairwise fun e e' => Before (e.1, e.2.1) (e'.1, e'.2.1)) :
    ∃ linked rest, fns = linked ++ rest ∧ (∀ e ∈ linked, ¬e.2.2.UsesReference) ∧
      (linked.map importOf).foldlM target.link? s = some (target.defineEach s fns).1 ∧
      Stops rest (target.defineEach s fns).2 := by
  induction fns generalizing s with
  | nil => exact ⟨[], [], rfl, fun _ h => by contradiction, rfl, rfl⟩
  | cons e fns ih =>
    obtain ⟨module, name, fn⟩ := e
    obtain ⟨hfirst, hrest⟩ := List.pairwise_cons.1 hincrease
    by_cases hfn : fn.UsesReference
    · rw [target.defineEach_of_usesReference hfn]
      exact ⟨[], _, rfl, fun _ h => by contradiction, rfl, hfn, rfl⟩
    · have hnone : target.find? s module name = none := hfree _ List.mem_cons_self
      obtain ⟨next, hnext⟩ : ∃ next, target.link? s (imported module name fn) = some next := by
        refine Option.ne_none_iff_exists'.1 fun hrefused => ?_
        have htaken := (target.link?_eq_none_iff s (imported module name fn)).1 hrefused
        change (target.find? s module name).isSome at htaken
        rw [hnone] at htaken
        contradiction
      have hfree' : ∀ e ∈ fns, target.find? next e.1 e.2.1 = none := by
        intro e he
        rw [target.find?_of_link? _ _ _ hnext, if_neg]
        · exact hfree e (List.mem_cons_of_mem _ he)
        · rintro ⟨hmodule, hname⟩
          have hlt := hfirst e he
          rw [hmodule, hname] at hlt
          exact not_before_self _ hlt
      obtain ⟨linked, rest, hsplit, hlinked, hfold, hstops⟩ := ih hfree' hrest
      rw [target.defineEach_of_link? hfn hnext]
      refine ⟨(module, name, fn) :: linked, rest, congrArg _ hsplit,
        List.forall_mem_cons.2 ⟨hfn, hlinked⟩, ?_, hstops⟩
      rw [List.map_cons, List.foldlM_cons]
      exact Option.bind_eq_some_iff.2 ⟨next, hnext, hfold⟩

/-- A guest finds what was linked, and what was there before. -/
theorem find?_of_foldlM {linked : List (Import ν)}
    (h : linked.foldlM target.link? s = some s') (module name : String) (i : Import ν) :
    target.find? s' module name = some i ↔
      (i ∈ linked ∧ i.module = module ∧ i.name = name) ∨ target.find? s module name = some i := by
  induction linked generalizing s with
  | nil =>
    cases h
    simp
  | cons j linked ih =>
    obtain ⟨next, hnext, hrest⟩ := Option.bind_eq_some_iff.1 h
    rw [ih hrest, target.find?_of_link? _ _ _ hnext, List.mem_cons]
    split
    · next ha =>
      obtain ⟨rfl, rfl⟩ := ha
      have hfree : target.find? s j.module j.name = none := by
        rw [← Option.not_isSome_iff_eq_none, ← target.link?_eq_none_iff, hnext]
        exact Option.some_ne_none next
      rw [hfree]
      constructor
      · rintro (⟨hi, hname⟩ | h)
        · exact .inl ⟨.inr hi, hname⟩
        · cases h
          exact .inl ⟨.inl rfl, rfl, rfl⟩
      · rintro (⟨rfl | hi, hname⟩ | h)
        · exact .inr rfl
        · exact .inl ⟨hi, hname⟩
        · contradiction
    · next ha =>
      refine or_congr_left ⟨fun h => ⟨.inr h.1, h.2⟩, ?_⟩
      rintro ⟨rfl | hi, hm, hn⟩
      · exact absurd ⟨hm.symm, hn.symm⟩ ha
      · exact ⟨hi, hm, hn⟩

end LinkTarget

/-- The first function of a registry that has a reference among its slots. -/
def FirstReference (registry : Registry ν) (module name : String) : Prop :=
  ∃ fn, registry.function? module name = some fn ∧ fn.UsesReference ∧
    ∀ module' name' fn', registry.function? module' name' = some fn' → fn'.UsesReference →
      (module', name') = (module, name) ∨ Before (module, name) (module', name')

theorem FirstReference.unique {registry : Registry ν} {module name module' name' : String}
    (h : FirstReference registry module name) (h' : FirstReference registry module' name') :
    module = module' ∧ name = name' := by
  obtain ⟨fn, hfn, huses, hfirst⟩ := h
  obtain ⟨fn', hfn', huses', hfirst'⟩ := h'
  rcases hfirst _ _ _ hfn' huses' with heq | hlt
  · cases heq
    exact ⟨rfl, rfl⟩
  · rcases hfirst' _ _ _ hfn huses with heq | hlt'
    · cases heq
      exact ⟨rfl, rfl⟩
    · exact absurd hlt' hlt.asymm

/-- What comes of linking a registry, which ends with `error` and leaves a guest `linked`, in that
order. -/
structure Links (registry : Registry ν) (linked : List (Import ν))
    (find? : String → String → Option (Import ν)) (error : Option LinkError) : Prop where
  fails_iff : error.isSome ↔
    ∃ module name fn, registry.function? module name = some fn ∧ fn.UsesReference
  error_iff : ∀ e, error = some e ↔ ∃ module name, FirstReference registry module name ∧
    e = .unsupportedSlot (label module name) .externRef
  /-- All functions are linked, or those before the first with a reference. -/
  linked_iff : ∀ i, i ∈ linked ↔
    (∃ fn, registry.function? i.module i.name = some fn ∧ i = imported i.module i.name fn) ∧
      ∀ module name, FirstReference registry module name →
        Before (i.module, i.name) (module, name)
  once : linked.Pairwise fun i j => Before (i.module, i.name) (j.module, j.name)
  find?_iff : ∀ module name i,
    find? module name = some i ↔ i ∈ linked ∧ i.module = module ∧ i.name = name

/-- The functions of a registry in order, cut in two. None of those in front has a reference. -/
structure Cut (registry : Registry ν) (linked rest : List (String × String × HostFn ν)) : Prop where
  mem_iff : ∀ module name fn, registry.function? module name = some fn ↔
    (module, name, fn) ∈ linked ∨ (module, name, fn) ∈ rest
  increase : (linked ++ rest).Pairwise fun e e' => Before (e.1, e.2.1) (e'.1, e'.2.1)
  plain : ∀ e ∈ linked, ¬e.2.2.UsesReference

namespace Cut

variable {registry : Registry ν} {linked rest : List (String × String × HostFn ν)}

theorem of_append (h : registry.WellFormed) (hsplit : addressed registry = linked ++ rest)
    (hplain : ∀ e ∈ linked, ¬e.2.2.UsesReference) : Cut registry linked rest where
  mem_iff module name fn := by
    rw [← mem_addressed_iff h, hsplit, List.mem_append]
  increase := by
    rw [← hsplit]
    exact addressed_increase h
  plain := hplain

/-- A reference is met first where the functions are cut in front of one. -/
theorem firstReference {module name : String} {fn : HostFn ν}
    (h : Cut registry linked ((module, name, fn) :: rest)) (hfn : fn.UsesReference) :
    FirstReference registry module name := by
  obtain ⟨-, hrest, -⟩ := List.pairwise_append.1 h.increase
  refine ⟨fn, (h.mem_iff _ _ _).2 (.inr List.mem_cons_self), hfn, ?_⟩
  intro module' name' fn' hfn' huses
  rcases (h.mem_iff _ _ _).1 hfn' with hfront | hback
  · exact absurd huses (h.plain _ hfront)
  · rcases List.mem_cons.1 hback with heq | hlater
    · cases heq
      exact .inl rfl
    · exact .inr ((List.pairwise_cons.1 hrest).1 _ hlater)

theorem not_usesReference (h : Cut registry linked []) {module name : String} {fn : HostFn ν}
    (hfn : registry.function? module name = some fn) : ¬fn.UsesReference := by
  rcases (h.mem_iff _ _ _).1 hfn with hfront | hback
  · exact h.plain _ hfront
  · contradiction

theorem mem_map_importOf (i : Import ν) :
    i ∈ linked.map importOf ↔
      ∃ fn, (i.module, i.name, fn) ∈ linked ∧ i = imported i.module i.name fn := by
  rw [List.mem_map]
  constructor
  · rintro ⟨e, he, rfl⟩
    exact ⟨e.2.2, he, rfl⟩
  · rintro ⟨fn, hmem, heq⟩
    exact ⟨_, hmem, heq.symm⟩

/-- In front are just those before the first with a reference. -/
theorem mem_linked_iff (h : Cut registry linked rest) {error : Option LinkError}
    (hstops : Stops rest error) (i : Import ν) :
    i ∈ linked.map importOf ↔
      (∃ fn, registry.function? i.module i.name = some fn ∧ i = imported i.module i.name fn) ∧
        ∀ module name, FirstReference registry module name →
          Before (i.module, i.name) (module, name) := by
  obtain ⟨-, hrest, hbefore⟩ := List.pairwise_append.1 h.increase
  rw [mem_map_importOf]
  constructor
  · rintro ⟨fn, hi, heq⟩
    refine ⟨⟨fn, (h.mem_iff _ _ _).2 (.inl hi), heq⟩, ?_⟩
    rintro module name ⟨fn', hfn', huses, -⟩
    rcases (h.mem_iff _ _ _).1 hfn' with hfront | hback
    · exact absurd huses (h.plain _ hfront)
    · exact hbefore _ hi _ hback
  · rintro ⟨⟨fn, hfn, heq⟩, hfirst⟩
    rcases (h.mem_iff _ _ _).1 hfn with hfront | hback
    · exact ⟨fn, hfront, heq⟩
    · cases rest with
      | nil => contradiction
      | cons e rest =>
        have hlt := hfirst _ _ (h.firstReference hstops.1)
        rcases List.mem_cons.1 hback with rfl | hlater
        · exact absurd hlt (not_before_self _)
        · exact absurd ((List.pairwise_cons.1 hrest).1 _ hlater) hlt.asymm

theorem links (h : Cut registry linked rest) {error : Option LinkError} (hstops : Stops rest error)
    {find? : String → String → Option (Import ν)}
    (hfind : ∀ module name i, find? module name = some i ↔
      i ∈ linked.map importOf ∧ i.module = module ∧ i.name = name) :
    Links registry (linked.map importOf) find? error where
  fails_iff := by
    cases rest with
    | nil =>
      cases hstops
      refine ⟨fun h => by contradiction, ?_⟩
      rintro ⟨module, name, fn, hfn, huses⟩
      exact absurd huses (h.not_usesReference hfn)
    | cons e rest =>
      obtain ⟨fn, hfn, huses, -⟩ := h.firstReference hstops.1
      rw [hstops.2]
      exact ⟨fun _ => ⟨_, _, fn, hfn, huses⟩, fun _ => rfl⟩
  error_iff e := by
    cases rest with
    | nil =>
      cases hstops
      refine ⟨fun h => by contradiction, ?_⟩
      rintro ⟨module, name, ⟨fn, hfn, huses, -⟩, -⟩
      exact absurd huses (h.not_usesReference hfn)
    | cons e' rest =>
      have hfirst := h.firstReference hstops.1
      rw [hstops.2]
      constructor
      · rintro ⟨⟩
        exact ⟨_, _, hfirst, rfl⟩
      · rintro ⟨module, name, hfirst', rfl⟩
        obtain ⟨rfl, rfl⟩ := hfirst.unique hfirst'
        rfl
  linked_iff := h.mem_linked_iff hstops
  once := List.pairwise_map.2 (List.pairwise_append.1 h.increase).1
  find?_iff := hfind

end Cut

/-- A linker that starts empty links a registry. -/
theorem LinkTarget.exists_links {registry : Registry ν} (h : registry.WellFormed) {σ : Type}
    (target : LinkTarget ν σ) :
    ∃ linked, linked.foldlM target.link? target.fresh =
        some (target.defineAll target.fresh registry).1 ∧
      Links registry linked (target.find? (target.defineAll target.fresh registry).1)
        (target.defineAll target.fresh registry).2 := by
  have hfree : ∀ e ∈ addressed registry, target.find? target.fresh e.1 e.2.1 = none :=
    fun e _ => target.find?_fresh _ _
  obtain ⟨linked, rest, hsplit, hlinked, hfold, hstops⟩ :=
    target.exists_linked (addressed registry) hfree (addressed_increase h)
  refine ⟨linked.map importOf, hfold, (Cut.of_append h hsplit hlinked).links hstops ?_⟩
  intro module name i
  rw [LinkTarget.defineAll, target.find?_of_foldlM hfold, target.find?_fresh]
  exact or_iff_left (Option.some_ne_none i).symm

/-- Whatever a host has registered, linking it to a linker that starts empty fails just where some
function has a reference among its slots. It says the first of them, and those before that one are
linked, or else all: each once, under the names of its module and itself, with the kinds of its
parameters in a row and those of its results. So it is for every linker that refuses only names that
are taken, and for the one here. -/
theorem defineAll_links (names : Nat → String) (steps : List (SetupStep ν)) :
    let registry := ((SetupRun.start names).after steps).registry
    (∀ {σ : Type} (target : LinkTarget ν σ),
      let done := target.defineAll target.fresh registry
      ∃ linked, linked.foldlM target.link? target.fresh = some done.1 ∧
        Links registry linked (target.find? done.1) done.2) ∧
    let done := Linker.empty.defineAll registry
    Links registry done.1.imports done.1.find? done.2 := by
  intro registry
  have h : registry.WellFormed := ((SetupRun.inv_start names).after steps).wellFormed
  refine ⟨fun target => target.exists_links h, ?_⟩
  obtain ⟨linked, hfold, hlinks⟩ := (Linker.target ν).exists_links h
  have heq : (Linker.target ν).defineAll (Linker.target ν).fresh registry =
      Linker.empty.defineAll registry := (Linker.defineEach_eq _ _).symm
  rw [heq] at hfold hlinks
  intro done
  have himports : done.1.imports = linked := Linker.imports_of_foldlM hfold
  rw [himports]
  exact hlinks

/-- A function that comes in order after one with a reference is not linked, though it was
registered before that. -/
theorem defineAll_links_upto_reference :
    let plain : HostFn Unit := ⟨[[.i32], [.i32, .i64]], [.f32], fun fr => ((), fr)⟩
    let reference : HostFn Unit := ⟨[[.i32, .externRef]], [], fun fr => ((), fr)⟩
    let steps : List (SetupStep Unit) := [.insert "env" "write" plain, .insert "env" "close" plain,
      .insert "env" "open" reference, .reach "a", .insert "log" "write" plain]
    let registry := ((SetupRun.start fun _ => "env").after steps).registry
    let target := Linker.target Unit
    let done := target.defineAll target.fresh registry
    done.1.imports = [⟨"env", "close", [.i32, .i32, .i64], [.f32], plain⟩] ∧
      done.2 = some (.unsupportedSlot "env.open" .externRef) ∧
      ∃ linked, linked.foldlM target.link? target.fresh = some done.1 ∧
        Links registry linked (target.find? done.1) done.2 :=
  ⟨rfl, by decide, (defineAll_links _ _).1 _⟩

end Binding

end HostCall
