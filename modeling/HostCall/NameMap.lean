import HostCall.Text.Utf8.Basic

/-! Things by name, kept in the order of the UTF-8 bytes of their names. Main statement: `get?_set`,
which says what a look-up finds after a name was given. -/

namespace HostCall

/-- The order of names: byte by byte, the shorter first where one starts the other. -/
def nameBefore (a b : String) : Bool :=
  decide (Utf8.encode a.toList < Utf8.encode b.toList)

structure NameMap (α : Type) where
  toList : List (String × α)

namespace NameMap

variable {α : Type}

def empty : NameMap α := ⟨[]⟩

def get? (m : NameMap α) (name : String) : Option α := m.toList.lookup name

def size (m : NameMap α) : Nat := m.toList.length

def isEmpty (m : NameMap α) : Bool := m.toList.isEmpty

/-- `a` under `name`, in place of what was there or before the first later name. -/
def place (name : String) (a : α) : List (String × α) → List (String × α)
  | [] => [(name, a)]
  | e :: es =>
    if e.1 = name then (name, a) :: es
    else if nameBefore name e.1 then (name, a) :: e :: es
    else e :: place name a es

def set (m : NameMap α) (name : String) (a : α) : NameMap α := ⟨place name a m.toList⟩

theorem lookup_place (name : String) (a : α) (es : List (String × α)) (n : String) :
    (place name a es).lookup n = if n = name then some a else es.lookup n := by
  induction es with
  | nil =>
    by_cases h : n = name
    · simp [place, h]
    · simp [place, h]
  | cons e es ih =>
    obtain ⟨key, b⟩ := e
    by_cases hn : n = name
    · subst hn
      simp only [place, if_true] at ih ⊢
      split
      · simp
      · split
        · simp
        · have he : (n == key) = false := by simpa using fun h => ‹¬key = n› h.symm
          simp [List.lookup_cons, he, ih]
    · simp only [if_neg hn] at ih ⊢
      have hb : (n == name) = false := by simpa using hn
      simp only [place]
      split
      · rename_i he
        simp [List.lookup_cons, he, hb]
      · split
        · simp [List.lookup_cons, hb]
        · simp [List.lookup_cons, ih]

theorem get?_set (m : NameMap α) (name : String) (a : α) (n : String) :
    (m.set name a).get? n = if n = name then some a else m.get? n :=
  lookup_place name a m.toList n

end NameMap

end HostCall
