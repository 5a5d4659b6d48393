import HostCall.HostType.Basic

/-! The table of host values that guests know by handle. Handles count up from 1 and are never 0;
a handle still in use is passed over, so a dropped one comes back only after all others. Main
statements: what a look-up finds after each operation. -/

namespace HostCall

/-- A host value with its type. -/
abbrev Referent := (t : HostType) × t.Val

/-- The value of `r` as a `t`, if it has exactly that type. -/
def Referent.as? (t : HostType) (r : Referent) : Option t.Val :=
  if h : r.1 = t then some (h ▸ r.2) else none

structure HandleTable where
  /-- The last handle that `put` gave out, 0 before the first. -/
  last : UInt32
  entries : List (UInt32 × Referent)

namespace HandleTable

def empty : HandleTable := ⟨0, []⟩

def get? (table : HandleTable) (h : UInt32) : Option Referent := table.entries.lookup h

/-- The value under `h` and whether there is one, `fallback` in its place. -/
def getOr (table : HandleTable) (h : UInt32) (fallback : Referent) : Bool × Referent :=
  match table.get? h with
  | some r => (true, r)
  | none => (false, fallback)

def size (table : HandleTable) : Nat := table.entries.length

/-- Drops what is kept under `h`. -/
def erase (table : HandleTable) (h : UInt32) : HandleTable :=
  { table with entries := table.entries.filter (·.1 != h) }

/-- Keeps `r` under `h` in place of what was there; handle 0 keeps nothing. -/
def set (table : HandleTable) (h : UInt32) (r : Referent) : HandleTable :=
  if h = 0 then table else { table with entries := (h, r) :: (table.erase h).entries }

def isFree (table : HandleTable) (h : UInt32) : Bool := h != 0 && (table.get? h).isNone

/-- The first free handle of the `tries` handles from `h` on, or the one after them. Trying them in
turn without a bound would never end on a full table, where each handle but 0 stands for a value;
this search ends there too, with a handle that is taken. -/
def search (table : HandleTable) : (tries : Nat) → (h : UInt32) → UInt32
  | 0, h => h
  | tries + 1, h => if table.isFree h then h else table.search tries (h + 1)

/-- The handle for the next new value. At most `size` handles and handle 0 are taken, so
`size + 2` tries find a free one wherever there is one. -/
def next (table : HandleTable) : UInt32 := table.search (table.size + 2) (table.last + 1)

/-- Keeps `r` under a new handle. -/
def put (table : HandleTable) (r : Referent) : UInt32 × HandleTable :=
  let h := table.next
  (h, { table.set h r with last := h })

def describe (table : HandleTable) : String :=
  "MapRefs \x7b len: " ++ toString table.size ++ ", last: " ++ toString table.last ++ " \x7d"

theorem get?_erase (table : HandleTable) (h k : UInt32) :
    (table.erase h).get? k = if k = h then none else table.get? k := by
  simp only [get?, erase]
  induction table.entries with
  | nil => simp
  | cons e es ih =>
    by_cases he : e.1 = h
    · rw [List.filter_cons_of_neg (by simp [he]), ih]
      by_cases hk : k = h
      · rw [if_pos hk, if_pos hk]
      · have : (k == e.1) = false := by simp [he, hk]
        rw [if_neg hk, if_neg hk, List.lookup_cons, this]
    · rw [List.filter_cons_of_pos (by simp [he]), List.lookup_cons, List.lookup_cons, ih]
      by_cases hk : k = e.1
      · subst hk
        simp [he]
      · have : (k == e.1) = false := by simp [hk]
        simp only [this]

theorem get?_set (table : HandleTable) {h : UInt32} (h0 : h ≠ 0) (r : Referent) (k : UInt32) :
    (table.set h r).get? k = if k = h then some r else table.get? k := by
  have he := get?_erase table h k
  simp only [set, if_neg h0]
  simp only [get?] at he ⊢
  rw [List.lookup_cons]
  by_cases hk : k = h
  · simp [hk]
  · have : (k == h) = false := by simp [hk]
    rw [this, if_neg hk]
    rwa [if_neg hk] at he

@[simp] theorem set_zero (table : HandleTable) (r : Referent) : table.set 0 r = table := if_pos rfl

theorem get?_set_eq (table : HandleTable) (h : UInt32) (r : Referent) (k : UInt32) :
    (table.set h r).get? k = if h = k ∧ h ≠ 0 then some r else table.get? k := by
  by_cases h0 : h = 0
  · subst h0
    rw [set_zero, if_neg fun hk => hk.2 rfl]
  · rw [get?_set table h0]
    by_cases hk : k = h
    · rw [if_pos hk, if_pos ⟨hk.symm, h0⟩]
    · rw [if_neg hk, if_neg fun hk' => hk hk'.1.symm]

@[simp] theorem last_set (table : HandleTable) (h : UInt32) (r : Referent) :
    (table.set h r).last = table.last := by
  unfold set
  split <;> rfl

end HandleTable

end HostCall
