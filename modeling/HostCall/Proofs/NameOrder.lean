import HostCall.NameMap
import HostCall.Text.Utf8.RoundTrip

/-! Names in order. No two names have the same bytes, so the order of names by their bytes leaves no
two names without an order. A map keeps its names strictly increasing: each is listed once, and what
is listed under a name is what a look-up finds. Main statements: `NameMap.namesIncrease_set`,
`NameMap.mem_toList_iff`. -/

namespace HostCall

theorem eq_of_encode_eq {a b : String} (h : Utf8.encode a.toList = Utf8.encode b.toList) :
    a = b := by
  have hd := congrArg Utf8.decode? h
  rw [Utf8.decode?_encode, Utf8.decode?_encode] at hd
  exact String.toList_inj.1 (Option.some.inj hd)

theorem nameBefore_iff {a b : String} :
    nameBefore a b = true ↔ Utf8.encode a.toList < Utf8.encode b.toList :=
  decide_eq_true_iff

theorem not_nameBefore_self (a : String) : ¬nameBefore a a = true := by
  rw [nameBefore_iff]
  exact List.lt_irrefl _

theorem nameBefore_trans {a b c : String} (h : nameBefore a b = true) (h' : nameBefore b c = true) :
    nameBefore a c = true := by
  rw [nameBefore_iff] at h h' ⊢
  exact List.lt_trans h h'

theorem nameBefore_of_not {a b : String} (hne : a ≠ b) (h : ¬nameBefore a b = true) :
    nameBefore b a = true := by
  rw [nameBefore_iff, List.not_lt] at h
  rw [nameBefore_iff]
  refine Decidable.byContradiction fun hnot => hne ?_
  exact eq_of_encode_eq (List.le_antisymm (List.not_lt.1 hnot) h)

/-- Each name comes before all that follow it. -/
def NamesIncrease (names : List String) : Prop := names.Pairwise fun a b => nameBefore a b = true

namespace NameMap

variable {α : Type}

theorem forall_place {P : String → Prop} {name : String} {a : α} {es : List (String × α)}
    (hname : P name) (h : ∀ n ∈ es.map (·.1), P n) : ∀ n ∈ (place name a es).map (·.1), P n := by
  induction es with
  | nil => exact List.forall_mem_singleton.2 hname
  | cons e es ih =>
    obtain ⟨he, hes⟩ := List.forall_mem_cons.1 h
    unfold place
    split
    · exact List.forall_mem_cons.2 ⟨hname, hes⟩
    · split
      · exact List.forall_mem_cons.2 ⟨hname, h⟩
      · exact List.forall_mem_cons.2 ⟨he, ih hes⟩

theorem namesIncrease_place (name : String) (a : α) {es : List (String × α)}
    (h : NamesIncrease (es.map (·.1))) : NamesIncrease ((place name a es).map (·.1)) := by
  induction es with
  | nil => exact List.pairwise_singleton _ _
  | cons e es ih =>
    obtain ⟨key, b⟩ := e
    obtain ⟨hfirst, hrest⟩ := List.pairwise_cons.1 h
    unfold place
    split
    · next he =>
      subst he
      exact List.pairwise_cons.2 ⟨hfirst, hrest⟩
    · next hne =>
      split
      · next hbefore =>
        refine List.pairwise_cons.2 ⟨List.forall_mem_cons.2 ⟨hbefore, fun n hn => ?_⟩, h⟩
        exact nameBefore_trans hbefore (hfirst n hn)
      · next hnot =>
        exact List.pairwise_cons.2
          ⟨forall_place (nameBefore_of_not (Ne.symm hne) hnot) hfirst, ih hrest⟩

theorem namesIncrease_set {m : NameMap α} (h : NamesIncrease (m.toList.map (·.1))) (name : String)
    (a : α) : NamesIncrease ((m.set name a).toList.map (·.1)) :=
  namesIncrease_place name a h

/-- Of two values given under one name the second stays, in the same place. -/
theorem place_place (name : String) (a b : α) (es : List (String × α)) :
    place name b (place name a es) = place name b es := by
  induction es with
  | nil => exact if_pos rfl
  | cons e es ih =>
    by_cases hn : e.1 = name
    · simp [place, hn]
    · by_cases hb : nameBefore name e.1 = true
      · simp [place, hn, hb]
      · simp [place, hn, hb, ih]

theorem set_set (m : NameMap α) (name : String) (a b : α) :
    (m.set name a).set name b = m.set name b :=
  congrArg NameMap.mk (place_place name a b m.toList)

theorem mem_iff_lookup {es : List (String × α)} (h : NamesIncrease (es.map (·.1))) (name : String)
    (a : α) : (name, a) ∈ es ↔ es.lookup name = some a := by
  induction es with
  | nil => simp
  | cons e es ih =>
    obtain ⟨key, b⟩ := e
    obtain ⟨hfirst, hrest⟩ := List.pairwise_cons.1 h
    rw [List.mem_cons, ih hrest, List.lookup_cons]
    by_cases hn : name = key
    · subst hn
      -- the name is not met again, since it does not come before itself
      have hno : es.lookup name ≠ some a := by
        rw [Ne, ← ih hrest]
        exact fun hm => not_nameBefore_self name (hfirst name (List.mem_map_of_mem hm))
      simp [hno, eq_comm]
    · have hb : (name == key) = false := by simpa using hn
      simp [hb, hn]

/-- What is listed is what a look-up finds. -/
theorem mem_toList_iff {m : NameMap α} (h : NamesIncrease (m.toList.map (·.1))) (name : String)
    (a : α) : (name, a) ∈ m.toList ↔ m.get? name = some a :=
  mem_iff_lookup h name a

end NameMap

end HostCall
