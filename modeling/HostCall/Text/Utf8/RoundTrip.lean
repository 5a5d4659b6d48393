import HostCall.Text.Utf8.Basic

/-! Reading text accepts exactly what writing text produces. The first half follows one character
through the scan; for the second, each state of the scan is tied to the bytes it has taken: the
bytes it goes on to accept make them the encoding of the character it then finds. Main statements:
`scan_encode`, `decode?_eq_some_iff`. -/

namespace HostCall.Utf8

theorem begin?_append (units : List (Option Char)) (b : Nat) :
    begin? units b = ((begin? [] b).1, (begin? [] b).2 ++ units) := by
  unfold begin?
  split <;> rfl

theorem step_append (state : State) (units : List (Option Char)) (b : UInt8) :
    step (state, units) b = ((step (state, []) b).1, (step (state, []) b).2 ++ units) := by
  cases state with
  | start => exact begin?_append units b.toNat
  | inside missing bits low high =>
    simp only [step]
    split
    · split <;> rfl
    · rw [begin?_append, begin?_append [none]]
      simp

theorem foldl_step (bs : Bytes) (state : State) (units : List (Option Char)) :
    bs.foldl step (state, units) =
      ((bs.foldl step (state, [])).1, (bs.foldl step (state, [])).2 ++ units) := by
  induction bs generalizing state units with
  | nil => rfl
  | cons b bs ih =>
    rw [List.foldl_cons, List.foldl_cons, step_append, ih, ih _ (step (state, []) b).2]
    simp

theorem scanFrom_cons (state : State) (b : UInt8) (bs : Bytes) :
    scanFrom state (b :: bs) =
      (step (state, []) b).2.reverse ++ scanFrom (step (state, []) b).1 bs := by
  simp only [scanFrom, List.foldl_cons]
  rw [foldl_step]
  generalize bs.foldl step ((step (state, []) b).1, []) = r
  obtain ⟨last, units⟩ := r
  cases last <;> simp [finish]

theorem scanFrom_lead {b : UInt8} {missing bits low high : Nat} (bs : Bytes)
    (h : lead b.toNat = some (.inr (.inside missing bits low high))) :
    scanFrom .start (b :: bs) = scanFrom (.inside missing bits low high) bs := by
  rw [scanFrom_cons]
  simp [step, begin?, h]

theorem scanFrom_more {b : UInt8} {missing bits low high : Nat} (bs : Bytes)
    (hl : low ≤ b.toNat) (hu : b.toNat ≤ high) :
    scanFrom (.inside (missing + 1) bits low high) (b :: bs) =
      scanFrom (.inside missing (bits * 64 + (b.toNat - 0x80)) 0x80 0xBF) bs := by
  rw [scanFrom_cons]
  simp [step, hl, hu]

theorem scanFrom_last {b : UInt8} {bits low high : Nat} (bs : Bytes)
    (hl : low ≤ b.toNat) (hu : b.toNat ≤ high) :
    scanFrom (.inside 0 bits low high) (b :: bs) =
      some (Char.ofNat (bits * 64 + (b.toNat - 0x80))) :: scanFrom .start bs := by
  rw [scanFrom_cons]
  simp [step, hl, hu]

theorem lead_two {b : Nat} (h0 : 0xC2 ≤ b) (h1 : b < 0xE0) :
    lead b = some (.inr (.inside 0 (b - 0xC0) 0x80 0xBF)) := by
  rw [lead, if_neg (by omega), if_neg (by omega), if_pos (by omega)]

theorem lead_three {b : Nat} (h0 : 0xE0 ≤ b) (h1 : b < 0xF0) :
    lead b = some (.inr (.inside 1 (b - 0xE0) (if b = 0xE0 then 0xA0 else 0x80)
      (if b = 0xED then 0x9F else 0xBF))) := by
  rw [lead, if_neg (by omega), if_neg (by omega), if_neg (by omega)]
  by_cases hE : b = 0xE0
  · subst hE
    rfl
  · by_cases hD : b = 0xED
    · subst hD
      rfl
    · rw [if_neg hE, if_neg hD, if_pos h1, if_neg hE, if_neg hD]

theorem lead_four {b : Nat} (h0 : 0xF0 ≤ b) (h1 : b ≤ 0xF4) :
    lead b = some (.inr (.inside 2 (b - 0xF0) (if b = 0xF0 then 0x90 else 0x80)
      (if b = 0xF4 then 0x8F else 0xBF))) := by
  rw [lead, if_neg (by omega), if_neg (by omega), if_neg (by omega), if_neg (by omega),
    if_neg (by omega), if_neg (by omega)]
  by_cases h0 : b = 0xF0
  · subst h0
    rfl
  · by_cases h4 : b = 0xF4
    · subst h4
      rfl
    · rw [if_neg h0, if_pos (by omega), if_neg h0, if_neg h4]

theorem lead_ne_start {b : Nat} : lead b ≠ some (.inr .start) := by
  unfold lead
  repeat' split
  all_goals simp

theorem toNat_byte {n : Nat} (h : n < 256) : (UInt8.ofNat n).toNat = n := by
  rw [UInt8.toNat_ofNat']
  omega

theorem toNat_continuation (n : Nat) : (continuation n).toNat = 0x80 + n % 64 :=
  toNat_byte (by omega)

theorem toNat_char {n : Nat} (h : n < 0xD800 ∨ 0xDFFF < n ∧ n < 0x110000) :
    (Char.ofNat n).toNat = n := by
  have hv : n.isValidChar := h
  rw [Char.ofNat, dif_pos hv]
  rfl

theorem scanFrom_encodeChar (c : Char) (bs : Bytes) :
    scanFrom .start (encodeChar c ++ bs) = some c :: scanFrom .start bs := by
  have hv : c.toNat < 0xD800 ∨ 0xDFFF < c.toNat ∧ c.toNat < 0x110000 := c.valid
  rw [encodeChar]
  by_cases h1 : c.toNat < 0x80
  · rw [if_pos h1, List.singleton_append, scanFrom_cons]
    simp [step, begin?, lead, h1, toNat_byte (show c.toNat < 256 by omega)]
  rw [if_neg h1]
  by_cases h2 : c.toNat < 0x800
  · have hb : (UInt8.ofNat (0xC0 + c.toNat / 64)).toNat = _ := toNat_byte (by omega)
    have hc : (0xC0 + c.toNat / 64 - 0xC0) * 64 + (0x80 + c.toNat % 64 - 0x80) = c.toNat := by
      omega
    rw [if_pos h2, List.cons_append, List.singleton_append,
      scanFrom_lead _ (lead_two (by omega) (by omega)),
      scanFrom_last _ (by rw [toNat_continuation]; omega) (by rw [toNat_continuation]; omega),
      toNat_continuation, hb, hc, Char.ofNat_toNat]
  rw [if_neg h2]
  by_cases h3 : c.toNat < 0x10000
  · have hb : (UInt8.ofNat (0xE0 + c.toNat / 4096)).toNat = _ := toNat_byte (by omega)
    have hc : ((0xE0 + c.toNat / 4096 - 0xE0) * 64 + (0x80 + c.toNat / 64 % 64 - 0x80)) * 64 +
        (0x80 + c.toNat % 64 - 0x80) = c.toNat := by omega
    rw [if_pos h3, List.cons_append, List.cons_append, List.singleton_append,
      scanFrom_lead _ (lead_three (by omega) (by omega)),
      scanFrom_more _ (by rw [toNat_continuation, hb]; split <;> omega)
        (by rw [toNat_continuation, hb]; split <;> omega),
      scanFrom_last _ (by rw [toNat_continuation]; omega) (by rw [toNat_continuation]; omega),
      toNat_continuation, toNat_continuation, hb, hc, Char.ofNat_toNat]
  · have hb : (UInt8.ofNat (0xF0 + c.toNat / 262144)).toNat = _ := toNat_byte (by omega)
    have hc : (((0xF0 + c.toNat / 262144 - 0xF0) * 64 + (0x80 + c.toNat / 4096 % 64 - 0x80)) * 64 +
        (0x80 + c.toNat / 64 % 64 - 0x80)) * 64 + (0x80 + c.toNat % 64 - 0x80) = c.toNat := by
      omega
    rw [if_neg h3, List.cons_append, List.cons_append, List.cons_append, List.singleton_append,
      scanFrom_lead _ (lead_four (by omega) (by omega)),
      scanFrom_more _ (by rw [toNat_continuation, hb]; split <;> omega)
        (by rw [toNat_continuation, hb]; split <;> omega),
      scanFrom_more _ (by rw [toNat_continuation]; omega) (by rw [toNat_continuation]; omega),
      scanFrom_last _ (by rw [toNat_continuation]; omega) (by rw [toNat_continuation]; omega),
      toNat_continuation, toNat_continuation, toNat_continuation, hb, hc, Char.ofNat_toNat]

/-- The scan of written text finds its characters and no gap. -/
theorem scan_encode (cs : List Char) : scan (encode cs) = cs.map some := by
  induction cs with
  | nil => rfl
  | cons c cs ih =>
    simp only [scan] at ih
    rw [scan, encode, List.flatMap_cons, scanFrom_encodeChar, ← encode, ih, List.map_cons]

/-- After the bytes `read`, every way to go on that the numbers allow ends with the encoding of the
character it leads to. -/
def Completes : (missing bits low high : Nat) → (read : Bytes) → Prop
  | 0, bits, low, high, read => ∀ b : UInt8, low ≤ b.toNat → b.toNat ≤ high →
      encodeChar (Char.ofNat (bits * 64 + (b.toNat - 0x80))) = read ++ [b]
  | missing + 1, bits, low, high, read => ∀ b : UInt8, low ≤ b.toNat → b.toNat ≤ high →
      Completes missing (bits * 64 + (b.toNat - 0x80)) 0x80 0xBF (read ++ [b])

/-- The bytes that a state has taken for a character not yet complete. -/
def State.Taken : State → Bytes → Prop
  | .start, read => read = []
  | .inside missing bits low high, read => Completes missing bits low high read

theorem ofNat_eq {b : UInt8} {n : Nat} (h : n = b.toNat) : UInt8.ofNat n = b := by
  subst h
  exact UInt8.ofNat_toNat

theorem encodeChar_two {b0 b1 : UInt8} (h0 : 0xC2 ≤ b0.toNat) (h1 : b0.toNat < 0xE0)
    (l1 : 0x80 ≤ b1.toNat) (u1 : b1.toNat ≤ 0xBF) :
    encodeChar (Char.ofNat ((b0.toNat - 0xC0) * 64 + (b1.toNat - 0x80))) = [b0, b1] := by
  rw [encodeChar, toNat_char (by omega)]
  simp only [continuation]
  rw [if_neg (by omega), if_pos (by omega), ofNat_eq (by omega : _ = b0.toNat),
    ofNat_eq (by omega : _ = b1.toNat)]

theorem encodeChar_three {b0 b1 b2 : UInt8} {n : Nat}
    (hn : n = ((b0.toNat - 0xE0) * 64 + (b1.toNat - 0x80)) * 64 + (b2.toNat - 0x80))
    (h0 : 0xE0 ≤ b0.toNat) (h1 : b0.toNat < 0xF0)
    (l1 : 0x80 ≤ b1.toNat) (u1 : b1.toNat ≤ 0xBF) (l2 : 0x80 ≤ b2.toNat) (u2 : b2.toNat ≤ 0xBF)
    (long : b0.toNat = 0xE0 → 0xA0 ≤ b1.toNat) (scalar : b0.toNat = 0xED → b1.toNat ≤ 0x9F) :
    encodeChar (Char.ofNat n) = [b0, b1, b2] := by
  rw [encodeChar, toNat_char (by omega)]
  simp only [continuation]
  rw [if_neg (by omega), if_neg (by omega), if_pos (by omega),
    ofNat_eq (by omega : _ = b0.toNat), ofNat_eq (by omega : _ = b1.toNat),
    ofNat_eq (by omega : _ = b2.toNat)]

theorem encodeChar_four {b0 b1 b2 b3 : UInt8} {n : Nat}
    (hn : n = (((b0.toNat - 0xF0) * 64 + (b1.toNat - 0x80)) * 64 + (b2.toNat - 0x80)) * 64 +
      (b3.toNat - 0x80))
    (h0 : 0xF0 ≤ b0.toNat) (h1 : b0.toNat ≤ 0xF4)
    (l1 : 0x80 ≤ b1.toNat) (u1 : b1.toNat ≤ 0xBF) (l2 : 0x80 ≤ b2.toNat) (u2 : b2.toNat ≤ 0xBF)
    (l3 : 0x80 ≤ b3.toNat) (u3 : b3.toNat ≤ 0xBF)
    (long : b0.toNat = 0xF0 → 0x90 ≤ b1.toNat) (scalar : b0.toNat = 0xF4 → b1.toNat ≤ 0x8F) :
    encodeChar (Char.ofNat n) = [b0, b1, b2, b3] := by
  rw [encodeChar, toNat_char (by omega)]
  simp only [continuation]
  rw [if_neg (by omega), if_neg (by omega), if_neg (by omega),
    ofNat_eq (by omega : _ = b0.toNat), ofNat_eq (by omega : _ = b1.toNat),
    ofNat_eq (by omega : _ = b2.toNat), ofNat_eq (by omega : _ = b3.toNat)]

theorem encodeChar_of_lead {b : UInt8} {c : Char} (h : lead b.toNat = some (.inl c)) :
    encodeChar c = [b] := by
  unfold lead at h
  repeat' split at h
  all_goals cases h
  rename_i hb
  rw [encodeChar, toNat_char (by omega)]
  simp only [if_pos hb, UInt8.ofNat_toNat]

theorem completes_of_lead {b : UInt8} {missing bits low high : Nat}
    (h : lead b.toNat = some (.inr (.inside missing bits low high))) :
    Completes missing bits low high [b] := by
  unfold lead at h
  repeat' split at h
  all_goals cases h
  all_goals simp only [Completes, List.cons_append, List.nil_append]
  · intro b1 l1 u1
    exact encodeChar_two (by omega) (by omega) l1 u1
  iterate 3
    intro b1 l1 u1 b2 l2 u2
    exact encodeChar_three (by omega) (by omega) (by omega) (by omega) (by omega) l2 u2 (by omega)
      (by omega)
  iterate 3
    intro b1 l1 u1 b2 l2 u2 b3 l3 u3
    exact encodeChar_four (by omega) (by omega) (by omega) (by omega) (by omega) l2 u2 l3 u3
      (by omega) (by omega)

/-- The bytes of a scan that leaves no gap encode the characters it finds. -/
theorem encode_scanFrom (state : State) (read : Bytes) (h : state.Taken read) (bs : Bytes)
    (full : none ∉ scanFrom state bs) :
    encode ((scanFrom state bs).filterMap id) = read ++ bs := by
  induction bs generalizing state read with
  | nil =>
    cases state with
    | start => simp [scanFrom, finish, encode, show read = [] from h]
    | inside => simp [scanFrom, finish] at full
  | cons b bs ih =>
    rw [scanFrom_cons] at full ⊢
    cases state with
    | start =>
      obtain rfl : read = [] := h
      simp only [step, begin?] at full ⊢
      split at full
      · simp at full
      · next c hc =>
        simp only [List.reverse_singleton, List.singleton_append, List.mem_cons, not_or] at full
        have := ih .start [] rfl full.2
        simp [encode, encodeChar_of_lead hc] at this ⊢
        exact this
      · next state hs =>
        match state, hs with
        | .start, hs => exact absurd hs lead_ne_start
        | .inside .., hs =>
          have := ih (.inside ..) [b] (completes_of_lead hs) (by simpa using full)
          simpa using this
    | inside missing bits low high =>
      simp only [step] at full ⊢
      by_cases hb : low ≤ b.toNat ∧ b.toNat ≤ high
      · simp only [if_pos hb] at full ⊢
        cases missing with
        | zero =>
          have hc := h b hb.1 hb.2
          simp only [List.reverse_singleton, List.singleton_append, List.mem_cons, not_or]
            at full ⊢
          have := ih .start [] rfl full.2
          simp [encode] at this ⊢
          rw [this, hc]
          simp
        | succ missing =>
          have := ih (.inside ..) (read ++ [b]) (h b hb.1 hb.2) (by simpa using full)
          simpa using this
      · simp only [if_neg hb] at full
        exfalso
        apply full
        simp only [begin?]
        split <;> simp

theorem decode?_encode (cs : List Char) : decode? (encode cs) = some cs := by
  simp [decode?, scan_encode]

theorem eq_encode_of_decode? {bs : Bytes} {cs : List Char} (h : decode? bs = some cs) :
    bs = encode cs := by
  simp only [decode?] at h
  split at h
  · next full =>
    obtain rfl := Option.some.inj h
    refine (encode_scanFrom .start [] rfl bs fun hn => ?_).symm
    simpa using List.all_eq_true.1 full _ hn
  · contradiction

/-- Reading accepts exactly what writing produces. -/
theorem decode?_eq_some_iff {bs : Bytes} {cs : List Char} :
    decode? bs = some cs ↔ bs = encode cs :=
  ⟨eq_encode_of_decode?, fun h => h ▸ decode?_encode cs⟩

end HostCall.Utf8
