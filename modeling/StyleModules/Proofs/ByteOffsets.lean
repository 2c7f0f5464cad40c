import StyleModules.Sheet.ByteReader
import StyleModules.Proofs.TiledSpans

/-!
The bytes of a text and the places between its characters.

* Section 1: a byte below 128 is a whole character, and every byte of another character is 128 or
  more (`beq_of_head`, `high_of_mem`).
* Section 2: `Source.At` says that a reader who stands at an offset has a given text before it. Asked
  for an ASCII character, the byte there answers as the first character of that text (`At.beq`).
  Whoever goes on over bytes beyond ASCII, one at a time, comes out of a character where the next
  one begins (`At.resync`).
* Section 3: a text can be cut at the offsets where a character begins, and at its end
  (`boundary_iff`, `slice?_isSome`).
-/

namespace StyleModules

/-! ## 1. The bytes of a character -/

namespace Text

theorem utf8_cons (c : Char) (t : Text) : utf8 (c :: t) = String.utf8EncodeChar c ++ utf8 t :=
  List.flatMap_cons

theorem utf8_append (u v : Text) : utf8 (u ++ v) = utf8 u ++ utf8 v :=
  List.flatMap_append

end Text

theorem utf8Size_eq_one {c : Char} : c.utf8Size = 1 ↔ c.toNat < 128 := by
  rw [Char.utf8Size_eq_one_iff, UInt32.le_iff_toNat_le]
  exact Nat.lt_succ_iff.symm

theorem utf8EncodeChar_ascii {c : Char} (h : c.toNat < 128) :
    String.utf8EncodeChar c = [c.toUInt8] :=
  String.utf8EncodeChar_eq_singleton (utf8Size_eq_one.mpr h)

theorem toNat_toUInt8 {c : Char} (h : c.toNat < 128) : c.toUInt8.toNat = c.toNat := by
  show c.val.toNat % 256 = c.val.toNat
  exact Nat.mod_eq_of_lt (Nat.lt_trans h (by decide))

theorem high_ofNat {n : Nat} (h : 128 ≤ n) (h' : n < 256) : 128 ≤ (UInt8.ofNat n).toNat := by
  rw [UInt8.toNat_ofNat', Nat.mod_eq_of_lt h']
  exact h

/-- No byte of a character beyond ASCII is in ASCII. -/
theorem high_of_mem {c : Char} (h : 128 ≤ c.toNat) {b : UInt8}
    (hb : b ∈ String.utf8EncodeChar c) : 128 ≤ b.toNat := by
  have hc : ¬c.val.toNat ≤ 127 := Nat.not_le.mpr h
  simp only [String.utf8EncodeChar, if_neg hc] at hb
  split at hb
  · simp only [List.mem_cons, List.not_mem_nil, or_false] at hb
    rcases hb with rfl | rfl <;> exact high_ofNat (by omega) (by omega)
  · split at hb
    · simp only [List.mem_cons, List.not_mem_nil, or_false] at hb
      rcases hb with rfl | rfl | rfl <;> exact high_ofNat (by omega) (by omega)
    · simp only [List.mem_cons, List.not_mem_nil, or_false] at hb
      rcases hb with rfl | rfl | rfl | rfl <;> exact high_ofNat (by omega) (by omega)

/-- Behind the first byte of a character there are only bytes beyond ASCII. -/
theorem high_of_getElem? {c : Char} {k : Nat} {b : UInt8} (hk : 0 < k)
    (hb : (String.utf8EncodeChar c)[k]? = some b) : 128 ≤ b.toNat := by
  by_cases hc : c.toNat < 128
  · obtain ⟨k, rfl⟩ := Nat.exists_eq_add_one_of_ne_zero (Nat.pos_iff_ne_zero.mp hk)
    rw [utf8EncodeChar_ascii hc] at hb
    cases hb
  · exact high_of_mem (Nat.le_of_not_lt hc) (List.mem_of_getElem? hb)

/-- A byte beyond ASCII is no ASCII character. -/
theorem beq_of_high {b : UInt8} (hb : 128 ≤ b.toNat) {d : Char} (hd : d.toNat < 128) :
    (b == d.toUInt8) = false := by
  rw [beq_eq_false_iff_ne]
  rintro rfl
  rw [toNat_toUInt8 hd] at hb
  omega

/-- The first byte of a character is an ASCII character if the character is. -/
theorem beq_of_head {c d : Char} {b : UInt8} (hd : d.toNat < 128)
    (hb : (String.utf8EncodeChar c)[0]? = some b) : (b == d.toUInt8) = (c == d) := by
  by_cases hc : c.toNat < 128
  · rw [utf8EncodeChar_ascii hc] at hb
    obtain rfl : c.toUInt8 = b := Option.some.inj hb
    rw [Bool.eq_iff_iff, beq_iff_eq, beq_iff_eq]
    constructor
    · intro h
      apply Char.toNat_inj.mp
      rw [← toNat_toUInt8 hc, h, toNat_toUInt8 hd]
    · rintro rfl
      rfl
  · rw [beq_of_high (high_of_mem (Nat.le_of_not_lt hc) (List.mem_of_getElem? hb)) hd]
    rw [eq_comm, beq_eq_false_iff_ne]
    rintro rfl
    exact hc hd

/-! ## 2. What stands at an offset -/

namespace Source

/-- A reader who stands at an offset has a text before it. -/
def At (s : Source) (pos : Nat) (t : Text) : Prop :=
  ∃ front, s.text = front ++ t ∧ pos = Text.size front

theorem size_bytes (s : Source) : s.bytes.size = Text.size s.text := by
  rw [s.spelled, List.size_toArray, Text.length_utf8]

theorem ofText_at (front t : Text) : (ofText (front ++ t)).At (Text.size front) t :=
  ⟨front, rfl, rfl⟩

namespace At

variable {s : Source} {pos : Nat} {c : Char} {t : Text}

theorem size_eq (h : s.At pos t) : s.bytes.size = pos + Text.size t := by
  obtain ⟨front, htext, rfl⟩ := h
  rw [s.size_bytes, htext, Text.size_append]

theorem le (h : s.At pos t) : pos ≤ s.bytes.size := by
  rw [h.size_eq]
  exact Nat.le_add_right _ _

theorem append {u : Text} (h : s.At pos (u ++ t)) : s.At (pos + Text.size u) t := by
  obtain ⟨front, htext, rfl⟩ := h
  exact ⟨front ++ u, by rw [htext, List.append_assoc], (Text.size_append front u).symm⟩

theorem tail (h : s.At pos (c :: t)) : s.At (pos + c.utf8Size) t :=
  append (u := [c]) h

theorem dropBytes (h : s.At pos t) : s.text.dropBytes pos = some t := by
  obtain ⟨front, htext, rfl⟩ := h
  rw [htext, Text.dropBytes_append]

theorem slice? {u : Text} (h : s.At pos (u ++ t)) :
    s.text.slice? pos (pos + Text.size u) = some u := by
  obtain ⟨front, htext, rfl⟩ := h
  rw [htext, ← List.append_assoc, Text.slice?_append]

/-- The bytes from an offset on. -/
theorem getElem? (h : s.At pos t) (k : Nat) : s.bytes[pos + k]? = (Text.utf8 t)[k]? := by
  obtain ⟨front, htext, rfl⟩ := h
  rw [s.spelled, htext, List.getElem?_toArray, Text.utf8_append, ← Text.length_utf8,
    List.getElem?_append_right (Nat.le_add_right _ _), Nat.add_sub_cancel_left]

/-- The bytes of the character at an offset. -/
theorem getElem?_char (h : s.At pos (c :: t)) {k : Nat} (hk : k < c.utf8Size) :
    s.bytes[pos + k]? = (String.utf8EncodeChar c)[k]? := by
  rw [h.getElem?, Text.utf8_cons, List.getElem?_append_left]
  rw [String.length_utf8EncodeChar]
  exact hk

theorem lt (h : s.At pos (c :: t)) : pos < s.bytes.size := by
  have hpos := c.utf8Size_pos
  rw [h.size_eq, Text.size_cons]
  omega

theorem not_lt (h : s.At pos []) : ¬pos < s.bytes.size := by
  rw [h.size_eq]
  exact Nat.lt_irrefl _

theorem getElem?_nil (h : s.At pos []) : s.bytes[pos]? = none :=
  h.getElem? 0

/-- **Asked for an ASCII character, the byte at an offset answers as the character does.** -/
theorem beq (h : s.At pos (c :: t)) {d : Char} (hd : d.toNat < 128) (hlt : pos < s.bytes.size) :
    (s.bytes[pos] == d.toUInt8) = (c == d) := by
  apply beq_of_head hd
  rw [← h.getElem?_char c.utf8Size_pos]
  exact Array.getElem?_eq_getElem hlt

theorem getElem?_beq (h : s.At pos t) {d : Char} (hd : d.toNat < 128) :
    (s.bytes[pos]? == some d.toUInt8) = (t.head? == some d) := by
  cases t with
  | nil =>
    rw [h.getElem?_nil]
    rfl
  | cons c t =>
    rw [Array.getElem?_eq_getElem h.lt]
    exact h.beq hd h.lt

/-- **Out of a character.** What does not change from one byte beyond ASCII to the next is the same
    behind the first byte of a character and behind its last. -/
theorem resync {α : Type} {f : Nat → α}
    (hf : ∀ idx b, s.bytes[idx]? = some b → 128 ≤ b.toNat → f idx = f (idx + 1))
    (h : s.At pos (c :: t)) : f (pos + 1) = f (pos + c.utf8Size) := by
  have hinside : ∀ k, k + 1 ≤ c.utf8Size → f (pos + 1) = f (pos + (k + 1)) := by
    intro k
    induction k with
    | zero => exact fun _ => rfl
    | succ k ih =>
      intro hk
      have hbyte := h.getElem?_char (k := k + 1) hk
      rw [List.getElem?_eq_getElem (by rw [String.length_utf8EncodeChar]; exact hk)] at hbyte
      rw [ih (Nat.le_of_succ_le hk)]
      apply hf _ _ hbyte
      exact high_of_getElem? (Nat.succ_pos k) (List.getElem?_eq_getElem _)
  have hpos := c.utf8Size_pos
  obtain ⟨k, hk⟩ := Nat.exists_eq_add_one_of_ne_zero (Nat.pos_iff_ne_zero.mp hpos)
  rw [hk]
  exact hinside k (Nat.le_of_eq hk.symm)

end At

/-! ## 3. Where a text can be cut -/

/-- An offset at which a character begins, or the end. -/
def Boundary (s : Source) (offset : Nat) : Prop :=
  offset = s.bytes.size ∨ ∃ b ∈ s.bytes[offset]?, b.IsUTF8FirstByte

instance (s : Source) (offset : Nat) : Decidable (s.Boundary offset) :=
  inferInstanceAs (Decidable (_ ∨ _))

/-- The first byte of a character begins it, and no other does. -/
theorem At.boundary (s : Source) (t : Text) (pos k : Nat) (h : s.At pos t)
    (hk : s.Boundary (pos + k)) : t.IsBoundary k := by
  have hsize := h.size_eq
  induction t generalizing pos k with
  | nil =>
    rcases hk with hend | ⟨b, hb, -⟩
    · obtain rfl : k = 0 := by
        rw [Text.size_nil] at hsize
        omega
      exact ⟨[], [], rfl, rfl⟩
    · rw [h.getElem?] at hb
      cases hb
  | cons c t ih =>
    by_cases hlt : k < c.utf8Size
    · rcases hk with hend | ⟨b, hb, hfirst⟩
      · rw [Text.size_cons] at hsize
        omega
      · rw [h.getElem?_char hlt] at hb
        obtain ⟨hlength, rfl⟩ := List.getElem?_eq_some_iff.mp hb
        obtain rfl := UInt8.isUTF8FirstByte_getElem_utf8EncodeChar.mp hfirst
        exact ⟨[], c :: t, rfl, rfl⟩
    · obtain ⟨k, rfl⟩ := Nat.exists_eq_add_of_le (Nat.le_of_not_lt hlt)
      rw [← Nat.add_assoc] at hk
      obtain ⟨u, v, rfl, rfl⟩ := ih (pos + c.utf8Size) k h.tail hk h.tail.size_eq
      exact ⟨c :: u, v, rfl, rfl⟩

/-- The boundaries by bytes are the places between characters. -/
theorem boundary_iff {s : Source} {offset : Nat} :
    s.Boundary offset ↔ s.text.IsBoundary offset := by
  constructor
  · intro h
    rw [← Nat.zero_add offset] at h
    exact At.boundary s s.text 0 offset ⟨[], rfl, rfl⟩ h
  · rintro ⟨u, v, htext, rfl⟩
    have hat : s.At (Text.size u) v := ⟨u, htext, rfl⟩
    cases v with
    | nil => exact .inl hat.size_eq.symm
    | cons c v =>
      have hbyte := hat.getElem?_char c.utf8Size_pos
      rw [Nat.add_zero, List.getElem?_eq_getElem
        (by rw [String.length_utf8EncodeChar]; exact c.utf8Size_pos)] at hbyte
      exact .inr ⟨_, hbyte, UInt8.isUTF8FirstByte_getElem_zero_utf8EncodeChar⟩

end Source

namespace Text

variable {t : Text} {start stop : Nat}

theorem dropBytes_isSome : (t.dropBytes start).isSome ↔ t.IsBoundary start := by
  constructor
  · intro h
    obtain ⟨v, hv⟩ := Option.isSome_iff_exists.mp h
    obtain ⟨u, htext, hstart⟩ := exists_of_dropBytes hv
    exact ⟨u, v, htext, hstart.symm⟩
  · rintro ⟨u, v, rfl, rfl⟩
    rw [dropBytes_append]
    rfl

theorem takeBytes_isSome : (t.takeBytes stop).isSome ↔ t.IsBoundary stop := by
  constructor
  · intro h
    obtain ⟨u, hu⟩ := Option.isSome_iff_exists.mp h
    obtain ⟨v, htext, hstop⟩ := exists_of_takeBytes hu
    exact ⟨u, v, htext, hstop.symm⟩
  · rintro ⟨u, v, rfl, rfl⟩
    rw [takeBytes_append]
    rfl

/-- Two boundaries of a text in order cut it into three. -/
theorem IsBoundary.exists_between (hstart : t.IsBoundary start) (hstop : t.IsBoundary stop)
    (hle : start ≤ stop) : ∃ u v w, t = u ++ v ++ w ∧ start = size u ∧ stop = size u + size v := by
  obtain ⟨u, v, rfl, rfl⟩ := hstart
  obtain ⟨u', w, htext, rfl⟩ := hstop
  rcases List.append_eq_append_iff.mp htext with ⟨m, rfl, rfl⟩ | ⟨m, rfl, rfl⟩
  · exact ⟨u, m, w, (List.append_assoc u m w).symm, rfl, size_append u m⟩
  · -- the second boundary is not before the first, so there is nothing between them
    have hm : m = [] := by
      rw [size_append] at hle
      exact size_eq_zero.mp (by omega)
    refine ⟨u', [], v, ?_, ?_, ?_⟩
    · rw [hm, List.append_nil]
    · rw [hm, List.append_nil]
    · rfl

/-- **A slice can be cut out exactly between two boundaries in order.** -/
theorem slice?_isSome :
    (t.slice? start stop).isSome ↔ start ≤ stop ∧ t.IsBoundary start ∧ t.IsBoundary stop := by
  constructor
  · intro h
    obtain ⟨v, hv⟩ := Option.isSome_iff_exists.mp h
    obtain ⟨u, w, rfl, rfl, rfl⟩ := exists_of_slice? hv
    exact ⟨Nat.le_add_right _ _, ⟨u, v ++ w, List.append_assoc u v w, rfl⟩,
      ⟨u ++ v, w, rfl, size_append u v⟩⟩
  · rintro ⟨hle, hstart, hstop⟩
    obtain ⟨u, v, w, rfl, rfl, rfl⟩ := hstart.exists_between hstop hle
    rw [slice?_append]
    rfl

end Text

end StyleModules
