import Xv6.Console.System

/-!
# The line editor behind the console

The reference editor has the bytes committed so far and the line being typed.  A keystroke
that the console does not drop does to its buffer what it does to the editor
(`Cons.Holds.consoleintr`): the bytes from `r` to `w` are those committed and not yet taken,
and those from `w` to `e` are the line.
-/

namespace Xv6

/-! ### The reference editor -/

/-- A line editor. -/
structure Editor where
  committed : List UInt8
  line : List UInt8

namespace Editor

/-- The editor after a keystroke: NUL and ^P are ignored, ^U kills the line, backspace and
delete erase the last character, any other character is appended, carriage return as a
newline.  Newline, ^D and the character that fills the buffer commit the line. -/
def type (ed : Editor) (k : Key) : Editor :=
  if k.byte = 0 ∨ k.byte = ctrl 'P' then ed
  else if k.byte = ctrl 'U' then { ed with line := [] }
  else if k.byte = ctrl 'H' ∨ k.byte = 0x7f then { ed with line := ed.line.dropLast }
  else
    let b := if k.byte = 13 then newline else k.byte
    if b = newline ∨ b = ctrl 'D' ∨ k.fills = true then ⟨ed.committed ++ ed.line ++ [b], []⟩
    else { ed with line := ed.line ++ [b] }

/-- The editor after some keystrokes. -/
def run (keys : List Key) : Editor := keys.foldl type ⟨[], []⟩

theorem run_concat (keys : List Key) (k : Key) : run (keys ++ [k]) = (run keys).type k := by
  simp [run]

/-- What has been committed stays. -/
theorem committed_prefix (ed : Editor) (k : Key) : ed.committed <+: (ed.type k).committed := by
  simp only [type]
  split_ifs
  all_goals simp

end Editor

/-- Bytes that neither end a line nor the input. -/
def Plain (l : List UInt8) : Prop := newline ∉ l ∧ ctrl 'D' ∉ l

namespace Plain

theorem nil : Plain [] := ⟨List.not_mem_nil, List.not_mem_nil⟩

theorem append {l l' : List UInt8} (h : Plain l) (h' : Plain l') : Plain (l ++ l') := by
  simp only [Plain, List.mem_append, not_or]
  exact ⟨⟨h.1, h'.1⟩, h.2, h'.2⟩

theorem of_append_left {l l' : List UInt8} (h : Plain (l ++ l')) : Plain l := by
  simp only [Plain, List.mem_append, not_or] at h
  exact ⟨h.1.1, h.2.1⟩

theorem singleton {b : UInt8} (hn : b ≠ newline) (hd : b ≠ ctrl 'D') : Plain [b] := by
  simp only [Plain, List.mem_singleton]
  exact ⟨hn.symm, hd.symm⟩

theorem dropLast {l : List UInt8} (h : Plain l) : newline ∉ l.dropLast :=
  fun hmem => h.1 (List.mem_of_mem_dropLast hmem)

end Plain

/-! ### Wrapping indices -/

/-- The distance of two wrapping indices. -/
theorem toNat_sub_of_mod {i j : UInt32} {m n : ℕ} (hi : i.toNat = m % 2 ^ 32) (hj : j.toNat = n % 2 ^ 32)
    (hle : m ≤ n) (hlt : n - m < 2 ^ 32) :
  (j - i).toNat = n - m
  := by
  rw [UInt32.toNat_sub]
  omega

/-! ### The buffer and the editor -/

namespace Cons

/-- The buffer as a ring. -/
def ring (c : Cons) : RingBuffer UInt8 := ⟨c.buf, c.r.toNat, c.e.toNat⟩

/-- The buffer holds the bytes committed and not taken, followed by the line. -/
structure Holds (c : Cons) (ed : Editor) (taken : List UInt8) : Prop where
  ring : c.ring.Streams INPUT_BUF_SIZE (2 ^ 32) (ed.committed ++ ed.line) taken
  w : c.w.toNat = ed.committed.length % 2 ^ 32
  taken_le : taken.length ≤ ed.committed.length
  plain : Plain ed.line
  full : ed.committed.length + ed.line.length = taken.length + INPUT_BUF_SIZE → ed.line = []

namespace Holds

variable {c : Cons} {ed : Editor} {taken : List UInt8}

section

variable (h : c.Holds ed taken)

include h

theorem r : c.r.toNat = taken.length % 2 ^ 32 := h.ring.nread

theorem e : c.e.toNat = (ed.committed.length + ed.line.length) % 2 ^ 32 := by
  rw [← List.length_append]
  exact h.ring.nwrite

theorem room : ed.committed.length + ed.line.length ≤ taken.length + INPUT_BUF_SIZE := by
  rw [← List.length_append]
  exact h.ring.room

theorem toNat_w_sub_r : (c.w - c.r).toNat = ed.committed.length - taken.length := by
  have hroom := h.room
  apply toNat_sub_of_mod h.r h.w h.taken_le
  unfold INPUT_BUF_SIZE at hroom
  omega

theorem toNat_e_sub_r :
  (c.e - c.r).toNat = ed.committed.length + ed.line.length - taken.length
  := by
  have hroom := h.room
  have hle := h.taken_le
  apply toNat_sub_of_mod h.r h.e (by omega)
  unfold INPUT_BUF_SIZE at hroom
  omega

theorem toNat_e_sub_w : (c.e - c.w).toNat = ed.line.length := by
  have hroom := h.room
  have hle := h.taken_le
  rw [toNat_sub_of_mod h.w h.e (by omega), Nat.add_sub_cancel_left]
  unfold INPUT_BUF_SIZE at hroom
  omega

theorem toNat_e_succ_sub_r :
  (c.e + 1 - c.r).toNat = ed.committed.length + ed.line.length + 1 - taken.length
  := by
  have hroom := h.room
  have hle := h.taken_le
  have he := h.e
  apply toNat_sub_of_mod h.r _ (by omega)
  · unfold INPUT_BUF_SIZE at hroom
    omega
  · rw [UInt32.toNat_add, he]
    exact Nat.mod_add_mod _ _ _

/-- There is no line exactly if `e` equals `w`. -/
theorem e_eq_w_iff : c.e = c.w ↔ ed.line = [] := by
  have hsub := h.toNat_e_sub_w
  rw [← List.length_eq_zero_iff, ← hsub]
  constructor
  · intro heq
    rw [heq, UInt32.sub_self]
    rfl
  · intro hzero
    have : c.e - c.w = 0 := UInt32.toNat_inj.mp hzero
    rwa [UInt32.sub_eq_iff_eq_add, UInt32.zero_add] at this

/-- There is nothing to take exactly if `r` equals `w`. -/
theorem r_eq_w_iff : c.r = c.w ↔ taken.length = ed.committed.length := by
  have hsub := h.toNat_w_sub_r
  have hle := h.taken_le
  constructor
  · intro heq
    rw [heq, UInt32.sub_self] at hsub
    have : 0 = ed.committed.length - taken.length := hsub
    omega
  · intro heq
    apply UInt32.toNat_inj.mp
    rw [h.r, h.w, heq]

/-- The bytes committed from some point on are in the buffer. -/
theorem between {i : UInt32} {m : ℕ} (hi : i.toNat = m % 2 ^ 32)
    (hm : taken.length ≤ m) (hle : m ≤ ed.committed.length) :
  c.between i c.w = ed.committed.drop m
  := by
  have hroom := h.room
  have hseg : c.ring.segment INPUT_BUF_SIZE (m % 2 ^ 32) (ed.committed.length - m) = _ :=
    h.ring.segment (by decide) hm (by rw [List.length_append]; omega)
  rw [List.drop_append_of_le_length hle, List.take_append_of_le_length (by rw [List.length_drop]),
    List.take_of_length_le (by rw [List.length_drop])] at hseg
  rw [← hseg, Cons.between, RingBuffer.segment, hi, toNat_sub_of_mod hi h.w hle]
  · rfl
  · unfold INPUT_BUF_SIZE at hroom
    omega

theorem unread : c.unread = ed.committed.drop taken.length :=
  h.between h.r (Nat.le_refl _) h.taken_le

end

section

variable {committed l : List UInt8} {a : UInt8} (h : c.Holds ⟨committed, l ++ [a]⟩ taken)

include h

/-- The last character of the line is before `e`. -/
theorem byte_last : c.byte (c.e - 1) = a := by
  have hle := h.taken_le
  have he := h.e
  have hdata := h.ring.data (committed.length + l.length)
    (by simp only [List.length_append, List.length_singleton]; omega)
    (by simp only at hle; omega)
  simp only [← List.append_assoc, ← List.length_append, List.getElem_concat_length] at hdata
  rw [← hdata, Cons.byte, Cons.ring]
  simp only [List.length_append, List.length_singleton] at he ⊢
  congr 1
  rw [UInt32.toNat_sub]
  unfold INPUT_BUF_SIZE
  have h1 : (1 : UInt32).toNat = 1 := rfl
  omega

/-- Erasing the last character of the line. -/
theorem erase : (c.setE (c.e - 1)).Holds ⟨committed, l⟩ taken := by
  have hle := h.taken_le
  have hring := h.ring
  simp only [← List.append_assoc] at hring
  have hun := hring.unpush (by decide) (by rw [List.length_append]; simp only at hle; omega)
  refine ⟨?_, h.w, hle, h.plain.of_append_left, ?_⟩
  · have : (c.setE (c.e - 1)).ring = c.ring.unpush (2 ^ 32) := by
      simp only [Cons.ring, Cons.setE, RingBuffer.unpush, UInt32.toNat_sub]
      have h1 : (1 : UInt32).toNat = 1 := rfl
      rw [h1, Nat.add_comm]
    rw [this]
    exact hun
  · intro hfull
    have hroom := h.room
    simp only [List.length_append, List.length_singleton] at hfull hroom
    omega

end

/-- Killing the line. -/
theorem kill {committed line : List UInt8} (h : c.Holds ⟨committed, line⟩ taken) :
  (killLine line.length c).Holds ⟨committed, []⟩ taken
  := by
  induction line using List.reverseRecOn generalizing c with
  | nil => exact h
  | append_singleton l a ih =>
    have hne : c.e ≠ c.w := by
      rw [ne_eq, h.e_eq_w_iff]
      simp
    have hnl : c.byte (c.e - 1) ≠ newline := by
      rw [h.byte_last]
      rintro rfl
      exact h.plain.1 (List.mem_concat_self)
    rw [List.length_append, List.length_singleton, killLine, if_pos ⟨hne, hnl⟩]
    apply ih h.erase

variable (h : c.Holds ed taken)

include h

/-- There is room exactly if fewer than `INPUT_BUF_SIZE` bytes are held. -/
theorem lt_iff :
  c.e - c.r < 128 ↔ ed.committed.length + ed.line.length < taken.length + INPUT_BUF_SIZE
  := by
  have hle := h.taken_le
  have h128 : (128 : UInt32).toNat = 128 := rfl
  rw [UInt32.lt_iff_toNat_lt, h.toNat_e_sub_r, h128]
  unfold INPUT_BUF_SIZE
  omega

/-- The next character fills the buffer exactly if one place is left. -/
theorem fills_iff :
  c.e + 1 - c.r = 128 ↔ ed.committed.length + ed.line.length + 1 = taken.length + INPUT_BUF_SIZE
  := by
  have hle := h.taken_le
  have h128 : (128 : UInt32).toNat = 128 := rfl
  rw [← UInt32.toNat_inj, h.toNat_e_succ_sub_r, h128]
  unfold INPUT_BUF_SIZE
  omega

/-- The buffer after a character has been put at its end. -/
theorem push (hroom : c.e - c.r < 128) (b : UInt8) :
  RingBuffer.Streams INPUT_BUF_SIZE (2 ^ 32)
    (Cons.ring { c with buf := Function.update c.buf (c.e.toNat % INPUT_BUF_SIZE) b, e := c.e + 1 })
    (ed.committed ++ ed.line ++ [b]) taken
  := by
  have hring : Cons.ring { c with buf := Function.update c.buf (c.e.toNat % INPUT_BUF_SIZE) b, e := c.e + 1 }
      = c.ring.push INPUT_BUF_SIZE (2 ^ 32) b := by
    simp only [Cons.ring, RingBuffer.push, UInt32.toNat_add]
    rfl
  rw [hring]
  apply h.ring.push (by decide) (by decide)
  rw [h.ring.full_iff (by decide), List.length_append]
  exact (h.lt_iff.mp hroom).ne

/-- Storing a character. -/
theorem store (hroom : c.e - c.r < 128) (b : UInt8) :
  (c.store b).Holds
    (if b = newline ∨ b = ctrl 'D' ∨ c.e + 1 - c.r = 128 then ⟨ed.committed ++ ed.line ++ [b], []⟩
      else ⟨ed.committed, ed.line ++ [b]⟩) taken
  := by
  have hring := h.push hroom b
  have hle := h.taken_le
  unfold Cons.store
  simp only
  split
  · rename_i hcommit
    refine ⟨?_, ?_, ?_, Plain.nil, fun _ => rfl⟩
    · simp only [List.append_nil]
      exact hring
    · exact hring.nwrite
    · simp only [List.length_append]
      omega
  · rename_i hcommit
    simp only [not_or] at hcommit
    refine ⟨?_, h.w, hle, h.plain.append (Plain.singleton hcommit.1 hcommit.2.1), ?_⟩
    · simp only [← List.append_assoc]
      exact hring
    · intro hfull
      simp only [List.length_append, List.length_singleton] at hfull
      exact absurd (h.fills_iff.mpr (by omega)) hcommit.2.2

/-- Backspace. -/
theorem backspace :
  (if c.e ≠ c.w then c.setE (c.e - 1) else c).Holds { ed with line := ed.line.dropLast } taken
  := by
  obtain ⟨committed, line⟩ := ed
  induction line using List.reverseRecOn with
  | nil =>
    rw [if_neg (not_not.mpr (h.e_eq_w_iff.mpr rfl))]
    exact h
  | append_singleton l a _ =>
    rw [if_pos, List.dropLast_concat]
    · exact h.erase
    · rw [ne_eq, h.e_eq_w_iff]
      simp

/-- A keystroke that is not dropped does to the buffer what it does to the editor. -/
theorem consoleintr {b : UInt8} (hb : ¬ c.Drops b) :
  (c.consoleintr b).Holds (ed.type ⟨b, c.e + 1 - c.r = 128⟩) taken
  := by
  by_cases hP : b = ctrl 'P'
  · rw [Cons.consoleintr, if_pos hP, Editor.type, if_pos (.inr hP)]
    exact h
  by_cases hU : b = ctrl 'U'
  · have h0 : ¬ (b = 0 ∨ b = ctrl 'P') := by
      rw [hU]
      decide
    rw [Cons.consoleintr, if_neg hP, if_pos hU, Editor.type, if_neg h0, if_pos hU, h.toNat_e_sub_w]
    exact h.kill
  by_cases hH : b = ctrl 'H' ∨ b = 0x7f
  · have h0 : ¬ (b = 0 ∨ b = ctrl 'P') := by
      obtain rfl | rfl := hH
      all_goals decide
    rw [Cons.consoleintr, if_neg hP, if_neg hU, if_pos hH, Editor.type, if_neg h0, if_neg hU, if_pos hH]
    exact h.backspace
  by_cases h0 : b = 0
  · rw [Cons.consoleintr, if_neg hP, if_neg hU, if_neg hH, if_neg (fun h => h.1 h0), Editor.type,
      if_pos (.inl h0)]
    exact h
  · have hroom : c.e - c.r < 128 := by
      rw [h.lt_iff]
      apply Nat.lt_of_le_of_ne h.room
      intro heq
      apply hb
      refine ⟨by simp only [List.mem_cons, List.not_mem_nil]; tauto, ?_⟩
      apply UInt32.toNat_inj.mp
      rw [h.toNat_e_sub_r, heq, Nat.add_sub_cancel_left]
      rfl
    rw [Cons.consoleintr, if_neg hP, if_neg hU, if_neg hH, if_pos ⟨h0, hroom⟩, Editor.type,
      if_neg (not_or.mpr ⟨h0, hP⟩), if_neg hU, if_neg hH]
    simp only [decide_eq_true_eq]
    exact h.store hroom _

end Holds

/-- A keystroke that is dropped changes nothing. -/
theorem consoleintr_of_drops {c : Cons} {b : UInt8} (hb : c.Drops b) : c.consoleintr b = c := by
  obtain ⟨hmem, hfull⟩ := hb
  simp only [List.mem_cons, List.not_mem_nil, or_false, not_or] at hmem
  obtain ⟨hP, hU, hH, hdel, _⟩ := hmem
  rw [consoleintr, if_neg hP, if_neg hU, if_neg (not_or.mpr ⟨hH, hdel⟩), hfull]
  rw [if_neg (fun h => absurd h.2 (by decide))]

/-- A keystroke moves `e` and `w` only. -/
theorem consoleintr_r (c : Cons) (b : UInt8) : (c.consoleintr b).r = c.r := by
  have hkill : ∀ n (c : Cons), (killLine n c).r = c.r := by
    intro n
    induction n with
    | zero => exact fun _ => rfl
    | succ n ih =>
      intro c
      rw [killLine]
      split
      · apply ih
      · rfl
  have hstore : ∀ b, (c.store b).r = c.r := by
    intro b
    simp only [store]
    split
    all_goals rfl
  simp only [consoleintr]
  split_ifs
  all_goals first | rfl | apply hkill | apply hstore

end Cons

end Xv6
