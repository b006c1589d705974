import Xv6.Console.Editor

/-!
# The line discipline

The bytes that calls of `consoleread` take from the console are, in the order in which they
take them, the bytes the reference editor commits.  What a call takes is what it copies to
the user: bytes without newline or ^D, except that the last one may be a newline.  A ^D is
taken by a call that has taken nothing else, and that call returns `0`.  When calls follow
each other, what they return is the stream cut into pieces.
-/

namespace Xv6

open Function

/-! ### One turn of a call -/

namespace Cons

/-- What a turn does with `cs` taken, for a call with `n` bytes to go of `target` and `out`
copied so far. -/
inductive Took (target n : ℕ) (out : List UInt8) : Turn → ℕ → List UInt8 → List UInt8 → Prop where
  /-- The bytes committed are used up. -/
  | sleeps {cs : List UInt8} : Plain cs → cs.length < n →
      Took target n out .sleeps (n - cs.length) (out ++ cs) cs
  /-- The user has all that was asked for. -/
  | full {cs : List UInt8} : Plain cs → cs.length = n →
      Took target n out .returns 0 (out ++ cs) cs
  /-- A line ends. -/
  | line {cs : List UInt8} : Plain cs → cs.length < n →
      Took target n out .returns (n - cs.length - 1) (out ++ (cs ++ [newline])) (cs ++ [newline])
  /-- A ^D is left for the next call. -/
  | saved {cs : List UInt8} : Plain cs → cs.length < n → n - cs.length < target →
      Took target n out .returns (n - cs.length) (out ++ cs) cs
  /-- A ^D is the first byte that the call finds. -/
  | eof : 0 < n → target ≤ n → Took target n out .returns n out [ctrl 'D']

/-- Before the other bytes a plain one is taken. -/
theorem Took.cons {target n n' : ℕ} {out out' cs : List UInt8} {t : Turn} {b : UInt8}
    (h : Took target n (out ++ [b]) t n' out' cs) (hb : Plain [b]) (hn : n < target) :
  Took target (n + 1) out t n' out' (b :: cs)
  := by
  have hplain : ∀ {cs}, Plain cs → Plain (b :: cs) := fun h => hb.append h
  cases h with
  | sleeps hcs hlt =>
    have := @sleeps target (n + 1) out (b :: _) (hplain hcs) (Nat.succ_lt_succ hlt)
    simpa using this
  | full hcs hlen =>
    have := @full target (n + 1) out (b :: _) (hplain hcs) (congrArg Nat.succ hlen)
    simpa using this
  | line hcs hlt =>
    have := @line target (n + 1) out (b :: _) (hplain hcs) (Nat.succ_lt_succ hlt)
    simpa using this
  | saved hcs hlt hsaved =>
    have := @saved target (n + 1) out (b :: _) (hplain hcs) (Nat.succ_lt_succ hlt)
      (by simpa using hsaved)
    simpa using this
  | eof _ hle => exact absurd hn (Nat.not_lt_of_le hle)

/-- A turn moves `r` only. -/
theorem readLoop_eq (target n : ℕ) (out : List UInt8) (c : Cons) :
  ∃ r, (c.readLoop target n out).2.2.2 = c.setR r
  := by
  induction n generalizing out c with
  | zero => exact ⟨c.r, rfl⟩
  | succ n ih =>
    simp only [readLoop]
    split
    · exact ⟨c.r, rfl⟩
    split
    · split
      · exact ⟨_, rfl⟩
      · exact ⟨_, rfl⟩
    split
    · exact ⟨_, rfl⟩
    · exact ih _ _

namespace Holds

variable {c : Cons} {ed : Editor} {taken : List UInt8}

/-- The first of the bytes committed and not taken. -/
theorem next (h : c.Holds ed taken) (hne : c.r ≠ c.w) :
  (c.setR (c.r + 1)).Holds ed (taken ++ [c.byte c.r])
  := by
  have hlt : taken.length < ed.committed.length := by
    apply Nat.lt_of_le_of_ne h.taken_le
    rwa [← h.r_eq_w_iff]
  have hring : (c.setR (c.r + 1)).ring = c.ring.pop (2 ^ 32) := by
    simp only [Cons.ring, setR, RingBuffer.pop, UInt32.toNat_add]
    rfl
  have hempty : ¬ c.ring.Empty := by
    rw [h.ring.empty_iff (by decide), List.length_append]
    omega
  refine ⟨?_, h.w, ?_, h.plain, ?_⟩
  · rw [hring]
    exact h.ring.pop (by decide) (by decide) hempty
  · rw [List.length_append, List.length_singleton]
    exact hlt
  · intro hfull
    have hroom := h.room
    rw [List.length_append, List.length_singleton] at hfull
    omega

/-- What a turn takes, and what it does with it. -/
theorem readLoop (h : c.Holds ed taken) {target n : ℕ} (hn : n ≤ target) (out : List UInt8) :
  ∃ cs, (c.readLoop target n out).2.2.2.Holds ed (taken ++ cs)
    ∧ Took target n out (c.readLoop target n out).1 (c.readLoop target n out).2.1
        (c.readLoop target n out).2.2.1 cs
  := by
  induction n generalizing out c taken with
  | zero =>
    refine ⟨[], ?_, ?_⟩
    · rw [List.append_nil]
      exact h
    · have := @Took.full target 0 out [] Plain.nil rfl
      rwa [List.append_nil] at this
  | succ n ih =>
    simp only [Cons.readLoop]
    split
    · refine ⟨[], ?_, ?_⟩
      · rw [List.append_nil]
        exact h
      · have := @Took.sleeps target (n + 1) out [] Plain.nil (Nat.succ_pos n)
        rwa [List.append_nil] at this
    · rename_i hne
      have hnext := h.next hne
      split
      · rename_i heof
        split
        · rename_i hlt
          refine ⟨[], ?_, ?_⟩
          · rw [List.append_nil]
            have hback : (c.setR (c.r + 1)).setR ((c.setR (c.r + 1)).r - 1) = c := by
              simp [setR]
            rw [hback]
            exact h
          · have := @Took.saved target (n + 1) out [] Plain.nil (Nat.succ_pos n) hlt
            rwa [List.append_nil] at this
        · rename_i hlt
          rw [heof] at hnext
          exact ⟨[ctrl 'D'], hnext, Took.eof (Nat.succ_pos n) (Nat.le_of_not_lt hlt)⟩
      · rename_i heof
        split
        · rename_i hnl
          rw [hnl] at hnext ⊢
          refine ⟨[newline], hnext, ?_⟩
          exact @Took.line target (n + 1) out [] Plain.nil (Nat.succ_pos n)
        · rename_i hnl
          obtain ⟨cs, hholds, htook⟩ := ih hnext (Nat.le_of_succ_le hn) (out ++ [c.byte c.r])
          refine ⟨c.byte c.r :: cs, ?_, ?_⟩
          · rw [List.append_assoc] at hholds
            exact hholds
          · exact htook.cons (Plain.singleton hnl heof) hn

/-- The bytes between the old and the new `r`. -/
theorem between_r (h : c.Holds ed taken) {cs : List UInt8} {r : UInt32}
    (h' : (c.setR r).Holds ed (taken ++ cs)) :
  (c.setR r).between c.r r = cs
  := by
  have hle := h'.ring.le
  have hroom := h.room
  rw [List.length_append, List.length_append] at hle
  have hr : r.toNat = (taken ++ cs).length % 2 ^ 32 := h'.r
  rw [List.length_append] at hr
  have hlen : (r - c.r).toNat = cs.length := by
    rw [toNat_sub_of_mod h.r hr (Nat.le_add_right _ _), Nat.add_sub_cancel_left]
    unfold INPUT_BUF_SIZE at hroom
    omega
  have hseg : c.ring.segment INPUT_BUF_SIZE (taken.length % 2 ^ 32) cs.length = _ :=
    h.ring.segment (by decide) (Nat.le_refl _) (by rw [List.length_append]; exact hle)
  obtain ⟨rest, hrest⟩ := h'.ring.initial
  rw [← hrest, List.append_assoc, List.drop_left, List.take_left] at hseg
  rw [Cons.between, hlen, h.r]
  exact hseg

end Holds

end Cons

/-! ### Calls -/

/-- What a call that has returned took from the console. -/
def ReadResult.piece (x : ReadResult) : List UInt8 := if x.bytes = [] then [ctrl 'D'] else x.bytes

/-- A call in progress: what it has taken is what it has copied, bytes without newline or ^D. -/
structure ConsoleRead.Ok (rd : ConsoleRead) : Prop where
  pos : 0 < rd.n
  plain : Plain rd.out
  total : rd.n + rd.out.length = rd.target

/-- A call that has returned: the result is the number of bytes copied, and these do not go
beyond a newline. -/
structure ReadResult.Ok (x : ReadResult) : Prop where
  ret : x.ret = x.bytes.length
  noEof : ctrl 'D' ∉ x.bytes
  oneLine : newline ∉ x.bytes.dropLast

namespace Cons

variable {rd : ConsoleRead} {n : ℕ} {out cs : List UInt8}

/-- A turn that ends in `sleep`. -/
theorem Took.asleep (h : Took rd.target rd.n rd.out .sleeps n out cs) (hrd : rd.Ok) :
  ConsoleRead.Ok { rd with n := n, out := out } ∧ out = rd.out ++ cs ∧ ctrl 'D' ∉ cs
  := by
  have htotal := hrd.total
  cases h with
  | sleeps hcs hlt =>
    refine ⟨⟨Nat.sub_pos_of_lt hlt, hrd.plain.append hcs, ?_⟩, rfl, hcs.2⟩
    simp only [List.length_append]
    omega

/-- A turn at the end of which the call returns. -/
theorem Took.returned (h : Took rd.target rd.n rd.out .returns n out cs) (hrd : rd.Ok) :
  ReadResult.Ok ⟨rd.call, rd.target - n, out⟩
    ∧ rd.out ++ cs = ReadResult.piece ⟨rd.call, rd.target - n, out⟩
    ∧ cs.count (ctrl 'D') = if out = [] then 1 else 0
  := by
  have htotal := hrd.total
  have hpos := hrd.pos
  have hzero : ∀ {cs}, Plain cs → cs.count (ctrl 'D') = 0 := fun h => List.count_eq_zero.mpr h.2
  have hpiece : ∀ {ret : ℕ} {l : List UInt8}, l ≠ [] → ReadResult.piece ⟨rd.call, ret, l⟩ = l :=
    fun h => if_neg h
  cases h with
  | full hcs hlen =>
    have hplain := hrd.plain.append hcs
    have hlen' : (rd.out ++ cs).length = rd.target := by
      rw [List.length_append]
      omega
    have hne : rd.out ++ cs ≠ [] := by
      rw [← List.length_pos_iff, hlen']
      omega
    refine ⟨⟨?_, hplain.2, hplain.dropLast⟩, (hpiece hne).symm, ?_⟩
    · rw [hlen', Nat.sub_zero]
    · rw [if_neg hne, hzero hcs]
  | line hcs hlt =>
    rename_i cs
    have hplain := hrd.plain.append hcs
    have hne : rd.out ++ (cs ++ [newline]) ≠ [] := by simp
    refine ⟨⟨?_, ?_, ?_⟩, (hpiece hne).symm, ?_⟩
    · simp only [List.length_append, List.length_singleton]
      omega
    · rw [← List.append_assoc, List.mem_append, not_or]
      exact ⟨hplain.2, by decide⟩
    · rw [← List.append_assoc, List.dropLast_concat]
      exact hplain.1
    · rw [if_neg hne, List.count_append, hzero hcs]
      decide
  | saved hcs hlt hsaved =>
    have hplain := hrd.plain.append hcs
    have hne : rd.out ++ cs ≠ [] := by
      rw [← List.length_pos_iff, List.length_append]
      omega
    refine ⟨⟨?_, hplain.2, hplain.dropLast⟩, (hpiece hne).symm, ?_⟩
    · simp only [List.length_append]
      omega
    · rw [if_neg hne, hzero hcs]
  | eof _ hle =>
    have hnil : rd.out = [] := by
      rw [← List.length_eq_zero_iff]
      omega
    have hret : rd.target - rd.n = 0 := Nat.sub_eq_zero_of_le hle
    rw [hnil, hret]
    refine ⟨⟨rfl, List.not_mem_nil, List.not_mem_nil⟩, rfl, rfl⟩

end Cons

namespace Console

/-- What a call has taken. -/
def consumed (s : Console) (k : ℕ) : List UInt8 :=
  (s.taken.filter fun x => x.1 = k).map Prod.snd

/-- The bytes taken by all calls, in order. -/
def stream (s : Console) : List UInt8 := s.taken.map Prod.snd

/-- A call that is in progress or has returned. -/
def Owner (s : Console) (k : ℕ) : Prop :=
  (∃ p rd, s.reader p = some rd ∧ rd.call = k) ∨ ∃ x ∈ s.reads, x.call = k

/-- The state and its record agree. -/
structure Inv (s : Console) : Prop where
  holds : s.cons.Holds (Editor.run s.keys) s.stream
  committed : s.committed = (Editor.run s.keys).committed
  tags : ∀ x ∈ s.taken, x.1 < s.calls
  reader : ∀ p rd, s.reader p = some rd → rd.Ok ∧ rd.call < s.calls ∧ s.consumed rd.call = rd.out
  distinct : ∀ p q rd rd', s.reader p = some rd → s.reader q = some rd' → rd.call = rd'.call → p = q
  read : ∀ x ∈ s.reads, x.Ok ∧ x.call < s.calls ∧ s.consumed x.call = x.piece
  finished : ∀ x ∈ s.reads, ∀ p rd, s.reader p = some rd → rd.call ≠ x.call
  nodup : (s.reads.map ReadResult.call).Nodup
  owner : ∀ x ∈ s.taken, s.Owner x.1
  eofs : s.stream.count (ctrl 'D') = s.reads.countP fun x => x.bytes = []

theorem inv_boot : boot.Inv where
  holds := ⟨RingBuffer.streams_nil _ _ rfl rfl, rfl, Nat.le_refl _, Plain.nil, fun _ => rfl⟩
  committed := rfl
  tags := by simp [boot]
  reader := by simp [boot]
  distinct := by simp [boot]
  read := by simp [boot]
  finished := by simp [boot]
  nodup := List.nodup_nil
  owner := by simp [boot]
  eofs := rfl

variable {s : Console} {a : ConsoleAct}

/-- A keystroke. -/
theorem Inv.type (h : s.Inv) (b : UInt8) : (s.type b).Inv := by
  have hholds : (s.type b).cons.Holds (Editor.run (s.type b).keys) s.stream := by
    simp only [Console.type]
    split
    · rename_i hdrop
      rw [Cons.consoleintr_of_drops hdrop]
      exact h.holds
    · rename_i hdrop
      rw [Editor.run_concat]
      exact h.holds.consoleintr hdrop
  have hprefix : (Editor.run s.keys).committed <+: (Editor.run (s.type b).keys).committed := by
    simp only [Console.type]
    split
    · exact List.prefix_rfl
    · rw [Editor.run_concat]
      apply Editor.committed_prefix
  have hcommitted : (s.type b).committed = (Editor.run (s.type b).keys).committed := by
    have hbetween : (s.type b).cons.between s.cons.w (s.type b).cons.w = _ :=
      hholds.between h.holds.w h.holds.taken_le hprefix.length_le
    obtain ⟨rest, hrest⟩ := hprefix
    rw [← hrest, List.drop_left] at hbetween
    rw [← hrest, ← hbetween, ← h.committed]
    rfl
  exact ⟨hholds, hcommitted, h.tags, h.reader, h.distinct, h.read, h.finished, h.nodup, h.owner, h.eofs⟩

theorem consumed_of_tags {k : ℕ} (h : ∀ x ∈ s.taken, x.1 < k) : s.consumed k = [] := by
  rw [consumed, List.map_eq_nil_iff, List.filter_eq_nil_iff]
  intro x hx
  simpa using (h x hx).ne

/-- A call begins. -/
theorem Inv.enter (h : s.Inv) {p n : ℕ} (hp : s.reader p = none) (hn : 0 < n) :
  (s.enter p n).Inv
  := by
  have hreader : ∀ q rd, (s.enter p n).reader q = some rd →
      (q = p ∧ rd = ⟨s.calls, n, n, []⟩) ∨ s.reader q = some rd := by
    intro q rd hq
    by_cases hqp : q = p
    · subst hqp
      simp only [Console.enter, update_self] at hq
      exact .inl ⟨rfl, (Option.some.inj hq).symm⟩
    · simp only [Console.enter, update_of_ne hqp] at hq
      exact .inr hq
  refine ⟨h.holds, h.committed, ?_, ?_, ?_, ?_, ?_, h.nodup, ?_, h.eofs⟩
  · intro x hx
    exact Nat.lt_succ_of_lt (h.tags x hx)
  · intro q rd hq
    obtain ⟨-, rfl⟩ | hq := hreader q rd hq
    · exact ⟨⟨hn, Plain.nil, rfl⟩, Nat.lt_succ_self _, consumed_of_tags h.tags⟩
    · obtain ⟨hok, hlt, hcons⟩ := h.reader q rd hq
      exact ⟨hok, Nat.lt_succ_of_lt hlt, hcons⟩
  · intro q q' rd rd' hq hq' heq
    obtain ⟨rfl, rfl⟩ | hold := hreader q rd hq
    · obtain ⟨rfl, -⟩ | hold' := hreader q' rd' hq'
      · rfl
      · exact absurd heq (h.reader q' rd' hold').2.1.ne'
    · obtain ⟨rfl, rfl⟩ | hold' := hreader q' rd' hq'
      · exact absurd heq (h.reader q rd hold).2.1.ne
      · exact h.distinct q q' rd rd' hold hold' heq
  · intro x hx
    obtain ⟨hok, hlt, hcons⟩ := h.read x hx
    exact ⟨hok, Nat.lt_succ_of_lt hlt, hcons⟩
  · intro x hx q rd hq
    obtain ⟨-, rfl⟩ | hq := hreader q rd hq
    · exact (h.read x hx).2.1.ne'
    · exact h.finished x hx q rd hq
  · intro x hx
    obtain ⟨q, rd, hq, hcall⟩ | hread := h.owner x hx
    · have hqp : q ≠ p := by
        rintro rfl
        rw [hp] at hq
        cases hq
      refine .inl ⟨q, rd, ?_, hcall⟩
      simp only [Console.enter, update_of_ne hqp, hq]
    · exact .inr hread

/-- Call `k` takes the bytes `cs`, which moves `r`. -/
def take (s : Console) (k : ℕ) (cs : List UInt8) (r : UInt32) : Console :=
  { s with cons := s.cons.setR r, taken := s.taken ++ cs.map (Prod.mk k) }

/-- The process goes to sleep in a call. -/
def park (s : Console) (p : ℕ) (rd : ConsoleRead) : Console :=
  { s with reader := update s.reader p (some rd) }

/-- The process returns from a call. -/
def finish (s : Console) (p : ℕ) (x : ReadResult) : Console :=
  { s with reader := update s.reader p none, reads := s.reads ++ [x] }

section Turn

variable {s s' : Console} {p : ℕ} {rd : ConsoleRead}

/-- What a turn does. -/
inductive TurnEffect (s : Console) (p : ℕ) (rd : ConsoleRead) : Console → Prop where
  | sleeps {n : ℕ} {out cs : List UInt8} {r : UInt32} :
      Cons.Took rd.target rd.n rd.out .sleeps n out cs →
      (s.cons.setR r).Holds (Editor.run s.keys) (s.stream ++ cs) →
      TurnEffect s p rd ((s.take rd.call cs r).park p { rd with n := n, out := out })
  | returns {n : ℕ} {out cs : List UInt8} {r : UInt32} :
      Cons.Took rd.target rd.n rd.out .returns n out cs →
      (s.cons.setR r).Holds (Editor.run s.keys) (s.stream ++ cs) →
      TurnEffect s p rd ((s.take rd.call cs r).finish p ⟨rd.call, rd.target - n, out⟩)

theorem turn_effect (h : s.cons.Holds (Editor.run s.keys) s.stream) (hrd : rd.Ok) :
  TurnEffect s p rd (s.turn p rd)
  := by
  obtain ⟨cs, hholds, htook⟩ := h.readLoop (Nat.le_of_add_right_le hrd.total.le) rd.out
  obtain ⟨r, hr⟩ := Cons.readLoop_eq rd.target rd.n rd.out s.cons
  rw [hr] at hholds
  have hbetween := h.between_r hholds
  unfold turn
  generalize hres : s.cons.readLoop rd.target rd.n rd.out = res at htook hr
  obtain ⟨t, n, out, c⟩ := res
  simp only at htook hr
  subst hr
  have hc : (s.cons.setR r).r = r := rfl
  simp only [hc, hbetween]
  cases t with
  | sleeps => exact .sleeps htook hholds
  | returns => exact .returns htook hholds

theorem stream_take (s : Console) (k : ℕ) (cs : List UInt8) (r : UInt32) :
  (s.take k cs r).stream = s.stream ++ cs
  := by
  simp [stream, take]

theorem count_take (s : Console) (k : ℕ) (cs : List UInt8) (r : UInt32) (b : UInt8) :
  (s.take k cs r).stream.count b = s.stream.count b + cs.count b
  := by
  rw [stream_take, List.count_append]

theorem consumed_take_self (s : Console) (k : ℕ) (cs : List UInt8) (r : UInt32) :
  (s.take k cs r).consumed k = s.consumed k ++ cs
  := by
  simp [consumed, take, List.filter_map, Function.comp_def]

theorem consumed_take_of_ne {k k' : ℕ} (hk : k' ≠ k) (s : Console) (cs : List UInt8) (r : UInt32) :
  (s.take k cs r).consumed k' = s.consumed k'
  := by
  simp [consumed, take, hk.symm]

/-- Taking bytes for a call in progress. -/
theorem Inv.tags_take (h : s.Inv) (hlt : rd.call < s.calls) (cs : List UInt8) (r : UInt32) :
  ∀ x ∈ (s.take rd.call cs r).taken, x.1 < s.calls
  := by
  intro x hx
  obtain hx | hx := List.mem_append.mp hx
  · exact h.tags x hx
  · obtain ⟨b, -, rfl⟩ := List.mem_map.mp hx
    exact hlt

section

variable (h : s.Inv) (hp : s.reader p = some rd)

include h hp

/-- The calls that are not about to take bytes. -/
theorem Inv.reader_take {q : ℕ} {rd' : ConsoleRead}
    (hq : s.reader q = some rd') (hqp : q ≠ p) (cs : List UInt8) (r : UInt32) :
  rd'.Ok ∧ rd'.call < s.calls ∧ (s.take rd.call cs r).consumed rd'.call = rd'.out
  := by
  obtain ⟨hok, hlt, hcons⟩ := h.reader q rd' hq
  refine ⟨hok, hlt, ?_⟩
  rw [consumed_take_of_ne (fun heq => hqp (h.distinct q p rd' rd hq hp heq)), hcons]

/-- The calls that have returned. -/
theorem Inv.read_take {x : ReadResult} (hx : x ∈ s.reads)
    (cs : List UInt8) (r : UInt32) :
  x.Ok ∧ x.call < s.calls ∧ (s.take rd.call cs r).consumed x.call = x.piece
  := by
  obtain ⟨hok, hlt, hcons⟩ := h.read x hx
  refine ⟨hok, hlt, ?_⟩
  rw [consumed_take_of_ne (h.finished x hx p rd hp).symm, hcons]

theorem Inv.owner_take (cs : List UInt8) (r : UInt32) :
  ∀ x ∈ (s.take rd.call cs r).taken, s.Owner x.1
  := by
  intro x hx
  obtain hx | hx := List.mem_append.mp hx
  · exact h.owner x hx
  · obtain ⟨b, -, rfl⟩ := List.mem_map.mp hx
    exact .inl ⟨p, rd, hp, rfl⟩

end

/-- A turn of a call. -/
theorem Inv.effect (h : s.Inv) (hp : s.reader p = some rd) (he : TurnEffect s p rd s') :
  s'.Inv
  := by
  obtain ⟨hrd, hlt, hcons⟩ := h.reader p rd hp
  cases he with
  | @sleeps n out cs r htook hholds =>
    obtain ⟨hok, hout, heof⟩ := htook.asleep hrd
    have hreader : ∀ q rd', ((s.take rd.call cs r).park p { rd with n := n, out := out }).reader q
        = some rd' → (q = p ∧ rd' = { rd with n := n, out := out }) ∨ (q ≠ p ∧ s.reader q = some rd') := by
      intro q rd' hq
      by_cases hqp : q = p
      · subst hqp
        simp only [park, update_self] at hq
        exact .inl ⟨rfl, (Option.some.inj hq).symm⟩
      · simp only [park, update_of_ne hqp] at hq
        exact .inr ⟨hqp, hq⟩
    have hcall : ∀ q rd', ((s.take rd.call cs r).park p { rd with n := n, out := out }).reader q
        = some rd' → ∃ rd₀, s.reader q = some rd₀ ∧ rd₀.call = rd'.call := by
      intro q rd' hq
      obtain ⟨rfl, rfl⟩ | ⟨-, hq⟩ := hreader q rd' hq
      · exact ⟨rd, hp, rfl⟩
      · exact ⟨rd', hq, rfl⟩
    have howner : ∀ k, s.Owner k →
        ((s.take rd.call cs r).park p { rd with n := n, out := out }).Owner k := by
      rintro k (⟨q, rd', hq, rfl⟩ | hread)
      · by_cases hqp : q = p
        · subst hqp
          obtain rfl := Option.some.inj (hp.symm.trans hq)
          exact .inl ⟨q, _, update_self .., rfl⟩
        · refine .inl ⟨q, rd', ?_, rfl⟩
          simp only [park, take, update_of_ne hqp, hq]
      · exact .inr hread
    refine ⟨?_, h.committed, h.tags_take hlt cs r, ?_, ?_, ?_, ?_, h.nodup, ?_, ?_⟩
    · have := stream_take s rd.call cs r
      rw [← this] at hholds
      exact hholds
    · intro q rd' hq
      obtain ⟨rfl, rfl⟩ | ⟨hqp, hold⟩ := hreader q rd' hq
      · refine ⟨hok, hlt, ?_⟩
        exact (consumed_take_self s rd.call cs r).trans (by rw [hcons, hout])
      · exact h.reader_take hp hold hqp cs r
    · intro q q' rd₁ rd₂ hq hq' heq
      obtain ⟨rd₁', hq, heq₁⟩ := hcall q rd₁ hq
      obtain ⟨rd₂', hq', heq₂⟩ := hcall q' rd₂ hq'
      exact h.distinct q q' rd₁' rd₂' hq hq' (by rw [heq₁, heq₂, heq])
    · intro x hx
      exact h.read_take hp hx cs r
    · intro x hx q rd' hq
      obtain ⟨rd₀, hq, heq⟩ := hcall q rd' hq
      rw [← heq]
      exact h.finished x hx q rd₀ hq
    · intro x hx
      apply howner
      exact h.owner_take hp cs r x hx
    · refine (count_take s rd.call cs r _).trans ?_
      rw [List.count_eq_zero.mpr heof, Nat.add_zero]
      exact h.eofs
  | @returns n out cs r htook hholds =>
    obtain ⟨hok, hpiece, heof⟩ := htook.returned hrd
    have hreader : ∀ q rd', ((s.take rd.call cs r).finish p ⟨rd.call, rd.target - n, out⟩).reader q
        = some rd' → q ≠ p ∧ s.reader q = some rd' := by
      intro q rd' hq
      by_cases hqp : q = p
      · subst hqp
        simp only [finish, update_self] at hq
        cases hq
      · simp only [finish, update_of_ne hqp] at hq
        exact ⟨hqp, hq⟩
    have howner : ∀ k, s.Owner k →
        ((s.take rd.call cs r).finish p ⟨rd.call, rd.target - n, out⟩).Owner k := by
      rintro k (⟨q, rd', hq, rfl⟩ | ⟨x, hx, rfl⟩)
      · by_cases hqp : q = p
        · subst hqp
          obtain rfl := Option.some.inj (hp.symm.trans hq)
          exact .inr ⟨_, List.mem_concat_self, rfl⟩
        · refine .inl ⟨q, rd', ?_, rfl⟩
          simp only [finish, take, update_of_ne hqp, hq]
      · exact .inr ⟨x, List.mem_append_left _ hx, rfl⟩
    refine ⟨?_, h.committed, h.tags_take hlt cs r, ?_, ?_, ?_, ?_, ?_, ?_, ?_⟩
    · have := stream_take s rd.call cs r
      rw [← this] at hholds
      exact hholds
    · intro q rd' hq
      obtain ⟨hqp, hold⟩ := hreader q rd' hq
      exact h.reader_take hp hold hqp cs r
    · intro q q' rd₁ rd₂ hq hq' heq
      exact h.distinct q q' rd₁ rd₂ (hreader q rd₁ hq).2 (hreader q' rd₂ hq').2 heq
    · intro x hx
      obtain hx | hx := List.mem_append.mp hx
      · exact h.read_take hp hx cs r
      · obtain rfl := List.mem_singleton.mp hx
        refine ⟨hok, hlt, ?_⟩
        exact (consumed_take_self s rd.call cs r).trans (by rw [hcons, hpiece])
    · intro x hx q rd' hq
      obtain ⟨hqp, hold⟩ := hreader q rd' hq
      obtain hx | hx := List.mem_append.mp hx
      · exact h.finished x hx q rd' hold
      · obtain rfl := List.mem_singleton.mp hx
        exact fun heq => hqp (h.distinct q p rd' rd hold hp heq)
    · simp only [finish, take, List.map_append, List.map_singleton]
      rw [← List.concat_eq_append]
      apply List.Nodup.concat _ h.nodup
      intro hmem
      obtain ⟨x, hx, heq⟩ := List.mem_map.mp hmem
      exact h.finished x hx p rd hp heq.symm
    · intro x hx
      apply howner
      exact h.owner_take hp cs r x hx
    · refine (count_take s rd.call cs r _).trans ?_
      rw [heof, h.eofs]
      simp only [finish, take, List.countP_append, List.countP_singleton, decide_eq_true_eq]

theorem Inv.step (h : s.Inv) (hstep : s.step a = some s') : s'.Inv := by
  cases a with
  | key b =>
    cases hstep
    exact h.type b
  | call p n =>
    simp only [Console.step] at hstep
    split at hstep
    · rename_i hp
      cases hstep
      exact h.enter hp.1 hp.2
    · cases hstep
  | read p =>
    obtain ⟨rd, hp, rfl⟩ := Option.map_eq_some_iff.mp hstep
    exact h.effect hp (turn_effect h.holds (h.reader p rd hp).1)

end Turn

/-! ### Calls that follow each other -/

/-- A call begins only when no other is in progress. -/
def Alone (s : Console) : ConsoleAct → Prop
  | .call _ _ => ∀ p, s.reader p = none
  | _ => True

/-- What the calls have returned one after the other, a ^D for every call that returned
nothing, is the stream up to what the call in progress has taken. -/
structure Consecutive (s : Console) : Prop where
  one : ∀ p q rd rd', s.reader p = some rd → s.reader q = some rd' → p = q
  idle : (∀ p, s.reader p = none) → s.reads.flatMap ReadResult.piece = s.stream
  busy : ∀ p rd, s.reader p = some rd → s.reads.flatMap ReadResult.piece ++ rd.out = s.stream

theorem consecutive_boot : boot.Consecutive := by
  refine ⟨?_, fun _ => rfl, ?_⟩
  · intro p q rd rd' hp
    cases hp
  · intro p rd hp
    cases hp

section Consecutive

variable {s s' : Console} {p : ℕ} {rd : ConsoleRead}

theorem Consecutive.enter (h : s.Consecutive) (halone : ∀ p, s.reader p = none) (n : ℕ) :
  (s.enter p n).Consecutive
  := by
  have hreader : ∀ q rd, (s.enter p n).reader q = some rd → q = p ∧ rd = ⟨s.calls, n, n, []⟩ := by
    intro q rd hq
    by_cases hqp : q = p
    · subst hqp
      simp only [Console.enter, update_self] at hq
      exact ⟨rfl, (Option.some.inj hq).symm⟩
    · simp only [Console.enter, update_of_ne hqp, halone] at hq
      cases hq
  refine ⟨?_, ?_, ?_⟩
  · intro q q' rd rd' hq hq'
    rw [(hreader q rd hq).1, (hreader q' rd' hq').1]
  · intro _
    exact h.idle halone
  · intro q rd hq
    obtain ⟨rfl, rfl⟩ := hreader q rd hq
    rw [List.append_nil]
    exact h.idle halone

theorem Consecutive.effect (h : s.Consecutive) (hp : s.reader p = some rd) (hrd : rd.Ok)
    (he : TurnEffect s p rd s') :
  s'.Consecutive
  := by
  have hbusy := h.busy p rd hp
  have hothers : ∀ q, q ≠ p → s.reader q = none := by
    intro q hqp
    cases hq : s.reader q with
    | none => rfl
    | some rd' => exact absurd (h.one q p rd' rd hq hp) hqp
  cases he with
  | @sleeps n out cs r htook hholds =>
    obtain ⟨-, hout, -⟩ := htook.asleep hrd
    have hreader : ∀ q rd', ((s.take rd.call cs r).park p { rd with n := n, out := out }).reader q
        = some rd' → q = p ∧ rd'.out = rd.out ++ cs := by
      intro q rd' hq
      by_cases hqp : q = p
      · subst hqp
        simp only [park, update_self] at hq
        cases hq
        exact ⟨rfl, hout⟩
      · simp only [park, take, update_of_ne hqp, hothers q hqp] at hq
        cases hq
    refine ⟨?_, ?_, ?_⟩
    · intro q q' rd₁ rd₂ hq hq'
      rw [(hreader q rd₁ hq).1, (hreader q' rd₂ hq').1]
    · intro hnone
      have := hnone p
      simp only [park, update_self] at this
      cases this
    · intro q rd' hq
      rw [(hreader q rd' hq).2, ← List.append_assoc]
      exact (congrArg (· ++ cs) hbusy).trans (stream_take s rd.call cs r).symm
  | @returns n out cs r htook hholds =>
    obtain ⟨-, hpiece, -⟩ := htook.returned hrd
    have hnone : ∀ q, ((s.take rd.call cs r).finish p ⟨rd.call, rd.target - n, out⟩).reader q = none := by
      intro q
      by_cases hqp : q = p
      · subst hqp
        exact update_self ..
      · simp only [finish, take, update_of_ne hqp, hothers q hqp]
    refine ⟨?_, ?_, ?_⟩
    · intro q q' rd₁ rd₂ hq
      rw [hnone q] at hq
      cases hq
    · intro _
      simp only [finish, take, List.flatMap_append, List.flatMap_singleton, ← hpiece]
      rw [← List.append_assoc]
      exact (congrArg (· ++ cs) hbusy).trans (stream_take s rd.call cs r).symm
    · intro q rd' hq
      rw [hnone q] at hq
      cases hq

theorem Consecutive.step (h : s.Consecutive) (hinv : s.Inv) (halone : s.Alone a)
    (hstep : s.step a = some s') :
  s'.Consecutive
  := by
  cases a with
  | key b =>
    cases hstep
    exact ⟨h.one, h.idle, h.busy⟩
  | call p n =>
    simp only [Console.step] at hstep
    split at hstep
    · cases hstep
      exact h.enter halone n
    · cases hstep
  | read p =>
    obtain ⟨rd, hp, rfl⟩ := Option.map_eq_some_iff.mp hstep
    have hrd := (hinv.reader p rd hp).1
    exact h.effect hp hrd (turn_effect hinv.holds hrd)

end Consecutive

/-! ### The discipline -/

/-- What holds of the console in every state. -/
structure LineDiscipline (s : Console) : Prop where
  /-- The indices are in order and the buffer is not overrun. -/
  indices : s.cons.w - s.cons.r ≤ s.cons.e - s.cons.r ∧ s.cons.e - s.cons.r ≤ 128
  /-- A full buffer can be read. -/
  readable : s.cons.e - s.cons.r = 128 → s.cons.w = s.cons.e
  /-- A keystroke leaves the bytes between `r` and `w`. -/
  kept : ∀ b, (s.cons.consoleintr b).r = s.cons.r ∧ s.cons.unread <+: (s.cons.consoleintr b).unread
  /-- Backspace and kill-line do not add to them either. -/
  erasing : ∀ b ∈ [ctrl 'U', ctrl 'H', 0x7f], (s.cons.consoleintr b).unread = s.cons.unread
  /-- The editor has committed the same bytes. -/
  committed : s.committed = (Editor.run s.keys).committed
  /-- The bytes taken and those that can be read are the bytes committed. -/
  inOrder : s.stream ++ s.cons.unread = s.committed
  /-- Every byte is taken by one of the calls. -/
  owner : ∀ x ∈ s.taken, s.Owner x.1
  /-- A call in progress has copied what it has taken, and no newline or ^D. -/
  pending : ∀ p rd, s.reader p = some rd → Plain rd.out ∧ s.consumed rd.call = rd.out
  /-- A call that has returned has copied what it has taken, nothing behind a newline, and
  nothing if it has taken a ^D. -/
  returned : ∀ x ∈ s.reads, x.Ok ∧ s.consumed x.call = x.piece
  /-- No call returns twice. -/
  once : (s.reads.map ReadResult.call).Nodup
  /-- There are as many calls that returned `0` as ^D taken. -/
  eofs : s.stream.count (ctrl 'D') = s.reads.countP fun x => x.ret = 0

theorem Inv.lineDiscipline (h : s.Inv) : s.LineDiscipline where
  indices := by
    have hroom := h.holds.room
    have hle := h.holds.taken_le
    have h128 : (128 : UInt32).toNat = 128 := rfl
    simp only [UInt32.le_iff_toNat_le, h.holds.toNat_w_sub_r, h.holds.toNat_e_sub_r, h128]
    unfold INPUT_BUF_SIZE at hroom
    omega
  readable := by
    intro hfull
    apply Eq.symm
    rw [h.holds.e_eq_w_iff]
    apply h.holds.full
    have hle := h.holds.taken_le
    have := h.holds.toNat_e_sub_r
    rw [hfull] at this
    have h128 : (128 : UInt32).toNat = 128 := rfl
    unfold INPUT_BUF_SIZE
    omega
  kept := by
    intro b
    refine ⟨Cons.consoleintr_r _ b, ?_⟩
    by_cases hdrop : s.cons.Drops b
    · rw [Cons.consoleintr_of_drops hdrop]
    · rw [h.holds.unread, (h.holds.consoleintr hdrop).unread]
      exact (Editor.committed_prefix _ _).drop _
  erasing := by
    intro b hb
    have hdrop : ¬ s.cons.Drops b := by
      rintro ⟨hmem, -⟩
      simp only [List.mem_cons, List.not_mem_nil] at hb hmem
      tauto
    rw [h.holds.unread, (h.holds.consoleintr hdrop).unread]
    congr 1
    simp only [List.mem_cons, List.not_mem_nil, or_false] at hb
    obtain rfl | rfl | rfl := hb
    all_goals rfl
  committed := h.committed
  inOrder := by
    obtain ⟨rest, hrest⟩ := List.prefix_of_prefix_length_le h.holds.ring.initial
      (List.prefix_append _ _) h.holds.taken_le
    rw [h.holds.unread, h.committed, ← hrest, List.drop_left]
  owner := h.owner
  pending := fun p rd hp => ⟨(h.reader p rd hp).1.plain, (h.reader p rd hp).2.2⟩
  returned := fun x hx => ⟨(h.read x hx).1, (h.read x hx).2.2⟩
  once := h.nodup
  eofs := by
    rw [h.eofs]
    apply List.countP_congr
    intro x hx
    simp only [decide_eq_true_eq]
    rw [(h.read x hx).1.ret, List.length_eq_zero_iff]

end Console

/-- The console follows the line discipline in every run of keystrokes and reads, and when
the calls follow each other they return the stream piece by piece. -/
theorem console_line_discipline
    {as : List ConsoleAct} {s : Console} (h : consoleSystem.exec Console.boot as = some s) :
  s.LineDiscipline
    ∧ (consoleSystem.Admissible Console.Alone Console.boot as → s.Consecutive)
  := by
  constructor
  · apply Console.Inv.lineDiscipline
    have hreach : consoleSystem.Reachable s := (TransitionSystem.Reachable.init rfl).exec h
    apply hreach.invariant
    · rintro _ rfl
      exact Console.inv_boot
    · intro s a s' hs hstep
      exact hs.step hstep
  · intro halone
    have hrun := TransitionSystem.exec_invariant (T := consoleSystem)
      (I := fun s => s.Inv ∧ s.Consecutive) (fun s a s' hs ha hstep => ⟨hs.1.step hstep, hs.2.step hs.1 ha hstep⟩)
      ⟨Console.inv_boot, Console.consecutive_boot⟩ h halone
    exact hrun.2

/-- A line and a ^D are typed and read by two calls. -/
def typedLine : List ConsoleAct :=
  [.key 104, .key 120, .key (ctrl 'H'), .key 105, .key 13, .key (ctrl 'D'), .call 0 80, .read 0,
    .call 0 80, .read 0]

theorem console_line_discipline_typedLine :
  ∃ s, consoleSystem.exec Console.boot typedLine = some s
    ∧ s.reads = [⟨0, 3, [104, 105, newline]⟩, ⟨1, 0, []⟩]
    ∧ s.LineDiscipline
  := by
  have hreads : (consoleSystem.exec Console.boot typedLine).map Console.reads
      = some [⟨0, 3, [104, 105, newline]⟩, ⟨1, 0, []⟩] := by
    decide
  obtain ⟨s, hs, hreads⟩ := Option.map_eq_some_iff.mp hreads
  exact ⟨s, hs, hreads, (console_line_discipline hs).1⟩

end Xv6
