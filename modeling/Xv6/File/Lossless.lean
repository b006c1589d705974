import Xv6.File.Shared
import Xv6.Fs.Torn

/-!
# No write through a shared file is lost

The accesses tile the part of the file between the first offset and the last one: each starts
where the one before has ended.  A chunk is behind the offset after it has been written, so
no later chunk touches it.
-/

namespace Xv6

open Stop Superblock Function

/-! ### Tilings -/

/-- The accesses lead from one offset to another, each from where the one before has led. -/
inductive Tiles (p : ℕ) : List Access → ℕ → Prop where
  | nil : Tiles p [] p
  | snoc {log : List Access} {q : ℕ} (a : Access) : Tiles p log q → a.start = q →
      Tiles p (log ++ [a]) (q + a.length)

namespace Tiles

variable {p q : ℕ} {log : List Access}

theorem eq_add_sum (h : Tiles p log q) : q = p + (log.map Access.length).sum := by
  induction h with
  | nil => rfl
  | snoc a _ _ ih =>
    rw [List.map_append, List.sum_append, List.map_singleton, List.sum_singleton, ← Nat.add_assoc,
      ← ih]

theorem finish_le (h : Tiles p log q) {a : Access} (ha : a ∈ log) : a.start + a.length ≤ q := by
  induction h with
  | nil => cases ha
  | snoc b _ hb ih =>
    obtain ha | ha := List.mem_append.mp ha
    · exact Nat.le_add_right_of_le (ih ha)
    · rw [List.mem_singleton.mp ha, hb]

theorem pairwise (h : Tiles p log q) : log.Pairwise fun a b => a.start + a.length ≤ b.start := by
  induction h with
  | nil => exact .nil
  | snoc b hlog hb ih =>
    refine List.pairwise_append.mpr ⟨ih, List.pairwise_singleton _ _, ?_⟩
    intro a ha c hc
    rw [List.mem_singleton.mp hc, hb]
    exact hlog.finish_le ha

end Tiles

/-! ### What the calls have written -/

/-- The bytes that a call has written, in the order of its chunks. -/
def written (id : ℕ) (log : List Access) : List UInt8 := log.flatMap (Access.written id)

theorem written_append (id : ℕ) (log : List Access) (a : Access) :
  written id (log ++ [a]) = written id log ++ a.written id
  := by
  simp [written]

theorem written_chunk_of_ne {id : ℕ} {c : Chunk} (h : id ≠ c.call) (log : List Access) :
  written id (log ++ [.write c]) = written id log
  := by
  rw [written_append, Access.written, if_neg h.symm, List.append_nil]

theorem written_chunk (c : Chunk) (log : List Access) :
  written c.call (log ++ [.write c]) = written c.call log ++ c.bytes
  := by
  rw [written_append, Access.written, if_pos rfl]

theorem written_eq_nil {id : ℕ} {log : List Access} (h : ∀ c, .write c ∈ log → c.call ≠ id) :
  written id log = []
  := by
  refine List.flatMap_eq_nil_iff.mpr fun a ha => ?_
  cases a with
  | write c => exact if_neg (h c ha)
  | read start len => rfl

/-- The first `k` bytes of a call. -/
def Filewrite.bytes (c : Filewrite) (k : ℕ) : List UInt8 := (List.range k).map (c.source.bytes c.addr)

theorem Filewrite.bytes_add (c : Filewrite) (start : ℕ) :
  c.bytes (c.i + c.n1) = c.bytes c.i ++ (c.chunk start).bytes
  := by
  simp only [bytes, chunk, List.range_add, List.map_append, List.map_map]
  congr 1
  apply List.map_congr_left
  intro k _
  simp only [Function.comp, Source.bytes, Nat.add_assoc]

theorem Filewrite.length_chunk (c : Filewrite) (start : ℕ) : (c.chunk start).bytes.length = c.n1 := by
  simp [chunk]

namespace SharedFile

variable {ι : Type}

/-- What the calls guarantee together. -/
structure Lossless (off₀ : ℕ) (s : SharedFile ι) : Prop where
  /-- A chunk has its bytes in the file, from the offset at which it was written on. -/
  intact : ∀ c, .write c ∈ s.log → ∀ k (hk : k < c.bytes.length),
    s.ip.byte s.machine.view (c.start + k) = some c.bytes[k]
  /-- No access reaches into another one. -/
  disjoint : s.log.Pairwise fun a b => a.start + a.length ≤ b.start
  small : ∀ c, .write c ∈ s.log → 0 < c.bytes.length ∧ c.bytes.length ≤ maxChunk
  /-- The chunks of a call come in order. -/
  ordered : s.log.Pairwise fun a b => ∀ c c', a = .write c → b = .write c' → c.call = c'.call →
    c.i + c.bytes.length ≤ c'.i
  /-- A call that has returned the number of its bytes has written all of them. -/
  whole : ∀ c r, (c, r) ∈ s.done → r = c.n → written c.id s.log = c.bytes c.n.toNat
  /-- The offset has moved by the bytes that have been read and written. -/
  off : s.off = off₀ + (s.log.map Access.length).sum

/-! ### The invariant -/

/-- What holds of the calls in progress. -/
structure Ongoing (s : SharedFile ι) (t : ι) (c : Filewrite) : Prop where
  id_lt : c.id < s.calls
  i_le : c.i ≤ c.n.toNat
  written : Xv6.written c.id s.log = c.bytes c.i
  below : ∀ c', .write c' ∈ s.log → c'.call = c.id → c'.i + c'.bytes.length ≤ c.i
  unique : ∀ t' c', s.call t' = some c' → c'.id = c.id → t' = t
  fresh : ∀ c' r, (c', r) ∈ s.done → c'.id ≠ c.id

/-- The invariant. -/
structure Inv (sb : Superblock) (inum off₀ : ℕ) (s : SharedFile ι) : Prop where
  ready : Ready sb inum s.machine s.ip
  off_lt : s.off < 2 ^ 32
  tiles : Tiles off₀ s.log s.off
  intact : ∀ c, .write c ∈ s.log → ∀ k (hk : k < c.bytes.length),
    s.ip.byte s.machine.view (c.start + k) = some c.bytes[k]
  small : ∀ c, .write c ∈ s.log → 0 < c.bytes.length ∧ c.bytes.length ≤ maxChunk
  numbered : ∀ c, .write c ∈ s.log → c.call < s.calls
  ordered : s.log.Pairwise fun a b => ∀ c c', a = .write c → b = .write c' → c.call = c'.call →
    c.i + c.bytes.length ≤ c'.i
  ongoing : ∀ t c, s.call t = some c → s.Ongoing t c
  returned : ∀ c r, (c, r) ∈ s.done → c.id < s.calls
    ∧ (r = c.n → written c.id s.log = c.bytes c.n.toNat)

theorem Inv.lossless {sb : Superblock} {inum off₀ : ℕ} {s : SharedFile ι} (h : s.Inv sb inum off₀) :
  s.Lossless off₀
  where
  intact := h.intact
  disjoint := h.tiles.pairwise
  small := h.small
  ordered := h.ordered
  whole c r hdone := (h.returned c r hdone).2
  off := h.tiles.eq_add_sum

namespace Inv

variable {sb : Superblock} {inum off₀ : ℕ} {s s' : SharedFile ι}

variable {m : Machine} {ip : Inode} {c : Filewrite} {t : ι} {r : ℤ}

theorem opened {r w : Bool} (hready : Ready sb inum m ip) (hoff : off₀ < 2 ^ 32) :
  (SharedFile.opened m ip r w off₀ : SharedFile ι).Inv sb inum off₀
  where
  ready := hready
  off_lt := hoff
  tiles := .nil
  intact c hc := by cases hc
  small c hc := by cases hc
  numbered c hc := by cases hc
  ordered := .nil
  ongoing t c hc := by cases hc
  returned c r hc := by cases hc

/-- The bytes of the file are kept. -/
theorem other (h : s.Inv sb inum off₀) (hready : Ready sb inum m ip)
    (hbyte : ∀ p b, s.ip.byte s.machine.view p = some b → ip.byte m.view p = some b) :
  { s with machine := m, ip := ip }.Inv sb inum off₀
  where
  ready := hready
  off_lt := h.off_lt
  tiles := h.tiles
  intact c hc k hk := hbyte _ _ (h.intact c hc k hk)
  small := h.small
  numbered := h.numbered
  ordered := h.ordered
  ongoing t c hc := ⟨(h.ongoing t c hc).id_lt, (h.ongoing t c hc).i_le, (h.ongoing t c hc).written,
    (h.ongoing t c hc).below, (h.ongoing t c hc).unique, (h.ongoing t c hc).fresh⟩
  returned := h.returned

/-- The offset moves over what has been read. -/
theorem read (h : s.Inv sb inum off₀) {len : ℕ} (hlt : s.off + len < 2 ^ 32) :
  { s with off := s.off + len, log := s.log ++ [Access.read s.off len] }.Inv sb inum off₀
  := by
  have hmem : ∀ {c : Chunk}, Access.write c ∈ s.log ++ [.read s.off len] → .write c ∈ s.log := by
    intro c hc
    simpa using hc
  have hwritten : ∀ id, written id (s.log ++ [.read s.off len]) = written id s.log := by
    intro id
    rw [written_append, Access.written, List.append_nil]
  refine ⟨h.ready, hlt, h.tiles.snoc _ rfl, fun c hc => h.intact c (hmem hc),
    fun c hc => h.small c (hmem hc), fun c hc => h.numbered c (hmem hc), ?_, ?_, ?_⟩
  · refine List.pairwise_append.mpr ⟨h.ordered, List.pairwise_singleton _ _, ?_⟩
    intro a _ b hb c c' _ hc'
    rw [List.mem_singleton.mp hb] at hc'
    cases hc'
  · intro t c hc
    obtain ⟨hid, hi, hw, hbelow, huniq, hfresh⟩ := h.ongoing t c hc
    exact ⟨hid, hi, (hwritten c.id).trans hw, fun c' hc' => hbelow c' (hmem hc'), huniq, hfresh⟩
  · intro c r hdone
    exact ⟨(h.returned c r hdone).1, fun hr => (hwritten c.id).trans ((h.returned c r hdone).2 hr)⟩

section

variable [DecidableEq ι] (h : s.Inv sb inum off₀)

include h

/-- A chunk has been written. -/
theorem write (hc : s.call t = some c)
    (hlt : c.i < c.n) (hoff : s.off + c.n1 < 2 ^ 32) (hready : Ready sb inum m ip)
    (hpatched : Patched s.ip s.machine.view s.off c.n1 (c.source.bytes (c.addr + c.i)) ip m.view) :
  { s with
    machine := m, ip := ip, off := s.off + c.n1
    call := update s.call t (some { c with i := c.i + c.n1 })
    log := s.log ++ [Access.write (c.chunk s.off)] }.Inv sb inum off₀
  := by
  have hcall := h.ongoing t c hc
  have hn1 : 0 < c.n1 ∧ c.n1 ≤ maxChunk ∧ c.i + c.n1 ≤ c.n.toNat := by
    have : 0 < maxChunk := by decide
    unfold Filewrite.n1
    omega
  have hlen := c.length_chunk s.off
  have hmem : ∀ {d : Chunk}, .write d ∈ s.log ++ [.write (c.chunk s.off)] →
      .write d ∈ s.log ∨ d = c.chunk s.off := by
    intro d hd
    simpa using hd
  refine ⟨hready, hoff, ?_, ?_, ?_, ?_, ?_, ?_, ?_⟩
  · have htiles := h.tiles.snoc (.write (c.chunk s.off)) rfl
    rw [Access.length, hlen] at htiles
    exact htiles
  · intro d hd k hk
    obtain hd | rfl := hmem hd
    · -- the chunk ends before the offset
      have hle := h.tiles.finish_le hd
      simp only [Access.start, Access.length] at hle
      exact hpatched.outside _ _ (.inl (by omega)) (h.intact d hd k hk)
    · rw [hlen] at hk
      have hbyte := hpatched.inside k hk
      simpa [Filewrite.chunk] using hbyte
  · intro d hd
    obtain hd | rfl := hmem hd
    · exact h.small d hd
    · rw [hlen]
      exact ⟨hn1.1, hn1.2.1⟩
  · intro d hd
    obtain hd | rfl := hmem hd
    · exact h.numbered d hd
    · exact hcall.id_lt
  · refine List.pairwise_append.mpr ⟨h.ordered, List.pairwise_singleton _ _, ?_⟩
    rintro a ha b hb d d' rfl hd' hsame
    obtain rfl : c.chunk s.off = d' := Access.write.inj ((List.mem_singleton.mp hb).symm.trans hd')
    exact hcall.below d ha hsame
  · intro t' c' hc'
    by_cases ht : t' = t
    · subst ht
      simp only [update_self, Option.some.injEq] at hc'
      subst hc'
      refine ⟨hcall.id_lt, hn1.2.2, ?_, ?_, ?_, hcall.fresh⟩
      · refine (written_chunk (c.chunk s.off) s.log).trans (Eq.trans ?_ (c.bytes_add s.off).symm)
        exact congrArg (· ++ _) hcall.written
      · intro d hd hid
        obtain hd | rfl := hmem hd
        · exact Nat.le_add_right_of_le (hcall.below d hd hid)
        · rw [hlen]
          rfl
      · intro t₁ c₁ hc₁ hid
        by_contra hne
        simp only [update_of_ne hne] at hc₁
        exact hne (hcall.unique t₁ c₁ hc₁ hid)
    · simp only [update_of_ne ht] at hc'
      obtain ⟨hid, hi, hw, hbelow, huniq, hfresh⟩ := h.ongoing t' c' hc'
      have hne : c'.id ≠ c.id := fun heq => ht (hcall.unique t' c' hc' heq)
      refine ⟨hid, hi, (written_chunk_of_ne hne _).trans hw, ?_, ?_, hfresh⟩
      · intro d hd hid'
        obtain hd | rfl := hmem hd
        · exact hbelow d hd hid'
        · exact absurd hid' hne.symm
      · intro t₁ c₁ hc₁ hid₁
        by_cases ht₁ : t₁ = t
        · subst ht₁
          simp only [update_self, Option.some.injEq] at hc₁
          subst hc₁
          exact absurd hid₁ hne.symm
        · simp only [update_of_ne ht₁] at hc₁
          exact huniq t₁ c₁ hc₁ hid₁
  · intro c' r hdone
    obtain ⟨hid, hr⟩ := h.returned c' r hdone
    exact ⟨hid, fun heq => (written_chunk_of_ne (hcall.fresh c' r hdone) _).trans (hr heq)⟩

/-- A call begins. -/
theorem filewrite (source : Source) (addr : ℕ) (n : ℤ) :
  { s with
    calls := s.calls + 1
    call := update s.call t (some ⟨s.calls, source, addr, n, 0⟩) }.Inv sb inum off₀
  := by
  have hnew : ∀ d, .write d ∈ s.log → d.call ≠ s.calls := fun d hd => (h.numbered d hd).ne
  refine ⟨h.ready, h.off_lt, h.tiles, h.intact, h.small, fun d hd => Nat.lt_succ_of_lt (h.numbered d hd),
    h.ordered, ?_, fun c r hdone => ⟨Nat.lt_succ_of_lt (h.returned c r hdone).1, (h.returned c r hdone).2⟩⟩
  intro t' c' hc'
  by_cases ht : t' = t
  · subst ht
    simp only [update_self, Option.some.injEq] at hc'
    subst hc'
    refine ⟨Nat.lt_succ_self _, Nat.zero_le _, written_eq_nil hnew, ?_, ?_, ?_⟩
    · intro d hd hid
      exact absurd hid (hnew d hd)
    · intro t₁ c₁ hc₁ hid
      by_contra hne
      simp only [update_of_ne hne] at hc₁
      exact absurd hid (h.ongoing t₁ c₁ hc₁).id_lt.ne
    · intro c₁ r hdone
      exact (h.returned c₁ r hdone).1.ne
  · simp only [update_of_ne ht] at hc'
    obtain ⟨hid, hi, hw, hbelow, huniq, hfresh⟩ := h.ongoing t' c' hc'
    refine ⟨Nat.lt_succ_of_lt hid, hi, hw, hbelow, ?_, hfresh⟩
    intro t₁ c₁ hc₁ hid₁
    by_cases ht₁ : t₁ = t
    · subst ht₁
      simp only [update_self, Option.some.injEq] at hc₁
      subst hc₁
      exact absurd hid₁.symm hid.ne
    · simp only [update_of_ne ht₁] at hc₁
      exact huniq t₁ c₁ hc₁ hid₁

/-- A call ends. -/
theorem finish (hc : s.call t = some c) (hr : r = c.n → c.i = c.n.toNat) :
  (s.finish t c r).Inv sb inum off₀
  := by
  have hcall := h.ongoing t c hc
  refine ⟨h.ready, h.off_lt, h.tiles, h.intact, h.small, h.numbered, h.ordered, ?_, ?_⟩
  · intro t' c' hc'
    have ht : t' ≠ t := by
      rintro rfl
      simp [SharedFile.finish] at hc'
    simp only [SharedFile.finish, update_of_ne ht] at hc'
    obtain ⟨hid, hi, hw, hbelow, huniq, hfresh⟩ := h.ongoing t' c' hc'
    refine ⟨hid, hi, hw, hbelow, ?_, ?_⟩
    · intro t₁ c₁ hc₁ hid₁
      have ht₁ : t₁ ≠ t := by
        rintro rfl
        simp [SharedFile.finish] at hc₁
      simp only [SharedFile.finish, update_of_ne ht₁] at hc₁
      exact huniq t₁ c₁ hc₁ hid₁
    · intro c₁ r₁ hdone
      obtain hdone | hdone := List.mem_append.mp hdone
      · exact hfresh c₁ r₁ hdone
      · obtain ⟨rfl, -⟩ := Prod.mk.inj (List.mem_singleton.mp hdone)
        intro heq
        exact ht (hcall.unique t' c' hc' heq.symm)
  · intro c₁ r₁ hdone
    obtain hdone | hdone := List.mem_append.mp hdone
    · exact h.returned c₁ r₁ hdone
    · obtain ⟨rfl, rfl⟩ := Prod.mk.inj (List.mem_singleton.mp hdone)
      refine ⟨hcall.id_lt, fun heq => ?_⟩
      rw [← hr heq]
      exact hcall.written

end

/-- A call that the file does not allow. -/
theorem refuse (h : s.Inv sb inum off₀) (source : Source) (addr : ℕ) (n : ℤ) :
  { s with
    calls := s.calls + 1
    done := s.done ++ [((⟨s.calls, source, addr, n, 0⟩ : Filewrite), -1)] }.Inv sb inum off₀
  := by
  have hnew : ∀ d, .write d ∈ s.log → d.call ≠ s.calls := fun d hd => (h.numbered d hd).ne
  refine ⟨h.ready, h.off_lt, h.tiles, h.intact, h.small, fun d hd => Nat.lt_succ_of_lt (h.numbered d hd),
    h.ordered, ?_, ?_⟩
  · intro t c hc
    obtain ⟨hid, hi, hw, hbelow, huniq, hfresh⟩ := h.ongoing t c hc
    refine ⟨Nat.lt_succ_of_lt hid, hi, hw, hbelow, huniq, ?_⟩
    intro c₁ r₁ hdone
    obtain hdone | hdone := List.mem_append.mp hdone
    · exact hfresh c₁ r₁ hdone
    · obtain ⟨rfl, -⟩ := Prod.mk.inj (List.mem_singleton.mp hdone)
      exact hid.ne'
  · intro c₁ r₁ hdone
    obtain hdone | hdone := List.mem_append.mp hdone
    · exact ⟨Nat.lt_succ_of_lt (h.returned c₁ r₁ hdone).1, (h.returned c₁ r₁ hdone).2⟩
    · obtain ⟨rfl, rfl⟩ := Prod.mk.inj (List.mem_singleton.mp hdone)
      refine ⟨Nat.lt_succ_self _, fun heq => ?_⟩
      rw [written_eq_nil hnew, ← heq]
      rfl

/-- A round of the loop in `filewrite` that writes a full chunk. -/
theorem writeChunk [DecidableEq ι] (h : s.Inv sb inum off₀)
    (hc : s.call t = some c) (hlt : c.i < c.n) (hquiet : s.Quiet sb inum (.chunk t))
    (hstep : s.writeChunk sb t c = some s') :
  s'.Inv sb inum off₀
  := by
  obtain ⟨f, hf, hsound⟩ := h.ready
  have hn1 : 0 < c.n1 ∧ c.n1 < 2 ^ 32 := by
    have : maxChunk = 3072 := rfl
    unfold Filewrite.n1
    omega
  unfold SharedFile.writeChunk at hstep
  cases hw : writei sb s.ip c.source (c.addr + c.i) s.off c.n1 s.machine with
  | error e m =>
    rw [hw] at hstep
    cases hstep
  | ok r m =>
    obtain ⟨r, ip⟩ := r
    have hfull : c.Full _ := hquiet c hc hlt
    rw [hw] at hfull
    obtain rfl := hfull
    rw [← hf] at hw
    obtain ⟨hmax, f', rfl, hsound', hpatched⟩ :=
      wp_of_ok hw (wp_writei_patched rfl hsound hn1.2) rfl
    rw [hf] at hw hpatched
    have hoff : s.off + c.n1 < 2 ^ 32 := by
      simp only [MAXFILE, NDIRECT, NINDIRECT, BSIZE] at hmax
      omega
    have hadv : s.advance c.n1 = s.off + c.n1 := by
      unfold SharedFile.advance
      rw [if_pos (by omega), Int.toNat_natCast, Nat.mod_eq_of_lt hoff]
    rw [hw] at hstep
    simp only [ne_eq, not_true_eq_false, if_false, hadv, Int.toNat_natCast, Option.some.injEq]
      at hstep
    subst hstep
    exact h.write hc hlt hoff ⟨f', rfl, hsound'⟩ hpatched

/-- `fileread` -/
theorem fileread {bytes : List UInt8} {dst : ℕ → ℕ → Bool} {n : ℕ}
    (h : s.Inv sb inum off₀) (hr : readi sb s.ip dst s.off n s.machine = .ok (r, bytes, ip) m) :
  { s with
    machine := m, ip := ip, off := s.advance r
    log := if 0 < r then s.log ++ [Access.read s.off r.toNat] else s.log }.Inv sb inum off₀
  := by
  obtain ⟨f, hf, hsound⟩ := h.ready
  have hfits := (hsound.consistent.wf inum hsound.live.1).1
  have hC : Tolerates (fun (_ : Fault) (_ : Machine) => True) := fun _ _ _ => trivial
  rw [← hf] at hr
  have hspec : wp (readi sb (f inum) dst s.off n) (fun r m => (∃ f', f' inum = r.2.2
      ∧ Carried sb inum s.machine.obs f m.obs f') ∧ (0 < r.1 → s.off + r.1.toNat < 2 ^ 32))
      (fun _ _ => True) s.machine := by
    apply wp_readi_bytes hC (Or.inr (fun _ => trivial)) rfl hsound
    · intro _
      exact ⟨⟨f, rfl, Carried.refl hsound⟩, fun hpos => absurd hpos (by simp)⟩
    · intro acc f' m' hread _
      exact ⟨⟨f', rfl, hread.toCarried⟩, fun hpos => absurd hpos (by simp)⟩
    · intro acc f' m' hread hlen _
      refine ⟨⟨f', rfl, hread.toCarried⟩, ?_⟩
      have := hfits.size
      simp only [Int.toNat_natCast]
      omega
  obtain ⟨⟨f', rfl, hcar⟩, hlt⟩ := wp_of_ok hr hspec
  have hkept := h.other ⟨f', rfl, hcar.toFileSound⟩ (hf ▸ hcar.byte)
  unfold SharedFile.advance
  split_ifs with hpos
  · rw [Nat.mod_eq_of_lt (hlt hpos)]
    exact hkept.read (hlt hpos)
  · exact hkept

/-- Every step keeps the invariant. -/
theorem step [DecidableEq ι] {a : FileAct ι} (h : s.Inv sb inum off₀)
    (hquiet : s.Quiet sb inum a) (hstep : s.step sb a = some s') :
  s'.Inv sb inum off₀
  := by
  cases a with
  | filewrite t source addr n =>
    simp only [SharedFile.step] at hstep
    split_ifs at hstep
    · cases hstep
      exact h.refuse source addr n
    · cases hstep
      exact h.filewrite source addr n
  | chunk t =>
    cases hc : s.call t with
    | none =>
      simp only [SharedFile.step, hc] at hstep
      cases hstep
    | some c =>
      simp only [SharedFile.step, hc] at hstep
      by_cases hlt : c.i < c.n
      · rw [if_pos hlt] at hstep
        exact h.writeChunk hc hlt hquiet hstep
      · rw [if_neg hlt] at hstep
        cases hstep
        apply h.finish hc
        intro _
        have := (h.ongoing t c hc).i_le
        omega
  | fileread t dst n =>
    simp only [SharedFile.step] at hstep
    split_ifs at hstep
    cases hr : readi sb s.ip dst s.off (n % 2 ^ 32).toNat s.machine with
    | error e m =>
      rw [hr] at hstep
      cases hstep
    | ok r m =>
      obtain ⟨r, bytes, ip⟩ := r
      rw [hr] at hstep
      cases hstep
      exact h.fileread hr
  | other m ip =>
    cases hstep
    exact h.other hquiet.1 hquiet.2

end Inv

end SharedFile

/-- Whatever the processes that share a file write through it, in whatever order: every chunk
keeps the bytes it has written where the offset was then. -/
theorem shared_writes_lossless
    {ι : Type} [DecidableEq ι] {sb : Superblock} {inum off₀ : ℕ} {m : Machine} {ip : Inode}
    {r w : Bool} {as : List (FileAct ι)} {s : SharedFile ι}
    (hready : SharedFile.Ready sb inum m ip) (hoff : off₀ < 2 ^ 32)
    (hrun : (sharedFileSystem ι sb inum).exec (.opened m ip r w off₀) as = some s)
    (hquiet : (sharedFileSystem ι sb inum).Admissible (SharedFile.Quiet sb inum)
      (.opened m ip r w off₀) as) :
  s.Lossless off₀
  := by
  have hinv : s.Inv sb inum off₀ := by
    apply TransitionSystem.exec_invariant (I := fun s => s.Inv sb inum off₀) _ _ hrun hquiet
    · intro s a s' h hquiet hstep
      exact h.step hquiet hstep
    · exact SharedFile.Inv.opened hready hoff
  exact hinv.lossless

/-- The processes have the kernel for themselves and write full chunks. -/
def SharedFile.Alone {ι : Type} (sb : Superblock) (s : SharedFile ι) : FileAct ι → Prop
  | .chunk t => s.FullChunk sb t
  | .other .. => False
  | _ => True

instance {ι : Type} (sb : Superblock) (s : SharedFile ι) (a : FileAct ι) : Decidable (s.Alone sb a) := by
  cases a <;> unfold SharedFile.Alone <;> infer_instance

/-- Two processes write to a file at the same time, one of them in two chunks. -/
def interleaved : List (FileAct (Fin 2)) :=
  [.fileread 1 (fun _ _ => true) 4, .filewrite 0 (.user onePage) 0 3073,
    .filewrite 1 (.user onePage) 16 5, .chunk 0, .chunk 1, .chunk 0, .chunk 0, .chunk 1]

/-- The offset and where each access began, with its length. -/
def SharedFile.moves {ι : Type} (s : SharedFile ι) : ℕ × List (ℕ × ℕ) :=
  (s.off, s.log.map fun a => (a.start, a.length))

theorem shared_writes_lossless_interleaved :
  ∃ s : SharedFile (Fin 2), (sharedFileSystem (Fin 2) smallSb 1).exec
      (.opened smallMachine smallFile true true 2) interleaved = some s
    ∧ s.moves = (3084, [(2, 4), (6, 3072), (3078, 5), (3083, 1)]) ∧ s.Lossless 2
  := by
  have hexec : ((sharedFileSystem (Fin 2) smallSb 1).exec
      (.opened smallMachine smallFile true true 2) interleaved).map SharedFile.moves
      = some (3084, [(2, 4), (6, 3072), (3078, 5), (3083, 1)]) := by
    decide +kernel
  obtain ⟨s, hrun, hmoves⟩ := Option.map_eq_some_iff.mp hexec
  have halone : (sharedFileSystem (Fin 2) smallSb 1).Admissible (SharedFile.Alone smallSb)
      (.opened smallMachine smallFile true true 2) interleaved := by
    decide +kernel
  have hquiet : (sharedFileSystem (Fin 2) smallSb 1).Admissible (SharedFile.Quiet smallSb 1)
      (.opened smallMachine smallFile true true 2) interleaved := by
    refine TransitionSystem.Admissible.mono ?_ halone
    intro s a ha
    cases a with
    | chunk t => exact ha
    | other m ip => exact ha.elim
    | _ => trivial
  have hready : SharedFile.Ready smallSb 1 smallMachine smallFile := by
    refine ⟨smallSb.inode smallDisk, small_inode_one, small_consistent, small_live.mpr rfl, ?_⟩
    intro bn _ _
    exact .inr rfl
  exact ⟨s, hrun, hmoves, shared_writes_lossless hready (by decide) hrun hquiet⟩

end Xv6
