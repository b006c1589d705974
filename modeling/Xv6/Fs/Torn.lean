import Xv6.Fs.Content

/-!
# Unlogged modifications

When the copying of a piece fails, `writei` releases the buffer without logging it, and the
buffer keeps the bytes that were copied.  If the block is neither in the log nor new, its
buffer then differs from the disk until it is recycled.  This happens exactly when the
readable part of the source ends inside such a block and changes it.
-/

namespace Xv6

open Machine Stop Superblock Function

/-- Every valid buffer of a block that is not in the log agrees with the disk. -/
def Machine.AllLogged (m : Machine) : Prop :=
  ∀ b buf, m.cache b = some buf → b ∉ m.lh → buf.data = m.disk b

def Obs.AllLogged (o : Obs) : Prop := ∀ b ∉ o.lh, o.view b = o.disk b

theorem Machine.allLogged_iff {m : Machine} : m.AllLogged ↔ m.obs.AllLogged := by
  constructor
  · intro h b hb
    change m.view b = m.disk b
    unfold Machine.view
    split
    next buf hbuf => exact h b buf hbuf hb
    next => rfl
  · intro h b buf hbuf hb
    have hview : m.view b = m.disk b := h b hb
    unfold Machine.view at hview
    rwa [hbuf] at hview

theorem Obs.AllLogged.logs {o o' : Obs} (h : o.AllLogged) (hlogs : Logs o o') : o'.AllLogged := by
  intro b hb
  rw [hlogs.view b hb, hlogs.disk]
  exact h b (fun hmem => hb (hlogs.mem b hmem))

/-- The blocks of a file come without gaps. -/
def Contiguous (sb : Superblock) (view : ℕ → Block) (f : ℕ → Inode) (i : ℕ) : Prop :=
  ∀ bn bn', bn' ≤ bn → bn < MAXFILE → sb.cell view f (blockCell i bn) ≠ 0 →
    sb.cell view f (blockCell i bn') ≠ 0

section Torn

variable (view : ℕ → Block) (lh : List ℕ) (ip : Inode) (s : Source) (src off n : ℕ)

/-- Where the readable part of the source ends in the file. -/
def tornEnd : ℕ := off + s.readable src n

/-- Where the piece that cannot be copied starts in the file. -/
def tornStart : ℕ := max off (tornEnd s src off n / BSIZE * BSIZE)

/-- The block that the piece belongs to. -/
def tornBlock : ℕ := ip.block view (tornEnd s src off n / BSIZE)

/-- The block as the failed copying leaves it. -/
def tornData : Block :=
  (view (tornBlock view ip s src off n)).patch (tornStart s src off n % BSIZE)
    (tornEnd s src off n - tornStart s src off n) (s.bytes (src + (tornStart s src off n - off)))

/-- The write is one that `writei` attempts, its source can be read only in part, and the
readable part changes a block of the file that is not in the log. -/
structure Torn : Prop where
  off_le : off ≤ ip.size
  le_max : off + n ≤ MAXFILE * BSIZE
  short : s.readable src n < n
  block : tornBlock view ip s src off n ≠ 0
  unlogged : tornBlock view ip s src off n ∉ lh
  changed : tornData view ip s src off n ≠ view (tornBlock view ip s src off n)

end Torn

namespace Source

variable {s : Source} {src a b : ℕ}

theorem readable_eq_of_le (hab : a ≤ b) (h : a ≤ s.readable src b) : s.readable src a = a := by
  induction b generalizing src a with
  | zero =>
    obtain rfl := Nat.le_zero.mp hab
    rfl
  | succ b ih =>
    rw [readable_succ] at h
    cases a with
    | zero => rfl
    | succ a =>
      split_ifs at h with hbyte
      · rw [readable_succ, if_pos hbyte, ih (Nat.le_of_succ_le_succ hab) (Nat.le_of_succ_le_succ h)]
      · exact absurd h (Nat.not_succ_le_zero a)

theorem le_readable (h : s.readable src a = a) (hab : a ≤ b) : a ≤ s.readable src b := by
  obtain ⟨c, rfl⟩ := Nat.exists_eq_add_of_le hab
  rw [readable_add h]
  exact Nat.le_add_right _ _

theorem readable_eq_of_lt (hab : a ≤ b) (h : s.readable src a < a) :
  s.readable src b = s.readable src a
  := by
  induction a generalizing src b with
  | zero => exact absurd h (Nat.not_lt_zero _)
  | succ a ih =>
    obtain ⟨b, rfl⟩ : ∃ b', b = b' + 1 := ⟨b - 1, by omega⟩
    rw [readable_succ] at h
    rw [readable_succ, readable_succ]
    split_ifs at h ⊢ with hbyte
    · rw [ih (Nat.le_of_succ_le_succ hab) (Nat.lt_of_succ_lt_succ h)]
    · rfl

end Source

/-! ### The loop -/

section Loop

variable {sb : Superblock} {s : Source} {src off n i tot addr : ℕ} {o o₁ o₂ : Obs} {f : ℕ → Inode}

/-- While the pieces are copied in full, from a state where all modifications are logged. -/
structure Copying (sb : Superblock) (s : Source) (src off n i : ℕ) (o : Obs) (f : ℕ → Inode) (tot : ℕ)
    (ip : Inode) (o' : Obs) (f' : ℕ → Inode) : Prop where
  ip_eq : f' i = ip
  grown : Grown sb i o f o' f'
  logs : Logs o o'
  le : tot ≤ n
  readable : tot ≤ s.readable src n
  boundary : tot < n → tot = 0 ∨ (off + tot) % BSIZE = 0
  cells : tot < n → ∀ bn < MAXFILE, (off + tot) / BSIZE ≤ bn →
    sb.cell o'.view f' (blockCell i bn) = sb.cell o.view f (blockCell i bn)
  unlogged : tot < n → ∀ bn < MAXFILE, (off + tot) / BSIZE ≤ bn →
    sb.cell o.view f (blockCell i bn) ≠ 0 → sb.cell o.view f (blockCell i bn) ∉ o.lh →
    sb.cell o.view f (blockCell i bn) ∉ o'.lh

/-- What is known of the buffers when the loop has ended. -/
structure Outcome (sb : Superblock) (s : Source) (src off n i : ℕ) (o : Obs) (f : ℕ → Inode)
    (o' : Obs) (f' : ℕ → Inode) : Prop where
  grown : Grown sb i o f o' f'
  logged : ¬ Torn o.view o.lh (f i) s src off n → o'.AllLogged
  torn : Torn o.view o.lh (f i) s src off n → (∀ k, o.recycle k = false) →
    ∃ b, sb.Data b ∧ b ∉ o'.lh ∧ o'.view b ≠ o'.disk b

variable {ip : Inode}

/-- The block where the source ends comes after the pieces that were copied. -/
theorem Copying.le_tornEnd {tot : ℕ} {o' : Obs} {f' : ℕ → Inode}
    (h : Copying sb s src off n i o f tot ip o' f') :
  (off + tot) / BSIZE ≤ tornEnd s src off n / BSIZE
  := Nat.div_le_div_right (Nat.add_le_add_left h.readable off)

theorem Torn.end_lt (h : Torn o.view o.lh (f i) s src off n) (hi : sb.Live f i) :
  tornEnd s src off n / BSIZE < MAXFILE
    ∧ tornBlock o.view (f i) s src off n
      = sb.cell o.view f (blockCell i (tornEnd s src off n / BSIZE))
  := by
  have hlt : tornEnd s src off n / BSIZE < MAXFILE := by
    have := h.short
    have := h.le_max
    apply Nat.div_lt_of_lt_mul
    rw [Nat.mul_comm]
    unfold tornEnd
    omega
  exact ⟨hlt, Inode.block_eq_cell hi hlt⟩

variable {f₁ f₂ : ℕ → Inode} {data : Block}

/-- There is no block for the next piece. -/
theorem Copying.out_of_blocks
    (h : Copying sb s src off n i o f tot ip o₁ f₁) (hall : o.AllLogged) (hi : sb.Live f i)
    (hcont : Contiguous sb o.view f i) (htot : tot < n)
    (hm : Mapped sb i (blockCell i ((off + tot) / BSIZE)) o₁ f₁ addr o₂ f₂) (haddr : addr = 0) :
  Outcome sb s src off n i o f o₂ f₂
  := by
  refine ⟨h.grown.trans hm.toGrown, fun _ => hall.logs (h.logs.trans hm.logs), ?_⟩
  intro ht
  exfalso
  obtain ⟨hlt, hblock⟩ := ht.end_lt hi
  have hle := h.le_tornEnd
  have hne := hcont _ _ hle hlt (hblock ▸ ht.block)
  rw [← h.cells htot _ (Nat.lt_of_le_of_lt hle hlt) (Nat.le_refl _)] at hne
  rcases hm.fresh with ⟨_, rfl, rfl⟩ | ⟨hzero, _⟩
  · rw [hm.cell] at hne
    exact hne haddr
  · exact hne hzero

/-- The next piece is copied in full and logged. -/
theorem Copying.next
    (h : Copying sb s src off n i o f tot ip o₁ f₁) (hcont : Contiguous sb o.view f i) (htot : tot < n)
    (hbn : (off + tot) / BSIZE < MAXFILE)
    (hm : Mapped sb i (blockCell i ((off + tot) / BSIZE)) o₁ f₁ addr o₂ f₂) (haddr : addr ≠ 0)
    (hread : s.readable (src + tot) (pieceLength off n tot) = pieceLength off n tot)
    (hlen : (o₂.log addr data).lh.length ≤ LOGBLOCKS) :
  Copying sb s src off n i o f (tot + pieceLength off n tot) (f₂ i) (o₂.log addr data) f₂
  := by
  have hle : pieceLength off n tot ≤ n - tot := pieceLength_le
  have hcell0 : sb.cell o₂.view f₂ (blockCell i ((off + tot) / BSIZE)) ≠ 0 := hm.cell ▸ haddr
  have hlog : Grown sb i o₂ f₂ (o₂.log addr data) f₂ := by
    have hlen' := hlen
    rw [← hm.cell] at hlen' ⊢
    exact Grown.log_cell hm.consistent (blockCell_ne_last i _) hcell0 hlen'
  have hlogcell : ∀ q, sb.cell (o₂.log addr data).view f₂ q = sb.cell o₂.view f₂ q := by
    intro q
    have hdata := hm.consistent.owned.data hcell0
    have hne := hm.consistent.indirect_ne_of_cell (blockCell_ne_last i _) hcell0
    rw [hm.cell] at hdata hne
    rw [(hm.consistent.log_data hdata hne hlen).2]
  -- a later block is in another cell than the one that was mapped
  have hlater : tot + pieceLength off n tot < n →
      (off + (tot + pieceLength off n tot)) % BSIZE = 0
        ∧ ∀ {bn}, (off + (tot + pieceLength off n tot)) / BSIZE ≤ bn → (off + tot) / BSIZE < bn := by
    intro hlt
    have hpiece : pieceLength off n tot = BSIZE - (off + tot) % BSIZE := by
      unfold pieceLength at hlt ⊢
      omega
    have hmod : (off + tot) % BSIZE < BSIZE := Nat.mod_lt _ (by decide)
    simp only [BSIZE] at *
    constructor
    · omega
    · intro bn hbn'
      omega
  have hrest : ∀ bn < MAXFILE, (off + tot) / BSIZE < bn →
      sb.cell o₂.view f₂ (blockCell i bn) = sb.cell o.view f (blockCell i bn) := by
    intro bn hlt hgt
    have hne : blockCell i bn ≠ blockCell i ((off + tot) / BSIZE) :=
      fun heq => Nat.ne_of_gt hgt (blockCell_inj hlt hbn heq)
    rw [hm.rest _ (blockCell_ne_last i bn) hne, h.cells htot bn hlt (Nat.le_of_lt hgt)]
  refine ⟨rfl, (h.grown.trans hm.toGrown).trans hlog, (h.logs.trans hm.logs).trans (Logs.log _ _ _),
    by omega, ?_, fun hlt => Or.inr (hlater hlt).1, ?_, ?_⟩
  · have hdone := Source.readable_eq_of_le h.le h.readable
    have hsofar : s.readable src (tot + pieceLength off n tot) = tot + pieceLength off n tot := by
      rw [Source.readable_add hdone, hread]
    exact Source.le_readable hsofar (by omega)
  · intro hlt bn hbn' hge
    rw [hlogcell, hrest bn hbn' ((hlater hlt).2 hge)]
  · intro hlt bn hbn' hge hne hmem hmem'
    have hgt := (hlater hlt).2 hge
    rcases Obs.mem_log_lh.mp hmem' with hold | heq
    · rcases hm.fresh with ⟨_, rfl, _⟩ | ⟨hzero, _⟩
      · exact h.unlogged htot bn hbn' (Nat.le_of_lt hgt) hne hmem hold
      · rw [h.cells htot _ hbn (Nat.le_refl _)] at hzero
        exact hcont bn _ (Nat.le_of_lt hgt) hbn' hne hzero
    · rw [← hm.cell, ← hrest bn hbn' hgt] at heq
      rw [← hrest bn hbn' hgt] at hne
      have := blockCell_inj hbn' hbn (hm.consistent.owned.own.unique _ _ hne heq)
      omega

/-- The place where the copying fails is known beforehand. -/
theorem Copying.torn_place {tot : ℕ} {o₁ : Obs} {f₁ : ℕ → Inode}
    (h : Copying sb s src off n i o f tot ip o₁ f₁) (htot : tot < n)
    (hread : s.readable (src + tot) (pieceLength off n tot) < pieceLength off n tot) :
  s.readable src n = tot + s.readable (src + tot) (pieceLength off n tot)
    ∧ tornEnd s src off n / BSIZE = (off + tot) / BSIZE ∧ tornStart s src off n = off + tot
  := by
  have hdone := Source.readable_eq_of_le h.le h.readable
  have hle : pieceLength off n tot ≤ n - tot := pieceLength_le
  have hpiece : pieceLength off n tot ≤ BSIZE - (off + tot) % BSIZE := Nat.min_le_right _ _
  have hsum : s.readable src n = tot + s.readable (src + tot) (pieceLength off n tot) := by
    rw [← Source.readable_eq_of_lt hle hread, ← Source.readable_add hdone, Nat.add_sub_cancel' h.le]
  have hend : tornEnd s src off n / BSIZE = (off + tot) / BSIZE := by
    rw [tornEnd, hsum]
    simp only [BSIZE] at *
    omega
  refine ⟨hsum, hend, ?_⟩
  have hboundary := h.boundary htot
  rw [tornStart, hend]
  simp only [BSIZE] at *
  omega

/-- The copying of the next piece fails. -/
theorem Copying.fail
    (h : Copying sb s src off n i o f tot ip o₁ f₁) (hall : o.AllLogged) (hi : sb.Live f i)
    (htot : tot < n) (hbn : (off + tot) / BSIZE < MAXFILE)
    (hm : Mapped sb i (blockCell i ((off + tot) / BSIZE)) o₁ f₁ addr o₂ f₂) (haddr : addr ≠ 0)
    (hoff : off ≤ (f i).size) (hmax : off + n ≤ MAXFILE * BSIZE)
    (hread : s.readable (src + tot) (pieceLength off n tot) < pieceLength off n tot)
    (hdata : data = pieceData s src off n tot (o₂.view addr)
      ∨ (∃ k, o₂.recycle k = true) ∧ data = o₂.disk addr) :
  Outcome sb s src off n i o f (o₂.setView addr data) f₂
  := by
  obtain ⟨hsum, hend, hstart⟩ := h.torn_place htot hread
  have hlogs := h.logs.trans hm.logs
  have hcell0 : sb.cell o₂.view f₂ (blockCell i ((off + tot) / BSIZE)) ≠ 0 := hm.cell ▸ haddr
  have hle : pieceLength off n tot ≤ n - tot := pieceLength_le
  have hblock : tornBlock o.view (f i) s src off n
      = sb.cell o.view f (blockCell i ((off + tot) / BSIZE)) := by
    rw [tornBlock, hend, Inode.block_eq_cell hi hbn]
  have hcells := h.cells htot _ hbn (Nat.le_refl _)
  -- a block that was there before and is not in the log has the contents it had
  have hpiece : ∀ {b}, b = tornBlock o.view (f i) s src off n → b ∉ o₂.lh →
      pieceData s src off n tot (o₂.view b) = tornData o.view (f i) s src off n := by
    intro b hb hmem
    rw [pieceData, hlogs.view b hmem, tornData, hstart, hb]
    congr 1
    · rw [tornEnd, hsum]
      omega
    · rw [Nat.add_sub_cancel_left]
  have hgrown : Grown sb i o f (o₂.setView addr data) f₂ := by
    have hset := (Grown.setView_cell (i := i) hm.consistent (blockCell_ne_last i _) hcell0 data).1
    rw [hm.cell] at hset
    exact (h.grown.trans hm.toGrown).trans hset
  refine ⟨hgrown, ?_, ?_⟩
  · intro ht b hb
    have hlogged : o₂.AllLogged := hall.logs hlogs
    by_cases hba : b = addr
    · subst hba
      rcases hdata with rfl | ⟨_, rfl⟩
      · have hmem : b ∉ o₂.lh := hb
        -- the block is not new
        have hold : b = tornBlock o.view (f i) s src off n := by
          rcases hm.fresh with ⟨_, rfl, rfl⟩ | ⟨_, hnew⟩
          · rw [hblock, ← hcells, hm.cell]
          · exact absurd (hnew haddr) hmem
        have hsame : tornData o.view (f i) s src off n = o.view b := by
          by_contra hne
          apply ht
          refine ⟨hoff, hmax, by omega, hold ▸ haddr, ?_, hold ▸ hne⟩
          rw [← hold]
          exact fun hmem' => hmem (hlogs.mem b hmem')
        change update o₂.view b _ b = o₂.disk b
        rw [update_self, hpiece hold hmem, hsame, ← hlogged b hmem, hlogs.view b hmem]
      · exact update_self _ _ _
    · exact (update_of_ne hba _ _).trans (hlogged b hb)
  · intro ht hnever
    have hne : sb.cell o.view f (blockCell i ((off + tot) / BSIZE)) ≠ 0 := hblock ▸ ht.block
    have hunlogged := h.unlogged htot _ hbn (Nat.le_refl _) hne (hblock ▸ ht.unlogged)
    rcases hm.fresh with ⟨_, rfl, rfl⟩ | ⟨hzero, _⟩
    · have heq : addr = tornBlock o.view (f i) s src off n := by rw [hblock, ← hcells, hm.cell]
      have hmem : addr ∉ o₂.lh := by rwa [heq, hblock]
      refine ⟨addr, hm.cell ▸ hm.consistent.owned.data hcell0, ?_⟩
      rcases hdata with rfl | ⟨⟨k, hk⟩, _⟩
      · refine ⟨hmem, ?_⟩
        change update o₂.view addr _ addr ≠ o₂.disk addr
        have hdisk : o₂.disk addr = o.view addr := by
          rw [← hlogs.view addr hmem]
          exact (hall.logs hlogs addr hmem).symm
        rw [update_self, hpiece heq hmem, hdisk]
        have hchanged := ht.changed
        rwa [← heq] at hchanged
      · rw [hlogs.recycle, hnever k] at hk
        cases hk
    · rw [hcells] at hzero
      exact absurd hzero hne

/-- The whole source is copied. -/
theorem Copying.done {o₁ : Obs} {f₁ : ℕ → Inode}
    (h : Copying sb s src off n i o f n ip o₁ f₁) (hall : o.AllLogged) :
  Outcome sb s src off n i o f o₁ f₁
  := by
  refine ⟨h.grown, fun _ => hall.logs h.logs, ?_⟩
  intro ht
  exact absurd h.readable (Nat.not_le_of_lt ht.short)

end Loop

/-! ### The call -/

section Call

variable {sb : Superblock} {s : Source} {src off n i : ℕ} {o : Obs} {f : ℕ → Inode} {m : Machine}

theorem wp_writeiLoop_outcome {Q : ℕ × Inode → Machine → Prop}
    (hm : m.obs = o) (hcons : Consistent sb o f) (hi : sb.Live f i) (hall : o.AllLogged)
    (hcont : Contiguous sb o.view f i) (hoff : off ≤ (f i).size) (hmax : off + n ≤ MAXFILE * BSIZE)
    (h : ∀ tot f' m', tot ≤ n → Outcome sb s src off n i o f m'.obs f' → Q (tot, f' i) m') :
  wp (writeiLoop sb s src off n n 0 (f i)) Q (fun _ _ => True) m
  := by
  have hC : Tolerates (fun (_ : Fault) (_ : Machine) => True) := fun _ _ _ => trivial
  apply wp_writeiLoop (fun tot ip m => ∃ f', Copying sb s src off n i o f tot ip m.obs f') hC
  · rintro ip m ⟨f', hcopy⟩
    obtain rfl := hcopy.ip_eq
    exact h n f' m (Nat.le_refl n) (hcopy.done hall)
  · rintro tot ip m htot ⟨f', hcopy⟩
    obtain rfl := hcopy.ip_eq
    apply wp_bmap (fun _ => hC) (Or.inr (fun _ => trivial)) rfl hcopy.grown.consistent (hcopy.grown.live.mpr hi)
    intro hbn addr f₁ m₁ hmapped
    constructor
    · intro haddr
      exact h tot f₁ m₁ (Nat.le_of_lt htot) (hcopy.out_of_blocks hall hi hcont htot hmapped.toMapped haddr)
    · intro haddr
      refine ⟨hmapped.toMapped.consistent.pinned, ?_, ?_⟩
      · intro hread m₂ h₂ hlen
        rw [h₂] at hlen ⊢
        exact ⟨f₁, hcopy.next hcont htot hbn hmapped.toMapped haddr hread hlen⟩
      · intro hread data m₂ hdata h₂
        apply h tot f₁ m₂ (Nat.le_of_lt htot)
        rw [h₂]
        exact hcopy.fail hall hi htot hbn hmapped.toMapped haddr hoff hmax hread hdata
  · omega
  · exact Nat.zero_le n
  · rw [hm]
    exact ⟨f, rfl, Grown.refl hcons, Logs.refl o, Nat.zero_le n, Nat.zero_le _, fun _ => Or.inl rfl,
      fun _ _ _ _ => rfl, fun _ _ _ _ _ hmem => hmem⟩

/-- Under every schedule of recyclings the modifications are logged, unless the write is torn;
if it is torn and no buffer is recycled, one of them is not. -/
theorem wp_writei_outcome
    (hm : m.obs = o) (hcons : Consistent sb o f) (hi : sb.Live f i) (hall : o.AllLogged)
    (hcont : Contiguous sb o.view f i) (hn : n < 2 ^ 32) :
  wp (writei sb (f i) s src off n)
    (fun _ m' => (¬ Torn o.view o.lh (f i) s src off n → m'.obs.AllLogged)
      ∧ (Torn o.view o.lh (f i) s src off n → (∀ k, o.recycle k = false) → ¬ m'.obs.AllLogged))
    (fun _ _ => True) m
  := by
  have hfits := (hcons.wf i hi.1).1
  apply wp_writei_of_loop hfits hn
  · intro hbad
    rw [hm]
    refine ⟨fun _ => hall, fun ht => ?_⟩
    have := ht.off_le
    have := ht.le_max
    omega
  intro hoff hmax
  apply wp_writeiLoop_outcome hm hcons hi hall hcont hoff hmax
  intro tot f₁ m₁ _ hout
  have hnum : ((f₁ i).setSize (max (f₁ i).size (off + tot))).inum = i :=
    (hout.grown.consistent.wf i hi.1).2
  apply wp_iupdate (fun _ _ _ => trivial) rfl hout.grown.consistent.pinned
  intro m₂ h₂ _
  rw [h₂, hnum]
  constructor
  · intro ht
    exact (hout.logged ht).logs (Logs.log _ _ _)
  · intro ht hnever hlogged
    obtain ⟨b, hdata, hmem, hne⟩ := hout.torn ht hnever
    have hblock : b ≠ sb.iblock i := by
      have := (hout.grown.consistent.layout.iblock_bounds hi.1).2
      have : sb.bmapstart < sb.nmeta := bmapstart_lt
      have := hdata.1
      omega
    apply hne
    have hb := hlogged b
    rw [Obs.mem_log_lh, Obs.log_view, update_of_ne hblock, Obs.log_disk] at hb
    exact hb (fun hor => hor.elim hmem hblock)

end Call

/-- The file system is consistent, the blocks of the inode come without gaps, every valid
buffer outside the log agrees with the disk, and the call returns.  Then the same holds of
the buffers after the call, whichever of them are recycled, exactly if the write is not
torn. -/
theorem writei_all_logged
    {sb : Superblock} {m : Machine} {i : ℕ} {s : Source} {src off n : ℕ}
    (hcons : Consistent sb m.obs (sb.inode m.view)) (hi : sb.Live (sb.inode m.view) i)
    (hcont : Contiguous sb m.view (sb.inode m.view) i) (hall : m.AllLogged) (hn : n < 2 ^ 32)
    (hret : ∃ r m', writei sb (sb.inode m.view i) s src off n { m with recycle := fun _ => false }
      = .ok r m') :
  (∀ recycle r m', writei sb (sb.inode m.view i) s src off n { m with recycle } = .ok r m' →
      m'.AllLogged)
    ↔ ¬ Torn m.view m.lh (sb.inode m.view i) s src off n
  := by
  have hwp : ∀ recycle, wp (writei sb (sb.inode m.view i) s src off n)
      (fun _ m' => (¬ Torn m.view m.lh (sb.inode m.view i) s src off n → m'.obs.AllLogged)
        ∧ (Torn m.view m.lh (sb.inode m.view i) s src off n → (∀ k, recycle k = false) →
          ¬ m'.obs.AllLogged)) (fun _ _ => True) { m with recycle } := by
    intro recycle
    have hcons' : Consistent sb { m with recycle }.obs (sb.inode m.view) :=
      ⟨hcons.layout, hcons.owned, hcons.wf,
        ⟨hcons.cached.pinned, hcons.cached.settled, hcons.cached.range, hcons.cached.nodup⟩,
        hcons.length⟩
    exact wp_writei_outcome rfl hcons' hi (Machine.allLogged_iff.mp hall) hcont hn
  constructor
  · intro hgood ht
    obtain ⟨r, m', hrun⟩ := hret
    apply (wp_of_ok hrun (hwp _)).2 ht (fun _ => rfl)
    exact Machine.allLogged_iff.mp (hgood _ r m' hrun)
  · intro ht recycle r m' hrun
    exact Machine.allLogged_iff.mpr ((wp_of_ok hrun (hwp recycle)).1 ht)

/-! ### A disk with one inode -/

/-- The only inode on the disk is `ip`, in the first block of inodes. -/
structure SingleInode (sb : Superblock) (disk : ℕ → Block) (ip : Inode) : Prop where
  block : disk sb.inodestart = ip.store (fun _ => 0)
  ninodes : sb.ninodes ≤ IPB
  lt : ip.inum < sb.ninodes
  type : ip.type ≠ 0
  fits : ip.Fits

namespace SingleInode

variable {sb : Superblock} {disk : ℕ → Block} {ip : Inode} (h : SingleInode sb disk ip) {i : ℕ}

include h

theorem disk_iblock (hi : i < sb.ninodes) : disk (sb.iblock i) = ip.store (fun _ => 0) := by
  rw [iblock, Nat.div_eq_of_lt (hi.trans_le h.ninodes), Nat.zero_add, h.block]

theorem inode_eq : sb.inode disk ip.inum = ip := by
  rw [Superblock.inode, h.disk_iblock h.lt]
  exact Inode.load_store ip _ h.fits

theorem live_iff : sb.Live (sb.inode disk) i ↔ i = ip.inum := by
  constructor
  · rintro ⟨hi, htype⟩
    by_contra hne
    have hmod : i % IPB ≠ ip.inum % IPB := by
      rwa [Nat.mod_eq_of_lt (hi.trans_le h.ninodes), Nat.mod_eq_of_lt (h.lt.trans_le h.ninodes)]
    apply htype
    rw [Superblock.inode, h.disk_iblock hi, Inode.load_store_of_ne ip _ hmod]
    exact Bytes.load_zero _ _
  · rintro rfl
    use h.lt
    rw [h.inode_eq]
    exact h.type

end SingleInode

/-! ### A file of one block -/

/-- A file system with five data blocks. -/
def smallSb : Superblock where
  size := 40
  ninodes := 2
  inodestart := 33
  bmapstart := 34

/-- A file of ten bytes in the first data block. -/
def smallFile : Inode where
  inum := 1
  type := T_FILE
  major := 0
  minor := 0
  nlink := 1
  size := 10
  addrs := fun k => if k = 0 then 35 else 0

/-- The bits of the blocks before `36` are set. -/
def smallMap : Block := fun i => if i.val < 4 then 255 else if i.val = 4 then 15 else 0

def smallDisk (b : ℕ) : Block :=
  if b = 33 then smallFile.store (fun _ => 0) else if b = 34 then smallMap else fun _ => 0

/-- The machine in a transaction, with nothing in the cache. -/
def smallMachine : Machine := { Machine.boot smallDisk 2 0 (fun _ => false) with outstanding := 1 }

/-- A process whose only page is the first one, full of sevens. -/
def onePage : UserPages where
  page := fun va => if va = 0 then some (fun _ => 7) else none
  lt := by
    intro va h
    split_ifs at h with hva
    · rw [hva]
      decide
    · cases h

theorem small_single : SingleInode smallSb smallDisk smallFile := by
  refine ⟨rfl, by decide, by decide, by decide, by decide, by decide, by decide, by decide, by decide, ?_⟩
  intro k
  unfold smallFile
  dsimp only
  split_ifs
  · decide
  · decide

theorem small_inode_one : smallSb.inode smallDisk 1 = smallFile := SingleInode.inode_eq small_single

theorem small_live {i : ℕ} : smallSb.Live (smallSb.inode smallDisk) i ↔ i = 1 :=
  SingleInode.live_iff small_single

theorem small_cell (q : Cell) :
  smallSb.cell smallDisk (smallSb.inode smallDisk) q = if q = .addr 1 0 then 35 else 0
  := by
  cases q with
  | addr i k =>
    by_cases hi : i = 1
    · subst hi
      rw [cell_addr (by rw [small_live]), small_inode_one]
      simp [smallFile]
    · rw [cell, if_neg (by rwa [small_live]), if_neg (by simp [hi])]
  | entry i l =>
    rw [if_neg (by simp)]
    apply if_neg
    rintro ⟨hlive, hind⟩
    rw [small_live] at hlive
    rw [hlive, small_inode_one] at hind
    exact hind (by decide)

theorem small_bit {b : ℕ} (hb : b < 8192) : smallSb.bit smallDisk b = decide (b < 36) := by
  have hbit : smallSb.bit smallDisk b = smallMap.testBit b := by
    have hblock : smallSb.bblock b = 34 := by
      simp only [Superblock.bblock, smallSb, BPB, BSIZE]
      omega
    have hmod : b % BPB = b := Nat.mod_eq_of_lt hb
    have hmap : smallDisk 34 = smallMap := rfl
    rw [Superblock.bit, hblock, hmod, hmap]
  rw [hbit]
  by_cases hlt : b < 40
  · have hall : ∀ b < 40, smallMap.testBit b = decide (b < 36) := by decide
    exact hall b hlt
  · have hbyte : smallMap.byteAt (b / 8) = 0 := by
      simp only [Bytes.byteAt, smallMap, BSIZE]
      rw [dif_pos (by omega), if_neg (by omega), if_neg (by omega)]
    rw [Bytes.testBit, hbyte, decide_eq_false (by omega)]
    simp

theorem small_consistent : Consistent smallSb smallMachine.obs (smallSb.inode smallDisk) := by
  have hmap : ∀ {b}, b / BPB ≤ smallSb.size / BPB → b < 8192 := by
    intro b hb
    simp only [smallSb, BPB, BSIZE] at hb
    omega
  refine ⟨⟨by decide, by decide, by decide, by decide, by decide⟩, ⟨⟨?_, ?_, ?_, ?_⟩, ?_⟩, ?_,
    ⟨?_, fun _ _ => Or.inr rfl, ?_, List.nodup_nil⟩, by decide⟩
  · intro q hq
    change smallSb.cell smallDisk _ q ≠ 0 at hq
    change smallSb.Data (smallSb.cell smallDisk _ q)
    rw [small_cell] at hq ⊢
    split_ifs at hq ⊢
    · decide
    · exact absurd rfl hq
  · intro q hq
    change smallSb.cell smallDisk _ q ≠ 0 at hq
    change smallSb.cell smallDisk _ q ∈ _
    rw [small_cell] at hq ⊢
    split_ifs at hq ⊢
    · exact ⟨by decide, by decide, small_bit (by decide)⟩
    · exact absurd rfl hq
  · intro q q' hq heq
    change smallSb.cell smallDisk _ q ≠ 0 at hq
    change smallSb.cell smallDisk _ q = smallSb.cell smallDisk _ q' at heq
    rw [small_cell] at hq heq
    rw [small_cell] at heq
    split_ifs at hq heq with h₁ h₂
    · rw [h₁, h₂]
    · exact absurd rfl hq
  · rintro b ⟨hb, hdiv, hbit⟩
    change smallSb.bit smallDisk b = true at hbit
    rw [small_bit (hmap hdiv), decide_eq_true_eq] at hbit
    have hb : 35 ≤ b := hb
    refine ⟨by omega, .addr 1 0, ?_⟩
    change smallSb.cell smallDisk _ _ = b
    rw [small_cell, if_pos rfl]
    omega
  · intro b hb
    have hb : b < 35 := hb
    change smallSb.bit smallDisk b = true
    rw [small_bit (by omega), decide_eq_true_eq]
    omega
  · intro i hi
    exact ⟨Inode.fits_load _ _, rfl⟩
  · intro b hb
    cases hb
  · intro b hb
    cases hb

theorem small_contiguous : Contiguous smallSb smallDisk (smallSb.inode smallDisk) 1 := by
  intro bn bn' hle hbn hne
  rw [small_cell] at hne ⊢
  split_ifs at hne with hcell
  · obtain rfl : bn = 0 := by
      apply blockCell_inj hbn (by decide) (i := 1)
      rw [hcell]
      rfl
    obtain rfl := Nat.le_zero.mp hle
    rw [if_pos hcell]
    exact hne
  · exact absurd rfl hne

theorem small_all_logged : smallMachine.AllLogged := by
  intro b buf hbuf
  cases hbuf

/-- Whether the call returns with the first byte of block `35` changed in the cache only. -/
def tornByte : EStateM.Result Fault Machine (ℤ × Inode) → Bool
  | .ok _ m => decide (35 ∉ m.lh ∧ m.view 35 0 = 7 ∧ m.disk 35 0 = 0)
  | .error _ _ => false

/-- Four bytes are to be written, of which the first two are on a page and the others are
not.  Two bytes of the file are changed in the cache, and the block is not logged. -/
theorem writei_torn :
  Consistent smallSb smallMachine.obs (smallSb.inode smallMachine.view)
    ∧ smallSb.Live (smallSb.inode smallMachine.view) 1
    ∧ Contiguous smallSb smallMachine.view (smallSb.inode smallMachine.view) 1
    ∧ smallMachine.AllLogged
    ∧ ∃ r m', writei smallSb (smallSb.inode smallMachine.view 1) (.user onePage) 4094 0 4 smallMachine
      = .ok r m' ∧ ¬ m'.AllLogged
  := by
  refine ⟨small_consistent, small_live.mpr rfl, small_contiguous, small_all_logged, ?_⟩
  have hip : smallSb.inode smallMachine.view 1 = smallFile := small_inode_one
  have hrun : tornByte (writei smallSb smallFile (.user onePage) 4094 0 4 smallMachine) = true := by
    decide
  rw [hip]
  cases hres : writei smallSb smallFile (.user onePage) 4094 0 4 smallMachine with
  | error e m' =>
    rw [hres] at hrun
    cases hrun
  | ok r m' =>
    rw [hres] at hrun
    obtain ⟨hmem, hview, hdisk⟩ := of_decide_eq_true hrun
    refine ⟨r, m', rfl, ?_⟩
    intro hall
    have heq := Machine.allLogged_iff.mp hall 35 hmem
    change m'.view 35 = m'.disk 35 at heq
    rw [heq, hdisk] at hview
    exact absurd hview (by decide)

/-- Whether a call returns. -/
def returns {α : Type} : EStateM.Result Fault Machine α → Bool
  | .ok _ _ => true
  | .error _ _ => false

theorem exists_of_returns {α : Type} {x : EStateM.Result Fault Machine α} (h : returns x = true) :
  ∃ r m', x = .ok r m'
  := by
  cases x with
  | ok r m' => exact ⟨r, m', rfl⟩
  | error e m' => cases h

/-- The same write from a source that can be read. -/
theorem writei_all_logged_small :
  ∃ r m', writei smallSb (smallSb.inode smallMachine.view 1) (.user onePage) 16 0 4 smallMachine
    = .ok r m' ∧ m'.AllLogged
  := by
  have hip : smallSb.inode smallMachine.view 1 = smallFile := small_inode_one
  have hrun : returns (writei smallSb smallFile (.user onePage) 16 0 4 smallMachine) = true := by
    decide
  obtain ⟨r, m', hres⟩ := exists_of_returns hrun
  rw [← hip] at hres
  have hiff := writei_all_logged small_consistent (small_live.mpr rfl) small_contiguous
    small_all_logged (by decide) ⟨r, m', hres⟩
  refine ⟨r, m', hres, hiff.mpr ?_ (fun _ => false) r m' hres⟩
  intro ht
  have hshort : (Source.user onePage).readable 16 4 < 4 := ht.short
  revert hshort
  decide

end Xv6
