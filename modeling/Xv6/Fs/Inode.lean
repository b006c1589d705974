import Xv6.Fs.Consistent

/-!
# The blocks of an inode

`iupdate` copies an inode to the disk, `bmap` finds the block that holds a part of a file and
allocates it if there is none, and `itrunc` frees all blocks of an inode.  An inode is
passed to these functions and returned by them when they change it.
-/

namespace Xv6

open Machine Stop Superblock Function

/-- `iupdate`: copy a modified in-memory inode to disk. -/
def iupdate (sb : Superblock) (ip : Inode) : Kernel Unit := do
  let data ← bread (sb.iblock ip.inum)
  fill (sb.iblock ip.inum) (ip.store data)
  logWrite (sb.iblock ip.inum)
  brelse (sb.iblock ip.inum)

/-- The part of `bmap` that looks into the indirect block. -/
def bmapIndirect (sb : Superblock) (ip : Inode) (l : Fin NINDIRECT) : Kernel (ℕ × Inode) := do
  let a ← bread ip.indirect
  if entry a l = 0 then
    let addr ← balloc sb
    if addr ≠ 0 then
      fill ip.indirect (a.store (4 * l) 4 addr)
      logWrite ip.indirect
    brelse ip.indirect
    return (addr, ip)
  else
    brelse ip.indirect
    return (entry a l, ip)

/-- `bmap`: the disk block address of the nth block in an inode.  If there is no such block,
it allocates one, and it returns `0` if out of disk space. -/
def bmap (sb : Superblock) (ip : Inode) (bn : ℕ) : Kernel (ℕ × Inode) := do
  if bn < NDIRECT then
    if ip.addrs (Fin.ofNat _ bn) = 0 then
      let addr ← balloc sb
      if addr = 0 then return (0, ip)
      else return (addr, ip.setAddr (Fin.ofNat _ bn) addr)
    else return (ip.addrs (Fin.ofNat _ bn), ip)
  else if bn - NDIRECT < NINDIRECT then
    if ip.indirect = 0 then
      let addr ← balloc sb
      if addr = 0 then return (0, ip)
      else bmapIndirect sb (ip.setAddr (Fin.last NDIRECT) addr) (Fin.ofNat _ (bn - NDIRECT))
    else bmapIndirect sb ip (Fin.ofNat _ (bn - NDIRECT))
  else panic "bmap: out of range"

/-- `itrunc`: truncate an inode. -/
def itrunc (sb : Superblock) (ip : Inode) : Kernel Inode := do
  let ip ← (List.finRange NDIRECT).foldlM (fun ip k => do
    if ip.addrs k.castSucc ≠ 0 then
      bfree sb (ip.addrs k.castSucc)
      return ip.setAddr k.castSucc 0
    else return ip) ip
  let ip ← if ip.indirect ≠ 0 then do
      let a ← bread ip.indirect
      (List.finRange NINDIRECT).forM fun j => do
        if entry a j ≠ 0 then bfree sb (entry a j)
      brelse ip.indirect
      bfree sb ip.indirect
      pure (ip.setAddr (Fin.last NDIRECT) 0)
    else pure ip
  let ip := ip.setSize 0
  iupdate sb ip
  return ip

/-! ### Filling cells -/

/-- The blocks outside the log are as they were. -/
structure Logs (o o' : Obs) : Prop where
  disk : o'.disk = o.disk
  recycle : o'.recycle = o.recycle
  mem : ∀ b ∈ o.lh, b ∈ o'.lh
  view : ∀ b ∉ o'.lh, o'.view b = o.view b

namespace Logs

variable {o o₁ o₂ : Obs}

theorem refl (o : Obs) : Logs o o := ⟨rfl, rfl, fun _ hb => hb, fun _ _ => rfl⟩

theorem trans (h₁ : Logs o o₁) (h₂ : Logs o₁ o₂) : Logs o o₂ := by
  refine ⟨h₂.disk.trans h₁.disk, h₂.recycle.trans h₁.recycle, ?_, ?_⟩
  · intro b hb
    apply h₂.mem b (h₁.mem b hb)
  · intro b hb
    rw [h₂.view b hb, h₁.view b (fun hb' => hb (h₂.mem b hb'))]

theorem log (o : Obs) (b : ℕ) (data : Block) : Logs o (o.log b data) := by
  refine ⟨rfl, rfl, ?_, ?_⟩
  · intro c hc
    exact Obs.mem_log_lh.mpr (Or.inl hc)
  · intro c hc
    apply update_of_ne
    rintro rfl
    exact hc (Obs.mem_log_lh.mpr (Or.inr rfl))

theorem alloc (sb : Superblock) (o : Obs) (r : ℕ) : Logs o (o.alloc sb r) :=
  (log o _ _).trans (log _ _ _)

end Logs

/-- At most the cells of the inode `i` have changed. -/
structure Touched (sb : Superblock) (i : ℕ) (o : Obs) (f : ℕ → Inode) (o' : Obs) (f' : ℕ → Inode) :
    Prop where
  consistent : Consistent sb o' f'
  inode : ∀ j < sb.ninodes, sb.inode o'.view j = sb.inode o.view j
  other : ∀ j, j ≠ i → f' j = f j
  same : f' i = { f i with addrs := (f' i).addrs }
  frame : ∀ q, q.inum ≠ i → sb.cell o'.view f' q = sb.cell o.view f q

/-- Empty cells of the inode `i` may have got blocks. -/
structure Grown (sb : Superblock) (i : ℕ) (o : Obs) (f : ℕ → Inode) (o' : Obs) (f' : ℕ → Inode) :
    Prop extends Touched sb i o f o' f' where
  cells : ∀ q, sb.cell o.view f q ≠ 0 → sb.cell o'.view f' q = sb.cell o.view f q

/-- The cell `q` of the inode `i` is found to contain a block, or an attempt was made to
allocate one for it.  At most the indirect block is allocated besides. -/
structure Mapped (sb : Superblock) (i : ℕ) (q : Cell) (o : Obs) (f : ℕ → Inode) (addr : ℕ) (o' : Obs)
    (f' : ℕ → Inode) : Prop extends Grown sb i o f o' f' where
  logs : Logs o o'
  cell : sb.cell o'.view f' q = addr
  rest : ∀ p, (∀ j, p ≠ .addr j (Fin.last NDIRECT)) → p ≠ q →
    sb.cell o'.view f' p = sb.cell o.view f p
  fresh : sb.cell o.view f q ≠ 0 ∧ o' = o ∧ f' = f ∨ sb.cell o.view f q = 0 ∧ (addr ≠ 0 → addr ∈ o'.lh)

section Grown

variable {sb : Superblock} {i r addr : ℕ} {q : Cell} {k : Fin (NDIRECT + 1)} {o o₁ o₂ : Obs}
  {f f₁ f₂ : ℕ → Inode}

theorem Touched.refl (h : Consistent sb o f) : Touched sb i o f o f :=
  ⟨h, fun _ _ => rfl, fun _ _ => rfl, rfl, fun _ _ => rfl⟩

theorem Touched.trans (h₁ : Touched sb i o f o₁ f₁) (h₂ : Touched sb i o₁ f₁ o₂ f₂) :
  Touched sb i o f o₂ f₂
  := by
  refine ⟨h₂.consistent, ?_, ?_, ?_, ?_⟩
  · intro j hj
    rw [h₂.inode j hj, h₁.inode j hj]
  · intro j hj
    rw [h₂.other j hj, h₁.other j hj]
  · rw [h₂.same, h₁.same]
  · intro q hq
    rw [h₂.frame q hq, h₁.frame q hq]

theorem Touched.live (h : Touched sb i o f o₁ f₁) {j : ℕ} : sb.Live f₁ j ↔ sb.Live f j := by
  unfold Live
  by_cases hj : j = i
  · subst hj
    rw [h.same]
  · rw [h.other j hj]

/-- An address of the inode is changed, and with it one cell. -/
theorem Touched.setAddr
    (hcons : Consistent sb o₁ (update f i ((f i).setAddr k r)))
    (hinode : ∀ j < sb.ninodes, sb.inode o₁.view j = sb.inode o.view j)
    (hcell : sb.cell o₁.view (update f i ((f i).setAddr k r))
      = update (sb.cell o.view f) (.addr i k) r) :
  Touched sb i o f o₁ (update f i ((f i).setAddr k r))
  := by
  refine ⟨hcons, hinode, ?_, ?_, ?_⟩
  · intro j hj
    exact update_of_ne hj _ _
  · rw [update_self]
    rfl
  · intro q hq
    rw [hcell, update_of_ne]
    rintro rfl
    exact hq rfl

theorem Grown.refl (h : Consistent sb o f) : Grown sb i o f o f := ⟨Touched.refl h, fun _ _ => rfl⟩

theorem Grown.trans (h₁ : Grown sb i o f o₁ f₁) (h₂ : Grown sb i o₁ f₁ o₂ f₂) :
  Grown sb i o f o₂ f₂
  := by
  refine ⟨h₁.toTouched.trans h₂.toTouched, ?_⟩
  intro q hq
  have hq₁ := h₁.cells q hq
  rw [h₂.cells q (hq₁ ▸ hq), hq₁]

/-- An empty cell of the inode has got a block. -/
theorem Grown.set (h : Touched sb i o f o₁ f₁) (hq : sb.cell o.view f q = 0)
    (hcell : sb.cell o₁.view f₁ = update (sb.cell o.view f) q r) :
  Grown sb i o f o₁ f₁
  := by
  refine ⟨h, ?_⟩
  intro p hp
  rw [hcell, update_of_ne]
  rintro rfl
  exact hp hq

/-- A block was allocated for an empty entry of `addrs[]`. -/
theorem Grown.alloc_addr
    (h : Consistent sb o f) (hr : r < sb.size) (hclear : sb.bit o.view r = false) (hi : sb.Live f i)
    (h0 : (f i).addrs k = 0) (hlen : (o.alloc sb r).lh.length ≤ LOGBLOCKS) :
  Grown sb i o f (o.alloc sb r) (update f i ((f i).setAddr k r))
  := by
  obtain ⟨hcons, hcell⟩ := h.alloc_addr hr hclear hi h0 hlen
  apply Grown.set _ ((cell_addr hi k).trans h0) hcell
  exact Touched.setAddr hcons (fun _ hj => h.inode_alloc hr hclear hj) hcell

/-- An empty cell that holds no indirect block has got a block. -/
theorem Mapped.set
    (h : Touched sb i o f o₁ f₁) (hlogs : Logs o o₁) (hq : sb.cell o.view f q = 0)
    (hcell : sb.cell o₁.view f₁ = update (sb.cell o.view f) q r) (hmem : r ∈ o₁.lh) :
  Mapped sb i q o f r o₁ f₁
  := by
  refine ⟨Grown.set h hq hcell, hlogs, ?_, ?_, Or.inr ⟨hq, fun _ => hmem⟩⟩
  · rw [hcell, update_self]
  · intro p _ hp
    rw [hcell, update_of_ne hp]

section

variable (h : Consistent sb o f) (hq : ∀ j, q ≠ .addr j (Fin.last NDIRECT))
  (h0 : sb.cell o.view f q ≠ 0)

include h hq h0

/-- The block in a cell for data is changed and logged. -/
theorem Grown.log_cell {data : Block}
    (hlen : (o.log (sb.cell o.view f q) data).lh.length ≤ LOGBLOCKS) :
  Grown sb i o f (o.log (sb.cell o.view f q) data) f
  := by
  have hdata := h.owned.data h0
  obtain ⟨hcons, hcell⟩ := h.log_data hdata (h.indirect_ne_of_cell hq h0) hlen
  refine ⟨⟨hcons, ?_, fun _ _ => rfl, rfl, fun _ _ => by rw [hcell]⟩, fun _ _ => by rw [hcell]⟩
  intro j hj
  exact h.layout.inode_update_data hdata hj

/-- The buffer of the block in a cell for data is changed or recycled. -/
theorem Grown.setView_cell (data : Block) :
  Grown sb i o f (o.setView (sb.cell o.view f q) data) f
    ∧ sb.cell (o.setView (sb.cell o.view f q) data).view f = sb.cell o.view f
  := by
  have hdata := h.owned.data h0
  obtain ⟨hcons, hcell⟩ := h.setView_data hdata (h.indirect_ne_of_cell hq h0)
  refine ⟨⟨⟨hcons, ?_, fun _ _ => rfl, rfl, fun _ _ => by rw [hcell]⟩, fun _ _ => by rw [hcell]⟩, hcell⟩
  intro j hj
  exact h.layout.inode_update_data hdata hj

end

/-- The cell contains a block. -/
theorem Mapped.hit (h : Consistent sb o f) (hq : sb.cell o.view f q ≠ 0) :
  Mapped sb i q o f (sb.cell o.view f q) o f
  := ⟨Grown.refl h, Logs.refl o, rfl, fun _ _ _ => rfl, Or.inl ⟨hq, rfl, rfl⟩⟩

/-- There is no block to be had. -/
theorem Mapped.full (h : Consistent sb o f) (hq : sb.cell o.view f q = 0) :
  Mapped sb i q o f 0 o f
  := ⟨Grown.refl h, Logs.refl o, hq, fun _ _ _ => rfl, Or.inr ⟨hq, fun h => absurd rfl h⟩⟩

/-- The indirect block was allocated before. -/
theorem Mapped.after
    (h₁ : Grown sb i o f o₁ f₁) (hlogs : Logs o o₁) (hq : sb.cell o.view f q = 0)
    (hcells : ∀ p, (∀ j, p ≠ .addr j (Fin.last NDIRECT)) →
      sb.cell o₁.view f₁ p = sb.cell o.view f p)
    (hq' : ∀ j, q ≠ .addr j (Fin.last NDIRECT)) (h₂ : Mapped sb i q o₁ f₁ addr o₂ f₂) :
  Mapped sb i q o f addr o₂ f₂
  := by
  refine ⟨h₁.trans h₂.toGrown, hlogs.trans h₂.logs, h₂.cell, ?_, Or.inr ⟨hq, ?_⟩⟩
  · intro p hp hpq
    rw [h₂.rest p hp hpq, hcells p hp]
  · rcases h₂.fresh with ⟨hne, _⟩ | ⟨_, hmem⟩
    · rw [hcells q hq'] at hne
      exact absurd hq hne
    · exact hmem

end Grown

/-! ### Emptying cells -/

/-- The entries below `j` of the indirect block of the inode `i` count as empty. -/
def dropEntries (i j : ℕ) (cell : Cell → ℕ) : Cell → ℕ
  | .addr i' k => cell (.addr i' k)
  | .entry i' l => if i' = i ∧ l.val < j then 0 else cell (.entry i' l)

theorem dropEntries_addr (i j : ℕ) (cell : Cell → ℕ) (i' : ℕ) (k : Fin (NDIRECT + 1)) :
  dropEntries i j cell (.addr i' k) = cell (.addr i' k) := rfl

theorem dropEntries_zero (i : ℕ) (cell : Cell → ℕ) : dropEntries i 0 cell = cell := by
  funext q
  cases q <;> simp [dropEntries]

theorem dropEntries_succ (i : ℕ) (l : Fin NINDIRECT) (cell : Cell → ℕ) :
  dropEntries i (l + 1) cell = update (dropEntries i l cell) (.entry i l) 0
  := by
  funext q
  cases q with
  | addr i' k => simp [dropEntries]
  | entry i' l' =>
    by_cases heq : Cell.entry i' l' = .entry i l
    · obtain ⟨rfl, rfl⟩ := Cell.entry.inj heq
      simp [dropEntries]
    · rw [update_of_ne heq]
      simp only [Cell.entry.injEq, not_and] at heq
      by_cases hi : i' = i
      · have hne : l'.val ≠ l.val := Fin.val_ne_of_ne (heq hi)
        have hiff : l'.val < l.val + 1 ↔ l'.val < l.val := by omega
        simp only [dropEntries, hiff]
      · simp [dropEntries, hi]

/-- Without the indirect block there are no entries. -/
theorem cell_clearIndirect {sb : Superblock} {view : ℕ → Block} {f : ℕ → Inode} {i : ℕ}
    (hi : sb.Live f i) :
  sb.cell view (update f i ((f i).setAddr (Fin.last NDIRECT) 0))
    = update (dropEntries i NINDIRECT (sb.cell view f)) (.addr i (Fin.last NDIRECT)) 0
  := by
  funext q
  cases q with
  | addr j k =>
    by_cases hj : j = i
    · subst hj
      by_cases hk : k = Fin.last NDIRECT
      · subst hk
        simp [cell, hi]
      · simp [cell, hi, hk, dropEntries]
    · simp [cell, hj, dropEntries]
  | entry j l =>
    have hl : l.val < NINDIRECT := l.isLt
    by_cases hj : j = i
    · subst hj
      simp [cell, Inode.setAddr_last_indirect, dropEntries, hl]
    · simp [cell, hj, dropEntries]

/-- While `itrunc` frees the blocks listed in an indirect block, which it does not change. -/
structure Emptying (sb : Superblock) (f : ℕ → Inode) (i : ℕ) (o₀ : Obs) (j : ℕ) (o : Obs) : Prop where
  layout : sb.Layout o.start
  owned : Owned sb o.view (dropEntries i j (sb.cell o₀.view f))
  cells : sb.cell o.view f = sb.cell o₀.view f
  cached : Cached sb o (sb.Tight f)
  length : o.lh.length ≤ LOGBLOCKS
  inode : ∀ j < sb.ninodes, sb.inode o.view j = sb.inode o₀.view j

section Emptying

variable {sb : Superblock} {i b j : ℕ} {l : Fin NINDIRECT} {o o₀ o₁ : Obs} {f : ℕ → Inode}

theorem Emptying.start (h : Consistent sb o f) : Emptying sb f i o 0 o := by
  refine ⟨h.layout, ?_, rfl, h.cached, h.length, fun _ _ => rfl⟩
  rw [dropEntries_zero]
  exact h.owned

/-- An indirect block is a data block. -/
theorem Emptying.data_indirect (h : Emptying sb f i o₀ j o) {i' : ℕ} (hi : sb.Live f i')
    (ha : (f i').indirect ≠ 0) :
  sb.Data (f i').indirect
  := by
  have hcell := (dropEntries_addr i j (sb.cell o₀.view f) i' _).trans (cell_last hi)
  rw [← hcell] at ha ⊢
  exact h.owned.data ha

/-- Clearing the bit of a data block. -/
theorem Emptying.mark (h : Emptying sb f i o₀ j o) (hb : sb.Data b) :
  sb.cell (o.mark sb b false).view f = sb.cell o₀.view f
    ∧ Cached sb (o.mark sb b false) (sb.Tight f)
    ∧ ∀ j < sb.ninodes, sb.inode (o.mark sb b false).view j = sb.inode o₀.view j
  := by
  have hbounds := bblock_bounds (div_le_of_lt hb.2)
  have := h.layout.inodestart_lt
  have := h.layout.bitmap
  refine ⟨?_, ?_, ?_⟩
  · rw [← h.cells]
    apply cell_update
    intro i' hi' ha'
    have := (h.data_indirect hi' ha').1
    omega
  · apply h.cached.log _ (fun _ hc => Or.inl hc)
    constructor
    · omega
    · omega
  · intro j hj
    rw [← h.inode j hj]
    exact h.layout.inode_update hbounds.1 hj

theorem Emptying.free
    (h : Emptying sb f i o₀ l o) (hb : sb.cell o₀.view f (.entry i l) = b) (hb0 : b ≠ 0)
    (hlen : (o.mark sb b false).lh.length ≤ LOGBLOCKS) :
  Emptying sb f i o₀ (l + 1) (o.mark sb b false)
  := by
  have hq : dropEntries i l (sb.cell o₀.view f) (.entry i l) = b := by
    rw [← hb]
    simp [dropEntries]
  have hdata : sb.Data b := hq ▸ h.owned.data (hq ▸ hb0)
  obtain ⟨hcells, hcached, hinode⟩ := h.mark hdata
  refine ⟨h.layout, ?_, hcells, hcached, hlen, hinode⟩
  rw [dropEntries_succ]
  exact h.owned.free hq hb0 (fun _ => bit_mark)

theorem Emptying.skip (h : Emptying sb f i o₀ l o) (hb : sb.cell o₀.view f (.entry i l) = 0) :
  Emptying sb f i o₀ (l + 1) o
  := by
  refine ⟨h.layout, ?_, h.cells, h.cached, h.length, h.inode⟩
  have hq : dropEntries i l (sb.cell o₀.view f) (.entry i l) = 0 := by
    simp [dropEntries, hb]
  rw [dropEntries_succ, ← hq, update_eq_self]
  exact h.owned

theorem Emptying.bit_eq (h : Emptying sb f i o₀ l o) (hb : sb.cell o₀.view f (.entry i l) ≠ 0) :
  sb.bit o.view (sb.cell o₀.view f (.entry i l)) = true
  := by
  have hq : dropEntries i l (sb.cell o₀.view f) (.entry i l) = sb.cell o₀.view f (.entry i l) := by
    simp [dropEntries]
  rw [← hq] at hb ⊢
  exact h.owned.bit_eq hb

theorem Emptying.bit_indirect (h : Emptying sb f i o₀ j o) (hi : sb.Live f i)
    (ha : (f i).indirect ≠ 0) :
  sb.bit o.view (f i).indirect = true
  := by
  have hcell := (dropEntries_addr i j (sb.cell o₀.view f) i _).trans (cell_last hi)
  rw [← hcell] at ha ⊢
  exact h.owned.bit_eq ha

/-- At last the indirect block is freed. -/
theorem Emptying.finish
    (h : Emptying sb f i o₀ NINDIRECT o) (hwf : sb.Inodes f) (hi : sb.Live f i)
    (ha : (f i).indirect ≠ 0) (hlen : (o.mark sb (f i).indirect false).lh.length ≤ LOGBLOCKS) :
  Touched sb i o₀ f (o.mark sb (f i).indirect false)
    (update f i ((f i).setAddr (Fin.last NDIRECT) 0))
  := by
  have hdata := h.data_indirect hi ha
  obtain ⟨hcells, hcached, hinode⟩ := h.mark hdata
  have hcell : sb.cell (o.mark sb (f i).indirect false).view
      (update f i ((f i).setAddr (Fin.last NDIRECT) 0))
      = update (dropEntries i NINDIRECT (sb.cell o₀.view f)) (.addr i (Fin.last NDIRECT)) 0 := by
    rw [← hcells]
    exact cell_clearIndirect hi
  refine ⟨⟨h.layout, ?_, ?_, ?_, hlen⟩, hinode, ?_, ?_, ?_⟩
  · rw [hcell]
    exact h.owned.free ((dropEntries_addr _ _ _ _ _).trans (cell_last hi)) ha (fun _ => bit_mark)
  · apply hwf.update
    intro hlt
    exact ⟨(hwf i hlt).1.setAddr _ (by decide), (hwf i hlt).2⟩
  · refine ⟨hcached.pinned, ?_, hcached.range, hcached.nodup⟩
    rintro c (hc | ⟨hc0, j, hj, rfl⟩)
    · exact hcached.settled c (Or.inl hc)
    · rw [live_setAddr] at hj
      by_cases hji : j = i
      · subst hji
        rw [update_self, Inode.setAddr_last_indirect] at hc0
        exact absurd rfl hc0
      · rw [update_of_ne hji] at hc0 ⊢
        exact hcached.settled _ (Or.inr ⟨hc0, j, hj, rfl⟩)
  · intro j hj
    exact update_of_ne hj _ _
  · rw [update_self]
    rfl
  · intro q hq
    rw [hcell, update_of_ne]
    · cases q with
      | addr i' k => rfl
      | entry i' l => exact if_neg (fun hdrop => hq hdrop.1)
    · rintro rfl
      exact hq rfl

end Emptying

/-! ### Copying an inode to the disk -/

/-- At most the cells of the inode `i` have changed, and its copy on the disk is up to date. -/
structure Saved (sb : Superblock) (i : ℕ) (o : Obs) (f : ℕ → Inode) (o' : Obs) (f' : ℕ → Inode) :
    Prop where
  consistent : Consistent sb o' f'
  inode : ∀ j < sb.ninodes, sb.inode o'.view j = update (sb.inode o.view) i (f' i) j
  other : ∀ j, j ≠ i → f' j = f j
  frame : ∀ q, q.inum ≠ i → sb.cell o'.view f' q = sb.cell o.view f q

/-- The same inodes, but for one that is replaced. -/
theorem update_eq_of_other {f f' : ℕ → Inode} {i : ℕ} {ip : Inode} (h : ∀ j, j ≠ i → f' j = f j) :
  update f' i ip = update f i ip
  := by
  funext j
  by_cases hj : j = i
  · rw [hj, update_self, update_self]
  · rw [update_of_ne hj, update_of_ne hj, h j hj]

section Saved

variable {sb : Superblock} {i : ℕ} {o o₁ o₂ : Obs} {f f₁ f₂ : ℕ → Inode}

theorem Touched.saved (h₁ : Touched sb i o f o₁ f₁) (h₂ : Saved sb i o₁ f₁ o₂ f₂) :
  Saved sb i o f o₂ f₂
  := by
  refine ⟨h₂.consistent, ?_, ?_, ?_⟩
  · intro j hj
    rw [h₂.inode j hj]
    by_cases hji : j = i
    · subst hji
      rw [update_self, update_self]
    · rw [update_of_ne hji, update_of_ne hji, h₁.inode j hj]
  · intro j hj
    rw [h₂.other j hj, h₁.other j hj]
  · intro q hq
    rw [h₂.frame q hq, h₁.frame q hq]

theorem Saved.refl (h : Consistent sb o (sb.inode o.view)) :
  Saved sb i o (sb.inode o.view) o (sb.inode o.view)
  := by
  refine ⟨h, ?_, fun _ _ => rfl, fun _ _ => rfl⟩
  intro j _
  rw [update_eq_self]

theorem Saved.trans (h₁ : Saved sb i o f o₁ f₁) (h₂ : Saved sb i o₁ f₁ o₂ f₂) :
  Saved sb i o f o₂ f₂
  := by
  refine ⟨h₂.consistent, ?_, ?_, ?_⟩
  · intro j hj
    rw [h₂.inode j hj]
    by_cases hji : j = i
    · subst hji
      rw [update_self, update_self]
    · rw [update_of_ne hji, update_of_ne hji, h₁.inode j hj,
        update_of_ne hji]
  · intro j hj
    rw [h₂.other j hj, h₁.other j hj]
  · intro q hq
    rw [h₂.frame q hq, h₁.frame q hq]

/-- An inode whose cells are the same as before is copied to its block. -/
theorem Consistent.saved {ip : Inode} (hset : Consistent sb o (update f i ip))
    (hcell : sb.cell o.view (update f i ip) = sb.cell o.view f) (hi : i < sb.ninodes)
    (hlen : (o.log (sb.iblock i) (ip.store (o.view (sb.iblock i)))).lh.length ≤ LOGBLOCKS) :
  Saved sb i o f (o.log (sb.iblock i) (ip.store (o.view (sb.iblock i)))) (update f i ip)
    ∧ sb.cell (o.log (sb.iblock i) (ip.store (o.view (sb.iblock i)))).view (update f i ip)
      = sb.cell o.view f
  := by
  have hip : update f i ip i = ip := by rw [update_self]
  have hiupdate := hset.iupdate hi
  have hinode := hset.inode_iupdate hi
  rw [hip] at hiupdate hinode
  obtain ⟨hcons', hcell'⟩ := hiupdate hlen
  refine ⟨⟨hcons', ?_, fun j hj => update_of_ne hj _ _, ?_⟩, hcell'.trans hcell⟩
  · intro j _
    rw [Obs.log_view, hinode, hip]
  · intro q _
    rw [hcell', hcell]

end Saved

/-! ### Blocks that are left alone -/

/-- What is found in a block is as before, and its buffer has no fewer references. -/
structure Spared (o o' : Obs) (b : ℕ) : Prop where
  view : o'.view b = o.view b
  refs : o.refs b ≤ o'.refs b

namespace Spared

variable {o o₁ o₂ : Obs} {b : ℕ}

theorem refl (o : Obs) (b : ℕ) : Spared o o b := ⟨rfl, Nat.le_refl _⟩

theorem trans (h₁ : Spared o o₁ b) (h₂ : Spared o₁ o₂ b) : Spared o o₂ b :=
  ⟨h₂.view.trans h₁.view, Nat.le_trans h₁.refs h₂.refs⟩

theorem log {c : ℕ} (hb : b ≠ c) (data : Block) : Spared o (o.log c data) b :=
  ⟨update_of_ne hb _ _, Obs.le_log_refs b⟩

theorem alloc {sb : Superblock} {r : ℕ} (hb : b ≠ sb.bblock r) (hr : b ≠ r) :
  Spared o (o.alloc sb r) b
  := (log hb _).trans (log hr _)

theorem settled (h : Spared o o₁ b) (hdisk : o₁.disk = o.disk) (hs : o.Settled b) :
  o₁.Settled b
  := by
  refine hs.imp (fun hpos => Nat.lt_of_lt_of_le hpos h.refs) fun heq => ?_
  rw [h.view, hdisk, heq]

end Spared

/-- A data block in use that is no indirect block. -/
structure Superblock.Content (sb : Superblock) (o : Obs) (f : ℕ → Inode) (b : ℕ) : Prop where
  data : sb.Data b
  bit : sb.bit o.view b = true
  indirect : ∀ j, sb.Live f j → (f j).indirect ≠ b

/-- There is no block left. -/
def Superblock.NoFree (sb : Superblock) (o : Obs) : Prop := ∀ c < sb.size, sb.bit o.view c = true

/-- Besides what `bmap` does for the cell `q`: it leaves the blocks of files alone, it returns `0`
only if there is no block left, and for a direct block it leaves the indirect block alone. -/
structure Bmapped (sb : Superblock) (i : ℕ) (q : Cell) (o : Obs) (f : ℕ → Inode) (addr : ℕ) (o' : Obs)
    (f' : ℕ → Inode) : Prop extends Mapped sb i q o f addr o' f' where
  spared : ∀ b, sb.Content o f b → Spared o o' b
  full : addr = 0 → sb.NoFree o'
  direct : ∀ k, q = .addr i k → (f' i).indirect = (f i).indirect

section Spared

variable {sb : Superblock} {o : Obs} {f : ℕ → Inode} {i b r : ℕ} {q : Cell}

theorem Consistent.content (h : Consistent sb o f) {q : Cell}
    (hq : ∀ j, q ≠ .addr j (Fin.last NDIRECT)) (h0 : sb.cell o.view f q ≠ 0) :
  sb.Content o f (sb.cell o.view f q)
  := ⟨h.owned.data h0, h.owned.bit_eq h0, h.indirect_ne_of_cell hq h0⟩

/-- Allocating another block leaves a block in use alone. -/
theorem Superblock.Content.alloc (hb : sb.Content o f b) (hr : r < sb.size)
    (hclear : sb.bit o.view r = false) :
  b ≠ r ∧ Spared o (o.alloc sb r) b
  := by
  have hne : b ≠ r := by
    rintro rfl
    rw [hb.bit] at hclear
    cases hclear
  have hmap : b ≠ sb.bblock r := by
    have := (bblock_bounds (div_le_of_lt hr)).2
    have := hb.data.1
    omega
  exact ⟨hne, Spared.alloc hmap hne⟩

/-- The block is in use as before when another one becomes the indirect block of an inode. -/
theorem Superblock.Content.setIndirect (hb : sb.Content o f b) (hcons : Consistent sb o f)
    (hr : r < sb.size) (hclear : sb.bit o.view r = false) :
  sb.Content (o.alloc sb r) (update f i ((f i).setAddr (Fin.last NDIRECT) r)) b
  := by
  have hne := (hb.alloc hr hclear).1
  refine ⟨hb.data, ?_, ?_⟩
  · rw [hcons.bit_alloc hr hclear b (div_le_of_lt hb.data.2), if_neg hne]
    exact hb.bit
  · intro j hj
    rw [live_setAddr] at hj
    by_cases hji : j = i
    · subst hji
      rw [update_self, Inode.setAddr_last_indirect]
      exact hne.symm
    · rw [update_of_ne hji]
      exact hb.indirect j hj

theorem Bmapped.hit (h : Consistent sb o f) (hq : sb.cell o.view f q ≠ 0) :
  Bmapped sb i q o f (sb.cell o.view f q) o f
  := ⟨Mapped.hit h hq, fun b _ => Spared.refl o b, fun h0 => absurd h0 hq, fun _ _ => rfl⟩

theorem Bmapped.exhausted (h : Consistent sb o f) (hq : sb.cell o.view f q = 0) (hfull : sb.NoFree o) :
  Bmapped sb i q o f 0 o f
  := ⟨Mapped.full h hq, fun b _ => Spared.refl o b, fun _ => hfull, fun _ _ => rfl⟩

end Spared

/-! ### Specifications -/

section Rules

variable {sb : Superblock} {m : Machine} {o : Obs} {f f' : ℕ → Inode} {i : ℕ}
  {C : Fault → Machine → Prop}

section

variable {ip : Inode} {Q : Unit → Machine → Prop} (hC : Tolerates C) (hm : m.obs = o)

include hC hm

theorem wp_iupdate (hp : o.Pinned)
    (h : ∀ m', m'.obs = o.log (sb.iblock ip.inum) (ip.store (o.view (sb.iblock ip.inum))) →
      m'.obs.lh.length ≤ LOGBLOCKS → Q () m') :
  wp (iupdate sb ip) Q C m
  := by
  simp only [iupdate, wp_bind]
  apply wp_bread_hold hm
  intro m₁ h₁
  apply wp_log_block hC h₁ hp h

/-- The inode is changed, but for its cells, and copied to the disk. -/
theorem wp_iupdate_saved (hcons : Consistent sb o f) (hi : i < sb.ninodes)
    (hfits : ip.Fits) (hinum : ip.inum = i) (htype : ip.type = (f i).type)
    (haddrs : ip.addrs = (f i).addrs)
    (h : ∀ m', Saved sb i o f m'.obs (update f i ip) →
      sb.cell m'.obs.view (update f i ip) = sb.cell o.view f → m'.obs.disk = o.disk →
      (∀ b, sb.Data b → Spared o m'.obs b) → Q () m') :
  wp (iupdate sb ip) Q C m
  := by
  obtain ⟨hset, hcell⟩ := hcons.setFields hfits hinum htype haddrs
  apply wp_iupdate hC hm hcons.pinned
  intro m' hm' hlen
  rw [hinum] at hm'
  rw [hm'] at hlen
  obtain ⟨hsaved, hcell'⟩ := hset.saved hcell hi hlen
  have hspared : ∀ b, sb.Data b →
      Spared o (o.log (sb.iblock i) (ip.store (o.view (sb.iblock i)))) b := by
    intro b hb
    apply Spared.log
    have := (hcons.layout.iblock_bounds hi).2
    have : sb.bmapstart < sb.nmeta := bmapstart_lt
    have := hb.1
    omega
  rw [← hm'] at hsaved hcell' hspared
  exact h m' hsaved hcell' (hm' ▸ rfl) hspared

end

/-- The inode gets a size. -/
theorem wp_iupdate_size {k : ℕ} {Q : Unit → Machine → Prop}
    (hC : Tolerates C) (hm : m.obs = o) (hcons : Consistent sb o f) (hi : i < sb.ninodes) (hk : k < 2 ^ 32)
    (h : ∀ m', Saved sb i o f m'.obs (update f i ((f i).setSize k)) →
      sb.cell m'.obs.view (update f i ((f i).setSize k)) = sb.cell o.view f → m'.obs.disk = o.disk →
      (∀ b, sb.Data b → Spared o m'.obs b) → Q () m') :
  wp (iupdate sb ((f i).setSize k)) Q C m
  := wp_iupdate_saved hC hm hcons hi ((hcons.wf i hi).1.setSize hk) (hcons.wf i hi).2 rfl rfl h

theorem wp_bmapIndirect {l : Fin NINDIRECT} {Q : ℕ × Inode → Machine → Prop}
    (hC : sb.cell o.view f (.entry i l) = 0 → Tolerates C) (hm : m.obs = o) (hcons : Consistent sb o f)
    (hi : sb.Live f i) (ha : (f i).indirect ≠ 0)
    (h : ∀ addr f' m', Bmapped sb i (.entry i l) o f addr m'.obs f' → Q (addr, f' i) m') :
  wp (bmapIndirect sb (f i) l) Q C m
  := by
  have hcell : sb.cell o.view f (.entry i l) = entry (o.view (f i).indirect) l := cell_entry hi ha l
  have hsettled := hcons.settled_indirect hi ha
  rw [bmapIndirect, wp_bind]
  apply wp_bread_hold hm
  intro m₁ h₁
  split_ifs with h0
  · have hC := hC (hcell.trans h0)
    rw [wp_bind]
    apply wp_balloc hC h₁
    · exact hcons.pinned.hold
    · intro b hb
      exact (hcons.settled_bblock hb).hold
    · -- out of disk space
      intro m₂ h₂ hfull
      simp only [ne_eq, not_true_eq_false, if_false, wp_bind, wp_pure]
      apply wp_brelse_hold h₂ hsettled
      intro m₃ h₃
      apply h 0 f
      rw [h₃]
      exact Bmapped.exhausted hcons (hcell.trans h0) hfull
    · intro r m₂ hr hclear h₂ _
      have hr0 : r ≠ 0 := Owned.data_ne_zero (hcons.owned.data_of_clear hr hclear)
      have hold : (o.hold (f i).indirect).alloc sb r = (o.alloc sb r).hold (f i).indirect := by
        simp only [Obs.alloc, Obs.mark, Obs.log_hold, Obs.hold_view]
      rw [hold] at h₂
      rw [if_pos hr0]
      simp only [wp_bind, wp_pure]
      apply wp_log_block hC h₂ (hcons.cached_alloc hr hclear).pinned
      intro m₃ h₃ hlen
      rw [h₃] at hlen
      obtain ⟨hcons', hcell'⟩ := hcons.alloc_entry hr hclear hi ha h0 hlen
      apply h r f
      rw [h₃]
      refine ⟨?_, ?_, fun hzero => absurd hzero hr0, fun _ _ => rfl⟩
      · apply Mapped.set _ ((Logs.alloc sb o r).trans (Logs.log _ _ _)) (hcell.trans h0) hcell'
        · apply Obs.mem_log_lh.mpr
          left
          exact Obs.mem_log_lh.mpr (Or.inr rfl)
        refine ⟨hcons', ?_, fun _ _ => rfl, rfl, ?_⟩
        · intro j hj
          rw [Obs.log_view, ← hcons.inode_alloc hr hclear hj]
          exact hcons.layout.inode_update_data (hcons.data_indirect hi ha) hj
        · intro q hq
          rw [hcell', update_of_ne]
          rintro rfl
          exact hq rfl
      · intro b hb
        exact (hb.alloc hr hclear).2.trans (Spared.log (hb.indirect i hi).symm _)
  · rw [wp_bind]
    apply wp_brelse_hold h₁ hsettled
    intro m₂ h₂
    have hne : sb.cell o.view f (.entry i l) ≠ 0 := hcell ▸ h0
    have hhit := Bmapped.hit (i := i) hcons hne
    rw [hcell] at hhit
    apply h _ f
    rw [h₂]
    exact hhit

theorem wp_bmap {bn : ℕ} {Q : ℕ × Inode → Machine → Prop}
    (hC : sb.cell o.view f (blockCell i bn) = 0 → Tolerates C)
    (hrange : bn < MAXFILE ∨ ∀ m, C (.panic "bmap: out of range") m)
    (hm : m.obs = o) (hcons : Consistent sb o f) (hi : sb.Live f i)
    (h : bn < MAXFILE → ∀ addr f' m', Bmapped sb i (blockCell i bn) o f addr m'.obs f' →
      Q (addr, f' i) m') :
  wp (bmap sb (f i) bn) Q C m
  := by
  have hdirect : bn < NDIRECT → bn < MAXFILE := fun hbn => Nat.lt_of_lt_of_le hbn (Nat.le_add_right _ _)
  have hindirect : ¬ bn < NDIRECT → bn - NDIRECT < NINDIRECT → bn < MAXFILE := by
    unfold MAXFILE
    omega
  have hsettled : ∀ b < sb.size, o.Settled (sb.bblock b) := fun b hb => hcons.settled_bblock hb
  unfold bmap
  split_ifs with hbn h0 hbn' ha
  · -- a direct block that is not there
    have hcell : sb.cell o.view f (blockCell i bn) = 0 := by
      rw [blockCell, if_pos hbn, cell_addr hi, h0]
    rw [wp_bind]
    apply wp_balloc (hC hcell) hm hcons.pinned hsettled
    · intro m₁ h₁ hfull
      rw [if_pos rfl, wp_pure]
      apply h (hdirect hbn) 0 f
      rw [h₁]
      exact Bmapped.exhausted hcons hcell hfull
    · intro r m₁ hr hclear h₁ hlen
      rw [h₁] at hlen
      have hr0 : r ≠ 0 := Owned.data_ne_zero (hcons.owned.data_of_clear hr hclear)
      obtain ⟨hcons', hcell'⟩ := hcons.alloc_addr hr hclear hi h0 hlen
      have hinode := fun j (hj : j < sb.ninodes) => hcons.inode_alloc hr hclear hj
      have hmem : r ∈ (o.alloc sb r).lh := Obs.mem_log_lh.mpr (Or.inr rfl)
      have hmapped := h (hdirect hbn) r (update f i ((f i).setAddr (Fin.ofNat _ bn) r)) m₁
      rw [update_self, h₁] at hmapped
      rw [if_neg hr0, wp_pure]
      apply hmapped
      refine ⟨?_, fun b hb => (hb.alloc hr hclear).2, fun hzero => absurd hzero hr0, fun _ _ => ?_⟩
      · apply Mapped.set (Touched.setAddr hcons' hinode hcell') (Logs.alloc sb o r) hcell _ hmem
        rw [hcell', blockCell, if_pos hbn]
      · rw [update_self]
        apply update_of_ne
        intro heq
        have hval := congrArg Fin.val heq
        rw [Fin.val_ofNat, Nat.mod_eq_of_lt (Nat.lt_succ_of_lt hbn), Fin.val_last] at hval
        omega
  · -- a direct block
    have hcell : sb.cell o.view f (blockCell i bn) = (f i).addrs (Fin.ofNat _ bn) := by
      rw [blockCell, if_pos hbn, cell_addr hi]
    rw [wp_pure, ← hcell]
    apply h (hdirect hbn) _ f
    rw [hm]
    apply Bmapped.hit hcons
    rwa [hcell]
  · -- the indirect block is not there
    have hcell : sb.cell o.view f (blockCell i bn) = 0 := by
      rw [blockCell, if_neg hbn]
      exact if_neg (fun hlive => hlive.2 ha)
    rw [wp_bind]
    apply wp_balloc (hC hcell) hm hcons.pinned hsettled
    · intro m₁ h₁ hfull
      rw [if_pos rfl, wp_pure]
      apply h (hindirect hbn hbn') 0 f
      rw [h₁]
      exact Bmapped.exhausted hcons hcell hfull
    · intro r m₁ hr hclear h₁ hlen
      rw [h₁] at hlen
      have hr0 : r ≠ 0 := Owned.data_ne_zero (hcons.owned.data_of_clear hr hclear)
      obtain ⟨hcons', hcell'⟩ := hcons.alloc_addr hr hclear hi ha hlen
      have hgrown := Grown.alloc_addr hcons hr hclear hi ha hlen
      have hind : (update f i ((f i).setAddr (Fin.last NDIRECT) r) i).indirect ≠ 0 := by
        rw [update_self, Inode.setAddr_last_indirect]
        exact hr0
      have hbmap := wp_bmapIndirect (l := Fin.ofNat _ (bn - NDIRECT)) (Q := Q) (fun _ => hC hcell) h₁
        hcons' (hgrown.live.mpr hi) hind
      rw [update_self] at hbmap
      rw [if_neg hr0]
      apply hbmap
      intro addr f' m' hmapped
      apply h (hindirect hbn hbn')
      rw [blockCell, if_neg hbn] at hcell ⊢
      refine ⟨?_, ?_, hmapped.full, nofun⟩
      · apply Mapped.after hgrown (Logs.alloc sb o r) hcell _ _ hmapped.toMapped
        · intro p hp
          rw [hcell', update_of_ne (hp i)]
        · intro j heq
          cases heq
      · intro b hb
        exact (hb.alloc hr hclear).2.trans (hmapped.spared b (hb.setIndirect hcons hr hclear))
  · -- an indirect block
    rw [blockCell, if_neg hbn] at h hC
    apply wp_bmapIndirect hC hm hcons hi ha
    exact h (hindirect hbn hbn')
  · apply hrange.resolve_left
    unfold MAXFILE
    omega

variable {Q : Inode → Machine → Prop}

/-- The loop of `itrunc` over the direct addresses. -/
theorem wp_freeDirect
    (hC : Tolerates C) (hm : m.obs = o) (hcons : Consistent sb o f) (hi : sb.Live f i)
    (h : ∀ f' m', Touched sb i o f m'.obs f' → (∀ k : Fin NDIRECT, (f' i).addrs k.castSucc = 0) →
    Q (f' i) m') :
  wp ((List.finRange NDIRECT).foldlM (fun (ip : Inode) k => do
    if ip.addrs k.castSucc ≠ 0 then
      bfree sb (ip.addrs k.castSucc)
      return ip.setAddr k.castSucc 0
    else return ip) (f i)) Q C m
  := by
  have hloop : wp ((List.finRange NDIRECT).foldlM (fun (ip : Inode) k => do
      if ip.addrs k.castSucc ≠ 0 then
        bfree sb (ip.addrs k.castSucc)
        return ip.setAddr k.castSucc 0
      else return ip) (f i))
      (fun ip m => ∃ f', f' i = ip ∧ Touched sb i o f m.obs f'
        ∧ ∀ k : Fin NDIRECT, k.val < NDIRECT → ip.addrs k.castSucc = 0) C m := by
    apply wp_foldlM_finRange
      (fun j ip (m : Machine) => ∃ f', f' i = ip ∧ Touched sb i o f m.obs f'
        ∧ ∀ k : Fin NDIRECT, k.val < j → ip.addrs k.castSucc = 0)
    · rintro j _ m ⟨f', rfl, htouched, hzero⟩
      have hi' := htouched.live.mpr hi
      have hlt : ∀ k : Fin NDIRECT, k.val < j.val + 1 → k ≠ j → k.val < j := by
        intro k hk hne
        have := Fin.val_ne_of_ne hne
        omega
      split_ifs with h0
      · have hne : j.castSucc ≠ Fin.last NDIRECT := Fin.castSucc_ne_last j
        rw [wp_bind]
        apply wp_bfree hC rfl htouched.consistent.pinned
        · exact htouched.consistent.bit_addr hi' h0
        · intro m' hm' hlen
          rw [hm'] at hlen
          obtain ⟨hcons', hcell⟩ := htouched.consistent.free_addr hne hi' h0 hlen
          rw [wp_pure, hm']
          refine ⟨_, update_self _ _ _, htouched.trans (Touched.setAddr hcons' ?_ hcell), ?_⟩
          · intro n hn
            have hdata := htouched.consistent.data_addr hi' h0
            exact htouched.consistent.layout.inode_update
              (bblock_bounds (div_le_of_lt hdata.2)).1 hn
          · intro k hk
            rw [Inode.setAddr_addrs]
            by_cases hkj : k = j
            · subst hkj
              rw [update_self]
            · rw [update_of_ne (by simpa using hkj)]
              exact hzero k (hlt k hk hkj)
      · rw [wp_pure]
        refine ⟨f', rfl, htouched, ?_⟩
        intro k hk
        by_cases hkj : k = j
        · subst hkj
          exact not_not.mp h0
        · exact hzero k (hlt k hk hkj)
    · refine ⟨f, rfl, ?_, ?_⟩
      · rw [hm]
        exact Touched.refl hcons
      · intro k hk
        cases hk
  apply wp_mono hloop
  · rintro _ m' ⟨f', rfl, htouched, hzero⟩
    exact h f' m' htouched (fun k => hzero k k.isLt)
  · intro _ _ he
    exact he

/-- The loop of `itrunc` over the indirect block. -/
theorem wp_freeEntries {Q : Unit → Machine → Prop}
    (hC : Tolerates C) (hm : m.obs = o.hold (f i).indirect) (hcons : Consistent sb o f)
    (hi : sb.Live f i) (ha : (f i).indirect ≠ 0)
    (h : ∀ o' m', m'.obs = o'.hold (f i).indirect → Emptying sb f i o NINDIRECT o' → Q () m') :
  wp ((List.finRange NINDIRECT).forM fun j => do
    if entry (o.view (f i).indirect) j ≠ 0 then bfree sb (entry (o.view (f i).indirect) j)) Q C m
  := by
  have hloop : wp ((List.finRange NINDIRECT).forM fun j => do
      if entry (o.view (f i).indirect) j ≠ 0 then bfree sb (entry (o.view (f i).indirect) j))
      (fun _ m => ∃ o', m.obs = o'.hold (f i).indirect ∧ Emptying sb f i o NINDIRECT o') C m := by
    apply wp_forM_finRange
      (fun j (m : Machine) => ∃ o', m.obs = o'.hold (f i).indirect ∧ Emptying sb f i o j o') _
      ⟨o, hm, Emptying.start hcons⟩
    rintro j m ⟨o', hm, hempty⟩
    have hcell : sb.cell o.view f (.entry i j) = entry (o.view (f i).indirect) j :=
      cell_entry hi ha j
    by_cases h0 : entry (o.view (f i).indirect) j = 0
    · rw [if_neg (not_not_intro h0), wp_pure]
      exact ⟨o', hm, hempty.skip (hcell.trans h0)⟩
    · rw [if_pos h0]
      apply wp_bfree hC hm hempty.cached.pinned.hold
      · rw [Obs.hold_view, ← hcell]
        exact hempty.bit_eq (hcell ▸ h0)
      · intro m' hm' hlen
        have hhold : (o'.hold (f i).indirect).mark sb (entry (o.view (f i).indirect) j) false
            = (o'.mark sb (entry (o.view (f i).indirect) j) false).hold (f i).indirect := by
          simp only [Obs.mark, Obs.log_hold, Obs.hold_view]
        rw [hhold] at hm'
        rw [hm'] at hlen
        exact ⟨_, hm', hempty.free hcell h0 hlen⟩
  apply wp_mono hloop
  · rintro _ m' ⟨o', hm', hempty⟩
    exact h o' m' hm' hempty
  · intro _ _ he
    exact he

/-- The inode after `itrunc`. -/
def Inode.truncated (ip : Inode) : Inode := { ip with size := 0, addrs := fun _ => 0 }

theorem Touched.truncated {o' : Obs} (h : Touched sb i o f o' f')
    (hdirect : ∀ k : Fin NDIRECT, (f' i).addrs k.castSucc = 0) (hind : (f' i).indirect = 0) :
  (f' i).setSize 0 = (f i).truncated
  := by
  have haddrs : (f' i).addrs = fun _ => 0 := by
    funext k
    induction k using Fin.lastCases with
    | last => exact hind
    | cast k => exact hdirect k
  rw [h.same, haddrs]
  rfl

/-- The end of `itrunc`, when all addresses are zero. -/
theorem wp_itrunc_end (hC : Tolerates C) (hi : sb.Live f i) (htouched : Touched sb i o f m.obs f')
    (hip : (f' i).setSize 0 = (f i).truncated)
    (h : ∀ m', Saved sb i o f m'.obs (update f i (f i).truncated) → Q (f i).truncated m') :
  wp (do iupdate sb ((f' i).setSize 0); return (f' i).setSize 0) Q C m
  := by
  have hwf := htouched.consistent.wf i hi.1
  have hfits : ((f' i).setSize 0).Fits := hwf.1.setSize (by decide)
  rw [hip] at hfits ⊢
  have htype : (f i).truncated.type = (f' i).type := by rw [← hip]; rfl
  have haddrs : (f i).truncated.addrs = (f' i).addrs := by rw [← hip]; rfl
  have hinum : (f i).truncated.inum = i := by rw [← hip]; exact hwf.2
  rw [wp_bind]
  apply wp_iupdate_saved (f := f') hC rfl htouched.consistent hi.1 hfits hinum htype haddrs
  intro m' hsaved _ _ _
  rw [update_eq_of_other htouched.other] at hsaved
  exact h m' (htouched.saved hsaved)

theorem wp_itrunc
    (hC : Tolerates C) (hm : m.obs = o) (hcons : Consistent sb o f) (hi : sb.Live f i)
    (h : ∀ m', Saved sb i o f m'.obs (update f i (f i).truncated) → Q (f i).truncated m') :
  wp (itrunc sb (f i)) Q C m
  := by
  unfold itrunc
  rw [wp_bind]
  apply wp_freeDirect hC hm hcons hi
  intro f₁ m₁ h₁ hdirect
  have hi₁ := h₁.live.mpr hi
  dsimp only
  split_ifs with ha
  · simp only [wp_bind, wp_pure]
    apply wp_bread_hold rfl
    intro m₂ h₂
    apply wp_freeEntries hC h₂ h₁.consistent hi₁ ha
    intro o₃ m₃ h₃ hempty
    apply wp_brelse_hold h₃
    · exact hempty.cached.settled _ (Or.inr ⟨ha, i, hi₁, rfl⟩)
    intro m₄ h₄
    have hbit : sb.bit o₃.view (f₁ i).indirect = true := hempty.bit_indirect hi₁ ha
    apply wp_bfree hC h₄ hempty.cached.pinned hbit
    intro m₅ h₅ hlen
    rw [h₅] at hlen
    have hfinish := hempty.finish h₁.consistent.wf hi₁ ha hlen
    rw [← h₅] at hfinish
    have hzero : ∀ k : Fin NDIRECT, (update f₁ i ((f₁ i).setAddr (Fin.last NDIRECT) 0) i).addrs
        k.castSucc = 0 := by
      intro k
      rw [update_self, Inode.setAddr_addrs, update_of_ne (Fin.castSucc_ne_last k)]
      exact hdirect k
    have hind : (update f₁ i ((f₁ i).setAddr (Fin.last NDIRECT) 0) i).indirect = 0 := by
      rw [update_self, Inode.setAddr_last_indirect]
    have htouched := h₁.trans hfinish
    have hend := wp_itrunc_end hC hi htouched (htouched.truncated hzero hind) h
    simp only [update_self, wp_bind, wp_pure] at hend
    exact hend
  · rw [wp_bind, wp_pure]
    exact wp_itrunc_end hC hi h₁ (h₁.truncated hdirect (not_not.mp ha)) h

end Rules

end Xv6
