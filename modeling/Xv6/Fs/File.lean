import Xv6.Fs.Inode

/-!
# Reading and writing files

`writei` copies bytes to the blocks of an inode and `readi` copies them from there, block by
block.  The bytes to be written are in the memory of the kernel or in that of a user
process, where `copyin` takes them page by page and fails at a page that is not there.
-/

namespace Xv6

open Machine Stop Superblock Function

/-! ### Copying from the user -/

/-- The memory of a process as `copyin` finds it: the contents of the page at a virtual
address, which `walkaddr` has or `vmfault` makes, if there is one. -/
structure UserPages where
  page : ℕ → Option (ℕ → UInt8)
  lt : ∀ va, (page va).isSome → va < MAXVA

/-- `PGROUNDDOWN` -/
def pgRoundDown (a : ℕ) : ℕ := a - a % PGSIZE

/-- The loop of `copyin`. -/
def copyinLoop (u : UserPages) : ℕ → Block → ℕ → ℕ → ℕ → Block × Bool
  | 0, dst, _, _, _ => (dst, true)
  | fuel + 1, dst, off, srcva, len =>
    if 0 < len then
      match u.page (pgRoundDown srcva) with
      | none => (dst, false)
      | some mem =>
        let n := min (PGSIZE - (srcva - pgRoundDown srcva)) len
        copyinLoop u fuel (dst.patch off n (fun k => mem (srcva - pgRoundDown srcva + k))) (off + n)
          (pgRoundDown srcva + PGSIZE) (len - n)
    else (dst, true)

/-- `copyin`: copy from user to kernel.  A page is only there below `MAXVA`, so the addresses
do not wrap. -/
def copyin (u : UserPages) (dst : Block) (off srcva len : ℕ) : Block × Bool :=
  copyinLoop u len dst off srcva len

/-- Where the bytes to be written are. -/
inductive Source where
  | kernel (mem : ℕ → UInt8)
  | user (u : UserPages)

/-- `either_copyin`: copy from either a user address, or kernel address. -/
def eitherCopyin (s : Source) (dst : Block) (off src len : ℕ) : Block × Bool :=
  match s with
  | .kernel mem => (dst.patch off len (fun k => mem (src + k)), true)
  | .user u => copyin u dst off src len

/-- The byte at an address, if it can be read. -/
def Source.byte : Source → ℕ → Option UInt8
  | .kernel mem, a => some (mem a)
  | .user u, a => (u.page (pgRoundDown a)).map (fun mem => mem (a % PGSIZE))

/-- How many of the `len` bytes at `src` can be read before the first one that cannot. -/
def Source.readable (s : Source) (src : ℕ) : ℕ → ℕ
  | 0 => 0
  | len + 1 => if (s.byte src).isSome then readable s (src + 1) len + 1 else 0

/-- The bytes from `src` on. -/
def Source.bytes (s : Source) (src k : ℕ) : UInt8 := (s.byte (src + k)).getD 0

namespace Source

variable {s : Source} {src len : ℕ}

theorem readable_succ (s : Source) (src len : ℕ) :
  s.readable src (len + 1) = if (s.byte src).isSome then s.readable (src + 1) len + 1 else 0
  := rfl

theorem readable_le (s : Source) (src len : ℕ) : s.readable src len ≤ len := by
  induction len generalizing src with
  | zero => exact Nat.le_refl _
  | succ len ih =>
    rw [readable_succ]
    split_ifs
    · exact Nat.succ_le_succ (ih _)
    · exact Nat.zero_le _

theorem readable_eq_iff : s.readable src len = len ↔ ∀ k < len, (s.byte (src + k)).isSome := by
  induction len generalizing src with
  | zero => simp only [Nat.not_lt_zero, false_imp_iff, implies_true, iff_true]; rfl
  | succ len ih =>
    rw [readable_succ]
    split_ifs with h
    · rw [Nat.add_right_cancel_iff, ih]
      constructor
      · intro hall k hk
        cases k with
        | zero => exact h
        | succ k =>
          rw [Nat.add_comm k, ← Nat.add_assoc]
          exact hall k (by omega)
      · intro hall k hk
        rw [Nat.add_assoc, Nat.add_comm 1]
        exact hall (k + 1) (by omega)
    · constructor
      · intro hzero
        cases hzero
      · intro hall
        exact absurd (hall 0 (Nat.succ_pos _)) h

/-- Beyond a range that can be read, the count goes on. -/
theorem readable_add {a b : ℕ} (h : s.readable src a = a) :
  s.readable src (a + b) = a + s.readable (src + a) b
  := by
  induction a generalizing src with
  | zero => simp
  | succ a ih =>
    rw [readable_succ] at h
    split_ifs at h with hbyte
    · rw [Nat.add_right_comm, readable_succ, if_pos hbyte, ih (Nat.succ_inj.mp h), Nat.add_right_comm a,
        Nat.add_assoc src, Nat.add_comm 1]

theorem readable_zero (h : s.byte src = none) : s.readable src len = 0 := by
  cases len with
  | zero => rfl
  | succ len => simp [readable_succ, h]

end Source

/-- A page that is there can be read to its end. -/
theorem readable_of_page {u : UserPages} {src n : ℕ} {mem : ℕ → UInt8}
    (h : u.page (pgRoundDown src) = some mem) (hn : n ≤ PGSIZE - (src - pgRoundDown src)) {k : ℕ}
    (hk : k < n) :
  (Source.user u).byte (src + k) = some (mem (src - pgRoundDown src + k))
  := by
  have hdown : pgRoundDown (src + k) = pgRoundDown src := by
    simp only [pgRoundDown, PGSIZE] at *
    omega
  have hmod : (src + k) % PGSIZE = src - pgRoundDown src + k := by
    simp only [pgRoundDown, PGSIZE] at *
    omega
  rw [Source.byte, hdown, h, hmod]
  rfl

theorem copyinLoop_eq {u : UserPages} {fuel : ℕ} {dst : Block} {off src len : ℕ} (hfuel : len ≤ fuel) :
  copyinLoop u fuel dst off src len
    = (dst.patch off ((Source.user u).readable src len) ((Source.user u).bytes src),
        decide ((Source.user u).readable src len = len))
  := by
  induction fuel generalizing dst off src len with
  | zero =>
    obtain rfl := Nat.le_zero.mp hfuel
    rw [copyinLoop, Source.readable, Bytes.patch_zero]
    rfl
  | succ fuel ih =>
    unfold copyinLoop
    split_ifs with hlen
    · split
      next hpage =>
        have hnone : (Source.user u).byte src = none := by
          rw [Source.byte, hpage]
          rfl
        rw [Source.readable_zero hnone, Bytes.patch_zero]
        simp only [Prod.mk.injEq, true_and]
        exact (decide_eq_false (by omega)).symm
      next mem hpage =>
        obtain ⟨n, hn⟩ : ∃ n, n = min (PGSIZE - (src - pgRoundDown src)) len := ⟨_, rfl⟩
        have hle : n ≤ PGSIZE - (src - pgRoundDown src) := hn ▸ Nat.min_le_left _ _
        have hlen' : n ≤ len := hn ▸ Nat.min_le_right _ _
        have hpos : 0 < n := by
          simp only [pgRoundDown, PGSIZE] at hn
          omega
        have hbyte : ∀ {k}, k < n →
            (Source.user u).byte (src + k) = some (mem (src - pgRoundDown src + k)) :=
          fun hk => readable_of_page hpage hle hk
        have hall : (Source.user u).readable src n = n := by
          rw [Source.readable_eq_iff]
          intro k hk
          rw [hbyte hk]
          rfl
        have hpatch : dst.patch off n (fun k => mem (src - pgRoundDown src + k))
            = dst.patch off n ((Source.user u).bytes src) := by
          apply Bytes.patch_congr
          intro k hk
          rw [Source.bytes, hbyte hk]
          rfl
        dsimp only
        rw [← hn, hpatch, ih (by omega)]
        have hnext : n = len ∨ pgRoundDown src + PGSIZE = src + n := by
          simp only [pgRoundDown, PGSIZE] at hn ⊢
          omega
        rcases hnext with heq | heq
        · subst heq
          rw [Nat.sub_self, Source.readable, Bytes.patch_zero, hall]
          simp
        · have hsplit : (Source.user u).readable src len
              = n + (Source.user u).readable (src + n) (len - n) := by
            rw [← Source.readable_add hall, Nat.add_sub_cancel' hlen']
          rw [heq, hsplit, ← Bytes.patch_append]
          have hbytes : (fun k => (Source.user u).bytes src (n + k)) = (Source.user u).bytes (src + n) := by
            funext k
            rw [Source.bytes, Source.bytes, Nat.add_assoc]
          rw [hbytes]
          simp only [Prod.mk.injEq, true_and, decide_eq_decide]
          omega
    · obtain rfl : len = 0 := by omega
      rw [Source.readable, Bytes.patch_zero]
      rfl

/-- Copying replaces the bytes that can be read, and succeeds if these are all. -/
theorem eitherCopyin_eq (s : Source) (dst : Block) (off src len : ℕ) :
  eitherCopyin s dst off src len
    = (dst.patch off (s.readable src len) (s.bytes src), decide (s.readable src len = len))
  := by
  cases s with
  | kernel mem =>
    have hall : (Source.kernel mem).readable src len = len := by
      rw [Source.readable_eq_iff]
      exact fun _ _ => rfl
    rw [hall, decide_eq_true rfl]
    rfl
  | user u => exact copyinLoop_eq (Nat.le_refl len)

/-! ### Files -/

/-- The length of the next piece, which ends with the block or with the request. -/
def pieceLength (off n tot : ℕ) : ℕ := min (n - tot) (BSIZE - (off + tot) % BSIZE)

/-- The loop of `writei`, whose offset and source address advance with `tot`. -/
def writeiLoop (sb : Superblock) (s : Source) (src off n : ℕ) : ℕ → ℕ → Inode → Kernel (ℕ × Inode)
  | 0, tot, ip => return (tot, ip)
  | fuel + 1, tot, ip => do
    if tot < n then
      let (addr, ip) ← bmap sb ip ((off + tot) / BSIZE)
      if addr = 0 then return (tot, ip)
      else
        let data ← bread addr
        let m := pieceLength off n tot
        let copied := eitherCopyin s data ((off + tot) % BSIZE) (src + tot) m
        fill addr copied.1
        if copied.2 = false then
          brelse addr
          return (tot, ip)
        else
          logWrite addr
          brelse addr
          writeiLoop sb s src off n fuel (tot + m) ip
    else return (tot, ip)

/-- `writei`: write data to an inode.  It returns the number of bytes written, or `-1`. -/
def writei (sb : Superblock) (ip : Inode) (s : Source) (src off n : ℕ) : Kernel (ℤ × Inode) := do
  if ip.size < off ∨ (off + n) % 2 ^ 32 < off then return (-1, ip)
  else if MAXFILE * BSIZE < (off + n) % 2 ^ 32 then return (-1, ip)
  else
    let (tot, ip) ← writeiLoop sb s src off n n 0 ip
    let ip := if ip.size < off + tot then ip.setSize (off + tot) else ip
    iupdate sb ip
    return (tot, ip)

/-- The loop of `readi`.  `dst a m` says whether `m` bytes can be copied to the address `a`
bytes behind the destination. -/
def readiLoop (sb : Superblock) (dst : ℕ → ℕ → Bool) (off n : ℕ) :
    ℕ → ℕ → List UInt8 → Inode → Kernel (ℤ × List UInt8 × Inode)
  | 0, tot, acc, ip => return (tot, acc, ip)
  | fuel + 1, tot, acc, ip => do
    if tot < n then
      let (addr, ip) ← bmap sb ip ((off + tot) / BSIZE)
      if addr = 0 then return (tot, acc, ip)
      else
        let data ← bread addr
        let m := pieceLength off n tot
        let piece := (List.range m).map (fun k => data.byteAt ((off + tot) % BSIZE + k))
        brelse addr
        if dst tot m = false then return (-1, acc, ip)
        else readiLoop sb dst off n fuel (tot + m) (acc ++ piece) ip
    else return (tot, acc, ip)

/-- `readi`: read data from an inode.  It returns the number of bytes read, or `-1`, and the
bytes that were copied. -/
def readi (sb : Superblock) (ip : Inode) (dst : ℕ → ℕ → Bool) (off n : ℕ) :
    Kernel (ℤ × List UInt8 × Inode) := do
  if ip.size < off ∨ (off + n) % 2 ^ 32 < off then return (0, [], ip)
  else
    let n := if ip.size < off + n then ip.size - off else n
    readiLoop sb dst off n n 0 [] ip

/-! ### The loops -/

theorem pieceLength_pos (off : ℕ) {n tot : ℕ} (h : tot < n) : 0 < pieceLength off n tot := by
  have : (off + tot) % BSIZE < BSIZE := Nat.mod_lt _ (by decide)
  unfold pieceLength
  omega

theorem pieceLength_le {off n tot : ℕ} : pieceLength off n tot ≤ n - tot := Nat.min_le_left _ _

section Loops

variable {sb : Superblock} {s : Source} {src off n : ℕ} {C : Fault → Machine → Prop}

/-- The contents of a block after a piece is copied to it, as far as the piece can be read. -/
def pieceData (s : Source) (src off n tot : ℕ) (data : Block) : Block :=
  data.patch ((off + tot) % BSIZE) (s.readable (src + tot) (pieceLength off n tot))
    (s.bytes (src + tot))

/-- The loop of `writei` in three kinds of rounds: there is no block, the piece is copied and
logged, or the copying fails and the buffer is released with what has been copied. -/
theorem wp_writeiLoop (I : ℕ → Inode → Machine → Prop) {Q : ℕ × Inode → Machine → Prop}
    (hC : Tolerates C) (hdone : ∀ ip m, I n ip m → Q (n, ip) m)
    (hround : ∀ tot ip m, tot < n → I tot ip m →
      wp (bmap sb ip ((off + tot) / BSIZE)) (fun r m =>
        (r.1 = 0 → Q (tot, r.2) m) ∧ (r.1 ≠ 0 → m.obs.Pinned
          ∧ (s.readable (src + tot) (pieceLength off n tot) = pieceLength off n tot → ∀ m',
              m'.obs = m.obs.log r.1 (pieceData s src off n tot (m.obs.view r.1)) →
              m'.obs.lh.length ≤ LOGBLOCKS → I (tot + pieceLength off n tot) r.2 m')
          ∧ (s.readable (src + tot) (pieceLength off n tot) < pieceLength off n tot → ∀ data m',
              data = pieceData s src off n tot (m.obs.view r.1)
                ∨ (∃ k, m.obs.recycle k = true) ∧ data = m.obs.disk r.1 →
              m'.obs = m.obs.setView r.1 data → Q (tot, r.2) m'))) C m)
    {fuel tot : ℕ} {ip : Inode} {m : Machine} (hfuel : n - tot ≤ fuel) (htot : tot ≤ n)
    (h : I tot ip m) :
  wp (writeiLoop sb s src off n fuel tot ip) Q C m
  := by
  induction fuel generalizing tot ip m with
  | zero =>
    obtain rfl : tot = n := by omega
    exact hdone ip m h
  | succ fuel ih =>
    unfold writeiLoop
    split_ifs with hlt
    · rw [wp_bind]
      apply wp_mono (hround tot ip m hlt h)
      · rintro ⟨addr, ip'⟩ m₁ ⟨hzero, hsome⟩
        dsimp only at hzero hsome ⊢
        split_ifs with haddr
        · exact hzero haddr
        · obtain ⟨hpin, hfull, htorn⟩ := hsome haddr
          rw [wp_bind]
          apply wp_bread_hold rfl
          intro m₂ h₂
          simp only [eitherCopyin_eq]
          split_ifs with hok
          · -- the copying fails
            rw [decide_eq_false_iff_not] at hok
            have hle := s.readable_le (src + tot) (pieceLength off n tot)
            have hless : s.readable (src + tot) (pieceLength off n tot) < pieceLength off n tot := by
              omega
            simp only [wp_bind, wp_pure]
            apply wp_fill_hold h₂
            intro m₃ h₃
            apply wp_brelse_hold_or h₃
            · intro m₄ h₄
              exact htorn hless _ m₄ (Or.inl rfl) h₄
            · intro hrec _ m₄ h₄
              rw [Obs.setView_setView] at h₄
              exact htorn hless _ m₄ (Or.inr ⟨hrec, rfl⟩) h₄
          · rw [Bool.not_eq_false, decide_eq_true_eq] at hok
            simp only [wp_bind]
            apply wp_log_block hC h₂ hpin
            intro m₃ h₃ hlen
            have hpos := pieceLength_pos off hlt
            have hle : pieceLength off n tot ≤ n - tot := pieceLength_le
            apply ih
            · omega
            · omega
            · exact hfull hok m₃ h₃ hlen
      · intro e m' he
        exact he
    · obtain rfl : tot = n := by omega
      exact hdone ip m h

end Loops

/-! ### Specifications -/

/-- The file of an inode has a block for each part of it. -/
def NoHole (sb : Superblock) (view : ℕ → Block) (f : ℕ → Inode) (i : ℕ) : Prop :=
  ∀ bn < MAXFILE, bn * BSIZE < (f i).size → sb.cell view f (blockCell i bn) ≠ 0

/-- What `writei` does, apart from the data: it may fill empty cells of the inode and increase
its size, and the copy on the disk is up to date. -/
structure Written (sb : Superblock) (i : ℕ) (o : Obs) (f : ℕ → Inode) (o' : Obs) (f' : ℕ → Inode) :
    Prop extends Saved sb i o f o' f' where
  fields : f' i = { f i with size := (f' i).size, addrs := (f' i).addrs }
  noHole : NoHole sb o.view f i → NoHole sb o'.view f' i

section Specs

variable {sb : Superblock} {s : Source} {src off n i : ℕ} {C : Fault → Machine → Prop} {m : Machine}
  {o : Obs} {f : ℕ → Inode}

/-- The checks at the start of `writei` and `readi` say that the range does not wrap. -/
theorem add_lt_of_not_wrap (hoff : off < 2 ^ 32) (hn : n < 2 ^ 32) (h : ¬ (off + n) % 2 ^ 32 < off) :
  (off + n) % 2 ^ 32 = off + n
  := by
  omega

/-- A block that a range of a file meets. -/
theorem block_lt {tot : ℕ} (hmax : off + n ≤ MAXFILE * BSIZE) (htot : tot < n) :
  (off + tot) / BSIZE < MAXFILE
  := by
  apply Nat.div_lt_of_lt_mul
  rw [Nat.mul_comm]
  omega

theorem wp_writeiLoop_grown {Q : ℕ × Inode → Machine → Prop}
    (hC : Tolerates C) (hmax : off + n ≤ MAXFILE * BSIZE) (hm : m.obs = o) (hcons : Consistent sb o f) (hi : sb.Live f i)
    (h : ∀ tot f' m', tot ≤ n → Grown sb i o f m'.obs f' →
      (∀ bn < MAXFILE, off ≤ bn * BSIZE → bn * BSIZE < off + tot →
        sb.cell m'.obs.view f' (blockCell i bn) ≠ 0) → Q (tot, f' i) m') :
  wp (writeiLoop sb s src off n n 0 (f i)) Q C m
  := by
  apply wp_writeiLoop (fun tot ip m => tot ≤ n ∧ ∃ f', f' i = ip ∧ Grown sb i o f m.obs f'
    ∧ ∀ bn < MAXFILE, off ≤ bn * BSIZE → bn * BSIZE < off + tot →
      sb.cell m.obs.view f' (blockCell i bn) ≠ 0) hC
  · rintro _ m ⟨_, f', rfl, hgrown, hcells⟩
    exact h n f' m (Nat.le_refl n) hgrown hcells
  · rintro tot _ m htot ⟨_, f', rfl, hgrown, hcells⟩
    apply wp_bmap (fun _ => hC) (Or.inl (block_lt hmax htot)) rfl hgrown.consistent (hgrown.live.mpr hi)
    intro hbn addr f₁ m₁ hmapped
    have hgrown₁ := hgrown.trans hmapped.toGrown
    have hcells₁ : ∀ bn < MAXFILE, off ≤ bn * BSIZE → bn * BSIZE < off + tot →
        sb.cell m₁.obs.view f₁ (blockCell i bn) ≠ 0 := by
      intro bn hlt hle hbelow
      have hne := hcells bn hlt hle hbelow
      rw [hmapped.cells _ hne]
      exact hne
    have hlast := blockCell_ne_last i ((off + tot) / BSIZE)
    constructor
    · rintro rfl
      exact h tot f₁ m₁ (Nat.le_of_lt htot) hgrown₁ hcells₁
    · intro haddr
      have hcell := hmapped.cell
      have hcell0 : sb.cell m₁.obs.view f₁ (blockCell i ((off + tot) / BSIZE)) ≠ 0 := hcell ▸ haddr
      refine ⟨hmapped.consistent.pinned, ?_, ?_⟩
      · intro _ m₂ h₂ hlen
        rw [h₂, ← hcell] at hlen
        have hlog := Grown.log_cell (i := i) hmapped.consistent hlast hcell0 hlen
        rw [hcell, ← h₂] at hlog
        have hle : pieceLength off n tot ≤ n - tot := pieceLength_le
        refine ⟨by omega, f₁, rfl, hgrown₁.trans hlog, ?_⟩
        intro bn hlt hle' hbelow
        by_cases hthis : bn = (off + tot) / BSIZE
        · subst hthis
          rw [hlog.cells _ hcell0]
          exact hcell0
        · have hpiece : pieceLength off n tot ≤ BSIZE - (off + tot) % BSIZE := Nat.min_le_right _ _
          have hne := hcells₁ bn hlt hle' (by simp only [BSIZE] at *; omega)
          rw [hlog.cells _ hne]
          exact hne
      · intro _ data m₂ _ h₂
        obtain ⟨hset, hsame⟩ := Grown.setView_cell (i := i) hmapped.consistent hlast hcell0 data
        rw [hcell, ← h₂] at hset hsame
        apply h tot f₁ m₂ (Nat.le_of_lt htot) (hgrown₁.trans hset)
        rw [hsame]
        exact hcells₁
  · omega
  · exact Nat.zero_le n
  · refine ⟨Nat.zero_le n, f, rfl, ?_, ?_⟩
    · rw [hm]
      exact Grown.refl hcons
    · intro bn _ hle hbelow
      omega

/-- `writei` checks the range, runs its loop and copies the inode to the disk. -/
theorem wp_writei_of_loop {ip : Inode} {Q : ℤ × Inode → Machine → Prop} (hip : ip.Fits) (hn : n < 2 ^ 32)
    (hfail : ip.size < off ∨ MAXFILE * BSIZE < off + n → Q (-1, ip) m)
    (h : off ≤ ip.size → off + n ≤ MAXFILE * BSIZE →
      wp (writeiLoop sb s src off n n 0 ip) (fun r m' =>
        wp (iupdate sb (r.2.setSize (max r.2.size (off + r.1))))
          (fun _ => Q (r.1, r.2.setSize (max r.2.size (off + r.1)))) C m') C m) :
  wp (writei sb ip s src off n) Q C m
  := by
  have hmod := Nat.mod_le (off + n) (2 ^ 32)
  unfold writei
  split_ifs with hrange hmax
  · apply hfail
    have := hip.size
    simp only [MAXFILE, NDIRECT, NINDIRECT, BSIZE]
    omega
  · exact hfail (Or.inr (by omega))
  · rw [not_or, Nat.not_lt] at hrange
    rw [add_lt_of_not_wrap (Nat.lt_of_le_of_lt hrange.1 hip.size) hn hrange.2, Nat.not_lt] at hmax
    rw [wp_bind]
    apply wp_mono (h hrange.1 hmax) _ (fun _ _ he => he)
    intro r m' hr
    dsimp only
    rwa [Inode.setSize_max, wp_bind]

theorem wp_writei {Q : ℤ × Inode → Machine → Prop}
    (hC : Tolerates C) (hm : m.obs = o) (hcons : Consistent sb o f) (hi : sb.Live f i) (hn : n < 2 ^ 32)
    (hfail : ∀ m', m'.obs = o → Q (-1, f i) m')
    (h : ∀ r f' m', Written sb i o f m'.obs f' → Q (r, f' i) m') :
  wp (writei sb (f i) s src off n) Q C m
  := by
  have hfits := (hcons.wf i hi.1).1
  apply wp_writei_of_loop hfits hn (fun _ => hfail m hm)
  intro hoff hmax
  apply wp_writeiLoop_grown hC hmax hm hcons hi
  intro tot f₁ m₁ htot hgrown hcells
  have hsame : (f₁ i).size = (f i).size := by rw [hgrown.same]
  dsimp only
  apply wp_iupdate_size hC rfl hgrown.consistent hi.1
  · have := hfits.size
    simp only [MAXFILE, NDIRECT, NINDIRECT, BSIZE] at hmax
    omega
  intro m₂ hsaved hcell _ _
  have hQ := h tot (update f₁ i ((f₁ i).setSize (max (f₁ i).size (off + tot)))) m₂
  rw [update_self] at hQ
  apply hQ
  refine ⟨hgrown.toTouched.saved hsaved, ?_, ?_⟩
  · rw [update_self, hgrown.same]
    rfl
  · intro hno bn hbn hbelow
    rw [update_self] at hbelow
    rw [hcell]
    rcases Nat.lt_or_ge (bn * BSIZE) (f i).size with hold | hnew
    · have hne := hno bn hbn hold
      rw [hgrown.cells _ hne]
      exact hne
    · apply hcells bn hbn (Nat.le_trans hoff hnew)
      have : bn * BSIZE < max (f₁ i).size (off + tot) := hbelow
      omega

/-- The inodes and the cells are what they were. -/
structure Unmoved (sb : Superblock) (o : Obs) (f : ℕ → Inode) (o' : Obs) : Prop where
  consistent : Consistent sb o' f
  inode : ∀ j < sb.ninodes, sb.inode o'.view j = sb.inode o.view j
  cells : sb.cell o'.view f = sb.cell o.view f

theorem Unmoved.refl (h : Consistent sb o f) : Unmoved sb o f o := ⟨h, fun _ _ => rfl, rfl⟩

theorem Unmoved.trans {o₁ o₂ : Obs} (h₁ : Unmoved sb o f o₁) (h₂ : Unmoved sb o₁ f o₂) :
  Unmoved sb o f o₂
  := by
  refine ⟨h₂.consistent, ?_, h₂.cells.trans h₁.cells⟩
  intro j hj
  rw [h₂.inode j hj, h₁.inode j hj]

theorem Unmoved.noHole {o' : Obs} (h : Unmoved sb o f o') {j : ℕ} (hno : NoHole sb o.view f j) :
  NoHole sb o'.view f j
  := by
  intro bn hbn hbelow
  rw [h.cells]
  exact hno bn hbn hbelow

/-- Releasing the buffer of a block that is in a cell for data. -/
theorem Unmoved.wp_brelse {o₁ : Obs} (h : Unmoved sb o f o₁) {q : Cell}
    (hq : ∀ j, q ≠ .addr j (Fin.last NDIRECT)) (hne : sb.cell o₁.view f q ≠ 0)
    (hm : m.obs = o₁.hold (sb.cell o₁.view f q)) :
  wp (brelse (sb.cell o₁.view f q)) (fun _ m' => Unmoved sb o f m'.obs) C m
  := by
  apply wp_brelse_hold_or hm
  · intro m' hm'
    rw [hm']
    exact h
  · intro _ _ m' hm'
    obtain ⟨hset, hsame⟩ := Grown.setView_cell (i := q.inum) h.consistent hq hne
      (o₁.disk (sb.cell o₁.view f q))
    rw [← hm'] at hset hsame
    exact h.trans ⟨hset.consistent, hset.inode, hsame⟩

variable {dst : ℕ → ℕ → Bool} {Q : ℤ × List UInt8 × Inode → Machine → Prop} (hC : Tolerates C)

include hC

theorem wp_readiLoop
    (hrange : (f i).size ≤ MAXFILE * BSIZE ∨ ∀ m, C (.panic "bmap: out of range") m)
    (hcons : Consistent sb o f) (hi : sb.Live f i) (hno : NoHole sb o.view f i)
    (hend : off + n ≤ (f i).size) (h : ∀ r acc m', Unmoved sb o f m'.obs → Q (r, acc, f i) m')
    {fuel tot : ℕ} {acc : List UInt8} (hm : Unmoved sb o f m.obs) :
  wp (readiLoop sb dst off n fuel tot acc (f i)) Q C m
  := by
  induction fuel generalizing tot acc m with
  | zero => exact h _ _ m hm
  | succ fuel ih =>
    unfold readiLoop
    split_ifs with hlt
    · rw [wp_bind]
      have hbmap := hrange.imp_left (fun hsize => block_lt (Nat.le_trans hend hsize) hlt)
      apply wp_bmap (fun _ => hC) hbmap rfl hm.consistent hi
      intro hbn addr f₁ m₁ hmapped
      have hne : sb.cell m.obs.view f (blockCell i ((off + tot) / BSIZE)) ≠ 0 := by
        rw [hm.cells]
        apply hno _ hbn
        have := Nat.div_mul_le_self (off + tot) BSIZE
        omega
      -- there is a block, so nothing is allocated
      obtain ⟨_, hobs, rfl⟩ := hmapped.fresh.resolve_right (fun hzero => hne hzero.1)
      have hcell := hmapped.cell
      rw [hobs] at hcell
      have haddr : addr ≠ 0 := hcell ▸ hne
      dsimp only
      rw [if_neg haddr, wp_bind]
      apply wp_bread_hold hobs
      intro m₂ h₂
      rw [wp_bind]
      have hrelease := hm.wp_brelse (C := C) (m := m₂) (blockCell_ne_last i _) hne (hcell ▸ h₂)
      rw [hcell] at hrelease
      apply wp_mono hrelease _ (fun _ _ he => he)
      intro _ m₃ h₃
      split_ifs
      · exact h _ _ m₃ h₃
      · exact ih h₃
    · exact h _ _ m hm

theorem wp_readi (hbmap : (f i).size ≤ MAXFILE * BSIZE ∨ ∀ m, C (.panic "bmap: out of range") m)
    (hm : m.obs = o) (hcons : Consistent sb o f) (hi : sb.Live f i)
    (hno : NoHole sb o.view f i) (h : ∀ r acc m', Unmoved sb o f m'.obs → Q (r, acc, f i) m') :
  wp (readi sb (f i) dst off n) Q C m
  := by
  have hrefl : Unmoved sb o f m.obs := by
    rw [hm]
    exact Unmoved.refl hcons
  unfold readi
  split_ifs with hrange hend
  · exact h _ _ m hrefl
  · apply wp_readiLoop hC hbmap hcons hi hno _ h hrefl
    rw [not_or] at hrange
    omega
  · exact wp_readiLoop hC hbmap hcons hi hno (Nat.le_of_not_lt hend) h hrefl

end Specs

end Xv6
