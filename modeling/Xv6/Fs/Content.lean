import Xv6.Fs.File

/-!
# The bytes of a file

A file has a byte at a position when its inode has a block for the position.  The file is
legible when what is found in its blocks stays when their buffers are recycled.  Then `readi`
returns bytes of the file and keeps all of them, and a `writei` that writes as much as it is
asked to write has put the bytes in their places and keeps the others.
-/

namespace Xv6

open Machine Stop Superblock Function

/-- Block `bn` of a file, `0` if there is none. -/
def Inode.block (ip : Inode) (view : ℕ → Block) (bn : ℕ) : ℕ :=
  if bn < NDIRECT then ip.addrs (Fin.ofNat _ bn)
  else if ip.indirect = 0 then 0 else entry (view ip.indirect) (bn - NDIRECT)

theorem Inode.block_eq_cell {sb : Superblock} {view : ℕ → Block} {f : ℕ → Inode} {i bn : ℕ}
    (hi : sb.Live f i) (hbn : bn < MAXFILE) :
  (f i).block view bn = sb.cell view f (blockCell i bn)
  := by
  unfold block blockCell
  split_ifs with hdirect ha
  · rw [cell_addr hi]
  · exact (if_neg (fun h => h.2 ha)).symm
  · have hlt : bn - NDIRECT < NINDIRECT := by
      unfold MAXFILE at hbn
      omega
    rw [cell_entry hi ha, Fin.val_ofNat, Nat.mod_eq_of_lt hlt]

/-- The byte of a file at a position, if there is a block for it. -/
def Inode.byte (ip : Inode) (view : ℕ → Block) (p : ℕ) : Option UInt8 :=
  if p / BSIZE < MAXFILE ∧ ip.block view (p / BSIZE) ≠ 0 then
    some ((view (ip.block view (p / BSIZE))).byteAt (p % BSIZE))
  else none

/-- The blocks of the file of an inode are settled. -/
def Legible (sb : Superblock) (o : Obs) (f : ℕ → Inode) (i : ℕ) : Prop :=
  ∀ bn < MAXFILE, sb.cell o.view f (blockCell i bn) ≠ 0 →
    o.Settled (sb.cell o.view f (blockCell i bn))

/-! ### The bytes -/

/-- The file system is consistent, and an inode is allocated and has a file that is legible. -/
structure FileSound (sb : Superblock) (o : Obs) (f : ℕ → Inode) (i : ℕ) : Prop where
  consistent : Consistent sb o f
  live : sb.Live f i
  legible : Legible sb o f i

/-- The file keeps its bytes. -/
structure Carried (sb : Superblock) (i : ℕ) (o : Obs) (f : ℕ → Inode) (o' : Obs) (f' : ℕ → Inode) :
    Prop extends FileSound sb o' f' i where
  byte : ∀ p c, (f i).byte o.view p = some c → (f' i).byte o'.view p = some c

section Bytes

variable {sb : Superblock} {o o' o₁ o₂ : Obs} {f f' f₁ f₂ : ℕ → Inode} {i b p : ℕ}
  {C : Fault → Machine → Prop} {m : Machine} {view : ℕ → Block} {c : UInt8}

theorem byte_of_cell (hi : sb.Live f i) (hp : p / BSIZE < MAXFILE)
    (hb : sb.cell view f (blockCell i (p / BSIZE)) = b) (h0 : b ≠ 0) :
  (f i).byte view p = some ((view b).byteAt (p % BSIZE))
  := by
  have hblock : (f i).block view (p / BSIZE) = b := (Inode.block_eq_cell hi hp).trans hb
  unfold Inode.byte
  rw [hblock, if_pos ⟨hp, h0⟩]

theorem cell_of_byte (hi : sb.Live f i) (h : (f i).byte view p = some c) :
  p / BSIZE < MAXFILE ∧ sb.cell view f (blockCell i (p / BSIZE)) ≠ 0
    ∧ c = (view (sb.cell view f (blockCell i (p / BSIZE)))).byteAt (p % BSIZE)
  := by
  unfold Inode.byte at h
  split_ifs at h with hp
  rw [Inode.block_eq_cell hi hp.1] at hp h
  exact ⟨hp.1, hp.2, (Option.some.inj h).symm⟩

/-- The cells that are not empty contain what they did, and their blocks are left alone. -/
theorem byte_kept {view view' : ℕ → Block} (hi : sb.Live f i) (hi' : sb.Live f' i)
    (hcells : ∀ bn < MAXFILE, sb.cell view f (blockCell i bn) ≠ 0 →
      sb.cell view' f' (blockCell i bn) = sb.cell view f (blockCell i bn)
        ∧ view' (sb.cell view f (blockCell i bn)) = view (sb.cell view f (blockCell i bn)))
    (h : (f i).byte view p = some c) :
  (f' i).byte view' p = some c
  := by
  obtain ⟨hp, h0, rfl⟩ := cell_of_byte hi h
  obtain ⟨hcell, hview⟩ := hcells _ hp h0
  rw [byte_of_cell hi' hp hcell h0, hview]

theorem Carried.refl (h : FileSound sb o f i) : Carried sb i o f o f := ⟨h, fun _ _ hbyte => hbyte⟩

theorem Carried.trans (h₁ : Carried sb i o f o₁ f₁) (h₂ : Carried sb i o₁ f₁ o₂ f₂) :
  Carried sb i o f o₂ f₂
  := ⟨h₂.toFileSound, fun p c hbyte => h₂.byte p c (h₁.byte p c hbyte)⟩

theorem Carried.of_spared (hlive : sb.Live f i) (h : FileSound sb o' f' i)
    (hcells : ∀ bn < MAXFILE, sb.cell o.view f (blockCell i bn) ≠ 0 →
      sb.cell o'.view f' (blockCell i bn) = sb.cell o.view f (blockCell i bn)
        ∧ o'.view (sb.cell o.view f (blockCell i bn)) = o.view (sb.cell o.view f (blockCell i bn))) :
  Carried sb i o f o' f'
  := ⟨h, fun _ _ hbyte => byte_kept hlive h.live hcells hbyte⟩

/-- `bmap` finds a block or allocates one, and the file keeps its bytes. -/
theorem wp_bmap_carried {bn : ℕ} {Q : ℕ × Inode → Machine → Prop}
    (hC : Tolerates C) (hrange : bn < MAXFILE ∨ ∀ m, C (.panic "bmap: out of range") m) (hm : m.obs = o) (hs : FileSound sb o f i)
    (h : bn < MAXFILE → ∀ addr f' m', Bmapped sb i (blockCell i bn) o f addr m'.obs f' →
      Carried sb i o f m'.obs f' → Q (addr, f' i) m') :
  wp (bmap sb (f i) bn) Q C m
  := by
  obtain ⟨hcons, hi, hleg⟩ := hs
  apply wp_bmap (fun _ => hC) hrange hm hcons hi
  intro hbn addr f' m' hmapped
  have hcontent : ∀ {bn'}, sb.cell o.view f (blockCell i bn') ≠ 0 →
      sb.cell m'.obs.view f' (blockCell i bn') = sb.cell o.view f (blockCell i bn')
        ∧ Spared o m'.obs (sb.cell o.view f (blockCell i bn')) := by
    intro bn' h0
    exact ⟨hmapped.cells _ h0, hmapped.spared _ (hcons.content (blockCell_ne_last i bn') h0)⟩
  apply h hbn addr f' m' hmapped
  apply Carried.of_spared hi
  · refine ⟨hmapped.consistent, hmapped.live.mpr hi, ?_⟩
    intro bn' hbn' h0
    by_cases hold : sb.cell o.view f (blockCell i bn') = 0
    · -- a block that was not there has been allocated, and it is in the log
      have hthis : bn' = bn := by
        by_contra hne
        rw [hmapped.rest _ (blockCell_ne_last i bn')] at h0
        · exact h0 hold
        · intro heq
          exact hne (blockCell_inj hbn' hbn heq)
      subst hthis
      rw [hmapped.cell] at h0 ⊢
      obtain ⟨hne, -⟩ | ⟨-, hmem⟩ := hmapped.fresh
      · exact absurd hold hne
      · exact hmapped.consistent.pinned.settled (hmem h0)
    · obtain ⟨hsame, hsp⟩ := hcontent hold
      rw [hsame]
      exact hsp.settled hmapped.logs.disk (hleg bn' hbn' hold)
  · intro bn' _ h0
    exact ⟨(hcontent h0).1, (hcontent h0).2.view⟩

end Bytes

/-! ### Reading -/

section Read

variable {sb : Superblock} {off n i : ℕ} {C : Fault → Machine → Prop} {m : Machine} {o : Obs}
  {f f₁ : ℕ → Inode} {dst : ℕ → ℕ → Bool} {acc : List UInt8}

/-- What has been read, from `off` on, is in the file, which keeps its bytes. -/
structure HasRead (sb : Superblock) (off i : ℕ) (o : Obs) (f : ℕ → Inode) (acc : List UInt8) (o' : Obs)
    (f' : ℕ → Inode) : Prop extends Carried sb i o f o' f' where
  read : ∀ j < acc.length, (f' i).byte o'.view (off + j) = acc[j]?

theorem HasRead.piece {addr k : ℕ} {o' o₁ : Obs} {f' : ℕ → Inode}
    (h : HasRead sb off i o f acc o' f') (hcar : Carried sb i o' f' o₁ f₁)
    (hbn : (off + acc.length) / BSIZE < MAXFILE)
    (hcell : sb.cell o₁.view f₁ (blockCell i ((off + acc.length) / BSIZE)) = addr) (h0 : addr ≠ 0)
    (hk : k ≤ BSIZE - (off + acc.length) % BSIZE) :
  HasRead sb off i o f (acc ++ (List.range k).map
    (fun j => (o₁.view addr).byteAt ((off + acc.length) % BSIZE + j))) o₁ f₁
  := by
  refine ⟨h.toCarried.trans hcar, ?_⟩
  intro j hj
  rw [List.length_append, List.length_map, List.length_range] at hj
  by_cases hold : j < acc.length
  · rw [List.getElem?_append_left hold, List.getElem?_eq_getElem hold]
    apply hcar.byte
    rw [h.read j hold, List.getElem?_eq_getElem hold]
  · obtain ⟨l, rfl⟩ := Nat.exists_eq_add_of_le (Nat.le_of_not_lt hold)
    have hdiv : (off + (acc.length + l)) / BSIZE = (off + acc.length) / BSIZE := by
      simp only [BSIZE] at *
      omega
    have hmod : (off + (acc.length + l)) % BSIZE = (off + acc.length) % BSIZE + l := by
      simp only [BSIZE] at *
      omega
    rw [byte_of_cell hcar.live (hdiv ▸ hbn) (hdiv ▸ hcell) h0, hmod,
      List.getElem?_append_right (Nat.le_add_right _ _), Nat.add_sub_cancel_left]
    have hl : l < k := by omega
    simp [hl]

variable {Q : ℤ × List UInt8 × Inode → Machine → Prop} (hC : Tolerates C)

include hC

theorem wp_readiLoop_bytes
    (hrange : off + n ≤ MAXFILE * BSIZE ∨ ∀ m, C (.panic "bmap: out of range") m)
    (hfail : ∀ acc f' m', HasRead sb off i o f acc m'.obs f' → (∃ a k, dst a k = false) →
      Q (-1, acc, f' i) m')
    (hend : ∀ acc f' m', HasRead sb off i o f acc m'.obs f' → acc.length ≤ n →
      (acc.length < n → (f i).byte o.view (off + acc.length) = none) → Q (acc.length, acc, f' i) m')
    {fuel : ℕ} (hfuel : n - acc.length ≤ fuel) (hacc : acc.length ≤ n)
    (h : HasRead sb off i o f acc m.obs f₁) :
  wp (readiLoop sb dst off n fuel acc.length acc (f₁ i)) Q C m
  := by
  induction fuel generalizing acc m f₁ with
  | zero => exact hend acc f₁ m h hacc (fun hlt => by omega)
  | succ fuel ih =>
    unfold readiLoop
    split_ifs with hlt
    · rw [wp_bind]
      apply wp_bmap_carried hC (hrange.imp_left (block_lt · hlt)) rfl h.toFileSound
      intro hbn addr f₂ m₂ hmapped hcar
      dsimp only
      by_cases haddr : addr = 0
      · -- there was no block for the next byte
        rw [if_pos haddr, wp_pure]
        apply hend acc f₂ m₂ ⟨h.toCarried.trans hcar, ?_⟩ hacc
        · intro _
          cases hbyte : (f i).byte o.view (off + acc.length) with
          | none => rfl
          | some c =>
            have hkept := hcar.byte _ _ (h.byte _ _ hbyte)
            obtain ⟨-, hne, -⟩ := cell_of_byte hcar.live hkept
            exact absurd (hmapped.cell.trans haddr) hne
        · intro j hj
          rw [List.getElem?_eq_getElem hj]
          apply hcar.byte
          rw [h.read j hj, List.getElem?_eq_getElem hj]
      · rw [if_neg haddr, wp_bind]
        apply wp_bread_hold rfl
        intro m₃ h₃
        rw [wp_bind]
        have hne : sb.cell m₂.obs.view f₂ (blockCell i ((off + acc.length) / BSIZE)) ≠ 0 := by
          rw [hmapped.cell]
          exact haddr
        have hsettled := hcar.legible _ hbn hne
        rw [hmapped.cell] at hsettled
        apply wp_brelse_hold h₃ hsettled
        intro m₄ h₄
        have hpos := pieceLength_pos off hlt
        have hle : pieceLength off n acc.length ≤ n - acc.length := pieceLength_le
        have hread := h.piece hcar hbn hmapped.cell haddr
          (k := pieceLength off n acc.length) (Nat.min_le_right _ _)
        rw [← h₄] at hread
        split_ifs with hdst
        · apply hfail acc f₂ m₄ ⟨hread.toCarried, ?_⟩ ⟨_, _, hdst⟩
          intro j hj
          have hj' := hread.read j (by rw [List.length_append]; omega)
          rwa [List.getElem?_append_left hj] at hj'
        · have hlen : acc.length + pieceLength off n acc.length
              = (acc ++ (List.range (pieceLength off n acc.length)).map
                (fun j => (m₄.obs.view addr).byteAt ((off + acc.length) % BSIZE + j))).length := by
            rw [List.length_append, List.length_map, List.length_range]
          rw [← h₄, hlen]
          apply ih _ _ hread
          · rw [← hlen]
            omega
          · rw [← hlen]
            omega
    · exact hend acc f₁ m h hacc (fun hlt' => absurd hlt' hlt)

/-- `readi` returns the bytes of the file from `off` on, as many as were asked for or as the
file has, unless the file has a hole there or the copying fails. -/
theorem wp_readi_bytes
    (hbmap : (f i).size ≤ MAXFILE * BSIZE ∨ ∀ m, C (.panic "bmap: out of range") m) (hm : m.obs = o) (hs : FileSound sb o f i)
    (hskip : (f i).size < off ∨ (off + n) % 2 ^ 32 < off → Q (0, [], f i) m)
    (hfail : ∀ acc f' m', HasRead sb off i o f acc m'.obs f' → (∃ a k, dst a k = false) →
      Q (-1, acc, f' i) m')
    (hend : ∀ acc f' m', HasRead sb off i o f acc m'.obs f' → acc.length ≤ min n ((f i).size - off) →
      (acc.length < min n ((f i).size - off) → (f i).byte o.view (off + acc.length) = none) →
      Q (acc.length, acc, f' i) m') :
  wp (readi sb (f i) dst off n) Q C m
  := by
  have hstart : HasRead sb off i o f [] m.obs f := by
    rw [hm]
    exact ⟨Carried.refl hs, fun j hj => absurd hj (Nat.not_lt_zero j)⟩
  unfold readi
  split_ifs with hrange hend'
  · exact hskip hrange
  · rw [not_or] at hrange
    have hmax := hbmap.imp_left (fun hsize : (f i).size ≤ _ =>
      (by omega : off + ((f i).size - off) ≤ MAXFILE * BSIZE))
    have hmin : min n ((f i).size - off) = (f i).size - off := by omega
    rw [hmin] at hend
    change wp (readiLoop sb dst off _ _ (List.length ([] : List UInt8)) [] (f i)) Q C m
    exact wp_readiLoop_bytes hC hmax hfail hend (Nat.le_refl _) (Nat.zero_le _) hstart
  · rw [not_or] at hrange
    have hmax := hbmap.imp_left (fun hsize : (f i).size ≤ _ => (by omega : off + n ≤ MAXFILE * BSIZE))
    have hmin : min n ((f i).size - off) = n := by omega
    rw [hmin] at hend
    change wp (readiLoop sb dst off _ _ (List.length ([] : List UInt8)) [] (f i)) Q C m
    exact wp_readiLoop_bytes hC hmax hfail hend (Nat.le_refl _) (Nat.zero_le _) hstart

end Read

/-! ### Writing -/

/-- The bytes `src` have been written from `off` on, and the others are as they were. -/
structure Patched (ip : Inode) (view : ℕ → Block) (off n : ℕ) (src : ℕ → UInt8) (ip' : Inode)
    (view' : ℕ → Block) : Prop where
  inside : ∀ k < n, ip'.byte view' (off + k) = some (src k)
  outside : ∀ p c, p < off ∨ off + n ≤ p → ip.byte view p = some c → ip'.byte view' p = some c

section Write

variable {sb : Superblock} {s : Source} {src off n i k : ℕ} {C : Fault → Machine → Prop}
  {m : Machine} {o o₁ o₂ : Obs} {f f₁ f₂ : ℕ → Inode}

theorem Patched.carried {bytes : ℕ → UInt8}
    (h : Patched (f i) o.view off k bytes (f₁ i) o₁.view) (hcar : Carried sb i o₁ f₁ o₂ f₂) :
  Patched (f i) o.view off k bytes (f₂ i) o₂.view
  := ⟨fun j hj => hcar.byte _ _ (h.inside j hj), fun p c hp hc => hcar.byte _ _ (h.outside p c hp hc)⟩

/-- A block of the file is changed and logged. -/
theorem FileSound.log_block {bn addr : ℕ} (hs : FileSound sb o f i) (hbn : bn < MAXFILE)
    (haddr : sb.cell o.view f (blockCell i bn) = addr) (h0 : addr ≠ 0) {data : Block}
    (hlen : (o.log addr data).lh.length ≤ LOGBLOCKS) :
  FileSound sb (o.log addr data) f i
    ∧ ∀ p c, (f i).byte o.view p = some c → (f i).byte (o.log addr data).view p
        = some (if p / BSIZE = bn then data.byteAt (p % BSIZE) else c)
  := by
  subst haddr
  have hcontent := hs.consistent.content (blockCell_ne_last i bn) h0
  obtain ⟨hcons, hcell⟩ := hs.consistent.log_data hcontent.data hcontent.indirect hlen
  have hne : ∀ {bn'}, bn' < MAXFILE → sb.cell o.view f (blockCell i bn') ≠ 0 → bn' ≠ bn →
      sb.cell o.view f (blockCell i bn') ≠ sb.cell o.view f (blockCell i bn) := by
    intro bn' hbn' h0' hne heq
    exact hne (blockCell_inj hbn' hbn (hs.consistent.owned.own.unique _ _ h0' heq))
  refine ⟨⟨hcons, hs.live, ?_⟩, ?_⟩
  · intro bn' hbn' h0'
    rw [hcell] at h0' ⊢
    apply Obs.Settled.log hs.consistent.pinned
    by_cases hthis : bn' = bn
    · exact .inr (by rw [hthis])
    · exact .inl (hs.legible bn' hbn' h0')
  · intro p c hbyte
    obtain ⟨hp, hp0, rfl⟩ := cell_of_byte hs.live hbyte
    rw [byte_of_cell hs.live hp (congrFun hcell _) hp0, Obs.log_view]
    split_ifs with hthis
    · rw [hthis, update_self]
    · rw [update_of_ne (hne hp hp0 hthis)]

/-- One more piece has been written. -/
theorem Patched.piece {tot addr : ℕ}
    (h : Patched (f i) o.view off tot (s.bytes src) (f₁ i) o₁.view) (hs : FileSound sb o₁ f₁ i)
    (hbn : (off + tot) / BSIZE < MAXFILE)
    (haddr : sb.cell o₁.view f₁ (blockCell i ((off + tot) / BSIZE)) = addr) (h0 : addr ≠ 0)
    (hread : s.readable (src + tot) (pieceLength off n tot) = pieceLength off n tot)
    (hlen : (o₁.log addr (pieceData s src off n tot (o₁.view addr))).lh.length ≤ LOGBLOCKS) :
  Patched (f i) o.view off (tot + pieceLength off n tot) (s.bytes src) (f₁ i)
    (o₁.log addr (pieceData s src off n tot (o₁.view addr))).view
  := by
  obtain ⟨-, hbyte⟩ := hs.log_block hbn haddr h0 hlen
  have hle : pieceLength off n tot ≤ BSIZE - (off + tot) % BSIZE := Nat.min_le_right _ _
  have hdata : pieceData s src off n tot (o₁.view addr) = (o₁.view addr).patch ((off + tot) % BSIZE)
      (pieceLength off n tot) (s.bytes (src + tot)) := by rw [pieceData, hread]
  have hhere : ∀ {p}, p / BSIZE = (off + tot) / BSIZE →
      (f₁ i).byte o₁.view p = some ((o₁.view addr).byteAt (p % BSIZE)) := by
    intro p hp
    exact byte_of_cell hs.live (hp ▸ hbn) (hp ▸ haddr) h0
  constructor
  · intro k hk
    by_cases hold : k < tot
    · rw [hbyte _ _ (h.inside k hold)]
      split_ifs with hthis
      · have hkept := (hhere hthis).symm.trans (h.inside k hold)
        rw [hdata, Bytes.byteAt_patch_of_not_mem]
        · exact hkept
        · left
          simp only [BSIZE] at *
          omega
      · rfl
    · obtain ⟨l, rfl⟩ := Nat.exists_eq_add_of_le (Nat.le_of_not_lt hold)
      have hdiv : (off + (tot + l)) / BSIZE = (off + tot) / BSIZE := by
        simp only [BSIZE] at *
        omega
      have hmod : (off + (tot + l)) % BSIZE = (off + tot) % BSIZE + l := by
        simp only [BSIZE] at *
        omega
      rw [hbyte _ _ (hhere hdiv), if_pos hdiv, hmod, hdata, Bytes.byteAt_patch]
      · simp only [Source.bytes, Nat.add_assoc]
      · simp only [BSIZE] at *
        omega
      · omega
  · intro p c hp hc
    have hkept := h.outside p c (by omega) hc
    rw [hbyte p c hkept]
    split_ifs with hthis
    · have hsame := (hhere hthis).symm.trans hkept
      rw [hdata, Bytes.byteAt_patch_of_not_mem]
      · exact hsame
      · simp only [BSIZE] at *
        omega
    · rfl

theorem wp_writeiLoop_patched {Q : ℕ × Inode → Machine → Prop}
    (hC : Tolerates C) (hmax : off + n ≤ MAXFILE * BSIZE) (hm : m.obs = o) (hs : FileSound sb o f i)
    (hshort : ∀ tot ip m', tot < n → Q (tot, ip) m')
    (h : ∀ f' m', FileSound sb m'.obs f' i →
      Patched (f i) o.view off n (s.bytes src) (f' i) m'.obs.view → Q (n, f' i) m') :
  wp (writeiLoop sb s src off n n 0 (f i)) Q C m
  := by
  apply wp_writeiLoop (fun tot ip m => ∃ f', f' i = ip ∧ FileSound sb m.obs f' i
    ∧ Patched (f i) o.view off tot (s.bytes src) (f' i) m.obs.view) hC
  · rintro _ m ⟨f', rfl, hs', hpatched⟩
    exact h f' m hs' hpatched
  · rintro tot _ m htot ⟨f', rfl, hs', hpatched⟩
    apply wp_bmap_carried hC (Or.inl (block_lt hmax htot)) rfl hs'
    intro hbn addr f₁ m₁ hmapped hcar
    refine ⟨fun _ => hshort _ _ _ htot, fun haddr => ⟨hcar.consistent.pinned, ?_, fun _ _ _ _ _ =>
      hshort _ _ _ htot⟩⟩
    intro hread m₂ h₂ hlen
    rw [h₂] at hlen
    have hsound := (hcar.toFileSound.log_block hbn hmapped.cell haddr hlen).1
    have hpiece := (hpatched.carried hcar).piece hcar.toFileSound hbn hmapped.cell haddr hread hlen
    rw [← h₂] at hsound hpiece
    exact ⟨f₁, rfl, hsound, hpiece⟩
  · omega
  · exact Nat.zero_le n
  · rw [hm]
    exact ⟨f, rfl, hs, fun k hk => absurd hk (Nat.not_lt_zero k), fun p c _ hc => hc⟩

/-- The inode gets a size. -/
theorem wp_iupdate_carried {Q : Unit → Machine → Prop}
    (hC : Tolerates C) (hm : m.obs = o) (hs : FileSound sb o f i) (hk : k < 2 ^ 32)
    (h : ∀ m', Carried sb i o f m'.obs (update f i ((f i).setSize k)) → Q () m') :
  wp (iupdate sb ((f i).setSize k)) Q C m
  := by
  apply wp_iupdate_size hC hm hs.consistent hs.live.1 hk
  intro m' hsaved hcell hdisk hspared
  have hlive : sb.Live (update f i ((f i).setSize k)) i := by
    refine ⟨hs.live.1, ?_⟩
    rw [update_self]
    exact hs.live.2
  apply h
  apply Carried.of_spared hs.live
  · refine ⟨hsaved.consistent, hlive, ?_⟩
    intro bn hbn h0
    rw [hcell] at h0 ⊢
    exact (hspared _ (hs.consistent.owned.data h0)).settled hdisk (hs.legible bn hbn h0)
  · intro bn _ h0
    exact ⟨congrFun hcell _, (hspared _ (hs.consistent.owned.data h0)).view⟩

/-- A `writei` that returns the number of bytes it was asked to write has written them. -/
theorem wp_writei_patched (hm : m.obs = o) (hs : FileSound sb o f i) (hn : n < 2 ^ 32) :
  wp (writei sb (f i) s src off n)
    (fun r m' => r.1 = n → off + n ≤ MAXFILE * BSIZE ∧ ∃ f', f' i = r.2 ∧ FileSound sb m'.obs f' i
      ∧ Patched (f i) o.view off n (s.bytes src) (f' i) m'.obs.view)
    (fun _ _ => True) m
  := by
  have hC : Tolerates (fun (_ : Fault) (_ : Machine) => True) := fun _ _ _ => trivial
  apply wp_writei_of_loop (hs.consistent.wf i hs.live.1).1 hn
  · intro _ hr
    simp only at hr
    omega
  intro hoff hmax
  apply wp_writeiLoop_patched hC hmax hm hs
  · intro tot ip m' htot
    apply wp_skip
    intro _ _ hr
    exact absurd (Int.ofNat.inj hr) (Nat.ne_of_lt htot)
  · intro f₁ m₁ hs₁ hpatched
    dsimp only
    apply wp_iupdate_carried hC rfl hs₁
    · have := (hs₁.consistent.wf i hs₁.live.1).1.size
      simp only [MAXFILE, NDIRECT, NINDIRECT, BSIZE] at hmax
      omega
    intro m₂ hcar _
    exact ⟨hmax, _, update_self .., hcar.toFileSound, hpatched.carried hcar⟩

end Write

end Xv6
