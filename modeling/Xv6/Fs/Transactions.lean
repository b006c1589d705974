import Xv6.Fs.Reservation

/-!
# What fits the reservation

`sys_unlink` reads two directories before it changes anything, and reading logs nothing.  With
that, the blocks that each of the calls logs are known from the state it starts in, and it keeps to
its reservation exactly if these are not too many.
-/

namespace Xv6

open Stop Superblock

/-! ### Reading is quiet -/

section Quiet

variable {alloc : Kernel ℕ} {log : ℕ → Kernel Unit} {α : Type}

instance quiet_bmapIndirectWith [Quiet logTracker alloc] [∀ b, Quiet logTracker (log b)] (ip : Inode)
    (l : Fin NINDIRECT) : Quiet logTracker (bmapIndirectWith alloc log ip l) := by
  unfold bmapIndirectWith
  infer_instance

instance quiet_bmapWith [Quiet logTracker alloc] [∀ b, Quiet logTracker (log b)] (ip : Inode) (bn : ℕ) :
    Quiet logTracker (bmapWith alloc log ip bn) := by
  unfold bmapWith
  infer_instance

variable {map : Inode → ℕ → Kernel (ℕ × Inode)} [∀ ip bn, Quiet logTracker (map ip bn)]

instance quiet_readiLoopWith (dst : ℕ → ℕ → Bool) (off n fuel tot : ℕ) (acc : List UInt8) (ip : Inode) :
    Quiet logTracker (readiLoopWith map dst off n fuel tot acc ip) := by
  induction fuel generalizing tot acc ip with
  | zero => exact quiet_pure _
  | succ fuel ih =>
    unfold readiLoopWith
    infer_instance

instance quiet_readiWith (ip : Inode) (dst : ℕ → ℕ → Bool) (off n : ℕ) :
    Quiet logTracker (readiWith map ip dst off n) := by
  unfold readiWith
  infer_instance

instance quiet_withInode {i : ℕ} {G : Inode → Kernel (α × Inode)} [∀ ip, Quiet logTracker (G ip)] :
    Quiet fsTracker (withInode i G) := by
  refine @quiet_bind _ _ _ _ _ _ _ _ _ _ (fun s => ?_)
  split
  · infer_instance
  · infer_instance

instance quiet_readInode (i : ℕ) (dst : ℕ → ℕ → Bool) (off n : ℕ) :
    Quiet fsTracker (readInode map i dst off n) := by
  unfold readInode
  infer_instance

instance quiet_iget (i : ℕ) : Quiet fsTracker (iget i) := by
  refine ⟨fun s => ?_⟩
  simp only [iget, wp_bind, wp_get]
  split
  · exact logTracker.refl s.machine
  · split_ifs
    · exact logTracker.refl s.machine
    · exact logTracker.refl s.machine

variable {read : ℕ → FsM (ℤ × List UInt8)} [∀ off, Quiet fsTracker (read off)]

instance quiet_dirlookupFromWith (size : ℕ) (name : CString) (fuel off : ℕ) :
    Quiet fsTracker (dirlookupFromWith read size name fuel off) := by
  induction fuel generalizing off with
  | zero => exact quiet_pure _
  | succ fuel ih =>
    unfold dirlookupFromWith
    infer_instance

instance quiet_isdiremptyFrom (size fuel off : ℕ) : Quiet fsTracker (isdiremptyFrom read size fuel off) := by
  induction fuel generalizing off with
  | zero => exact quiet_pure _
  | succ fuel ih =>
    unfold isdiremptyFrom
    infer_instance

end Quiet

/-! ### Reading keeps the table -/

/-- The file system is sound and its table is the one of `s₀`. -/
structure HasTable (sb : Superblock) (s₀ s : FileSys) : Prop where
  sound : Sound sb s
  slots : ∀ j, s.itable.lookup j = s₀.itable.lookup j

section Table

variable {sb : Superblock} {s₀ : FileSys} {i d : ℕ}

/-- The program reads, and comes to no harm. -/
abbrev Reads {α : Type} (sb : Superblock) (s₀ : FileSys) (x : FsM α) : Prop :=
  Preserves (HasTable sb s₀) (fun _ => True) x

theorem lookup_setSlot_self {s : FileSys} {slot : InodeEntry} (h : s.itable.lookup i = some slot) (j : ℕ) :
  (s.setSlot i slot).itable.lookup j = s.itable.lookup j
  := by
  by_cases hj : j = i
  · subst hj
    rw [h]
    exact AList.lookup_insert _
  · exact lookup_setSlot slot hj

/-- A function that is called with an inode and returns it as it is. -/
theorem reads_withInode {α : Type} {G : Inode → Kernel (α × Inode)} (hsafe : Safe sb (withInode i G))
    (h : ∀ m : Machine, Consistent sb m.obs (sb.inode m.obs.view) →
      sb.Live (sb.inode m.obs.view) i → NoHole sb m.obs.view (sb.inode m.obs.view) i →
      wp (G (sb.inode m.obs.view i)) (fun r _ => r.2 = sb.inode m.obs.view i) (fun _ _ => True) m) :
  Reads sb s₀ (withInode i G)
  := by
  intro s hs
  have htable : wp (withInode i G) (fun _ s' => ∀ j, s'.itable.lookup j = s.itable.lookup j)
      (fun _ _ => True) s := by
    simp only [withInode, wp_bind, wp_get]
    split
    · rename_i ref ip hslot
      obtain ⟨hlive, rfl⟩ := hs.sound.copies i ip (copy_of_lookup hslot)
      rw [wp_bind, wp_onDisk]
      apply wp_mono (h s.machine hs.sound.consistent hlive (hs.sound.noHole i hlive))
      · rintro ⟨a, ip'⟩ m' rfl
        exact lookup_setSlot_self hslot
      · intro _ _ _
        trivial
    · trivial
  apply wp_mono (wp_both (hsafe s hs.sound) htable)
  · rintro _ s' ⟨hsound, hslots⟩
    exact ⟨hsound, fun j => (hslots j).trans (hs.slots j)⟩
  · intro _ _ _
    trivial

theorem reads_inodeOf : Reads sb s₀ (inodeOf i) := by
  apply reads_withInode safe_inodeOf
  intro m _ _ _
  rfl

theorem reads_readDirent {off : ℕ} : Reads sb s₀ (readDirent sb d off) := by
  apply reads_withInode safe_readDirent
  intro m hcons hlive hno
  rw [wp_bind]
  apply wp_readi (fun _ _ _ => trivial) (Or.inr (fun _ => trivial)) rfl hcons hlive hno
  intro r de m' _
  rfl

theorem reads_isdirempty : Reads sb s₀ (isdirempty sb d) := by
  have hloop : ∀ size fuel off, Reads sb s₀ (isdiremptyFrom (readDirent sb d) size fuel off) := by
    intro size fuel
    induction fuel with
    | zero =>
      intro off
      exact preserves_pure _
    | succ fuel ih =>
      intro off
      unfold isdiremptyFrom
      split_ifs
      · apply reads_readDirent.bind
        rintro ⟨r, de⟩
        dsimp only
        split_ifs
        · exact preserves_throw trivial
        · exact preserves_pure _
        · exact ih _
      · exact preserves_pure _
  apply reads_inodeOf.bind
  intro dp
  exact hloop _ _ _

theorem reads_nonempty {type : ℕ} : Reads sb s₀ (nonempty sb d type) := by
  unfold nonempty
  split_ifs
  · exact Preserves.ret reads_isdirempty
  · exact preserves_pure _

end Table

/-! ### The entry that is found -/

section Entry

variable {sb : Superblock} {m : Machine} {ip : Inode} {off n : ℕ} {dst : ℕ → ℕ → Bool}

theorem wp_readiLoop_le {fuel tot : ℕ} {acc : List UInt8} (htot : tot ≤ n) :
  wp (readiLoop sb dst off n fuel tot acc ip) (fun r _ => r.1 ≤ n) (fun _ _ => True) m
  := by
  induction fuel generalizing tot acc ip m with
  | zero => exact Int.ofNat_le.mpr htot
  | succ fuel ih =>
    unfold readiLoop
    by_cases hlt : tot < n
    · rw [if_pos hlt, wp_bind]
      apply wp_skip
      rintro ⟨addr, ip'⟩ m₁
      dsimp only
      by_cases haddr : addr = 0
      · rw [if_pos haddr]
        exact Int.ofNat_le.mpr htot
      · rw [if_neg haddr, wp_bind]
        apply wp_skip
        intro data m₂
        rw [wp_bind]
        apply wp_skip
        intro _ m₃
        by_cases hdst : dst tot (pieceLength off n tot) = false
        · rw [if_pos hdst, wp_pure]
          dsimp only
          omega
        · rw [if_neg hdst]
          apply ih
          have hle : pieceLength off n tot ≤ n - tot := pieceLength_le
          omega
    · rw [if_neg hlt]
      exact Int.ofNat_le.mpr htot

/-- Nothing is read beyond the size. -/
theorem wp_readi_le (hn : 0 < n) :
  wp (readi sb ip dst off n) (fun r _ => r.1 = n → off + n ≤ ip.size) (fun _ _ => True) m
  := by
  unfold readi
  split_ifs with hrange hend
  · rw [wp_pure]
    intro hr
    simp only at hr
    omega
  · apply wp_mono (wp_readiLoop_le (Nat.zero_le _)) _ (fun _ _ _ => trivial)
    intro r _ hle hr
    rw [not_or] at hrange
    omega
  · apply wp_skip
    intro r _ _
    exact not_lt.mp hend

end Entry

/-- `dirlookup` has returned `r` in `s'`, for a directory of the given size. -/
def Looked (sb : Superblock) (s₀ : FileSys) (size : ℕ) : Option (ℕ × ℕ) → FileSys → Prop
  | none, s' => HasTable sb s₀ s'
  | some (inum, off), s' => Sound sb s' ∧ off % DIRENT = 0 ∧ off + DIRENT ≤ size
      ∧ ∀ j, j ≠ inum → s'.itable.lookup j = s₀.itable.lookup j

section Lookup

variable {sb : Superblock} {s₀ s : FileSys} {d ref : ℕ} {dp : Inode} {name : CString}

theorem wp_readDirent_le {off : ℕ} (hs : HasTable sb s₀ s)
    (hd : s₀.itable.lookup d = some ⟨ref, some dp⟩) :
  wp (readDirent sb d off) (fun r s' => HasTable sb s₀ s' ∧ (r.1 = DIRENT → off + DIRENT ≤ dp.size))
    (fun _ _ => True) s
  := by
  have hle : wp (readDirent sb d off) (fun r _ => r.1 = DIRENT → off + DIRENT ≤ dp.size)
      (fun _ _ => True) s := by
    simp only [readDirent, withInode, wp_bind, wp_get, hs.slots, hd, wp_onDisk]
    exact wp_readi_le (by decide)
  exact wp_mono (wp_both (reads_readDirent s hs) hle) (fun _ _ h => h) (fun _ _ _ => trivial)

theorem wp_iget_slots (i : ℕ) :
  wp (iget i) (fun _ s' => ∀ j, j ≠ i → s'.itable.lookup j = s.itable.lookup j) (fun _ _ => True) s
  := by
  simp only [iget, wp_bind, wp_get]
  split
  · intro j hj
    exact lookup_setSlot _ hj
  · split_ifs
    · intro j hj
      exact lookup_setSlot _ hj
    · trivial

theorem wp_dirlookupFrom {size fuel off : ℕ} (hs : HasTable sb s₀ s)
    (hd : s₀.itable.lookup d = some ⟨ref, some dp⟩) (hoff : off % DIRENT = 0) :
  wp (dirlookupFrom sb d size name fuel off) (Looked sb s₀ dp.size) (fun _ _ => True) s
  := by
  induction fuel generalizing off s with
  | zero => exact hs
  | succ fuel ih =>
    have hnext : (off + DIRENT) % DIRENT = 0 := by rw [Nat.add_mod_right, hoff]
    unfold dirlookupFrom
    by_cases hlt : off < size
    · rw [if_pos hlt, wp_bind]
      apply wp_mono (wp_readDirent_le hs hd) _ (fun _ _ _ => trivial)
      rintro ⟨r, de⟩ s₁ ⟨hs₁, hle⟩
      dsimp only at hle ⊢
      by_cases hr : r = DIRENT
      · rw [if_neg (not_not.mpr hr)]
        by_cases hzero : direntInum de = 0
        · rw [if_pos hzero]
          exact ih hs₁ hnext
        · rw [if_neg hzero]
          by_cases hname : namecmp name (direntName de) = 0
          · rw [if_pos hname, wp_bind]
            apply wp_mono (wp_both (safe_iget s₁ hs₁.sound) (wp_iget_slots _)) _ (fun _ _ _ => trivial)
            rintro _ s₂ ⟨hsound, hslots⟩
            exact ⟨hsound, hoff, hle hr, fun j hj => (hslots j hj).trans (hs₁.slots j)⟩
          · rw [if_neg hname]
            exact ih hs₁ hnext
      · rw [if_pos hr]
        trivial
    · rw [if_neg hlt]
      exact hs

theorem wp_dirlookup (hs : Sound sb s) (hd : s.itable.lookup d = some ⟨ref, some dp⟩) :
  wp (dirlookup sb d name) (Looked sb s dp.size) (fun _ _ => True) s
  := by
  unfold dirlookup
  rw [wp_bind]
  apply wp_mono (reads_inodeOf s ⟨hs, fun _ => rfl⟩) _ (fun _ _ _ => trivial)
  intro ip s₁ hs₁
  by_cases hdir : ip.type = T_DIR
  · rw [if_neg (not_not.mpr hdir)]
    exact wp_dirlookupFrom hs₁ hd (Nat.zero_mod _)
  · rw [if_pos hdir]
    trivial

theorem wp_ilock_slots (i : ℕ) :
  wp (ilock sb i) (fun _ s' => ∀ j, j ≠ i → s'.itable.lookup j = s.itable.lookup j) (fun _ _ => True) s
  := by
  simp only [ilock, wp_bind, wp_get]
  split
  · rw [wp_bind, wp_onDisk]
    apply wp_skip
    intro data m₁
    rw [wp_bind, wp_onDisk]
    apply wp_skip
    intro _ m₂
    rw [wp_bind, wp_modify]
    split_ifs
    · trivial
    · intro j hj
      exact lookup_setSlot _ hj
  · intro _ _
    rfl
  · trivial

instance quiet_ilock (i : ℕ) : Quiet fsTracker (ilock sb i) := by
  refine @quiet_bind _ _ _ _ _ _ _ _ _ _ (fun s => ?_)
  split
  · infer_instance
  · infer_instance
  · infer_instance

end Lookup

/-! ### The blocks of a call -/

/-- What `T` gives for the end of a run, and nothing if the run stops. -/
def atEnd {α : Type} (x : FsM α) (T : α → FileSys → Finset ℕ) (s : FileSys) : Finset ℕ :=
  match x s with
  | .ok a s' => T a s'
  | .error _ _ => ∅

/-- The blocks that `sys_open` logs to truncate a file. -/
def openTruncBlocks (sb : Superblock) (s : FileSys) (i : ℕ) : Finset ℕ :=
  match s.itable.lookup i with
  | some ⟨_, some ip⟩ =>
    if ip.type = T_FILE then freeMaps sb s.machine.view ip ∪ {sb.iblock i} else ∅
  | _ => ∅

/-- The blocks that `sys_unlink` logs once the inode has been found and locked. -/
def foundBlocks (sb : Superblock) (d inum off : ℕ) : FileSys → Finset ℕ :=
  atEnd (inodeOf inum) fun ip =>
    if ip.links < 1 then fun _ => ∅
    else
      atEnd (nonempty sb inum ip.type) fun full s =>
        if full then iputBlocks sb s.machine.view (s.itable.lookup d)
        else removeBlocks sb s d inum off (ip.type = T_DIR)

/-- The blocks that `sys_unlink` logs. -/
def unlinkBlocks (sb : Superblock) (d : ℕ) (name : CString) (s : FileSys) : Finset ℕ :=
  if namecmp name (CString.ofList [46]) = 0 ∨ namecmp name (CString.ofList [46, 46]) = 0 then
    iputBlocks sb s.machine.view (s.itable.lookup d)
  else
    atEnd (dirlookup sb d name) (fun r s =>
      match r with
      | none => iputBlocks sb s.machine.view (s.itable.lookup d)
      | some (inum, off) => atEnd (ilock sb inum) (fun _ => foundBlocks sb d inum off) s) s

/-- The call logs the blocks `T`, unless `log_write` stops it. -/
def LogsAll {α : Type} (T : Finset ℕ) (X : Caller ℕ Fault Machine FileSys α) (s : FileSys) : Prop :=
  wpc fsTracker logWrite X (fun S _ _ => S = T) (fun S e s' => S = T ∨ S ⊆ T ∧ LogFault e s'.machine) s

section Calls

variable {α β : Type} {sb : Superblock} {s : FileSys} {d i inum off ref dref : ℕ} {ip dp : Inode}
  {F : α → Caller ℕ Fault Machine FileSys β} {X : Caller ℕ Fault Machine FileSys α}
  {T : α → FileSys → Finset ℕ} {x : FsM α}

theorem Exactly.logsAll {T : Finset ℕ} {Q : α → FileSys → Prop}
    (h : Exactly T X Q s) : LogsAll T X s :=
  wpc_mono h (fun _ _ _ h => h.1) (fun _ _ _ h => Or.inr h)

/-- The call starts with a part that runs in the same way whatever `log_write` is. -/
theorem logs_atEnd (hquiet : Quiet fsTracker x) (halike : ∀ log, X log s = x s)
    (h : wp (X logWrite) (fun a s' => LogsAll (T a s') (F a) s') (fun _ _ => True) s) :
  LogsAll (atEnd (X logWrite) T s) (fun log => X log >>= fun a => F a log) s
  := by
  apply wpc_bind
  apply wpc_alike hquiet halike
  simp only [Finset.empty_union]
  unfold atEnd
  unfold wp at h ⊢
  cases hrun : X logWrite s with
  | ok a s' =>
    rw [hrun] at h
    exact h
  | error e s' =>
    left
    rfl

theorem logs_const [hx : Quiet fsTracker x]
    (h : wp x (fun a s' => LogsAll (T a s') (F a) s') (fun _ _ => True) s) :
  LogsAll (atEnd x T s) (fun log => x >>= fun a => F a log) s
  := logs_atEnd (X := fun _ => x) hx (fun _ => rfl) h

theorem logs_openTrunc (hs : Sound sb s) (hslot : s.itable.lookup i = some ⟨ref, some ip⟩) :
  LogsAll (openTruncBlocks sb s i) (fun log => openTruncWith log sb i) s
  := by
  obtain ⟨hlive, rfl⟩ := hs.copies i ip (copy_of_lookup hslot)
  apply wpc_withInode hslot
  simp only [openTruncBlocks, hslot]
  by_cases hfile : (s.inodes sb i).type = T_FILE
  · simp only [if_pos hfile]
    apply wpc_bind
    apply wpc_mono (wpc_itrunc_cons rfl hs.consistent hlive)
    · rintro S r m' ⟨-, rfl, -⟩
      exact wpc_pure (Finset.union_empty _)
    · rintro S e m' h
      exact Or.inr h
  · simp only [if_neg hfile]
    exact wpc_pure rfl

theorem logs_unlinkBad (hs : Sound sb s) :
  LogsAll (iputBlocks sb s.machine.view (s.itable.lookup d)) (fun log => unlinkBadWith log sb d) s
  := by
  apply Exactly.logsAll (Q := fun _ _ => True)
  rw [← Finset.union_empty (iputBlocks sb s.machine.view (s.itable.lookup d))]
  apply Exactly.bind
  apply (exactly_iput hs).mono
  intro _ _ _
  exact Exactly.pure trivial

/-- A directory that is not empty stays. -/
theorem logs_full (hs : Sound sb s) (hd : s.itable.lookup d = some ⟨dref, some dp⟩)
    (hi : s.itable.lookup inum = some ⟨ref, some ip⟩) (hne : inum ≠ d) (hlinks : ip.nlink ≠ 0) :
  LogsAll (iputBlocks sb s.machine.view (s.itable.lookup d)) (fun log => do
    iputWith log sb inum
    unlinkBadWith log sb d) s
  := by
  obtain ⟨hlive, hip⟩ := hs.copies inum ip (copy_of_lookup hi)
  obtain ⟨hlived, hdp⟩ := hs.copies d dp (copy_of_lookup hd)
  have hput := exactly_iput (i := inum) hs
  have hnone : iputBlocks sb s.machine.view (s.itable.lookup inum) = ∅ := by
    rw [hi]
    exact if_neg (fun h => hlinks h.2)
  have hspares : Spares sb s d (iputBlocks sb s.machine.view (s.itable.lookup inum)
      ∪ {(s.inodes sb inum).indirect}) := by
    apply spares_iputBlocks hs hlived hlive _ hne.symm
    rw [hi]
    rintro _ _ ⟨⟩
    exact hip
  rw [hnone] at hput hspares
  apply wpc_bind
  apply wpc_mono hput
  · rintro S _ s₁ ⟨rfl, h₁⟩
    have hd₁ : s₁.itable.lookup d = some ⟨dref, some dp⟩ := (h₁.slots d hne.symm).trans hd
    have hblocks : iputBlocks sb s₁.machine.view (s₁.itable.lookup d)
        = iputBlocks sb s.machine.view (s.itable.lookup d) := by
      rw [hd, hd₁]
      exact iputBlocks_congr (h₁.view_indirect hs hd hspares)
    simp only [Finset.empty_union]
    rw [← hblocks]
    exact logs_unlinkBad h₁.sound
  · rintro S e s₁ ⟨hS, hfault⟩
    exact Or.inr ⟨hS.trans (Finset.empty_subset _), hfault⟩

theorem wp_inodeOf (hs : Sound sb s) :
  wp (inodeOf i) (fun ip s' => HasTable sb s s' ∧ ∃ ref, s.itable.lookup i = some ⟨ref, some ip⟩)
    (fun _ _ => True) s
  := by
  have hread : wp (inodeOf i) (fun ip _ => ∃ ref, s.itable.lookup i = some ⟨ref, some ip⟩)
      (fun _ _ => True) s := by
    simp only [inodeOf, withInode, wp_bind, wp_get]
    split
    · rename_i ref ip hslot
      exact ⟨ref, hslot⟩
    · trivial
  exact wp_mono (wp_both (reads_inodeOf s ⟨hs, fun _ => rfl⟩) hread) (fun _ _ h => h)
    (fun _ _ _ => trivial)

instance quiet_inodeOf (i : ℕ) : Quiet fsTracker (inodeOf i) := by
  unfold inodeOf
  infer_instance

/-- The functions that read, where allocating and logging stop them. -/
def readonly : Inode → ℕ → Kernel (ℕ × Inode) := bmapWith (throw (.panic "")) (fun _ => throw (.panic ""))

instance quiet_readonly (ip : Inode) (bn : ℕ) : Quiet logTracker (readonly ip bn) := by
  unfold readonly
  infer_instance

/-- `nonempty` without allocating and logging. -/
def nonemptyReadonly (inum type : ℕ) : FsM Bool := do
  if type = T_DIR then
    let empty ← isdiremptyWith readonly inum
    return !empty
  else return false

instance quiet_nonemptyReadonly (inum type : ℕ) : Quiet fsTracker (nonemptyReadonly inum type) := by
  unfold nonemptyReadonly isdiremptyWith
  infer_instance

instance quiet_dirlookup (name : CString) : Quiet fsTracker (dirlookupWith readonly d name) := by
  unfold dirlookupWith
  infer_instance

theorem isdiremptyWith_run (hs : Sound sb s) (log : ℕ → Kernel Unit) :
  isdiremptyWith (bmapWith (ballocWith log sb) log) inum s = isdiremptyWith readonly inum s
  := by
  rw [← alike_isdirempty s hs]
  exact alike_isdirempty s hs

theorem dirlookupWith_run (hs : Sound sb s) (name : CString) (log : ℕ → Kernel Unit) :
  dirlookupWith (bmapWith (ballocWith log sb) log) d name s = dirlookupWith readonly d name s
  := by
  rw [← alike_dirlookup name s hs]
  exact alike_dirlookup name s hs

theorem nonemptyWith_run {type : ℕ} (hs : Sound sb s) (log : ℕ → Kernel Unit) :
  nonemptyWith log sb inum type s = nonemptyReadonly inum type s
  := by
  unfold nonemptyWith nonemptyReadonly
  split_ifs
  · apply run_bind_congr (C := fun _ _ => True) (isdiremptyWith_run hs log)
    exact wp_mono wp_trivial (fun _ _ _ => rfl) (fun _ _ he => he)
  · rfl

theorem nlink_ne_zero (h : ¬ ip.links < 1) : ip.nlink ≠ 0 := by
  intro hzero
  apply h
  rw [Inode.links, hzero]
  decide

theorem logs_unlinkFound (hs : Sound sb s) (hd : s.itable.lookup d = some ⟨dref, some dp⟩) (hne : inum ≠ d)
    (hoff : off % DIRENT = 0) (hsize : off + DIRENT ≤ dp.size) (hmax : dp.size ≤ MAXFILE * BSIZE) :
  LogsAll (foundBlocks sb d inum off s) (fun log => unlinkFoundWith log sb d inum off) s
  := by
  apply logs_const
  apply wp_mono (wp_inodeOf hs) _ (fun _ _ _ => trivial)
  rintro ip s₁ ⟨h₁, ref, hi⟩
  by_cases hlinks : ip.links < 1
  · simp only [if_pos hlinks]
    exact wpc_const (Or.inl rfl)
  · simp only [if_neg hlinks]
    rw [nonempty_eq]
    apply logs_atEnd (quiet_nonemptyReadonly inum ip.type) (nonemptyWith_run h₁.sound)
    rw [← nonempty_eq]
    apply wp_mono (reads_nonempty s₁ ⟨h₁.sound, fun _ => rfl⟩) _ (fun _ _ _ => trivial)
    intro full s₂ h₂
    have hi₂ : s₂.itable.lookup inum = some ⟨ref, some ip⟩ := ((h₂.slots _).trans (h₁.slots _)).trans hi
    have hd₂ : s₂.itable.lookup d = some ⟨dref, some dp⟩ := ((h₂.slots _).trans (h₁.slots _)).trans hd
    cases full with
    | true => exact logs_full h₂.sound hd₂ hi₂ hne (nlink_ne_zero hlinks)
    | false => exact (exactly_remove h₂.sound hd₂ hi₂ hne hoff hsize hmax).logsAll

/-- The entry that is found names an inode of the file system, and not the directory itself. -/
def FindsOther (sb : Superblock) (d : ℕ) (name : CString) (s : FileSys) : Prop :=
  match dirlookup sb d name s with
  | .ok (some (inum, _)) _ => inum < sb.ninodes ∧ inum ≠ d
  | _ => True

theorem logs_sysUnlink {name : CString} (hs : Sound sb s) (hd : s.itable.lookup d = some ⟨dref, some dp⟩)
    (hmax : dp.size ≤ MAXFILE * BSIZE) (hfinds : FindsOther sb d name s) :
  LogsAll (unlinkBlocks sb d name s) (fun log => sysUnlinkWith log sb d name) s
  := by
  unfold sysUnlinkWith unlinkBlocks
  split_ifs with hdots
  · exact logs_unlinkBad hs
  · rw [dirlookup_eq, ← bmapWith_eq]
    apply logs_atEnd (quiet_dirlookup name) (dirlookupWith_run hs name)
    rw [bmapWith_eq, ← dirlookup_eq]
    have hlooked : wp (dirlookup sb d name) (Looked sb s dp.size) (fun _ _ => True) s := wp_dirlookup hs hd
    unfold FindsOther at hfinds
    unfold wp at hlooked ⊢
    cases hrun : dirlookup sb d name s with
    | error e s₁ => trivial
    | ok r s₁ =>
      rw [hrun] at hlooked hfinds
      cases r with
      | none => exact logs_unlinkBad hlooked.sound
      | some found =>
        obtain ⟨inum, off⟩ := found
        obtain ⟨hsound, hoff, hsize, hslots⟩ := hlooked
        obtain ⟨hinum, hne⟩ := hfinds
        apply logs_const
        apply wp_mono (wp_both (safe_ilock hinum s₁ hsound) (wp_ilock_slots inum)) _
          (fun _ _ _ => trivial)
        rintro _ s₂ ⟨hsound₂, hslots₂⟩
        have hd₂ : s₂.itable.lookup d = some ⟨dref, some dp⟩ :=
          ((hslots₂ d hne.symm).trans (hslots d hne.symm)).trans hd
        exact logs_unlinkFound hsound₂ hd₂ hne hoff hsize hmax

end Calls

end Xv6
