import Xv6.Fs.Freeing

/-!
# Transactions that free a file

`fileclose` with the last reference, `sys_open` with `O_TRUNC` and `sys_unlink` free the blocks of
a file in one transaction, for which `begin_op` has reserved room for `MAXOPBLOCKS` blocks.
-/

namespace Xv6

open Stop Superblock Function

/-! ### The calls -/

/-- `sys_open` with `O_TRUNC`, once the inode has been locked and a descriptor has been found. -/
def openTrunc (sb : Superblock) (i : ℕ) : FsM Unit :=
  withInode i fun ip => do
    if ip.type = T_FILE then
      let ip ← itrunc sb ip
      return ((), ip)
    else return ((), ip)

/-! ### The calls with another `log_write` inside -/

def openTruncWith (log : ℕ → Kernel Unit) (sb : Superblock) (i : ℕ) : FsM Unit :=
  withInode i fun ip => do
    if ip.type = T_FILE then
      let ip ← itruncWith log sb ip
      return ((), ip)
    else return ((), ip)

def iputWith (log : ℕ → Kernel Unit) (sb : Superblock) (i : ℕ) : FsM Unit := do
  let s ← get
  match s.itable.lookup i with
  | some { ref, copy } =>
    match copy with
    | some ip =>
      if ref = 1 ∧ ip.nlink = 0 then
        let ip ← onDisk (itruncWith log sb ip)
        onDisk (iupdateWith log sb (ip.setType 0))
    | none => pure ()
    if ref = 1 then modify (·.dropSlot i) else modify (·.setSlot i { ref := ref - 1, copy })
  | none => return ()

def updateInodeWith (log : ℕ → Kernel Unit) (sb : Superblock) (i : ℕ) (g : Inode → Inode) : FsM Unit :=
  withInode i fun ip => do
    iupdateWith log sb (g ip)
    return ((), g ip)

def unlinkBadWith (log : ℕ → Kernel Unit) (sb : Superblock) (d : ℕ) : FsM ℤ := do
  iputWith log sb d
  return -1

def nonemptyWith (log : ℕ → Kernel Unit) (sb : Superblock) (inum type : ℕ) : FsM Bool := do
  if type = T_DIR then
    let empty ← isdiremptyWith (bmapWith (ballocWith log sb) log) inum
    return !empty
  else return false

def unlinkFoundWith (log : ℕ → Kernel Unit) (sb : Superblock) (d inum off : ℕ) : FsM ℤ := do
  let ip ← inodeOf inum
  if ip.links < 1 then throw (.panic "unlink: nlink < 1")
  else
    let full ← nonemptyWith log sb inum ip.type
    if full then
      iputWith log sb inum
      unlinkBadWith log sb d
    else
      let r ← withInode d (fun dp => writeiWith log sb dp (.kernel fun _ => 0) 0 off DIRENT)
      if r ≠ DIRENT then throw (.panic "unlink: writei")
      else
        if ip.type = T_DIR then updateInodeWith log sb d (fun dp => dp.setNlink (dp.nlink + 65535))
        iputWith log sb d
        updateInodeWith log sb inum (fun ip => ip.setNlink (ip.nlink + 65535))
        iputWith log sb inum
        return 0

def sysUnlinkWith (log : ℕ → Kernel Unit) (sb : Superblock) (d : ℕ) (name : CString) : FsM ℤ := do
  if namecmp name (CString.ofList [46]) = 0 ∨ namecmp name (CString.ofList [46, 46]) = 0 then
    unlinkBadWith log sb d
  else
    match ← dirlookupWith (bmapWith (ballocWith log sb) log) d name with
    | none => unlinkBadWith log sb d
    | some (inum, off) => do
      ilock sb inum
      unlinkFoundWith log sb d inum off

section Source

variable {sb : Superblock} {i d : ℕ}

/-- The source has `log_write` there. -/
theorem openTrunc_eq : openTrunc sb i = openTruncWith logWrite sb i := rfl

theorem iput_eq : iput sb i = iputWith logWrite sb i := rfl

theorem bmapWith_eq (sb : Superblock) : bmapWith (ballocWith logWrite sb) logWrite = bmap sb := by
  rw [bmap_eq, balloc_eq]

theorem nonempty_eq (type : ℕ) : nonempty sb i type = nonemptyWith logWrite sb i type := by
  unfold nonempty nonemptyWith
  rw [bmapWith_eq, isdirempty_eq]

theorem unlinkFound_eq (inum off : ℕ) : unlinkFound sb d inum off = unlinkFoundWith logWrite sb d inum off := by
  unfold unlinkFound unlinkFoundWith
  simp only [nonempty_eq, writei_eq]
  rfl

theorem sysUnlink_eq (name : CString) : sysUnlink sb d name = sysUnlinkWith logWrite sb d name := by
  unfold sysUnlink sysUnlinkWith
  simp only [bmapWith_eq, dirlookup_eq, unlinkFound_eq]
  rfl

end Source

/-! ### The log and the table -/

/-- What the calls do to the log of the machine. -/
def fsTracker : Tracker ℕ FileSys where
  rel s S s' := logTracker.rel s.machine S s'.machine
  refl s := logTracker.refl s.machine
  trans := logTracker.trans

instance quiet_onDisk {α : Type} (x : Kernel α) [hx : Quiet logTracker x] : Quiet fsTracker (onDisk x) := by
  refine ⟨fun s => ?_⟩
  rw [wp_onDisk]
  exact hx.quiet s.machine

instance quiet_setSlot (i : ℕ) (slot : InodeEntry) :
    Quiet fsTracker (modify (·.setSlot i slot) : FsM PUnit) :=
  ⟨fun s => logTracker.refl s.machine⟩

instance quiet_dropSlot (i : ℕ) : Quiet fsTracker (modify (·.dropSlot i) : FsM PUnit) :=
  ⟨fun s => logTracker.refl s.machine⟩

section Rules

variable {α β : Type} {s : FileSys} {i : ℕ} {sb : Superblock}
  {C : Finset ℕ → Fault → FileSys → Prop} {Q : Finset ℕ → α → FileSys → Prop}

theorem onDisk_bind (x : Kernel α) (f : α → Kernel β) :
  onDisk (x >>= f) = onDisk x >>= fun a => onDisk (f a)
  := by
  funext s
  simp only [onDisk, Bind.bind, EStateM.bind]
  cases x s.machine with
  | ok a m => rfl
  | error e m => rfl

theorem wpc_onDisk {X : Caller ℕ Fault Machine Machine α}
    (h : wpc logTracker logWrite X (fun S a m => Q S a (s.setMachine m))
      (fun S e m => C S e (s.setMachine m)) s.machine) :
  wpc fsTracker logWrite (fun log => onDisk (X log)) Q C s
  := by
  obtain ⟨S, ⟨honly, heach⟩, hwp⟩ := h
  refine ⟨S, ⟨?_, ?_⟩, ?_⟩
  · intro q hq
    unfold onDisk
    rw [honly q hq]
  · intro b hb q e hother hstop
    obtain ⟨m', hm'⟩ := heach b hb q e hother hstop
    refine ⟨s.setMachine m', ?_⟩
    unfold onDisk
    rw [hm']
  · rw [wp_onDisk]
    exact hwp

/-- A function that is called with a locked inode. -/
theorem wpc_withInode {ref : ℕ} {ip : Inode} {G : (ℕ → Kernel Unit) → Inode → Kernel (α × Inode)}
    (hslot : s.itable.lookup i = some ⟨ref, some ip⟩)
    (h : wpc logTracker logWrite (fun log => G log ip)
      (fun S r m => Q S r.1 ((s.setMachine m).setSlot i ⟨ref, some r.2⟩))
      (fun S e m => C S e (s.setMachine m)) s.machine) :
  wpc fsTracker logWrite (fun log => withInode i (G log)) Q C s
  := by
  unfold withInode
  apply wpc_const_bind
  rw [wp_get, hslot]
  apply wpc_bind
  apply wpc_onDisk
  apply wpc_mono h
  · rintro S ⟨a, ip'⟩ m' hQ
    refine wpc_const_bind ?_
    apply wpc_pure
    rw [Finset.union_empty]
    exact hQ
  · intro S e m' hC
    exact hC

end Rules

/-! ### Exact calls -/

/-- The call logs the blocks `T`, unless `log_write` stops it. -/
def Exactly {α : Type} (T : Finset ℕ) (X : Caller ℕ Fault Machine FileSys α) (Q : α → FileSys → Prop)
    (s : FileSys) : Prop :=
  wpc fsTracker logWrite X (fun S a s' => S = T ∧ Q a s')
    (fun S e s' => S ⊆ T ∧ LogFault e s'.machine) s

section Exactly

variable {α β : Type} {T T' : Finset ℕ} {X : Caller ℕ Fault Machine FileSys α}
  {F : α → Caller ℕ Fault Machine FileSys β} {s : FileSys} {Q Q' : α → FileSys → Prop}

theorem Exactly.bind {Q : β → FileSys → Prop}
    (h : Exactly T X (fun a s' => Exactly T' (F a) Q s') s) :
  Exactly (T ∪ T') (fun log => X log >>= fun a => F a log) Q s
  := by
  apply wpc_bind
  apply wpc_mono h
  · rintro S a s' ⟨rfl, hF⟩
    apply wpc_mono hF
    · rintro S' b s'' ⟨rfl, hQ⟩
      exact ⟨rfl, hQ⟩
    · rintro S' e s'' ⟨hS', hfault⟩
      exact ⟨Finset.union_subset_union_right hS', hfault⟩
  · rintro S e s' ⟨hS, hfault⟩
    exact ⟨hS.trans Finset.subset_union_left, hfault⟩

theorem Exactly.mono (h : Exactly T X Q s) (hQ : ∀ a s', Q a s' → Q' a s') :
  Exactly T X Q' s
  := wpc_mono h (fun _ a s' h => ⟨h.1, hQ a s' h.2⟩) (fun _ _ _ h => h)

/-- What else is known when the call ends. -/
theorem Exactly.and {C : Fault → FileSys → Prop} (h : Exactly T X Q s)
    (h' : wp (X logWrite) Q' C s) :
  Exactly T X (fun a s' => Q a s' ∧ Q' a s') s
  := wpc_mono (wpc_and h h') (fun _ _ _ h => ⟨h.1.1, h.1.2, h.2⟩) (fun _ _ _ h => h.1)

/-- A part that logs nothing and does not stop. -/
theorem Exactly.const {x : FsM α} [Quiet fsTracker x] {Q : α → FileSys → Prop}
    (h : wp x Q (fun _ _ => False) s) :
  Exactly ∅ (fun _ => x) Q s
  := by
  apply wpc_const
  exact wp_mono h (fun _ _ hQ => ⟨rfl, hQ⟩) (fun _ _ hfalse => hfalse.elim)

theorem Exactly.pure {a : α} {Q : α → FileSys → Prop} (h : Q a s) :
  Exactly ∅ (fun _ => (Pure.pure a : FsM α)) Q s
  := Exactly.const h

end Exactly

/-! ### Dropping a reference -/

/-- The blocks that `iput` logs. -/
def iputBlocks (sb : Superblock) (view : ℕ → Block) : Option InodeEntry → Finset ℕ
  | some ⟨ref, some ip⟩ =>
    if ref = 1 ∧ ip.nlink = 0 then freeMaps sb view ip ∪ {sb.iblock ip.inum} else ∅
  | _ => ∅

/-- A step that concerns the inode `i` has changed the blocks `T` at most. -/
structure Apart (sb : Superblock) (i : ℕ) (T : Finset ℕ) (s s' : FileSys) : Prop where
  sound : Sound sb s'
  slots : ∀ j, j ≠ i → s'.itable.lookup j = s.itable.lookup j
  view : ∀ c ∉ T, s'.machine.view c = s.machine.view c

section Iput

variable {sb : Superblock} {s : FileSys} {i j : ℕ}

theorem lookup_setSlot (slot : InodeEntry) (hj : j ≠ i) :
  (s.setSlot i slot).itable.lookup j = s.itable.lookup j
  := AList.lookup_insert_ne hj

theorem lookup_dropSlot (hj : j ≠ i) : (s.dropSlot i).itable.lookup j = s.itable.lookup j :=
  AList.lookup_erase_ne hj

/-- `iput` behind the part that frees the inode. -/
theorem exactly_drop {ref : ℕ} {copy : Option Inode} :
  Exactly ∅ (fun _ => (if ref = 1 then modify (·.dropSlot i)
      else modify (·.setSlot i { ref := ref - 1, copy }) : FsM PUnit))
    (fun _ s' => s'.machine = s.machine ∧ ∀ j, j ≠ i → s'.itable.lookup j = s.itable.lookup j) s
  := by
  by_cases hone : ref = 1
  · simp only [if_pos hone]
    exact Exactly.const ⟨rfl, fun j hj => lookup_dropSlot hj⟩
  · simp only [if_neg hone]
    exact Exactly.const ⟨rfl, fun j hj => lookup_setSlot _ hj⟩

theorem exactly_iput_raw (hs : Sound sb s) :
  Exactly (iputBlocks sb s.machine.view (s.itable.lookup i)) (fun log => iputWith log sb i)
    (fun _ s' => (∀ j, j ≠ i → s'.itable.lookup j = s.itable.lookup j)
      ∧ ∀ c ∉ iputBlocks sb s.machine.view (s.itable.lookup i), c ≠ (s.inodes sb i).indirect →
        s'.machine.view c = s.machine.view c) s
  := by
  unfold iputWith
  apply wpc_const_bind
  rw [wp_get]
  cases hslot : s.itable.lookup i with
  | none => exact Exactly.pure ⟨fun _ _ => rfl, fun _ _ _ => rfl⟩
  | some slot =>
    obtain ⟨ref, _ | ip⟩ := slot
    · apply exactly_drop.mono
      rintro _ s' ⟨hm, hslots⟩
      exact ⟨hslots, fun c _ _ => by rw [hm]⟩
    · obtain ⟨hlive, rfl⟩ := hs.copies i ip (copy_of_lookup hslot)
      have hinum : (s.inodes sb i).inum = i := (hs.consistent.wf i hlive.1).2
      dsimp only [iputBlocks]
      by_cases hlast : ref = 1 ∧ (s.inodes sb i).nlink = 0
      · simp only [if_pos hlast, ← bind_assoc, ← onDisk_bind]
        rw [hinum]
        have hfree : Exactly (freeMaps sb s.machine.view (s.inodes sb i) ∪ {sb.iblock i})
            (fun log => onDisk (do
              let ip ← itruncWith log sb (s.inodes sb i)
              iupdateWith log sb (ip.setType 0)))
            (fun _ s' => s'.itable = s.itable
              ∧ ∀ c ∉ freeMaps sb s.machine.view (s.inodes sb i) ∪ {sb.iblock i},
                c ≠ (s.inodes sb i).indirect → s'.machine.view c = s.machine.view c) s := by
          apply wpc_onDisk
          apply wpc_mono (wpc_ifree rfl hs.consistent hlive)
          · rintro S _ m' ⟨rfl, hframe⟩
            exact ⟨rfl, rfl, hframe⟩
          · intro S e m' h
            exact h
        rw [← Finset.union_empty (freeMaps sb s.machine.view (s.inodes sb i) ∪ {sb.iblock i})]
        apply Exactly.bind
        apply hfree.mono
        rintro _ s₁ ⟨htable, hframe⟩
        apply exactly_drop.mono
        rintro _ s' ⟨hm, hslots⟩
        rw [Finset.union_empty]
        refine ⟨?_, ?_⟩
        · intro j hj
          rw [hslots j hj, htable]
        · intro c hc hne
          rw [hm, hframe c hc hne]
      · simp only [if_neg hlast]
        apply exactly_drop.mono
        rintro _ s' ⟨hm, hslots⟩
        exact ⟨hslots, fun c _ _ => by rw [hm]⟩

/-- `iput` logs the blocks for the inode that it frees, if it frees one. -/
theorem exactly_iput (hs : Sound sb s) :
  Exactly (iputBlocks sb s.machine.view (s.itable.lookup i)) (fun log => iputWith log sb i)
    (fun _ s' => Apart sb i (iputBlocks sb s.machine.view (s.itable.lookup i)
      ∪ {(s.inodes sb i).indirect}) s s') s
  := by
  apply ((exactly_iput_raw hs).and (safe_iput s hs)).mono
  rintro _ s' ⟨⟨hslots, hview⟩, hsound⟩
  refine ⟨hsound, hslots, ?_⟩
  intro c hc
  rw [Finset.notMem_union, Finset.mem_singleton] at hc
  exact hview c hc.1 hc.2

end Iput

/-! ### Changing an entry of a directory -/

section Write

variable {sb : Superblock} {m : Machine} {o : Obs} {f : ℕ → Inode} {i : ℕ}

variable {mem : ℕ → UInt8} {src off n : ℕ} (hm : m.obs = o) (hcons : Consistent sb o f)
  (hi : sb.Live f i) (hn : 0 < n) (hpiece : off % BSIZE + n ≤ BSIZE)

include hm hcons hi hn hpiece

/-- The loop of `writei` for a part of a block that the file has. -/
theorem wpc_writeiLoop_hit (hmax : off + n ≤ MAXFILE * BSIZE)
    (hne : sb.cell o.view f (blockCell i (off / BSIZE)) ≠ 0) :
  wpc logTracker logWrite (fun log => writeiLoopWith log sb (.kernel mem) src off n n 0 (f i))
    (fun S r m' => S = {sb.cell o.view f (blockCell i (off / BSIZE))} ∧ r = (n, f i)
      ∧ m'.obs.lh.length ≤ LOGBLOCKS
      ∧ ∃ data, m'.obs = o.log (sb.cell o.view f (blockCell i (off / BSIZE))) data)
    (fun S e m' => S ⊆ {sb.cell o.view f (blockCell i (off / BSIZE))} ∧ LogFault e m') m
  := by
  have hview : m.view = o.view := congrArg Obs.view hm
  have hbn : (off + 0) / BSIZE < MAXFILE := block_lt hmax hn
  have hlen : 0 + pieceLength off n 0 = n := by
    simp only [pieceLength, BSIZE] at *
    omega
  obtain ⟨k, rfl⟩ : ∃ k, n = k + 1 := Nat.exists_eq_succ_of_ne_zero (Nat.ne_of_gt hn)
  have hhit := wpc_bmap_hit hbn (hview.symm ▸ hne : sb.cell m.view f (blockCell i ((off + 0) / BSIZE)) ≠ 0)
  rw [hview] at hhit
  have hsame : wp (bmap sb (f i) ((off + 0) / BSIZE)) (fun _ m' => m'.obs = o) LogFault m := by
    apply wp_bmap (fun _ => LogFault.tolerates) (Or.inl hbn) hm hcons hi
    intro _ addr f' m' hmapped
    exact (hmapped.fresh.resolve_right (fun hzero => hne hzero.1)).2.1
  rw [← bmapWith_eq] at hsame
  unfold writeiLoopWith
  apply wpc_ite
  · intro _
    apply wpc_bind
    apply wpc_mono (wpc_and hhit hsame)
    · rintro S r m₁ ⟨⟨rfl, rfl⟩, h₁⟩
      simp only [Finset.empty_union]
      apply wpc_ite
      · intro hzero
        exact absurd hzero hne
      · intro _
        apply wpc_const_bind
        apply wp_bread_hold h₁
        intro m₂ h₂
        simp only [eitherCopyin, Bool.true_eq_false, if_false]
        apply wpc_log_block h₂ hcons.pinned
        · intro m₃ h₃ hroom
          rw [hlen]
          have hend : wpc logTracker logWrite
              (fun log => writeiLoopWith log sb (.kernel mem) src off (k + 1) k (k + 1) (f i))
              (fun S r m' => S = ∅ ∧ r = (k + 1, f i) ∧ m' = m₃) (fun _ _ _ => False) m₃ := by
            cases k with
            | zero => exact wpc_pure ⟨rfl, rfl, rfl⟩
            | succ k =>
              unfold writeiLoopWith
              apply wpc_ite (fun h => absurd h (Nat.lt_irrefl _))
              intro _
              exact wpc_pure ⟨rfl, rfl, rfl⟩
          apply wpc_mono hend
          · rintro S r m₄ ⟨rfl, rfl, rfl⟩
            exact ⟨Finset.union_empty _, rfl, hroom, _, h₃⟩
          · rintro S _ _ ⟨⟩
        · intro e m' hfault
          exact ⟨Finset.Subset.refl _, hfault⟩
    · rintro S e m' ⟨rfl, hfault⟩
      exact ⟨Finset.empty_subset _, hfault⟩
  · intro h0
    exact absurd hn h0

/-- Writing a part of a block that the file has. -/
theorem wpc_writei_hit (hsize : off + n ≤ (f i).size)
    (hmax : off + n ≤ MAXFILE * BSIZE) (hne : sb.cell o.view f (blockCell i (off / BSIZE)) ≠ 0) :
  wpc logTracker logWrite (fun log => writeiWith log sb (f i) (.kernel mem) src off n)
    (fun S r m' => S = {sb.cell o.view f (blockCell i (off / BSIZE)), sb.iblock i}
      ∧ r = ((n : ℤ), f i) ∧ ∀ c ∉ S, m'.view c = m.view c)
    (fun S e m' => S ⊆ {sb.cell o.view f (blockCell i (off / BSIZE)), sb.iblock i} ∧ LogFault e m') m
  := by
  have hsum : (off + n) % 2 ^ 32 = off + n := by
    simp only [MAXFILE, NDIRECT, NINDIRECT, BSIZE] at hmax
    omega
  unfold writeiWith
  apply wpc_ite
  · intro hrange
    omega
  intro _
  apply wpc_ite
  · intro hrange
    omega
  intro _
  apply wpc_bind
  apply wpc_mono (wpc_writeiLoop_hit hm hcons hi hn hpiece hmax hne)
  · rintro S r m₁ ⟨rfl, rfl, hlen, data, h₁⟩
    dsimp only
    rw [if_neg (Nat.not_lt.mpr hsize)]
    have hpinned : m₁.obs.Pinned := h₁ ▸ hcons.pinned.log
    have hpair : {sb.cell o.view f (blockCell i (off / BSIZE))} ∪ {sb.iblock i}
        = ({sb.cell o.view f (blockCell i (off / BSIZE)), sb.iblock i} : Finset ℕ) := rfl
    unfold iupdateWith
    rw [(hcons.wf i hi.1).2]
    simp only [bind_assoc]
    apply wpc_const_bind
    apply wp_bread_hold rfl
    intro m₂ h₂
    apply wpc_log_block h₂ hpinned
    · intro m₃ h₃ _
      apply wpc_pure
      rw [Finset.union_empty, hpair]
      refine ⟨rfl, rfl, ?_⟩
      intro c hc
      rw [Finset.mem_insert, Finset.mem_singleton, not_or] at hc
      have hview : m₃.view = _ := congrArg Obs.view h₃
      rw [hview, Obs.log_view, update_of_ne hc.2, h₁, Obs.log_view, update_of_ne hc.1, ← hm]
      rfl
    · intro e m' hfault
      exact ⟨Finset.Subset.refl _, hfault⟩
  · rintro S e m' ⟨hS, hfault⟩
    refine ⟨hS.trans ?_, hfault⟩
    exact Finset.singleton_subset_iff.mpr (Finset.mem_insert_self _ _)

end Write

section Steps

variable {sb : Superblock} {s s' : FileSys} {d i ref dref off : ℕ} {ip dp : Inode} {T : Finset ℕ}
  {isdir : Prop}

/-- The block of a directory with the entry at an offset. -/
def entryBlock (sb : Superblock) (s : FileSys) (d off : ℕ) : ℕ :=
  sb.cell s.machine.view (s.inodes sb) (blockCell d (off / BSIZE))

/-- An entry is cleared. -/
theorem exactly_clear (hs : Sound sb s) (hslot : s.itable.lookup d = some ⟨ref, some ip⟩)
    (hoff : off % DIRENT = 0) (hsize : off + DIRENT ≤ ip.size) (hmax : ip.size ≤ MAXFILE * BSIZE) :
  Exactly {entryBlock sb s d off, sb.iblock d}
    (fun log => withInode d (fun dp => writeiWith log sb dp (.kernel fun _ => 0) 0 off DIRENT))
    (fun r s' => r = DIRENT ∧ s'.itable.lookup d = some ⟨ref, some ip⟩
      ∧ Apart sb d {entryBlock sb s d off, sb.iblock d} s s') s
  := by
  obtain ⟨hlive, rfl⟩ := hs.copies d ip (copy_of_lookup hslot)
  have hbn : off / BSIZE < MAXFILE := by
    simp only [BSIZE, DIRENT] at *
    omega
  have hbelow : off / BSIZE * BSIZE < (s.inodes sb d).size := by
    simp only [BSIZE, DIRENT] at *
    omega
  have hpiece : off % BSIZE + DIRENT ≤ BSIZE := by
    simp only [BSIZE, DIRENT, DIRSIZ] at *
    omega
  have hwrite : Exactly {entryBlock sb s d off, sb.iblock d}
      (fun log => withInode d (fun dp => writeiWith log sb dp (.kernel fun _ => 0) 0 off DIRENT))
      (fun r s' => r = DIRENT ∧ s'.itable.lookup d = some ⟨ref, some (s.inodes sb d)⟩
        ∧ (∀ j, j ≠ d → s'.itable.lookup j = s.itable.lookup j)
        ∧ ∀ c ∉ ({entryBlock sb s d off, sb.iblock d} : Finset ℕ), s'.machine.view c = s.machine.view c) s := by
    apply wpc_withInode hslot
    apply wpc_mono (wpc_writei_hit rfl hs.consistent hlive (by decide) hpiece hsize
      (Nat.le_trans hsize hmax) (hs.noHole d hlive _ hbn hbelow))
    · rintro S r m' ⟨rfl, rfl, hview⟩
      exact ⟨rfl, rfl, AList.lookup_insert _, fun j hj => AList.lookup_insert_ne hj, hview⟩
    · intro S e m' h
      exact h
  have hsafe : wp (withInode d (fun dp => writei sb dp (.kernel fun _ => 0) 0 off DIRENT))
      (fun _ s' => Sound sb s') _ s := safe_writei (by decide) s hs
  simp only [writei_eq] at hsafe
  apply (hwrite.and hsafe).mono
  rintro r s' ⟨⟨hr, hself, hother, hview⟩, hsound⟩
  exact ⟨hr, hself, hsound, hother, hview⟩

/-- An inode with one link less. -/
def Inode.unlink (ip : Inode) : Inode := ip.setNlink (ip.nlink + 65535)

theorem Inode.setNlink_indirect (ip : Inode) (n : ℕ) : (ip.setNlink n).indirect = ip.indirect := rfl

theorem Inode.unlink_indirect (ip : Inode) : ip.unlink.indirect = ip.indirect := ip.setNlink_indirect _

/-- The link count of an inode is decremented. -/
theorem exactly_unlink (hs : Sound sb s) (hslot : s.itable.lookup i = some ⟨ref, some ip⟩) :
  Exactly {sb.iblock i}
    (fun log => updateInodeWith log sb i Inode.unlink)
    (fun _ s' => s'.itable.lookup i = some ⟨ref, some ip.unlink⟩
      ∧ Apart sb i {sb.iblock i} s s') s
  := by
  obtain ⟨hlive, rfl⟩ := hs.copies i ip (copy_of_lookup hslot)
  have hinum := (hs.consistent.wf i hlive.1).2
  have hupdate : Exactly {sb.iblock i}
      (fun log => updateInodeWith log sb i Inode.unlink)
      (fun _ s' => s'.itable.lookup i = some ⟨ref, some (s.inodes sb i).unlink⟩
        ∧ (∀ j, j ≠ i → s'.itable.lookup j = s.itable.lookup j)
        ∧ ∀ c ∉ ({sb.iblock i} : Finset ℕ), s'.machine.view c = s.machine.view c) s := by
    apply wpc_withInode hslot
    have hwp : wp (iupdate sb (s.inodes sb i).unlink)
        (fun _ _ => True) LogFault s.machine :=
      wp_iupdate LogFault.tolerates rfl hs.consistent.pinned (fun _ _ _ => trivial)
    have hinum' : (s.inodes sb i).unlink.inum = i := hinum
    apply wpc_bind
    apply wpc_mono (wpc_and (wpc_and wpc_iupdate (touches_iupdate s.machine)) hwp)
    · rintro S _ m' ⟨⟨rfl, hview⟩, -⟩
      rw [hinum'] at hview ⊢
      apply wpc_pure
      exact ⟨Finset.union_empty _, AList.lookup_insert _, fun j hj => AList.lookup_insert_ne hj, hview⟩
    · rintro S e m' ⟨⟨hS, -⟩, hfault⟩
      rw [hinum'] at hS
      exact ⟨hS, hfault⟩
  have hsafe : Safe sb (updateInode sb i Inode.unlink) := safe_setNlink
  apply (hupdate.and (hsafe s hs)).mono
  rintro _ s' ⟨⟨hself, hother, hview⟩, hsound⟩
  exact ⟨hself, hsound, hother, hview⟩

/-! ### Removing an entry -/

section

variable {view view' : ℕ → Block} (h : ip.indirect ≠ 0 → view' ip.indirect = view ip.indirect)

include h

theorem freeMaps_congr : freeMaps sb view' ip = freeMaps sb view ip := by
  unfold freeMaps
  by_cases hzero : ip.indirect = 0
  · rw [if_pos hzero, if_pos hzero]
  · rw [if_neg hzero, if_neg hzero, h hzero]

/-- The blocks that `iput` logs depend on the indirect block only. -/
theorem iputBlocks_congr :
  iputBlocks sb view' (some ⟨ref, some ip⟩) = iputBlocks sb view (some ⟨ref, some ip⟩)
  := by
  simp only [iputBlocks, freeMaps_congr h]

end

/-- The indirect block of an inode is not among given blocks. -/
def Spares (sb : Superblock) (s : FileSys) (i : ℕ) (T : Finset ℕ) : Prop :=
  (s.inodes sb i).indirect ≠ 0 → (s.inodes sb i).indirect ∉ T

section

variable (hs : Sound sb s) (hi : sb.Live (s.inodes sb) i)

include hs hi

theorem spares_meta (hT : ∀ c ∈ T, c < sb.nmeta) : Spares sb s i T := by
  intro hne hmem
  have := (hs.consistent.data_indirect hi hne).1
  have := hT _ hmem
  omega

theorem iblock_lt_nmeta : sb.iblock i < sb.nmeta :=
  Nat.lt_trans (hs.consistent.layout.iblock_bounds hi.1).2 bmapstart_lt

theorem spares_iblock (hd : sb.Live (s.inodes sb) d) : Spares sb s i {sb.iblock d} := by
  apply spares_meta hs hi
  intro c hc
  rw [Finset.mem_singleton.mp hc]
  exact iblock_lt_nmeta hs hd

end

theorem spares_entryBlock (hs : Sound sb s) (hi : sb.Live (s.inodes sb) i)
    (hd : sb.Live (s.inodes sb) d) :
  Spares sb s i {entryBlock sb s d off, sb.iblock d}
  := by
  intro hne hmem
  rcases Finset.mem_insert.mp hmem with hmem | hmem
  · have hne' : entryBlock sb s d off ≠ 0 := hmem ▸ hne
    exact hs.consistent.indirect_ne_of_cell (blockCell_ne_last d _) hne' i hi hmem
  · exact spares_iblock hs hi hd hne hmem

theorem spares_iputBlocks {slot : Option InodeEntry} (hs : Sound sb s) (hi : sb.Live (s.inodes sb) i)
    (hd : sb.Live (s.inodes sb) d) (hslot : ∀ ref ip, slot = some ⟨ref, some ip⟩ → ip = s.inodes sb d)
    (hne : i ≠ d) :
  Spares sb s i (iputBlocks sb s.machine.view slot ∪ {(s.inodes sb d).indirect})
  := by
  intro hind hmem
  rcases Finset.mem_union.mp hmem with hmem | hmem
  · apply spares_meta hs hi _ hind hmem
    intro c hc
    obtain _ | ⟨ref, _ | ip⟩ := slot
    · exact absurd hc (Finset.notMem_empty c)
    · exact absurd hc (Finset.notMem_empty c)
    · obtain rfl := hslot ref ip rfl
      simp only [iputBlocks] at hc
      split_ifs at hc
      · rcases Finset.mem_union.mp hc with hc | hc
        · exact lt_of_mem_freeMaps hs.consistent hd hc
        · rw [Finset.mem_singleton.mp hc, (hs.consistent.wf d hd.1).2]
          exact iblock_lt_nmeta hs hd
      · exact absurd hc (Finset.notMem_empty c)
  · exact hne (hs.consistent.indirect_unique hd (Finset.mem_singleton.mp hmem ▸ hind) hi
      (Finset.mem_singleton.mp hmem))

/-- A step keeps the indirect block of an inode that it does not concern. -/
theorem Apart.view_indirect {j : ℕ} (h : Apart sb i T s s') (hs : Sound sb s)
    (hslot : s.itable.lookup j = some ⟨ref, some ip⟩) (hspares : Spares sb s j T) (hne : ip.indirect ≠ 0) :
  s'.machine.view ip.indirect = s.machine.view ip.indirect
  := by
  obtain ⟨-, rfl⟩ := hs.copies j ip (copy_of_lookup hslot)
  exact h.view _ (hspares hne)

/-- What `iput` will log for an inode with the same indirect block is kept as well. -/
theorem Apart.iputBlocks_eq {j ref' : ℕ} {ip' : Inode} (h : Apart sb i T s s') (hs : Sound sb s)
    (hslot : s.itable.lookup j = some ⟨ref, some ip⟩) (hspares : Spares sb s j T)
    (hind : ip'.indirect = ip.indirect) :
  iputBlocks sb s.machine.view (some ⟨ref', some ip'⟩) = iputBlocks sb s'.machine.view (some ⟨ref', some ip'⟩)
  := by
  symm
  apply iputBlocks_congr
  rw [hind]
  exact h.view_indirect hs hslot hspares

/-- `sys_unlink` behind the update of the directory. -/
theorem exactly_drops (hs : Sound sb s)
    (hd : s.itable.lookup d = some ⟨dref, some dp⟩) (hi : s.itable.lookup i = some ⟨ref, some ip⟩)
    (hne : i ≠ d) :
  Exactly (iputBlocks sb s.machine.view (some ⟨dref, some dp⟩)
      ∪ ({sb.iblock i} ∪ iputBlocks sb s.machine.view (some ⟨ref, some ip.unlink⟩)))
    (fun log => do
      iputWith log sb d
      updateInodeWith log sb i Inode.unlink
      iputWith log sb i
      return (0 : ℤ))
    (fun _ _ => True) s
  := by
  obtain ⟨hlive, hip⟩ := hs.copies i ip (copy_of_lookup hi)
  obtain ⟨hlived, hdp⟩ := hs.copies d dp (copy_of_lookup hd)
  have hput := exactly_iput (i := d) hs
  rw [hd] at hput
  apply Exactly.bind
  apply hput.mono
  intro _ s₁ h₁
  have hi₁ : s₁.itable.lookup i = some ⟨ref, some ip⟩ := (h₁.slots i hne).trans hi
  obtain ⟨hlive₁, hip₁⟩ := h₁.sound.copies i ip (copy_of_lookup hi₁)
  have hspares : Spares sb s i (iputBlocks sb s.machine.view (some ⟨dref, some dp⟩)
      ∪ {(s.inodes sb d).indirect}) := by
    apply spares_iputBlocks hs hlive hlived _ hne
    rintro _ _ ⟨⟩
    exact hdp
  apply Exactly.bind
  apply (exactly_unlink h₁.sound hi₁).mono
  rintro _ s₂ ⟨hi₂, h₂⟩
  have hblocks : iputBlocks sb s.machine.view (some ⟨ref, some ip.unlink⟩)
      = iputBlocks sb s₂.machine.view (s₂.itable.lookup i) ∪ ∅ := by
    rw [Finset.union_empty, hi₂, h₁.iputBlocks_eq hs hi hspares ip.unlink_indirect]
    exact h₂.iputBlocks_eq h₁.sound hi₁ (spares_iblock h₁.sound hlive₁ hlive₁) ip.unlink_indirect
  rw [hblocks]
  apply Exactly.bind
  apply (exactly_iput h₂.sound).mono
  intro _ _ _
  exact Exactly.pure trivial

/-- The blocks that `sys_unlink` logs when it removes an entry. -/
def removeBlocks (sb : Superblock) (s : FileSys) (d inum off : ℕ) (isdir : Prop) [Decidable isdir] :
    Finset ℕ :=
  match s.itable.lookup d, s.itable.lookup inum with
  | some ⟨dref, some dp⟩, some ⟨ref, some ip⟩ =>
    {entryBlock sb s d off, sb.iblock d}
      ∪ (iputBlocks sb s.machine.view (some ⟨dref, some (if isdir then dp.unlink else dp)⟩)
        ∪ ({sb.iblock inum} ∪ iputBlocks sb s.machine.view (some ⟨ref, some ip.unlink⟩)))
  | _, _ => ∅

/-- `sys_unlink` behind the clearing of the entry. -/
theorem exactly_updates [Decidable isdir] (hs : Sound sb s)
    (hd : s.itable.lookup d = some ⟨dref, some dp⟩) (hi : s.itable.lookup i = some ⟨ref, some ip⟩)
    (hne : i ≠ d) :
  Exactly ((if isdir then {sb.iblock d} else ∅)
      ∪ (iputBlocks sb s.machine.view (some ⟨dref, some (if isdir then dp.unlink else dp)⟩)
        ∪ ({sb.iblock i} ∪ iputBlocks sb s.machine.view (some ⟨ref, some ip.unlink⟩))))
    (fun log => do
      if isdir then updateInodeWith log sb d Inode.unlink
      iputWith log sb d
      updateInodeWith log sb i Inode.unlink
      iputWith log sb i
      return (0 : ℤ))
    (fun _ _ => True) s
  := by
  obtain ⟨hlive, hip⟩ := hs.copies i ip (copy_of_lookup hi)
  obtain ⟨hlived, hdp⟩ := hs.copies d dp (copy_of_lookup hd)
  by_cases hdir : isdir
  · simp only [if_pos hdir]
    apply Exactly.bind
    apply (exactly_unlink hs hd).mono
    rintro _ s₁ ⟨hd₁, h₁⟩
    have hi₁ : s₁.itable.lookup i = some ⟨ref, some ip⟩ := (h₁.slots i hne).trans hi
    rw [h₁.iputBlocks_eq hs hd (spares_iblock hs hlived hlived) dp.unlink_indirect,
      h₁.iputBlocks_eq hs hi (spares_iblock hs hlive hlived) ip.unlink_indirect]
    exact exactly_drops h₁.sound hd₁ hi₁ hne
  · simp only [if_neg hdir, Finset.empty_union]
    exact exactly_drops hs hd hi hne

theorem exactly_remove {dref off : ℕ} [Decidable isdir] (hs : Sound sb s)
    (hd : s.itable.lookup d = some ⟨dref, some dp⟩) (hi : s.itable.lookup i = some ⟨ref, some ip⟩)
    (hne : i ≠ d) (hoff : off % DIRENT = 0) (hsize : off + DIRENT ≤ dp.size)
    (hmax : dp.size ≤ MAXFILE * BSIZE) :
  Exactly (removeBlocks sb s d i off isdir)
    (fun log => do
      let r ← withInode d (fun dp => writeiWith log sb dp (.kernel fun _ => 0) 0 off DIRENT)
      if r ≠ DIRENT then throw (.panic "unlink: writei")
      else
        if isdir then updateInodeWith log sb d Inode.unlink
        iputWith log sb d
        updateInodeWith log sb i Inode.unlink
        iputWith log sb i
        return (0 : ℤ))
    (fun _ _ => True) s
  := by
  obtain ⟨hlive, hip⟩ := hs.copies i ip (copy_of_lookup hi)
  obtain ⟨hlived, hdp⟩ := hs.copies d dp (copy_of_lookup hd)
  -- The block of the directory's inode is counted already.
  have hblocks : removeBlocks sb s d i off isdir = {entryBlock sb s d off, sb.iblock d}
      ∪ ((if isdir then {sb.iblock d} else ∅)
        ∪ (iputBlocks sb s.machine.view (some ⟨dref, some (if isdir then dp.unlink else dp)⟩)
          ∪ ({sb.iblock i} ∪ iputBlocks sb s.machine.view (some ⟨ref, some ip.unlink⟩)))) := by
    simp only [removeBlocks, hd, hi]
    by_cases hdir : isdir
    · rw [if_pos hdir, if_pos hdir, ← Finset.union_assoc _ {sb.iblock d}]
      congr 1
      exact (Finset.union_eq_left.mpr (Finset.subset_insert _ _)).symm
    · rw [if_neg hdir, if_neg hdir, Finset.empty_union]
  rw [hblocks]
  apply Exactly.bind
  apply (exactly_clear hs hd hoff hsize hmax).mono
  rintro r s₁ ⟨rfl, hd₁, h₁⟩
  have hi₁ : s₁.itable.lookup i = some ⟨ref, some ip⟩ := (h₁.slots i hne).trans hi
  have hind : (if isdir then dp.unlink else dp).indirect = dp.indirect := by
    split_ifs
    · exact dp.unlink_indirect
    · rfl
  rw [h₁.iputBlocks_eq hs hi (spares_entryBlock hs hlive hlived) ip.unlink_indirect,
    h₁.iputBlocks_eq hs hd (spares_entryBlock hs hlived hlived) hind]
  simp only [ne_eq, not_true_eq_false, if_false]
  exact exactly_updates h₁.sound hd₁ hi₁ hne

end Steps

end Xv6
