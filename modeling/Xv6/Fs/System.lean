import Xv6.Fs.Dir
import Xv6.Fs.Torn
import Xv6.Lib.TransitionSystem
import Xv6.Log.Crash

/-!
# Runs of the file system

A process calls the functions of the file system one after the other, inside and outside of
transactions.  A call that panics, or during which the power fails, has no successor.  The
cells own the data blocks in every state that is reached from an image where they do, all
the metadata is marked as in use and no file has a hole.
-/

namespace Xv6

open Stop Superblock Ownership Function

/-! ### Committing -/

/-- `begin_op`, when it does not have to wait. -/
def beginOp : FsM Unit := modify fun s =>
  s.setMachine { s.machine with outstanding := s.machine.outstanding + 1 }

/-- `end_op`: the last operation commits. -/
def endOp : FsM Unit := onDisk do
  modify fun m => { m with outstanding := m.outstanding - 1 }
  let m ← get
  if m.outstanding = 0 then commit

/-- A commit in progress: the first `staged` blocks are copied to the log, and those in `done`
installed. -/
structure Flushing (sb : Superblock) (o₀ : Obs) (staged : ℕ) (done : List ℕ) (o : Obs) : Prop where
  start : o.start = o₀.start
  lh : o.lh = o₀.lh
  view : ∀ b, sb.inodestart ≤ b → o.view b = o₀.view b
  disk : ∀ b, sb.inodestart ≤ b → o.disk b = if b ∈ done then o₀.view b else o₀.disk b
  refs : ∀ b, o.refs b = if b ∈ done then o₀.refs b - 1 else o₀.refs b
  log : ∀ j (hj : j < o₀.lh.length), j < staged →
    o.view (o₀.start + j + 1) = o₀.view o₀.lh[j] ∧ o.disk (o₀.start + j + 1) = o₀.view o₀.lh[j]

section Commit

variable {sb : Superblock} {o₀ o : Obs} {f : ℕ → Inode} {staged : ℕ} {done : List ℕ} {m : Machine}
  {C : Fault → Machine → Prop}

/-- The log lies before the inodes. -/
theorem Consistent.log_lt (h : Consistent sb o₀ f) {j : ℕ} (hj : j < o₀.lh.length) :
  o₀.start + j + 1 < sb.inodestart
  := by
  have := h.length
  have := h.layout.log
  omega

theorem Consistent.start_lt (h : Consistent sb o₀ f) : o₀.start < sb.inodestart := by
  have := h.layout.log
  omega

theorem Flushing.refl (o : Obs) : Flushing sb o 0 [] o := by
  refine ⟨rfl, rfl, fun _ _ => rfl, fun _ _ => ?_, fun _ => ?_, ?_⟩
  · simp
  · simp
  · intro j _ hj
    exact absurd hj (Nat.not_lt_zero j)

/-- Writing the header. -/
theorem Flushing.writeHead (hcons : Consistent sb o₀ f) (h : Flushing sb o₀ staged done o)
    {data : Block} {w : List ℕ} :
  Flushing sb o₀ staged done { o with
    disk := update o.disk o₀.start data
    view := update o.view o₀.start data
    written := w }
  := by
  have hstart := hcons.start_lt
  refine ⟨h.start, h.lh, ?_, ?_, h.refs, ?_⟩
  · intro b hb
    rw [← h.view b hb]
    exact update_of_ne (by omega) _ _
  · intro b hb
    rw [← h.disk b hb]
    exact update_of_ne (by omega) _ _
  · intro j hj hlt
    rw [← (h.log j hj hlt).1]
    refine ⟨update_of_ne (by omega) _ _, ?_⟩
    rw [(h.log j hj hlt).1, ← (h.log j hj hlt).2]
    exact update_of_ne (by omega) _ _

theorem wp_writeLog_flushing (hC : Benign C) (hcons : Consistent sb o₀ f)
    (h : Flushing sb o₀ 0 [] m.obs) :
  wp writeLog (fun _ m' => Flushing sb o₀ o₀.lh.length [] m'.obs) C m
  := by
  have hstart : m.start = o₀.start := h.start
  have hlh : m.lh = o₀.lh := h.lh
  simp only [writeLog, wp_bind, wp_get, hstart, hlh]
  apply wp_forM_zipIdx (fun i (m : Machine) => Flushing sb o₀ i [] m.obs) _ h
  intro i hi m hm
  have hmem : o₀.lh[i] ∈ o₀.lh := List.getElem_mem hi
  have hrange := (hcons.cached.range _ hmem).1
  have hlog := hcons.log_lt hi
  apply wp_writeLog_round (by omega)
  · rw [hm.refs]
    simpa using hcons.pinned _ hmem
  · intro m' hm'
    rw [hm', hm.view _ hrange]
    refine ⟨hm.start, hm.lh, ?_, ?_, hm.refs, ?_⟩
    · intro b hb
      rw [← hm.view b hb]
      exact update_of_ne (by omega) _ _
    · intro b hb
      rw [← hm.disk b hb]
      exact update_of_ne (by omega) _ _
    · intro j hj hlt
      by_cases hji : j = i
      · subst hji
        exact ⟨update_self _ _ _, update_self _ _ _⟩
      · have hold := hm.log j hj (by omega)
        refine ⟨?_, ?_⟩
        · rw [← hold.1]
          exact update_of_ne (by omega) _ _
        · rw [← hold.2]
          exact update_of_ne (by omega) _ _
  · intro m' _ _
    exact hC _ _ (by decide)

theorem wp_installTrans_flushing {recovering : Bool} (hrec : recovering = false) (hC : Benign C)
    (hcons : Consistent sb o₀ f) (h : Flushing sb o₀ o₀.lh.length [] m.obs) :
  wp (installTrans recovering) (fun _ m' => Flushing sb o₀ o₀.lh.length o₀.lh m'.obs) C m
  := by
  have hstart : m.start = o₀.start := h.start
  have hlh : m.lh = o₀.lh := h.lh
  have hloop : wp (installTrans recovering)
      (fun _ m' => Flushing sb o₀ o₀.lh.length (o₀.lh.take o₀.lh.length) m'.obs) C m := by
    simp only [installTrans, wp_bind, wp_get, hstart, hlh]
    apply wp_forM_zipIdx
      (fun i (m : Machine) => Flushing sb o₀ o₀.lh.length (o₀.lh.take i) m.obs) _ h
    intro i hi m hm
    have hmem : o₀.lh[i] ∈ o₀.lh := List.getElem_mem hi
    have hrange := (hcons.cached.range _ hmem).1
    have hlog := hcons.log_lt hi
    -- the block has not been installed before, since it is logged once
    have hnew : o₀.lh[i] ∉ o₀.lh.take i := by
      intro hin
      obtain ⟨j, hj, heq⟩ := List.mem_take_iff_getElem.mp hin
      have := (List.Nodup.getElem_inj_iff hcons.cached.nodup).mp heq
      omega
    have htake : ∀ b, b ∈ o₀.lh.take (i + 1) ↔ b ∈ o₀.lh.take i ∨ b = o₀.lh[i] := by
      intro b
      rw [List.take_succ_eq_append_getElem hi, List.mem_append, List.mem_singleton]
    have hne : o₀.start + i + 1 ≠ o₀.lh[i] := by omega
    obtain ⟨hview, hdisk⟩ := hm.log i hi hi
    apply wp_installTrans_round hne
    · intro _
      rw [hm.refs, if_neg hnew]
      exact hcons.pinned _ hmem
    · rw [hview, hdisk]
    · intro m' hm'
      rw [hm', hview]
      refine ⟨hm.start, hm.lh, ?_, ?_, ?_, ?_⟩
      · intro b hb
        by_cases hbi : b = o₀.lh[i]
        · rw [hbi]
          exact update_self _ _ _
        · rw [← hm.view b hb]
          exact update_of_ne hbi _ _
      · intro b hb
        by_cases hbi : b = o₀.lh[i]
        · rw [if_pos ((htake b).mpr (Or.inr hbi)), hbi]
          exact update_self _ _ _
        · simp only [htake, hbi, or_false]
          rw [← hm.disk b hb]
          exact update_of_ne hbi _ _
      · intro b
        by_cases hbi : b = o₀.lh[i]
        · have hrefs := hm.refs b
          rw [hbi, if_neg hnew] at hrefs
          rw [if_pos ((htake b).mpr (Or.inr hbi)), hbi]
          simp [hrec, hrefs]
        · simp only [htake, hbi, or_false]
          rw [← hm.refs b]
          simp [hrec, hbi]
      · intro j hj hlt
        have hjlog := hcons.log_lt hj
        have hold := hm.log j hj hlt
        refine ⟨?_, ?_⟩
        · rw [← hold.1]
          exact update_of_ne (by omega) _ _
        · rw [← hold.2]
          exact update_of_ne (by omega) _ _
    · intro m' _ _ _
      exact hC _ _ (by decide)
  rwa [List.take_length] at hloop

/-- When the log is installed, every block behind it is what it was. -/
theorem Flushing.kept (h : Flushing sb o₀ staged o₀.lh o) (o' : Obs)
    (hview : ∀ b, sb.inodestart ≤ b → o'.view b = o.view b)
    (hdisk : ∀ b, sb.inodestart ≤ b → o'.disk b = o.disk b) (hrefs : o'.refs = o.refs) {b : ℕ}
    (hb : sb.inodestart ≤ b) :
  o'.view b = o₀.view b ∧ (o₀.Settled b → o'.Settled b)
  := by
  have hsame : o'.view b = o₀.view b := by rw [hview b hb, h.view b hb]
  refine ⟨hsame, fun hs => ?_⟩
  unfold Obs.Settled
  rw [hsame, hdisk b hb, h.disk b hb, hrefs, h.refs b]
  by_cases hmem : b ∈ o₀.lh
  · right
    rw [if_pos hmem]
  · rw [if_neg hmem, if_neg hmem]
    exact hs

/-- The file system is what it was when the blocks behind the log are, and nothing is logged. -/
theorem Unmoved.of_kept (hcons : Consistent sb o₀ f) {o' : Obs}
    (hkept : ∀ b, sb.inodestart ≤ b → o'.view b = o₀.view b ∧ (o₀.Settled b → o'.Settled b))
    (hstart : o'.start = o₀.start) (hlh : o'.lh = []) :
  Unmoved sb o₀ f o'
  := by
  have hcell : sb.cell o'.view f = sb.cell o₀.view f := by
    funext q
    cases q with
    | addr j k => rfl
    | entry j l =>
      simp only [cell]
      split_ifs with hj
      · rw [(hkept _ (hcons.range_data (hcons.data_indirect hj.1 hj.2)).1).1]
      · rfl
  refine ⟨⟨?_, ?_, hcons.wf, ⟨?_, ?_, ?_, ?_⟩, ?_⟩, ?_, hcell⟩
  · rw [hstart]
    exact hcons.layout
  · rw [hcell]
    apply hcons.owned.congr hcons.layout
    intro c hc
    have hbm := (bblock_bounds hc).1
    have hin := hcons.layout.inodestart_lt
    unfold bit
    rw [(hkept _ (by omega)).1]
  · intro b hb
    rw [hlh] at hb
    cases hb
  · intro b hb
    have hrange : sb.inodestart ≤ b := by
      rcases hb with hb | ⟨hb, j, hj, rfl⟩
      · exact hb.1
      · exact (hcons.range_data (hcons.data_indirect hj hb)).1
    exact (hkept b hrange).2 (hcons.cached.settled b hb)
  · intro b hb
    rw [hlh] at hb
    cases hb
  · rw [hlh]
    exact List.nodup_nil
  · rw [hlh]
    exact Nat.zero_le _
  · intro j hj
    unfold Superblock.inode
    rw [(hkept _ (hcons.layout.iblock_bounds hj).1).1]

/-- A commit changes nothing of the file system. -/
theorem wp_commit_unmoved {Q : Unit → Machine → Prop} (hC : Benign C) (hm : m.obs = o₀)
    (hcons : Consistent sb o₀ f)
    (h : ∀ m', Unmoved sb o₀ f m'.obs →
      (∀ b, sb.inodestart ≤ b → m'.obs.view b = o₀.view b ∧ (o₀.Settled b → m'.obs.Settled b)) → Q () m') :
  wp commit Q C m
  := by
  have hpower : ∀ m', C .power m' := fun m' => hC _ _ (by decide)
  have hflush : Flushing sb o₀ 0 [] m.obs := by
    rw [hm]
    exact Flushing.refl o₀
  simp only [commit, wp_bind, wp_get]
  split_ifs
  · rw [wp_bind]
    apply wp_mono (wp_writeLog_flushing hC hcons hflush) _ (fun _ _ he => he)
    intro _ m₁ h₁
    rw [wp_bind]
    apply wp_writeHead _ (fun m' _ _ _ => hpower m')
    intro m₂ h₂
    have hstart₁ : m₁.start = o₀.start := h₁.start
    have hflush₂ : Flushing sb o₀ o₀.lh.length [] m₂.obs := by
      rw [h₂, hstart₁]
      exact h₁.writeHead hcons
    rw [wp_bind]
    apply wp_mono (wp_installTrans_flushing rfl hC hcons hflush₂) _ (fun _ _ he => he)
    intro _ m₃ h₃
    simp only [clearHead, wp_bind, wp_modify]
    apply wp_writeHead _ (fun m' _ _ _ => hpower m')
    intro m₄ h₄
    have hstart₃ : m₃.start = o₀.start := h₃.start
    have hne : ∀ b, sb.inodestart ≤ b → b ≠ m₃.start := by
      intro b hb
      have := hcons.start_lt
      omega
    have hkept : ∀ b, sb.inodestart ≤ b →
        m₄.obs.view b = o₀.view b ∧ (o₀.Settled b → m₄.obs.Settled b) := by
      intro b hb
      apply h₃.kept m₄.obs _ _ _ hb
      · intro b hb
        rw [h₄]
        exact update_of_ne (hne b hb) _ _
      · intro b hb
        rw [h₄]
        exact update_of_ne (hne b hb) _ _
      · rw [h₄]
        rfl
    apply h m₄ _ hkept
    apply Unmoved.of_kept hcons hkept
    · rw [h₄]
      exact h₃.start
    · rw [h₄]
      rfl
  · rw [wp_pure]
    apply h m
    · rw [hm]
      exact Unmoved.refl hcons
    · intro b _
      rw [hm]
      exact ⟨rfl, fun hs => hs⟩

end Commit

/-! ### Calls -/

/-- The calls of the file system. -/
inductive FsOp where
  | beginOp
  | endOp
  | iget (i : ℕ)
  | ilock (i : ℕ)
  | iput (i : ℕ)
  | ialloc (type : ℕ)
  | dirlink (d : ℕ) (name : CString) (inum : ℕ)
  | writei (i : ℕ) (s : Source) (src off n : ℕ)
  | itrunc (i : ℕ)
  | setNlink (i nlink : ℕ)
  | createNew (d : ℕ) (name : CString) (type major minor : ℕ)

namespace FsOp

/-- When a call is made: `begin_op` does not wait, an inode has a number below `ninodes`, and a
count is an `uint`. -/
def Enabled (sb : Superblock) (s : FileSys) : FsOp → Prop
  | .beginOp =>
    s.machine.lh.length + (s.machine.outstanding + 1) * MAXOPBLOCKS ≤ LOGBLOCKS
  | .endOp => 0 < s.machine.outstanding
  | .iget i => i < sb.ninodes
  | .ilock i => i < sb.ninodes
  | .writei _ _ _ _ n => n < 2 ^ 32
  | _ => True

instance (sb : Superblock) (s : FileSys) : (op : FsOp) → Decidable (op.Enabled sb s)
  | .beginOp => inferInstanceAs (Decidable (_ ≤ _))
  | .endOp => inferInstanceAs (Decidable (_ < _))
  | .iget _ => inferInstanceAs (Decidable (_ < _))
  | .ilock _ => inferInstanceAs (Decidable (_ < _))
  | .writei _ _ _ _ _ => inferInstanceAs (Decidable (_ < _))
  | .iput _ => .isTrue trivial
  | .ialloc _ => .isTrue trivial
  | .dirlink _ _ _ => .isTrue trivial
  | .itrunc _ => .isTrue trivial
  | .setNlink _ _ => .isTrue trivial
  | .createNew _ _ _ _ _ => .isTrue trivial

/-- What a call does.  Its result does not matter for what may be called next. -/
def run (sb : Superblock) : FsOp → FsM Unit
  | .beginOp => Xv6.beginOp
  | .endOp => Xv6.endOp
  | .iget i => Xv6.iget i
  | .ilock i => Xv6.ilock sb i
  | .iput i => Xv6.iput sb i
  | .ialloc type => do
    let _ ← Xv6.ialloc sb type
    return ()
  | .dirlink d name inum => do
    let _ ← Xv6.dirlink sb d name inum
    return ()
  | .writei i s src off n => do
    let _ ← withInode i (fun ip => Xv6.writei sb ip s src off n)
    return ()
  | .itrunc i => withInode i fun ip => do
    let ip ← Xv6.itrunc sb ip
    return ((), ip)
  | .setNlink i nlink => updateInode sb i (fun ip => ip.setNlink nlink)
  | .createNew d name type major minor => do
    let _ ← Xv6.createNew sb d name type major minor
    return ()

end FsOp

section Calls

variable {sb : Superblock} {i : ℕ}

theorem safe_beginOp : Safe sb beginOp := by
  intro s hs
  apply hs.unmoved
  have h := hs.consistent
  refine ⟨⟨h.layout, h.owned, h.wf, ?_, h.length⟩, fun _ _ => rfl, rfl⟩
  exact ⟨h.pinned, h.cached.settled, h.cached.range, h.cached.nodup⟩

theorem safe_endOp : Safe sb endOp := by
  intro s hs
  have h := hs.consistent
  have hdec : Consistent sb
      { s.machine with outstanding := s.machine.outstanding - 1 }.obs (s.inodes sb) :=
    ⟨h.layout, h.owned, h.wf, ⟨h.pinned, h.cached.settled, h.cached.range, h.cached.nodup⟩, h.length⟩
  unfold endOp
  rw [wp_onDisk]
  simp only [wp_bind, wp_modify, wp_get]
  split_ifs
  · apply wp_commit_unmoved benign_ne rfl hdec
    intro m' hm' _
    exact hs.unmoved ⟨hm'.consistent, hm'.inode, hm'.cells⟩
  · exact hs.unmoved ⟨hdec, fun _ _ => rfl, rfl⟩

theorem safe_itrunc :
  Safe sb (withInode i fun ip => do
    let ip ← itrunc sb ip
    return ((), ip))
  := by
  apply safe_withInode
  intro m hcons hlive hno
  rw [wp_bind]
  apply wp_itrunc benign_ne.tolerates rfl hcons hlive
  intro m' hsaved
  refine ⟨_, hsaved, ?_, ?_, ?_⟩
  · rw [update_self]
  · rw [update_self]
    exact hlive.2
  · apply noHole_of_size
    rw [update_self]
    rfl

/-- Every call keeps the file system sound. -/
theorem FsOp.safe_run {s : FileSys} {op : FsOp} (hs : Sound sb s) (hop : op.Enabled sb s) :
  wp (op.run sb) (fun _ s' => Sound sb s') (fun e _ => e ≠ .panic "freeing free block") s
  := by
  cases op with
  | beginOp => exact safe_beginOp s hs
  | endOp => exact safe_endOp s hs
  | iget i => exact safe_iget s hs
  | ilock i => exact safe_ilock hop s hs
  | iput i => exact safe_iput s hs
  | ialloc type => exact Preserves.ret safe_ialloc s hs
  | dirlink d name inum => exact Preserves.ret safe_dirlink s hs
  | writei i src off n => exact Preserves.ret (safe_writei hop) s hs
  | itrunc i => exact safe_itrunc s hs
  | setNlink i nlink => exact safe_setNlink s hs
  | createNew d name type major minor => exact Preserves.ret safe_createNew s hs

end Calls

/-! ### Images and runs -/

/-- A disk on which the cells own the data blocks in use. -/
structure Image (sb : Superblock) (start : ℕ) (disk : ℕ → Block) : Prop where
  layout : sb.Layout start
  own : Own { b | sb.Data b } (sb.used disk) (sb.cell disk (sb.inode disk))

/-- An image where the metadata is marked as in use and no file has a hole. -/
structure CleanImage (sb : Superblock) (start : ℕ) (disk : ℕ → Block) : Prop
    extends Image sb start disk where
  metadata : ∀ b < sb.nmeta, sb.bit disk b = true
  noHole : ∀ i, sb.Live (sb.inode disk) i → NoHole sb disk (sb.inode disk) i

/-- The file system after a reboot. -/
def FileSys.boot (disk : ℕ → Block) (start limit : ℕ) (recycle : ℕ → Bool) : FileSys where
  machine := Machine.boot disk start limit recycle
  itable := ∅

/-- The runs of the file system. -/
def fileSystem (sb : Superblock) : TransitionSystem FileSys FsOp where
  init s := ∃ disk start limit recycle,
    CleanImage sb start disk ∧ s = FileSys.boot disk start limit recycle
  step s op :=
    if op.Enabled sb s then
      match op.run sb s with
      | .ok _ s' => some s'
      | .error _ _ => none
    else none

section Runs

variable {sb : Superblock} {s : FileSys}

theorem CleanImage.sound {start : ℕ} {disk : ℕ → Block} (h : CleanImage sb start disk) (limit : ℕ)
    (recycle : ℕ → Bool) :
  Sound sb (FileSys.boot disk start limit recycle)
  := by
  refine ⟨⟨h.layout, ⟨h.own, h.metadata⟩, ?_, ⟨?_, ?_, ?_, ?_⟩, ?_⟩, h.noHole, ?_⟩
  · intro i _
    exact ⟨Inode.fits_load _ _, rfl⟩
  · rintro b ⟨⟩
  · intro b _
    exact Or.inr rfl
  · rintro b ⟨⟩
  · exact List.nodup_nil
  · exact Nat.zero_le _
  · intro i ip hip
    rw [FileSys.copy, FileSys.boot, AList.lookup_empty] at hip
    cases hip

theorem sound_of_reachable (hs : (fileSystem sb).Reachable s) : Sound sb s := by
  apply hs.invariant (I := Sound sb)
  · rintro _ ⟨disk, start, limit, recycle, himage, rfl⟩
    exact himage.sound limit recycle
  · intro s op s' h hstep
    dsimp only [fileSystem] at hstep
    split_ifs at hstep with hop
    have hsafe := FsOp.safe_run h hop
    unfold wp at hsafe
    cases hrun : op.run sb s with
    | ok r s₁ =>
      rw [hrun] at hstep hsafe
      cases hstep
      exact hsafe
    | error e s₁ =>
      rw [hrun] at hstep
      cases hstep

/-- In every state that is reached, the cells own the data blocks in use, the copies of the
inodes say the same as the disk, no call frees a free block, and `balloc` does not hand out
a block that is in a cell. -/
theorem blocks_owned (hs : (fileSystem sb).Reachable s) :
  Own { b | sb.Data b } (sb.used s.machine.view) (sb.cell s.machine.view (sb.inode s.machine.view))
    ∧ (∀ i ip, s.copy i = some ip → ip = sb.inode s.machine.view i)
    ∧ (∀ op : FsOp, op.Enabled sb s → ∀ e s', op.run sb s = .error e s' →
        e ≠ .panic "freeing free block")
    ∧ (∀ b m', balloc sb s.machine = .ok b m' →
        b = 0 ∨ sb.Data b ∧ ∀ q, sb.cell s.machine.view (sb.inode s.machine.view) q ≠ b)
  := by
  have hsound := sound_of_reachable hs
  have hcons := hsound.consistent
  refine ⟨hcons.owned.own, fun i ip hip => (hsound.copies i ip hip).2, ?_, ?_⟩
  · intro op hop e s' hrun
    have hsafe := wp_of_error hrun (FsOp.safe_run hsound hop)
    exact hsafe
  · intro b m' hrun
    have halloc : wp (balloc sb) (fun b _ => b = 0 ∨ sb.Data b
        ∧ ∀ q, sb.cell s.machine.view (sb.inode s.machine.view) q ≠ b)
        (fun e _ => e ≠ .panic "freeing free block") s.machine := by
      apply wp_balloc benign_ne.tolerates rfl hcons.pinned (fun b hb => hcons.settled_bblock hb)
      · exact fun _ _ _ => Or.inl rfl
      · intro r _ hr hclear _ _
        have hdata := hcons.owned.data_of_clear hr hclear
        right
        refine ⟨hdata, ?_⟩
        exact hcons.owned.own.ne_of_not_mem (Owned.not_mem_of_clear hclear) (Owned.data_ne_zero hdata)
    have hfree := wp_of_ok hrun halloc
    exact hfree

end Runs

/-! ### Runs from two images -/

theorem small_clean : CleanImage smallSb 2 smallDisk := by
  refine ⟨⟨small_consistent.layout, small_consistent.owned.own⟩, small_consistent.owned.metadata, ?_⟩
  intro i hi bn _ hbelow
  obtain rfl := small_live.mp hi
  rw [small_inode_one] at hbelow
  have hbelow : bn * 1024 < 10 := hbelow
  obtain rfl : bn = 0 := by omega
  rw [small_cell]
  decide

/-- A file grows by a block and is truncated, in one transaction. -/
def growAndTruncate : List FsOp :=
  [.beginOp, .iget 1, .ilock 1, .writei 1 (.kernel fun _ => 7) 0 10 1020, .itrunc 1, .iput 1, .endOp]

theorem blocks_owned_small :
  ∃ s, (fileSystem smallSb).exec (FileSys.boot smallDisk 2 100 fun _ => true) growAndTruncate = some s
    ∧ Own { b | smallSb.Data b } (smallSb.used s.machine.view)
      (smallSb.cell s.machine.view (smallSb.inode s.machine.view))
  := by
  have hrun : ((fileSystem smallSb).exec (FileSys.boot smallDisk 2 100 fun _ => true)
      growAndTruncate).isSome = true := by
    decide +kernel
  obtain ⟨s, hs⟩ := Option.isSome_iff_exists.mp hrun
  refine ⟨s, hs, (blocks_owned ?_).1⟩
  apply TransitionSystem.Reachable.exec _ hs
  apply TransitionSystem.Reachable.init
  exact ⟨smallDisk, 2, 100, fun _ => true, small_clean, rfl⟩

/-- Only the bit of the boot block is set. -/
def bareMap : Block := fun k => if k.val = 0 then 1 else 0

/-- A disk without inodes. -/
def bareDisk (b : ℕ) : Block := if b = 34 then bareMap else fun _ => 0

theorem bare_not_live (i : ℕ) : ¬ smallSb.Live (smallSb.inode bareDisk) i := by
  rintro ⟨hi, htype⟩
  have hi : i < 2 := hi
  have hblock : smallSb.iblock i = 33 := by
    simp only [iblock, smallSb, IPB, BSIZE]
    omega
  apply htype
  rw [Superblock.inode, hblock]
  exact Bytes.load_zero _ _

theorem bare_cell (q : Cell) : smallSb.cell bareDisk (smallSb.inode bareDisk) q = 0 := by
  cases q with
  | addr i k => exact if_neg (bare_not_live i)
  | entry i l => exact if_neg (fun h => bare_not_live i h.1)

theorem bare_bit {b : ℕ} (hb : 8 ≤ b) (hmap : b < 8192) : smallSb.bit bareDisk b = false := by
  have hblock : smallSb.bblock b = 34 := by
    simp only [bblock, smallSb, BPB, BSIZE]
    omega
  have hmod : b % BPB = b := Nat.mod_eq_of_lt hmap
  have hdisk : bareDisk 34 = bareMap := rfl
  have hbyte : bareMap.byteAt (b / 8) = 0 := by
    simp only [Bytes.byteAt, bareMap, BSIZE]
    rw [dif_pos (by omega), if_neg (by omega)]
  rw [Superblock.bit, hblock, hmod, hdisk, Bytes.testBit, hbyte]
  simp

theorem bare_image : Image smallSb 2 bareDisk := by
  refine ⟨small_consistent.layout, ⟨?_, ?_, ?_, ?_⟩⟩
  · intro q hq
    exact absurd (bare_cell q) hq
  · intro q hq
    exact absurd (bare_cell q) hq
  · intro q _ hq
    exact absurd (bare_cell q) hq
  · rintro b ⟨hb, hmap, hbit⟩
    have hb : 35 ≤ b := hb
    have hmap : b < 8192 := by
      simp only [smallSb, BPB, BSIZE] at hmap
      omega
    rw [bare_bit (by omega) hmap] at hbit
    cases hbit

/-- A file is created and a byte written to it. -/
def allocAndWrite : List FsOp :=
  [.beginOp, .ialloc T_FILE, .ilock 1, .writei 1 (.kernel fun _ => 7) 0 0 1]

/-- When the metadata is not marked as in use, `balloc` hands out the super block. -/
theorem metadata_handed_out :
  Image smallSb 2 bareDisk
    ∧ ∃ s, (fileSystem smallSb).exec (FileSys.boot bareDisk 2 100 fun _ => false) allocAndWrite = some s
      ∧ ¬ Own { b | smallSb.Data b } (smallSb.used s.machine.view)
        (smallSb.cell s.machine.view (smallSb.inode s.machine.view))
  := by
  refine ⟨bare_image, ?_⟩
  have hrun : ((fileSystem smallSb).exec (FileSys.boot bareDisk 2 100 fun _ => false)
      allocAndWrite).map (fun s => smallSb.cell s.machine.view (smallSb.inode s.machine.view) (.addr 1 0))
      = some 1 := by
    decide +kernel
  obtain ⟨s, hs, hcell⟩ := Option.map_eq_some_iff.mp hrun
  refine ⟨s, hs, ?_⟩
  intro hown
  have hdata := hown.mem_area (.addr 1 0)
  rw [hcell] at hdata
  exact absurd (hdata (by decide)) (by decide)

end Xv6
