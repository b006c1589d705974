import Xv6.Log.Commit

/-!
# Crash atomicity of the log

`commit` is cut after some of its disk writes, and `recover_from_log` runs after the reboot,
is perhaps cut as well and started again.  The disk is at every moment in one of three
conditions: the header is empty and the home blocks are old; the header lists the logged
blocks, the log holds their new contents, and each home block is old or new; the header is
empty and the home blocks are new.  Recovery keeps the first and the last condition and
leads from the second to the last.
-/

namespace Xv6

open Machine Stop Function

/-! ### One round of the copying loops -/

section Rounds

variable {m : Machine} {C : Fault → Machine → Prop} {Q : Unit → Machine → Prop}

/-- Copying a cached block to the log.  The copy reaches the disk or the power fails. -/
theorem wp_writeLog_round
    {src log : ℕ} (hne : log ≠ src) (hpin : 0 < m.obs.refs src)
    (h : ∀ m', m'.obs = { m.obs with
      disk := update m.obs.disk log (m.obs.view src)
      view := update m.obs.view log (m.obs.view src)
      written := log :: m.obs.written } → Q () m')
    (hC : ∀ m', m'.obs.disk = m.obs.disk → m'.obs.written = m.obs.written → C .power m') :
  wp (do
    let _ ← bread log
    let data ← bread src
    fill log data
    bwrite log
    brelse src
    brelse log) Q C m
  := by
  simp only [wp_bind]
  apply wp_bread
  intro m₁ h₁
  apply wp_bread
  intro m₂ h₂
  apply wp_fill
  · simp [h₂, h₁, hne]
  intro m₃ h₃
  apply wp_bwrite
  · simp [h₃, h₂, h₁, hne]
  · intro m₄ h₄
    apply wp_brelse
    · simp [h₄, h₃, h₂, h₁]
    · left
      simp [h₄, h₃, h₂, h₁, hne.symm]
      omega
    intro m₅ h₅
    apply wp_brelse
    · simp [h₅, h₄, h₃, h₂, h₁]
    · right
      simp [h₅, h₄, h₃, h₂, h₁]
    intro m₆ h₆
    apply h
    simp [h₆, h₅, h₄, h₃, h₂, h₁, hne.symm, update_comm hne]
  · intro _
    apply hC
    · simp [h₃, h₂, h₁]
    · simp [h₃, h₂, h₁]

/-- Copying a block from the log to its home location. -/
theorem wp_installTrans_round
    {recovering : Bool} {dst log : ℕ} (hne : log ≠ dst)
    (hpin : recovering = false → 0 < m.obs.refs dst) (hlog : m.obs.view log = m.obs.disk log)
    (h : ∀ m', m'.obs = { m.obs with
      disk := update m.obs.disk dst (m.obs.view log)
      view := update m.obs.view dst (m.obs.view log)
      refs := if recovering then m.obs.refs else update m.obs.refs dst (m.obs.refs dst - 1)
      written := dst :: m.obs.written } → Q () m')
    (hC : ∀ m', m'.obs.disk = m.obs.disk → m'.obs.written = m.obs.written →
      m.obs.limit ≤ m.obs.written.length → C .power m') :
  wp (do
    let lbuf ← bread log
    let _ ← bread dst
    fill dst lbuf
    bwrite dst
    if recovering = false then bunpin dst
    brelse log
    brelse dst) Q C m
  := by
  simp only [wp_bind]
  apply wp_bread
  intro m₁ h₁
  apply wp_bread
  intro m₂ h₂
  apply wp_fill
  · simp [h₂]
  intro m₃ h₃
  apply wp_bwrite
  · simp [h₃, h₂]
  · intro m₄ h₄
    cases recovering with
    | true =>
      simp only [Bool.true_eq_false, if_false, wp_bind]
      apply wp_brelse
      · simp [h₄, h₃, h₂, h₁, hne]
      · right
        simp [h₄, h₃, h₂, h₁, hne, hlog]
      intro m₅ h₅
      apply wp_brelse
      · simp [h₅, h₄, h₃, h₂, h₁, hne.symm]
      · right
        simp [h₅, h₄, h₃, h₂, h₁]
      intro m₆ h₆
      apply h
      simp [h₆, h₅, h₄, h₃, h₂, h₁, hne.symm, update_comm hne]
    | false =>
      have hpin := hpin rfl
      simp only [if_true, wp_bind]
      apply wp_bunpin
      · simp [h₄, h₃, h₂, h₁]
      intro m₅ h₅
      apply wp_brelse
      · simp [h₅, h₄, h₃, h₂, h₁]
      · right
        simp [h₅, h₄, h₃, h₂, h₁, hne, hlog]
      intro m₆ h₆
      apply wp_brelse
      · simp [h₆, h₅, h₄, h₃, h₂, h₁, hne.symm]
        omega
      · right
        simp [h₆, h₅, h₄, h₃, h₂, h₁]
      intro m₇ h₇
      apply h
      simp [h₇, h₆, h₅, h₄, h₃, h₂, h₁, hne.symm, update_comm hne]
  · intro hlimit
    apply hC
    · simp [h₃, h₂, h₁]
    · simp [h₃, h₂, h₁]
    · simpa [h₃, h₂, h₁] using hlimit

/-- Writing the header. -/
theorem wp_writeHead
    (h : ∀ m', m'.obs = { m.obs with
      disk := update m.obs.disk m.start (encodeHead m.lh (m.obs.view m.start))
      view := update m.obs.view m.start (encodeHead m.lh (m.obs.view m.start))
      written := m.start :: m.obs.written } → Q () m')
    (hC : ∀ m', m'.obs.disk = m.obs.disk → m'.obs.written = m.obs.written →
      m.obs.limit ≤ m.obs.written.length → C .power m') :
  wp writeHead Q C m
  := by
  simp only [writeHead, wp_bind, wp_get]
  apply wp_bread
  intro m₁ h₁
  apply wp_fill
  · simp [h₁]
  intro m₂ h₂
  apply wp_bwrite
  · simp [h₂, h₁]
  · intro m₃ h₃
    apply wp_brelse
    · simp [h₃, h₂, h₁]
    · right
      simp [h₃, h₂, h₁]
    intro m₄ h₄
    apply h
    simp [h₄, h₃, h₂, h₁]
  · intro hlimit
    apply hC
    · simp [h₂, h₁]
    · simp [h₂, h₁]
    · simpa [h₂, h₁] using hlimit

end Rounds

/-! ### The conditions of the disk -/

/-- A transaction that fits into the log: its home blocks are distinct and outside. -/
structure Txn (start : ℕ) (lh : List ℕ) : Prop where
  nodup : lh.Nodup
  length_le : lh.length ≤ LOGBLOCKS
  lt : ∀ b ∈ lh, b < 2 ^ 32
  outside : ∀ b ∈ lh, Outside start b

/-- The header is empty and the home blocks are as given. -/
structure Clean (start : ℕ) (home disk : ℕ → Block) : Prop where
  count : headCount (disk start) = 0
  home : ∀ b, Outside start b → disk b = home b

/-- The first `k` blocks of the log hold the new contents. -/
def Staged (start : ℕ) (lh : List ℕ) (new : ℕ → Block) (k : ℕ) (disk : ℕ → Block) : Prop :=
  ∀ i (hi : i < lh.length), i < k → disk (start + i + 1) = new lh[i]

/-- The header lists the transaction, the log holds the new contents, and every home block is
old or new. -/
structure Logged (start : ℕ) (lh : List ℕ) (old new disk : ℕ → Block) : Prop where
  head : decodeHead (disk start) = lh
  staged : Staged start lh new lh.length disk
  home : ∀ b, Outside start b → disk b = old b ∨ b ∈ lh ∧ disk b = new b

/-- The home blocks after the transaction. -/
def installed (lh : List ℕ) (old new : ℕ → Block) (b : ℕ) : Block :=
  if b ∈ lh then new b else old b

theorem decodeHead_eq_nil {block : Block} (h : headCount block = 0) : decodeHead block = [] := by
  simp [decodeHead, h]

section Phases

variable {start i : ℕ} {lh : List ℕ} {old new home : ℕ → Block} (ht : Txn start lh)
include ht

variable {disk : ℕ → Block}

/-- Writing a log block touches neither the header nor a home block. -/
theorem Clean.stage (h : Clean start home disk) (hi : i < lh.length) (data : Block) :
  Clean start home (update disk (start + i + 1) data)
  := by
  have hlog : i < LOGBLOCKS := Nat.lt_of_lt_of_le hi ht.length_le
  constructor
  · rw [update_of_ne (by omega), h.count]
  · intro b hb
    rw [update_of_ne (hb.ne_log hlog).symm, h.home b hb]

omit ht in
theorem Staged.stage (h : Staged start lh new i disk) (hi : i < lh.length) :
  Staged start lh new (i + 1) (update disk (start + i + 1) (new lh[i]))
  := by
  intro j hj hji
  by_cases hij : j = i
  · subst hij
    rw [update_self]
  · rw [update_of_ne (by omega)]
    apply h j hj (by omega)

/-- Writing a home block does not touch the log. -/
theorem Staged.install
    {k b : ℕ} (h : Staged start lh new k disk) (hb : b ∈ lh) (data : Block) :
  Staged start lh new k (update disk b data)
  := by
  intro i hi hik
  have hlog : i < LOGBLOCKS := Nat.lt_of_lt_of_le hi ht.length_le
  rw [update_of_ne ((ht.outside b hb).ne_log hlog)]
  apply h i hi hik

omit ht in
theorem Staged.head {k : ℕ} (h : Staged start lh new k disk) (data : Block) :
  Staged start lh new k (update disk start data)
  := by
  intro i hi hik
  rw [update_of_ne (by omega)]
  apply h i hi hik

/-- Installing a block keeps the condition. -/
theorem Logged.install (h : Logged start lh old new disk) {b : ℕ} (hb : b ∈ lh) :
  Logged start lh old new (update disk b (new b))
  := by
  refine ⟨?_, h.staged.install ht hb _, ?_⟩
  · rw [update_of_ne (ht.outside b hb).ne_start.symm, h.head]
  · intro c hc
    by_cases hcb : c = b
    · subst hcb
      right
      rw [update_self]
      exact ⟨hb, rfl⟩
    · rw [update_of_ne hcb]
      apply h.home c hc

/-- The header is written: the transaction is committed. -/
theorem Clean.commit
    (h : Clean start old disk) (hs : Staged start lh new lh.length disk)
    (block : Block) :
  Logged start lh old new (update disk start (encodeHead lh block))
  := by
  refine ⟨?_, hs.head _, ?_⟩
  · rw [update_self, decodeHead_encodeHead ht.length_le ht.lt]
  · intro b hb
    left
    rw [update_of_ne hb.ne_start, h.home b hb]

omit ht in
/-- The header is erased. -/
theorem Clean.erase
    (h : ∀ b, Outside start b → disk b = home b) (block : Block) :
  Clean start home (update disk start (encodeHead [] block))
  := by
  constructor
  · rw [update_self, headCount_encodeHead (Nat.zero_le _)]
    rfl
  · intro b hb
    rw [update_of_ne hb.ne_start, h b hb]

omit ht in
/-- When all blocks are installed the home blocks are new. -/
theorem Logged.home_eq
    (h : Logged start lh old new disk)
    (hdone : ∀ i (hi : i < lh.length), disk lh[i] = new lh[i]) {b : ℕ} (hb : Outside start b) :
  disk b = installed lh old new b
  := by
  unfold installed
  split_ifs with hmem
  · obtain ⟨i, hi, rfl⟩ := List.getElem_of_mem hmem
    apply hdone i hi
  · apply (h.home b hb).resolve_right
    rintro ⟨hmem', _⟩
    contradiction

/-! ### The phases of a commit -/

/-- While the log is written: `i` blocks are in the log, and the header is still empty. -/
structure Writing (start : ℕ) (lh : List ℕ) (old new : ℕ → Block) (i : ℕ) (m : Machine) : Prop where
  start_eq : m.start = start
  lh_eq : m.lh = lh
  cached : ∀ b ∈ lh, m.obs.view b = new b
  pinned : ∀ b ∈ lh, 0 < m.obs.refs b
  clean : Clean start old m.obs.disk
  staged : Staged start lh new i m.obs.disk
  view : Staged start lh new i m.obs.view
  unwritten : start ∉ m.obs.written

/-- While the log is installed: `i` home blocks are new.  `W` is what is known of the blocks
written so far. -/
structure Installing (start : ℕ) (lh : List ℕ) (old new : ℕ → Block) (recovering : Bool)
    (W : ℕ → List ℕ → Prop) (limit i : ℕ) (m : Machine) : Prop where
  start_eq : m.start = start
  lh_eq : m.lh = lh
  limit_eq : m.obs.limit = limit
  logged : Logged start lh old new m.obs.disk
  view : Staged start lh new lh.length m.obs.view
  done : ∀ j (hj : j < lh.length), j < i → m.obs.disk lh[j] = new lh[j]
  pinned : recovering = false → ∀ j (hj : j < lh.length), i ≤ j → 0 < m.obs.refs lh[j]
  written : W i m.obs.written

variable {m : Machine}

theorem wp_writeLog (h : Writing start lh old new 0 m) :
  wp writeLog (fun _ => Writing start lh old new lh.length)
    (fun _ m' => Clean start old m'.disk ∧ start ∉ m'.written) m
  := by
  simp only [writeLog, wp_bind, wp_get, h.start_eq, h.lh_eq]
  apply wp_forM_zipIdx (Writing start lh old new) _ h
  intro i hi m hm
  have hmem : lh[i] ∈ lh := List.getElem_mem hi
  have hlog : i < LOGBLOCKS := Nat.lt_of_lt_of_le hi ht.length_le
  apply wp_writeLog_round ((ht.outside _ hmem).ne_log hlog) (hm.pinned _ hmem)
  · intro m' hm'
    have hcached := hm.cached _ hmem
    rw [hcached] at hm'
    constructor
    · rw [← hm.start_eq]
      exact congrArg Obs.start hm'
    · rw [← hm.lh_eq]
      exact congrArg Obs.lh hm'
    · intro b hb
      rw [hm']
      simp only
      rw [update_of_ne ((ht.outside b hb).ne_log hlog).symm, hm.cached b hb]
    · rw [hm']
      exact hm.pinned
    · rw [hm']
      exact hm.clean.stage ht hi _
    · rw [hm']
      exact hm.staged.stage hi
    · rw [hm']
      exact hm.view.stage hi
    · rw [hm']
      have hne : start ≠ start + i + 1 := by omega
      simpa [hne] using hm.unwritten
  · intro m' hdisk hwritten
    have hd : m'.disk = m.disk := hdisk
    have hw : m'.written = m.written := hwritten
    rw [hd, hw]
    exact ⟨hm.clean, hm.unwritten⟩

section

variable {recovering : Bool} {W : ℕ → List ℕ → Prop} {limit : ℕ}
  (hW : ∀ i b w, W i w → W (i + 1) (b :: w))
  (h : Installing start lh old new recovering W limit 0 m)

include hW h

theorem wp_installTrans :
  wp (installTrans recovering)
    (fun _ => Installing start lh old new recovering W limit lh.length)
    (fun _ m' => Logged start lh old new m'.disk
      ∧ ∃ i ≤ lh.length, W i m'.written ∧ limit ≤ m'.written.length) m
  := by
  simp only [installTrans, wp_bind, wp_get, h.start_eq, h.lh_eq]
  apply wp_forM_zipIdx (Installing start lh old new recovering W limit) _ h
  intro i hi m hm
  have hmem : lh[i] ∈ lh := List.getElem_mem hi
  have hlog : i < LOGBLOCKS := Nat.lt_of_lt_of_le hi ht.length_le
  have hview : m.obs.view (start + i + 1) = new lh[i] := hm.view i hi hi
  have hdisk : m.obs.disk (start + i + 1) = new lh[i] := hm.logged.staged i hi hi
  apply wp_installTrans_round ((ht.outside _ hmem).ne_log hlog)
  · intro hr
    exact hm.pinned hr i hi (Nat.le_refl i)
  · rw [hview, hdisk]
  · intro m' hm'
    rw [hview] at hm'
    constructor
    · rw [← hm.start_eq]
      exact congrArg Obs.start hm'
    · rw [← hm.lh_eq]
      exact congrArg Obs.lh hm'
    · rw [hm', ← hm.limit_eq]
    · rw [hm']
      exact hm.logged.install ht hmem
    · rw [hm']
      exact hm.view.install ht hmem _
    · intro j hj hji
      rw [hm']
      simp only
      by_cases hji' : j = i
      · subst hji'
        rw [update_self]
      · rw [update_of_ne]
        · apply hm.done j hj (by omega)
        · intro heq
          apply hji' (ht.nodup.getElem_inj_iff.mp heq)
    · intro hr j hj hij
      have hne : lh[j] ≠ lh[i] := by
        intro heq
        have := ht.nodup.getElem_inj_iff.mp heq
        omega
      rw [hm']
      simp only [hr, Bool.false_eq_true, if_false]
      rw [update_of_ne hne]
      apply hm.pinned hr j hj (by omega)
    · rw [hm']
      apply hW i _ _ hm.written
  · intro m' hdisk hwritten hlimit
    have hd : m'.disk = m.obs.disk := hdisk
    have hw : m'.written = m.obs.written := hwritten
    rw [hd, hw]
    rw [hm.limit_eq] at hlimit
    exact ⟨hm.logged, i, Nat.le_of_lt hi, hm.written, hlimit⟩

/-- The end of a commit and of a recovery: the log is installed and the header erased. -/
theorem wp_install_erase :
  wp (do installTrans recovering; clearHead; writeHead)
    (fun _ m' => Clean start (installed lh old new) m'.disk ∧ W (lh.length + 1) m'.written)
    (fun _ m' => Logged start lh old new m'.disk
      ∧ ∃ i ≤ lh.length, W i m'.written ∧ limit ≤ m'.written.length) m
  := by
  rw [wp_bind]
  apply wp_mono (wp_installTrans ht hW h)
  · intro _ m₁ h₁
    simp only [clearHead, wp_bind, wp_modify]
    apply wp_writeHead
    · intro m' hm'
      have hdisk : m'.disk = _ := congrArg Obs.disk hm'
      have hwritten : m'.written = _ := congrArg Obs.written hm'
      rw [hdisk, hwritten]
      simp only [h₁.start_eq]
      constructor
      · apply Clean.erase
        intro b hb
        apply h₁.logged.home_eq _ hb
        intro i hi
        exact h₁.done i hi hi
      · apply hW _ _ _ h₁.written
    · intro m' hdisk hwritten hlimit
      have hd : m'.disk = m₁.obs.disk := hdisk
      have hw : m'.written = m₁.obs.written := hwritten
      have hl : m₁.obs.limit ≤ m₁.obs.written.length := hlimit
      rw [hd, hw]
      rw [h₁.limit_eq] at hl
      exact ⟨h₁.logged, lh.length, Nat.le_refl _, h₁.written, hl⟩
  · intro _ m₁ h₁
    exact h₁

end

/-- A commit cut short leaves the old home blocks if the header was not written, and else
the log from which recovery takes the new ones. -/
theorem wp_commit (h : Writing start lh old new 0 m) :
  wp commit
    (fun _ m' => start ∉ m'.written ∧ Clean start old m'.disk
      ∨ start ∈ m'.written ∧ Clean start (installed lh old new) m'.disk)
    (fun _ m' => start ∉ m'.written ∧ Clean start old m'.disk
      ∨ start ∈ m'.written ∧ Logged start lh old new m'.disk) m
  := by
  simp only [commit, wp_bind, wp_get]
  split_ifs with hn
  · rw [wp_bind]
    apply wp_mono (wp_writeLog ht h)
    · intro _ m₁ h₁
      rw [wp_bind]
      apply wp_writeHead
      · intro m₂ h₂
        have hinst : Installing start lh old new false (fun _ w => start ∈ w) m₂.obs.limit 0 m₂ := by
          rw [h₁.start_eq, h₁.lh_eq] at h₂
          constructor
          · rw [← h₁.start_eq]
            exact congrArg Obs.start h₂
          · rw [← h₁.lh_eq]
            exact congrArg Obs.lh h₂
          · rfl
          · rw [h₂]
            exact h₁.clean.commit ht h₁.staged _
          · rw [h₂]
            exact h₁.view.head _
          · intro j _ hj
            cases hj
          · intro _ j hj _
            rw [h₂]
            exact h₁.pinned _ (List.getElem_mem hj)
          · rw [h₂]
            exact List.mem_cons_self
        have hend := wp_install_erase ht (W := fun _ w => start ∈ w)
          (fun _ _ _ hw => List.mem_cons_of_mem _ hw) hinst
        apply wp_mono hend
        · rintro _ m' ⟨hclean, hw⟩
          right
          exact ⟨hw, hclean⟩
        · rintro _ m' ⟨hlogged, i, _, hw, _⟩
          right
          exact ⟨hw, hlogged⟩
      · intro m' hdisk hwritten _
        left
        have hd : m'.disk = m₁.obs.disk := hdisk
        have hw : m'.written = m₁.obs.written := hwritten
        rw [hd, hw]
        exact ⟨h₁.unwritten, h₁.clean⟩
    · rintro _ m' ⟨hclean, hw⟩
      left
      exact ⟨hw, hclean⟩
  · left
    exact ⟨h.unwritten, h.clean⟩

end Phases

/-! ### Recovery -/

theorem wp_readHead
    {m : Machine} {C : Fault → Machine → Prop} {Q : Unit → Machine → Prop}
    (hclean : m.obs.view m.start = m.obs.disk m.start)
    (h : ∀ m', m'.obs = { m.obs with lh := decodeHead (m.obs.view m.start) } → Q () m') :
  wp readHead Q C m
  := by
  simp only [readHead, wp_bind, wp_get, wp_modify]
  apply wp_bread
  intro m₁ h₁
  have h₂ := m₁.obs_setLh (decodeHead (m.obs.view m.start))
  apply wp_brelse
  · simp [h₂, h₁]
  · right
    rw [h₂, h₁]
    exact hclean
  intro m₃ h₃
  apply h
  simp [h₃, h₂, h₁]

section Recovery

variable {start : ℕ} {lh : List ℕ} {old new home : ℕ → Block} {disk : ℕ → Block}

/-- Recovery of a committed transaction installs it. -/
theorem wp_recover_logged
    (ht : Txn start lh) (h : Logged start lh old new disk) (limit : ℕ) (recycle : ℕ → Bool) :
  wp recoverFromLog (fun _ m' => Clean start (installed lh old new) m'.disk)
    (fun _ m' => Logged start lh old new m'.disk ∧ limit ≤ LOGBLOCKS)
    (Machine.boot disk start limit recycle)
  := by
  unfold recoverFromLog
  rw [wp_bind]
  apply wp_readHead
  · rfl
  · intro m₁ h₁
    have hinst : Installing start lh old new true (fun i w => w.length = i) limit 0 m₁ := by
      have hhead : decodeHead ((Machine.boot disk start limit recycle).obs.view
          (Machine.boot disk start limit recycle).start) = lh := h.head
      rw [hhead] at h₁
      constructor
      · exact congrArg Obs.start h₁
      · exact congrArg Obs.lh h₁
      · exact congrArg Obs.limit h₁
      · rw [h₁]
        exact h
      · rw [h₁]
        exact h.staged
      · intro j _ hj
        cases hj
      · intro hr
        cases hr
      · rw [h₁]
        rfl
    have hend := wp_install_erase ht (fun _ _ _ hw => congrArg Nat.succ hw) hinst
    apply wp_mono hend
    · rintro _ m' ⟨hclean, _⟩
      exact hclean
    · rintro _ m' ⟨hlogged, i, hi, hw, hlimit⟩
      rw [hw] at hlimit
      exact ⟨hlogged, Nat.le_trans hlimit (Nat.le_trans hi ht.length_le)⟩

/-- Recovery with an empty header keeps the home blocks. -/
theorem wp_recover_clean
    (h : Clean start home disk) (limit : ℕ) (recycle : ℕ → Bool) :
  wp recoverFromLog (fun _ m' => Clean start home m'.disk)
    (fun _ m' => Clean start home m'.disk ∧ limit ≤ LOGBLOCKS)
    (Machine.boot disk start limit recycle)
  := by
  unfold recoverFromLog
  rw [wp_bind]
  apply wp_readHead
  · rfl
  · intro m₁ h₁
    have hhead : decodeHead ((Machine.boot disk start limit recycle).obs.view
        (Machine.boot disk start limit recycle).start) = [] := decodeHead_eq_nil h.count
    rw [hhead] at h₁
    have hlh : m₁.lh = [] := congrArg Obs.lh h₁
    have hstart : m₁.start = start := congrArg Obs.start h₁
    simp only [installTrans, clearHead, wp_bind, wp_get, wp_modify, hlh, List.zipIdx_nil,
      List.forM_eq_forM, List.forM_nil, wp_pure]
    apply wp_writeHead
    · intro m' hm'
      have hdisk : m'.disk = _ := congrArg Obs.disk hm'
      rw [hdisk, m₁.obs_setLh, h₁]
      simp only [hstart]
      exact Clean.erase h.home _
    · intro m' hdisk _ hlimit
      rw [m₁.obs_setLh, h₁] at hdisk hlimit
      have hd : m'.disk = disk := hdisk
      have hl : limit ≤ 0 := hlimit
      rw [hd]
      exact ⟨h, Nat.le_trans hl (Nat.zero_le _)⟩

end Recovery

/-! ### Crash atomicity -/

/-- The machine a run ends in, whether it returns or stops. -/
def finalState {α : Type} : EStateM.Result Fault Machine α → Machine
  | .ok _ m => m
  | .error _ m => m

/-- Any number of recoveries, each one cut short, lead from one disk to another. -/
inductive Interrupted (start : ℕ) : (ℕ → Block) → (ℕ → Block) → Prop where
  | none {disk : ℕ → Block} : Interrupted start disk disk
  | again {disk disk' : ℕ → Block} {limit : ℕ} {recycle : ℕ → Bool} {e : Fault} {m : Machine} :
      recoverFromLog (Machine.boot disk start limit recycle) = .error e m →
      Interrupted start m.disk disk' → Interrupted start disk disk'

/-- A machine about to commit: the header on the disk is empty, the transaction fits into the
log, its blocks are pinned in the cache, and nothing has been written yet. -/
structure Committable (m : Machine) : Prop where
  count : headCount (m.disk m.start) = 0
  txn : Txn m.start m.lh
  pinned : ∀ b ∈ m.lh, 0 < m.refs b
  written : m.written = []

theorem Committable.writing {m : Machine} (h : Committable m) :
  Writing m.start m.lh m.disk m.view 0 m
  := by
  refine ⟨rfl, rfl, fun _ _ => rfl, h.pinned, ⟨h.count, fun _ _ => rfl⟩, ?_, ?_, ?_⟩
  · intro i _ hi
    cases hi
  · intro i _ hi
    cases hi
  · have hw : m.obs.written = [] := h.written
    simp [hw]

section Atomicity

variable {start : ℕ} {lh : List ℕ} {old new home disk disk' : ℕ → Block}

theorem Clean.interrupted (hi : Interrupted start disk disk') (h : Clean start home disk) :
  Clean start home disk'
  := by
  induction hi with
  | none => exact h
  | again hrun _ ih => apply ih (wp_of_error hrun (wp_recover_clean h _ _)).1

theorem Logged.interrupted
    (ht : Txn start lh) (hi : Interrupted start disk disk') (h : Logged start lh old new disk) :
  Logged start lh old new disk'
  := by
  induction hi with
  | none => exact h
  | again hrun _ ih => apply ih (wp_of_error hrun (wp_recover_logged ht h _ _)).1

/-- A recovery that may write enough blocks returns, and what it leaves is known. -/
theorem recover_returns
    {Q : Machine → Prop} {C : Machine → Prop} {limit : ℕ} {recycle : ℕ → Bool}
    (h : wp recoverFromLog (fun _ => Q) (fun _ m' => C m' ∧ limit ≤ LOGBLOCKS)
      (Machine.boot disk start limit recycle)) :
  (LOGBLOCKS < limit → ∃ m, recoverFromLog (Machine.boot disk start limit recycle) = .ok () m)
    ∧ ∀ m, recoverFromLog (Machine.boot disk start limit recycle) = .ok () m → Q m
  := by
  constructor
  · intro hlimit
    cases hrun : recoverFromLog (Machine.boot disk start limit recycle) with
    | ok _ m => exact ⟨m, rfl⟩
    | error e m =>
      have := (wp_of_error hrun h).2
      omega
  · intro m hrun
    exact wp_of_ok hrun h

end Atomicity

/-- A commit is cut after any number of disk writes, or runs to its end; after that any number
of recoveries are cut.  Then a recovery that may write enough blocks returns, and every
recovery that returns leaves an empty header and, outside the log, the blocks of the
transaction with their cached contents if the header had reached the disk, and everything
else as it was. -/
theorem commit_crash_atomic
    {m : Machine} (hm : Committable m) {disk : ℕ → Block}
    (hi : Interrupted m.start (finalState (commit m)).disk disk) (limit : ℕ) (recycle : ℕ → Bool) :
  (LOGBLOCKS < limit → ∃ m', recoverFromLog (Machine.boot disk m.start limit recycle) = .ok () m')
    ∧ ∀ m', recoverFromLog (Machine.boot disk m.start limit recycle) = .ok () m' →
      headCount (m'.disk m.start) = 0 ∧ ∀ b, Outside m.start b →
        m'.disk b = if m.start ∈ (finalState (commit m)).written ∧ b ∈ m.lh then m.view b
          else m.disk b
  := by
  have hcut : (m.start ∉ (finalState (commit m)).written
        ∧ Clean m.start m.disk (finalState (commit m)).disk)
      ∨ m.start ∈ (finalState (commit m)).written
        ∧ (Clean m.start (installed m.lh m.disk m.view) (finalState (commit m)).disk
          ∨ Logged m.start m.lh m.disk m.view (finalState (commit m)).disk) := by
    have hwp := wp_commit hm.txn hm.writing
    unfold wp at hwp
    cases hrun : commit m with
    | ok _ m' =>
      rw [hrun] at hwp
      exact hwp.imp_right (And.imp_right Or.inl)
    | error _ m' =>
      rw [hrun] at hwp
      exact hwp.imp_right (And.imp_right Or.inr)
  obtain ⟨hw, hclean⟩ | ⟨hw, hclean | hlogged⟩ := hcut
  · have hrec := recover_returns (wp_recover_clean (hclean.interrupted hi) limit recycle)
    refine hrec.imp_right (fun h m' hrun => ⟨(h m' hrun).count, ?_⟩)
    intro b hb
    rw [(h m' hrun).home b hb, if_neg (fun hc => hw hc.1)]
  · have hrec := recover_returns (wp_recover_clean (hclean.interrupted hi) limit recycle)
    refine hrec.imp_right (fun h m' hrun => ⟨(h m' hrun).count, ?_⟩)
    intro b hb
    rw [(h m' hrun).home b hb, installed]
    simp [hw]
  · have hrec := recover_returns
      (wp_recover_logged hm.txn (hlogged.interrupted hm.txn hi) limit recycle)
    refine hrec.imp_right (fun h m' hrun => ⟨(h m' hrun).count, ?_⟩)
    intro b hb
    rw [(h m' hrun).home b hb, installed]
    simp [hw]

/-- A machine with one logged block, on which the power fails after the header is written. -/
def oneBlockMachine : Machine :=
  { Machine.boot (fun _ _ => 0) 2 2 (fun _ => true) with
    cache := update (fun _ => none) 40 (some { data := fun _ => 7, refcnt := 1 })
    lh := [40] }

theorem commit_crash_atomic_one_block :
  ∃ m', recoverFromLog (Machine.boot (finalState (commit oneBlockMachine)).disk 2 31 (fun _ => true))
      = .ok () m'
    ∧ headCount (m'.disk 2) = 0 ∧ m'.disk 40 = fun _ => 7
  := by
  have hm : Committable oneBlockMachine := by
    refine ⟨by decide, ⟨by decide, by decide, by decide, ?_⟩, by decide, rfl⟩
    intro b hb
    obtain rfl := List.mem_singleton.mp hb
    right
    decide
  have hw : (finalState (commit oneBlockMachine)).written = [2, 3] := by decide +kernel
  obtain ⟨hret, hspec⟩ := commit_crash_atomic hm Interrupted.none 31 (fun _ => true)
  obtain ⟨m', hrun⟩ := hret (by decide)
  obtain ⟨hcount, hhome⟩ := hspec m' hrun
  refine ⟨m', hrun, hcount, ?_⟩
  rw [hhome 40 (Or.inr (by decide)), if_pos]
  · rfl
  · rw [hw]
    decide

end Xv6
