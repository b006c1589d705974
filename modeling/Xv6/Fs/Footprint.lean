import Xv6.Fs.Holes
import Xv6.Lib.Calls

/-!
# The blocks that are logged

A function of the file system with another procedure in the place of `log_write`.  The blocks for
which it is called are counted without a look at what they contain: allocating a block logs that
block and a block of the free map, and the indirect block of a file is allocated only once.
-/

namespace Xv6

open Stop Superblock

/-! ### The functions with another `log_write` inside -/

def bzeroWith (log : ℕ → Kernel Unit) (bno : ℕ) : Kernel Unit := do
  let _ ← bread bno
  fill bno (fun _ => 0)
  log bno
  brelse bno

def ballocFromWith (log : ℕ → Kernel Unit) (sb : Superblock) : ℕ → ℕ → Kernel ℕ
  | 0, _ => return 0
  | fuel + 1, b => do
    if b < sb.size then
      let data ← bread (sb.bblock b)
      match firstClear data (min BPB (sb.size - b)) with
      | some bi =>
        fill (sb.bblock b) (data.setBit bi true)
        log (sb.bblock b)
        brelse (sb.bblock b)
        bzeroWith log (b + bi)
        return b + bi
      | none =>
        brelse (sb.bblock b)
        ballocFromWith log sb fuel (b + BPB)
    else return 0

def ballocWith (log : ℕ → Kernel Unit) (sb : Superblock) : Kernel ℕ :=
  ballocFromWith log sb (sb.size / BPB + 1) 0

def iupdateWith (log : ℕ → Kernel Unit) (sb : Superblock) (ip : Inode) : Kernel Unit := do
  let data ← bread (sb.iblock ip.inum)
  fill (sb.iblock ip.inum) (ip.store data)
  log (sb.iblock ip.inum)
  brelse (sb.iblock ip.inum)

def writeiLoopWith (log : ℕ → Kernel Unit) (sb : Superblock) (s : Source) (src off n : ℕ) :
    ℕ → ℕ → Inode → Kernel (ℕ × Inode)
  | 0, tot, ip => return (tot, ip)
  | fuel + 1, tot, ip => do
    if tot < n then
      let (addr, ip) ← bmapWith (ballocWith log sb) log ip ((off + tot) / BSIZE)
      if addr = 0 then return (tot, ip)
      else
        let data ← bread addr
        let m := pieceLength off n tot
        let copied := eitherCopyin s data ((off + tot) % BSIZE) (src + tot) m
        fill addr copied.1
        if copied.2 = false then
          brelse addr
          return (tot, ip)
        else
          log addr
          brelse addr
          writeiLoopWith log sb s src off n fuel (tot + m) ip
    else return (tot, ip)

def writeiWith (log : ℕ → Kernel Unit) (sb : Superblock) (ip : Inode) (s : Source) (src off n : ℕ) :
    Kernel (ℤ × Inode) := do
  if ip.size < off ∨ (off + n) % 2 ^ 32 < off then return (-1, ip)
  else if MAXFILE * BSIZE < (off + n) % 2 ^ 32 then return (-1, ip)
  else
    let (tot, ip) ← writeiLoopWith log sb s src off n n 0 ip
    let ip := if ip.size < off + tot then ip.setSize (off + tot) else ip
    iupdateWith log sb ip
    return (tot, ip)

section Source

variable {sb : Superblock}

theorem ballocFrom_eq (fuel b : ℕ) : ballocFrom sb fuel b = ballocFromWith logWrite sb fuel b := by
  induction fuel generalizing b with
  | zero => rfl
  | succ fuel ih =>
    unfold ballocFrom ballocFromWith
    simp only [ih]
    rfl

theorem balloc_eq (sb : Superblock) : balloc sb = ballocWith logWrite sb := ballocFrom_eq _ _

theorem writeiLoop_eq (s : Source) (src off n fuel tot : ℕ) (ip : Inode) :
  writeiLoop sb s src off n fuel tot ip = writeiLoopWith logWrite sb s src off n fuel tot ip
  := by
  induction fuel generalizing tot ip with
  | zero => simp only [writeiLoop, writeiLoopWith]
  | succ fuel ih =>
    unfold writeiLoop writeiLoopWith
    simp only [ih, bmap_eq, balloc_eq]

/-- The source has `log_write` there. -/
theorem writei_eq (ip : Inode) (s : Source) (src off n : ℕ) :
  writei sb ip s src off n = writeiWith logWrite sb ip s src off n
  := by
  unfold writei writeiWith
  simp only [writeiLoop_eq]
  rfl

end Source

/-! ### The log and the calls -/

/-- Blocks get into the log by being logged, each of them once. -/
def logTracker : Tracker ℕ Machine where
  rel m S m' := m'.outstanding = m.outstanding
    ∧ ∃ l, m'.lh = m.lh ++ l ∧ l.Nodup ∧ ∀ b ∈ l, b ∈ S ∧ b ∉ m.lh
  refl m := ⟨rfl, [], (List.append_nil _).symm, List.nodup_nil, fun _ hb => absurd hb List.not_mem_nil⟩
  trans := by
    rintro m m' m'' S S' ⟨hout, l, hl, hnodup, hmem⟩ ⟨hout', l', hl', hnodup', hmem'⟩
    rw [hl] at hl' hmem'
    refine ⟨hout'.trans hout, l ++ l', ?_, ?_, ?_⟩
    · rw [hl', List.append_assoc]
    · apply List.nodup_append.mpr
      refine ⟨hnodup, hnodup', ?_⟩
      rintro b hb _ hb' rfl
      exact (hmem' b hb').2 (List.mem_append_right _ hb)
    · intro b hb
      rcases List.mem_append.mp hb with hb | hb
      · exact ⟨Finset.mem_union_left S' (hmem b hb).1, (hmem b hb).2⟩
      · exact ⟨Finset.mem_union_right S (hmem' b hb).1, fun h => (hmem' b hb).2 (List.mem_append_left _ h)⟩

variable {S : Finset ℕ}

theorem logTracker_of_eq {m m' : Machine} (hout : m'.outstanding = m.outstanding)
    (hlh : m'.lh = m.lh) :
  logTracker.rel m S m'
  := ⟨hout, [], by rw [hlh, List.append_nil], List.nodup_nil, fun _ hb => absurd hb List.not_mem_nil⟩

instance quiet_bread (b : ℕ) : Quiet logTracker (bread b) := ⟨fun _ => logTracker_of_eq rfl rfl⟩

instance quiet_fill (b : ℕ) (data : Block) : Quiet logTracker (fill b data) := by
  refine ⟨fun m => ?_⟩
  simp only [fill, wp_bind, wp_get]
  split
  · exact logTracker_of_eq rfl rfl
  · exact logTracker.refl m

instance quiet_brelse (b : ℕ) : Quiet logTracker (brelse b) := by
  refine ⟨fun m => ?_⟩
  simp only [brelse, wp_bind, wp_get]
  split
  · split_ifs
    · exact logTracker_of_eq rfl rfl
    · exact logTracker_of_eq rfl rfl
  · exact logTracker.refl m

instance quiet_panic {α : Type} (msg : String) : Quiet logTracker (panic msg : Kernel α) :=
  quiet_throw (Fault.panic msg)

instance tracks_logWrite : Tracks logTracker logWrite := by
  refine ⟨fun b m => ?_⟩
  have hsame : logTracker.rel m {b} m := logTracker_of_eq rfl rfl
  simp only [logWrite, wp_bind, wp_get]
  split_ifs with hlen hout hb
  · exact hsame
  · exact hsame
  · exact hsame
  · simp only [bpin, wp_bind, wp_get]
    split
    · refine ⟨rfl, [b], rfl, List.nodup_singleton b, ?_⟩
      intro c hc
      obtain rfl := List.mem_singleton.mp hc
      exact ⟨Finset.mem_singleton_self c, hb⟩
    · exact hsame

/-- The log grows by the blocks that are logged. -/
theorem length_le_of_tracked {m m' : Machine} (h : logTracker.rel m S m') :
  m'.lh.length ≤ m.lh.length + S.card
  := by
  obtain ⟨-, l, hl, hnodup, hmem⟩ := h
  have hsub : l.toFinset ⊆ S := by
    intro b hb
    exact (hmem b (List.mem_toFinset.mp hb)).1
  calc
    m'.lh.length = m.lh.length + l.length := by rw [hl, List.length_append]
    _ = m.lh.length + l.toFinset.card := by rw [List.toFinset_card_of_nodup hnodup]
    _ ≤ m.lh.length + S.card := Nat.add_le_add_left (Finset.card_le_card hsub) _

/-- Changing, logging and releasing a buffer. -/
theorem wpc_log_block {α : Type} {m : Machine} {o : Obs} {b : ℕ} {data : Block}
    {K : Caller ℕ Fault Machine Machine α} {Q : Finset ℕ → α → Machine → Prop}
    {C : Finset ℕ → Fault → Machine → Prop} (hm : m.obs = o.hold b) (hp : o.Pinned)
    (h : ∀ m', m'.obs = o.log b data → m'.obs.lh.length ≤ LOGBLOCKS →
      wpc logTracker logWrite K (fun S => Q ({b} ∪ S)) (fun S => C ({b} ∪ S)) m')
    (hC : ∀ e m', LogFault e m' → C {b} e m') :
  wpc logTracker logWrite (fun log => do
    fill b data
    log b
    brelse b
    K log) Q C m
  := by
  apply wpc_const_bind
  apply wp_fill_hold hm
  intro m₁ h₁
  apply wpc_bind
  apply wpc_call
  apply wp_logWrite hC h₁
  intro m₂ h₂ hlen
  rw [Obs.setView_log] at h₂
  apply wpc_const_bind
  apply wp_brelse_hold h₂
  · exact Obs.Settled.log hp (Or.inr rfl)
  · intro m₃ h₃
    apply h m₃ h₃
    rw [h₃]
    rw [h₂] at hlen
    exact hlen

/-- In a transaction, a program that logs no more than `c` blocks is stopped by `log_write` only if
there is no room for them. -/
theorem wp_of_transaction {α : Type} {X : Caller ℕ Fault Machine Machine α} {m : Machine} {c : ℕ}
    {P : Finset ℕ → α → Machine → Prop} {Q : α → Machine → Prop}
    (hcalls : wpc logTracker logWrite X P (fun S _ _ => S.card ≤ c) m)
    (h : wp (X logWrite) Q LogFault m) (hout : 1 ≤ m.outstanding) :
  wp (X logWrite) Q
    (fun e _ => e = .panic "too big a transaction" ∧ LOGBLOCKS ≤ m.lh.length + c) m
  := by
  obtain ⟨S, -, hwp⟩ := hcalls
  apply wp_mono (wp_both h hwp)
  · rintro a m' ⟨hQ, -⟩
    exact hQ
  · rintro e m' ⟨hfault, hrel, hcard⟩
    have hlen := length_le_of_tracked hrel
    have hsame := hrel.1
    rcases hfault with ⟨he, hfull⟩ | ⟨-, hnone⟩
    · exact ⟨he, by omega⟩
    · omega

/-! ### Counting -/

/-- The blocks that are logged when the indirect block of a file is allocated and filled. -/
def indirectSet (sb : Superblock) (ind : ℕ) : Finset ℕ := if ind = 0 then ∅ else {ind, sb.bblock ind}

/-- Apart from those for the indirect block, at most `c` blocks are logged while the indirect block of
a file is `ind` at first and `ind'` in the end. -/
structure Within (sb : Superblock) (c : ℕ) (ind : ℕ) (S : Finset ℕ) (ind' : ℕ) : Prop where
  keep : ind ≠ 0 → ind' = ind
  card : ∃ N : Finset ℕ, N.card ≤ c ∧ S ⊆ N ∪ indirectSet sb ind'

namespace Within

variable {sb : Superblock} {c c' ind ind₁ ind₂ : ℕ} {S S' : Finset ℕ}

theorem of_card (h : S.card ≤ c) : Within sb c ind S ind :=
  ⟨fun _ => rfl, S, h, Finset.subset_union_left⟩

theorem empty : Within sb c ind ∅ ind := of_card (Nat.zero_le c)

theorem mono (h : Within sb c ind S ind₁) (hS : S' ⊆ S) (hc : c ≤ c') : Within sb c' ind S' ind₁ := by
  obtain ⟨N, hN, hsub⟩ := h.card
  exact ⟨h.keep, N, Nat.le_trans hN hc, hS.trans hsub⟩

/-- The sets of two runs, one after the other. -/
theorem trans (h : Within sb c ind S ind₁) (h' : Within sb c' ind₁ S' ind₂) :
  Within sb (c + c') ind (S ∪ S') ind₂
  := by
  obtain ⟨N, hN, hsub⟩ := h.card
  obtain ⟨N', hN', hsub'⟩ := h'.card
  have hind : indirectSet sb ind₁ ⊆ indirectSet sb ind₂ := by
    by_cases hzero : ind₁ = 0
    · rw [indirectSet, if_pos hzero]
      exact Finset.empty_subset _
    · rw [h'.keep hzero]
  refine ⟨?_, N ∪ N', ?_, ?_⟩
  · intro hne
    have hkeep := h.keep hne
    rw [h'.keep (hkeep ▸ hne), hkeep]
  · exact Nat.le_trans (Finset.card_union_le N N') (Nat.add_le_add hN hN')
  · apply Finset.union_subset
    · apply hsub.trans
      exact Finset.union_subset_union Finset.subset_union_left hind
    · apply hsub'.trans
      exact Finset.union_subset_union Finset.subset_union_right (Finset.Subset.refl _)

/-- The indirect block is allocated. -/
theorem allocIndirect (hne : ind ≠ 0) : Within sb 0 0 {ind, sb.bblock ind} ind := by
  refine ⟨fun h => absurd rfl h, ∅, Nat.le_refl _, ?_⟩
  rw [indirectSet, if_neg hne]
  exact Finset.subset_union_right

/-- The indirect block is logged again. -/
theorem fillIndirect (h : Within sb c ind S ind) (hne : ind ≠ 0) : Within sb c ind (S ∪ {ind}) ind := by
  have hmem : ind ∈ indirectSet sb ind := by
    rw [indirectSet, if_neg hne]
    exact Finset.mem_insert_self _ _
  have hfill : Within sb 0 ind {ind} ind :=
    ⟨fun _ => rfl, ∅, Nat.le_refl _, Finset.singleton_subset_iff.mpr (Finset.mem_union_right ∅ hmem)⟩
  exact h.trans hfill

theorem card_le (h : Within sb c ind S ind₁) : S.card ≤ c + 2 := by
  obtain ⟨N, hN, hsub⟩ := h.card
  have hind : (indirectSet sb ind₁).card ≤ 2 := by
    unfold indirectSet
    split_ifs
    · exact Nat.zero_le 2
    · exact Finset.card_le_two
  calc
    S.card ≤ (N ∪ indirectSet sb ind₁).card := Finset.card_le_card hsub
    _ ≤ N.card + (indirectSet sb ind₁).card := Finset.card_union_le _ _
    _ ≤ c + 2 := Nat.add_le_add hN hind

end Within

/-- The block at an address, if there is one. -/
def addrSet (a : ℕ) : Finset ℕ := if a = 0 then ∅ else {a}

theorem card_addrSet_le (a : ℕ) : (addrSet a).card ≤ 1 := by
  unfold addrSet
  split_ifs
  · exact Nat.zero_le 1
  · exact Nat.le_refl 1

theorem addrSet_subset (a : ℕ) : addrSet a ⊆ {a} := by
  unfold addrSet
  split_ifs
  · exact Finset.empty_subset _
  · exact Finset.Subset.refl _

section Calls

variable {sb : Superblock} {m : Machine} {ip : Inode} {ind : ℕ}

/-- `balloc` logs the block it returns and the block with its bit, or nothing. -/
theorem wpc_ballocFrom {fuel b : ℕ} (hb : b % BPB = 0) :
  wpc logTracker logWrite (fun log => ballocFromWith log sb fuel b) (fun S r _ => S ⊆ {r, sb.bblock r})
    (fun S _ _ => S.card ≤ 2) m
  := by
  induction fuel generalizing b m with
  | zero => exact wpc_pure (Finset.empty_subset _)
  | succ fuel ih =>
    unfold ballocFromWith
    apply wpc_ite
    · intro _
      refine wpc_skip ?_ (fun _ _ => Nat.zero_le 2)
      intro data m₁
      cases hfind : firstClear data (min BPB (sb.size - b)) with
      | none =>
        refine wpc_skip (fun _ m₂ => ih ?_) (fun _ _ => Nat.zero_le 2)
        rw [Nat.add_mod_right, hb]
      | some bi =>
        obtain ⟨hdiv, -⟩ := sb.bblock_add hb
          (Nat.lt_of_lt_of_le (firstClear_spec hfind).1 (Nat.min_le_left _ _))
        refine wpc_skip (fun _ m₂ => ?_) (fun _ _ => Nat.zero_le 2)
        refine wpc_call_seq (fun m₃ => ?_) (fun _ _ => Nat.le_succ 1)
        refine wpc_skip (fun _ m₄ => ?_) (fun _ _ => Nat.le_succ 1)
        unfold bzeroWith
        simp only [bind_assoc]
        refine wpc_skip (fun _ m₅ => ?_) (fun _ _ => Nat.le_succ 1)
        refine wpc_skip (fun _ m₆ => ?_) (fun _ _ => Nat.le_succ 1)
        refine wpc_call_seq (fun m₇ => ?_) (fun _ _ => Finset.card_le_two)
        refine wpc_skip (fun _ m₈ => ?_) (fun _ _ => Finset.card_le_two)
        apply wpc_const
        rw [wp_pure, hdiv, Finset.union_empty, Finset.union_comm]
        exact Finset.Subset.refl _
    · intro _
      exact wpc_pure (Finset.empty_subset _)

theorem wpc_balloc :
  wpc logTracker logWrite (fun log => ballocWith log sb) (fun S r _ => S ⊆ {r, sb.bblock r}) (fun S _ _ => S.card ≤ 2) m
  := wpc_ballocFrom (Nat.zero_mod _)

theorem wpc_iupdate :
  wpc logTracker logWrite (fun log => iupdateWith log sb ip) (fun S _ _ => S = {sb.iblock ip.inum})
    (fun S _ _ => S ⊆ {sb.iblock ip.inum}) m
  := by
  unfold iupdateWith
  refine wpc_skip (fun _ m₁ => ?_) (fun _ _ => Finset.empty_subset _)
  refine wpc_skip (fun _ m₂ => ?_) (fun _ _ => Finset.empty_subset _)
  refine wpc_call_seq (fun m₃ => ?_) (fun _ _ => Finset.Subset.refl _)
  apply wpc_const
  apply wp_mono wp_trivial
  · intro _ _ _
    exact Finset.union_empty _
  · intro _ _ _
    rw [Finset.union_empty]

/-- What a part of `writei` logs, with the inode it starts with and the one it returns. -/
abbrev Logging (sb : Superblock) (c : ℕ) (ip : Inode) (S : Finset ℕ) (ip' : Inode) : Prop :=
  Within sb c ip.indirect S ip'.indirect

/-- What it logs if it stops. -/
abbrev Stopped (sb : Superblock) (c : ℕ) (ip : Inode) (S : Finset ℕ) : Prop :=
  ∃ ind', Within sb c ip.indirect S ind'

/-- The blocks for an entry of the indirect block that gets the block `r`. -/
theorem within_entry (hne : ip.indirect ≠ 0) (r : ℕ)
    (hS : S ⊆ {r, sb.bblock r} ∪ {ip.indirect}) :
  Logging sb 2 ip S ip
  := ((Within.of_card Finset.card_le_two).fillIndirect hne).mono hS (Nat.le_refl 2)

/-- The blocks for any other entry that gets the block `r`. -/
theorem within_alloc (r : ℕ) (hS : S ⊆ {r, sb.bblock r}) :
  Within sb 2 ind S ind
  := (Within.of_card Finset.card_le_two).mono hS (Nat.le_refl 2)

/-- The block that is found is the only one. -/
theorem within_found (addr : ℕ) : Within sb 2 ind (∅ ∪ addrSet addr) ind := by
  apply Within.of_card
  rw [Finset.empty_union]
  exact Nat.le_succ_of_le (card_addrSet_le addr)

theorem wpc_bmapIndirect {l : Fin NINDIRECT} (hne : ip.indirect ≠ 0) :
  wpc logTracker logWrite (fun log => bmapIndirectWith (ballocWith log sb) log ip l)
    (fun S r _ => Logging sb 2 ip (S ∪ addrSet r.1) r.2) (fun S _ _ => Stopped sb 2 ip S) m
  := by
  unfold bmapIndirectWith
  refine wpc_skip (fun a m₁ => ?_) (fun _ _ => ⟨_, Within.empty⟩)
  apply wpc_ite
  · intro _
    apply wpc_bind
    apply wpc_mono wpc_balloc
    · intro S r m₂ hS
      have haddr : addrSet r ⊆ {r} := addrSet_subset r
      have hstop : Stopped sb 2 ip (S ∪ ∅) := ⟨_, within_entry hne r (by grind)⟩
      have hstop' : Stopped sb 2 ip (S ∪ {ip.indirect}) := ⟨_, within_entry hne r (by grind)⟩
      dsimp only
      apply wpc_ite
      · intro _
        refine wpc_skip (fun _ m₃ => ?_) (fun _ _ => hstop)
        refine wpc_call_seq (fun m₄ => ?_) (fun _ _ => hstop')
        refine wpc_skip (fun _ m₅ => ?_) (fun _ _ => hstop')
        apply wpc_const
        exact within_entry hne r (by grind)
      · intro _
        refine wpc_skip (fun _ m₅ => ?_) (fun _ _ => hstop)
        apply wpc_const
        exact within_entry hne r (by grind)
    · intro S _ _ hS
      exact ⟨_, Within.of_card hS⟩
  · intro _
    refine wpc_skip (fun _ m₅ => ?_) (fun _ _ => ⟨_, Within.empty⟩)
    exact wpc_pure (within_found _)

/-- `bmap` logs two blocks and the indirect block, and the block it returns counts as one of the
two. -/
theorem wpc_bmap {bn : ℕ} :
  wpc logTracker logWrite (fun log => bmapWith (ballocWith log sb) log ip bn)
    (fun S r _ => Logging sb 2 ip (S ∪ addrSet r.1) r.2) (fun S _ _ => Stopped sb 2 ip S) m
  := by
  unfold bmapWith
  apply wpc_ite
  · intro hbn
    apply wpc_ite
    · intro _
      apply wpc_bind
      apply wpc_mono wpc_balloc
      · intro S r m₁ hS
        have haddr : addrSet r ⊆ {r} := addrSet_subset r
        apply wpc_ite
        · intro hr
          apply wpc_const
          subst hr
          exact within_alloc 0 (by grind)
        · intro hr
          apply wpc_const
          have hlast : Fin.ofNat (NDIRECT + 1) bn ≠ Fin.last NDIRECT := by
            intro heq
            have hval := congrArg Fin.val heq
            rw [Fin.val_ofNat, Nat.mod_eq_of_lt (Nat.lt_succ_of_lt hbn), Fin.val_last] at hval
            exact Nat.ne_of_lt hbn hval
          rw [wp_pure, Logging, Inode.setAddr_indirect hlast]
          exact within_alloc r (by grind)
      · intro S _ _ hS
        exact ⟨_, Within.of_card hS⟩
    · intro _
      exact wpc_pure (within_found _)
  · intro _
    apply wpc_ite
    · intro _
      apply wpc_ite
      · intro hzero
        apply wpc_bind
        apply wpc_mono wpc_balloc
        · intro S r m₁ hS
          apply wpc_ite
          · intro hr
            apply wpc_const
            subst hr
            exact within_alloc 0 (by grind [addrSet])
          · intro hr
            have hind : (ip.setAddr (Fin.last NDIRECT) r).indirect = r := Inode.setAddr_last_indirect _ _
            have halloc : Within sb 0 ip.indirect S r := by
              rw [hzero]
              exact (Within.allocIndirect hr).mono hS (Nat.le_refl 0)
            apply wpc_mono (wpc_bmapIndirect (hind.symm ▸ hr))
            · intro S' r' _ hS'
              rw [Logging, hind] at hS'
              rw [Finset.union_assoc]
              exact (halloc.trans hS').mono (Finset.Subset.refl _) (Nat.le_of_eq (Nat.zero_add 2))
            · rintro S' _ _ ⟨ind', hS'⟩
              rw [hind] at hS'
              exact ⟨ind', (halloc.trans hS').mono (Finset.Subset.refl _) (Nat.le_of_eq (Nat.zero_add 2))⟩
        · intro S _ _ hS
          exact ⟨_, Within.of_card hS⟩
      · intro hne
        exact wpc_bmapIndirect hne
    · intro _
      exact wpc_const ⟨_, Within.empty⟩

variable {f : ℕ → Inode}

section

variable {i bn : ℕ} (hbn : bn < MAXFILE) (hne : sb.cell m.view f (blockCell i bn) ≠ 0)

include hbn hne

/-- A block that is there is found, and nothing is logged. -/
theorem wpc_bmap_hit :
  wpc logTracker logWrite (fun log => bmapWith (ballocWith log sb) log (f i) bn)
    (fun S r _ => S = ∅ ∧ r = (sb.cell m.view f (blockCell i bn), f i)) (fun S _ _ => S = ∅) m
  := by
  have hi : sb.Live f i := blockCell_inum i bn ▸ live_of_cell hne
  unfold bmapWith
  unfold blockCell at hne ⊢
  apply wpc_ite
  · intro hdirect
    rw [if_pos hdirect, cell_addr hi] at hne ⊢
    apply wpc_ite
    · intro hzero
      exact absurd hzero hne
    · intro _
      exact wpc_pure ⟨rfl, rfl⟩
  · intro hdirect
    rw [if_neg hdirect] at hne ⊢
    have hind : (f i).indirect ≠ 0 := fun hzero => hne (if_neg (fun h => h.2 hzero))
    rw [cell_entry hi hind] at hne ⊢
    apply wpc_ite
    · intro _
      apply wpc_ite
      · intro hzero
        exact absurd hzero hind
      · intro _
        unfold bmapIndirectWith
        apply wpc_const_bind
        apply wp_bread
        intro m₁ _
        apply wpc_ite
        · intro hzero
          exact absurd hzero hne
        · intro _
          refine wpc_skip (fun _ m₂ => ?_) (fun _ _ => rfl)
          exact wpc_pure ⟨rfl, rfl⟩
    · intro hlarge
      unfold MAXFILE at hbn
      omega

/-- It counts as one block. -/
theorem wpc_bmap_found :
  wpc logTracker logWrite (fun log => bmapWith (ballocWith log sb) log (f i) bn)
    (fun S r _ => Logging sb 1 (f i) (S ∪ addrSet r.1) r.2) (fun S _ _ => Stopped sb 1 (f i) S) m
  := by
  apply wpc_mono (wpc_bmap_hit hbn hne)
  · rintro S r _ ⟨rfl, rfl⟩
    apply Within.of_card
    rw [Finset.empty_union]
    exact card_addrSet_le _
  · rintro S _ _ rfl
    exact ⟨_, Within.empty⟩

end

variable {s : Source} {src off n i : ℕ}

/-- One round of the loop. -/
theorem wpc_writeiLoop_succ {src off n fuel tot c c' : ℕ}
    (hmap : wpc logTracker logWrite (fun log => bmapWith (ballocWith log sb) log ip ((off + tot) / BSIZE))
    (fun S r _ => Logging sb c ip (S ∪ addrSet r.1) r.2) (fun S _ _ => Stopped sb c ip S) m)
    (hrest : ∀ ip' m', wpc logTracker logWrite
    (fun log => writeiLoopWith log sb s src off n fuel (tot + pieceLength off n tot) ip')
    (fun S r _ => Logging sb c' ip' S r.2) (fun S _ _ => Stopped sb c' ip' S) m') :
  wpc logTracker logWrite (fun log => writeiLoopWith log sb s src off n (fuel + 1) tot ip)
    (fun S r _ => Logging sb (c + c') ip S r.2) (fun S _ _ => Stopped sb (c + c') ip S) m
  := by
  unfold writeiLoopWith
  apply wpc_ite
  · intro hlt
    apply wpc_bind
    apply wpc_mono hmap
    · rintro S ⟨addr, ip'⟩ m₁ hS
      have hpart : Logging sb (c + c') ip S ip' :=
        hS.mono Finset.subset_union_left (Nat.le_add_right c c')
      dsimp only
      apply wpc_ite
      · intro _
        apply wpc_const
        rw [Finset.union_empty]
        exact hpart
      · intro haddr
        rw [addrSet, if_neg haddr] at hS
        have hstop : Stopped sb (c + c') ip (S ∪ ∅) := ⟨_, (Finset.union_empty S).symm ▸ hpart⟩
        have hstop' : Stopped sb (c + c') ip (S ∪ {addr}) :=
          ⟨_, hS.mono (Finset.Subset.refl _) (Nat.le_add_right c c')⟩
        refine wpc_skip (fun data m₂ => ?_) (fun _ _ => hstop)
        refine wpc_skip (fun _ m₃ => ?_) (fun _ _ => hstop)
        apply wpc_ite
        · intro _
          refine wpc_skip (fun _ m₄ => ?_) (fun _ _ => hstop)
          apply wpc_const
          rw [Finset.union_empty]
          exact hpart
        · intro _
          refine wpc_call_seq (fun m₄ => ?_) (fun _ _ => hstop')
          refine wpc_skip (fun _ m₅ => ?_) (fun _ _ => hstop')
          apply wpc_mono (hrest ip' m₅)
          · intro S' r _ hS'
            rw [← Finset.union_assoc]
            exact hS.trans hS'
          · rintro S' _ _ ⟨ind', hS'⟩
            rw [← Finset.union_assoc]
            exact ⟨ind', hS.trans hS'⟩
    · rintro S _ _ ⟨ind', hS⟩
      exact ⟨ind', hS.mono (Finset.Subset.refl _) (Nat.le_add_right c c')⟩
  · intro _
    exact wpc_pure Within.empty

/-- The loop logs two blocks for each of the `k` blocks that the rest of the range meets. -/
theorem wpc_writeiLoop {src off n fuel tot k : ℕ}
    (hk : n ≤ tot ∨ off + n ≤ ((off + tot) / BSIZE + k) * BSIZE) :
  wpc logTracker logWrite (fun log => writeiLoopWith log sb s src off n fuel tot ip)
    (fun S r _ => Logging sb (2 * k) ip S r.2) (fun S _ _ => Stopped sb (2 * k) ip S) m
  := by
  induction fuel generalizing tot k ip m with
  | zero => exact wpc_pure Within.empty
  | succ fuel ih =>
    by_cases hlt : tot < n
    · have hk := hk.resolve_left (Nat.not_le_of_lt hlt)
      obtain ⟨k, rfl⟩ : ∃ k', k = k' + 1 := by
        apply Nat.exists_eq_succ_of_ne_zero
        rintro rfl
        simp only [BSIZE] at hk
        omega
      rw [Nat.mul_succ, Nat.add_comm (2 * k)]
      apply wpc_writeiLoop_succ wpc_bmap
      intro ip' m'
      apply ih
      simp only [pieceLength, BSIZE] at *
      omega
    · unfold writeiLoopWith
      apply wpc_ite (fun h => absurd h hlt)
      intro _
      exact wpc_pure Within.empty

/-- A chunk of `filewrite` that starts where a block of the file starts. -/
theorem wpc_writeiLoop_aligned {src off n : ℕ}
    (hn : n ≤ (MAXOPBLOCKS - 1 - 1 - 2) / 2 * BSIZE) (hoff : off % BSIZE = 0) :
  wpc logTracker logWrite (fun log => writeiLoopWith log sb s src off n n 0 ip)
    (fun S r _ => Logging sb 7 ip S r.2) (fun S _ _ => Stopped sb 7 ip S) m
  := by
  have hk : n ≤ 0 ∨ off + n ≤ ((off + 0) / BSIZE + 3) * BSIZE := by
    simp only [MAXOPBLOCKS, BSIZE] at *
    omega
  apply wpc_mono (wpc_writeiLoop hk)
  · intro S r _ hS
    exact hS.mono (Finset.Subset.refl S) (by decide)
  · rintro S _ _ ⟨ind', hS⟩
    exact ⟨ind', hS.mono (Finset.Subset.refl S) (by decide)⟩

/-- A chunk that starts in the middle of a block, which is not a hole. -/
theorem wpc_writeiLoop_unaligned (hno : NoHole sb m.view f i) (hsize : off ≤ (f i).size)
    (hmax : off ≤ MAXFILE * BSIZE) (hn : n ≤ (MAXOPBLOCKS - 1 - 1 - 2) / 2 * BSIZE)
    (hoff : off % BSIZE ≠ 0) :
  wpc logTracker logWrite (fun log => writeiLoopWith log sb s src off n n 0 (f i))
    (fun S r _ => Logging sb 7 (f i) S r.2) (fun S _ _ => Stopped sb 7 (f i) S) m
  := by
  cases n with
  | zero => exact wpc_pure Within.empty
  | succ n =>
    have hbn : (off + 0) / BSIZE < MAXFILE := by
      simp only [BSIZE, MAXFILE, NDIRECT, NINDIRECT] at *
      omega
    have hlt : (off + 0) / BSIZE * BSIZE < (f i).size := by
      simp only [BSIZE] at *
      omega
    have hrest : ∀ ip' m', wpc logTracker logWrite
        (fun log => writeiLoopWith log sb s src off (n + 1) n (0 + pieceLength off (n + 1) 0) ip')
        (fun S r _ => Logging sb (2 * 3) ip' S r.2) (fun S _ _ => Stopped sb (2 * 3) ip' S) m' := by
      intro ip' m'
      apply wpc_writeiLoop
      simp only [pieceLength, MAXOPBLOCKS, BSIZE] at *
      omega
    exact wpc_writeiLoop_succ (wpc_bmap_found hbn (hno _ hbn hlt)) hrest

/-- The inode is logged besides. -/
theorem wpc_writei_of_loop {src off n c : ℕ}
    (hloop : off ≤ ip.size → off ≤ MAXFILE * BSIZE →
    wpc logTracker logWrite (fun log => writeiLoopWith log sb s src off n n 0 ip)
    (fun S r _ => Logging sb c ip S r.2) (fun S _ _ => Stopped sb c ip S) m) :
  wpc logTracker logWrite (fun log => writeiWith log sb ip s src off n) (fun S _ _ => S.card ≤ c + 3)
    (fun S _ _ => S.card ≤ c + 3) m
  := by
  unfold writeiWith
  apply wpc_ite
  · intro _
    exact wpc_pure (Nat.zero_le _)
  · intro hrange
    rw [not_or, Nat.not_lt, Nat.not_lt] at hrange
    apply wpc_ite
    · intro _
      exact wpc_pure (Nat.zero_le _)
    · intro hmax
      apply wpc_bind
      apply wpc_mono (hloop hrange.1 (Nat.le_trans hrange.2 (Nat.le_of_not_lt hmax)))
      · intro S r m₁ hS
        have hcard : ∀ b, (S ∪ {b}).card ≤ c + 3 := by
          intro b
          calc
            (S ∪ {b}).card ≤ S.card + 1 := Finset.card_union_le S {b}
            _ ≤ c + 3 := Nat.succ_le_succ hS.card_le
        apply wpc_bind
        apply wpc_mono wpc_iupdate
        · intro S' _ _ hS'
          apply wpc_const
          rw [hS']
          exact hcard _
        · intro S' _ _ hS'
          exact Nat.le_trans (Finset.card_le_card (Finset.union_subset_union_right hS')) (hcard _)
      · rintro S _ _ ⟨ind', hS⟩
        exact Nat.le_succ_of_le hS.card_le

theorem wpc_writei (hno : NoHole sb m.view f i) (hn : n ≤ (MAXOPBLOCKS - 1 - 1 - 2) / 2 * BSIZE) :
  wpc logTracker logWrite (fun log => writeiWith log sb (f i) s src off n) (fun S _ _ => S.card ≤ MAXOPBLOCKS)
    (fun S _ _ => S.card ≤ MAXOPBLOCKS) m
  := by
  apply wpc_writei_of_loop
  intro hsize hmax
  by_cases hoff : off % BSIZE = 0
  · exact wpc_writeiLoop_aligned hn hoff
  · exact wpc_writeiLoop_unaligned hno hsize hmax hn hoff

end Calls

/-- A chunk of `filewrite` fits the room that `begin_op` has reserved, whatever becomes of the
allocations. -/
theorem writei_chunk_fits
    (sb : Superblock) (f : ℕ → Inode) (i : ℕ) (m : Machine) (s : Source) (src off n : ℕ)
    (hno : NoHole sb m.view f i) (hn : n ≤ (MAXOPBLOCKS - 1 - 1 - 2) / 2 * BSIZE) :
  writei sb (f i) s src off n = writeiWith logWrite sb (f i) s src off n
    ∧ ∃ S, Called logWrite S (fun log => writeiWith log sb (f i) s src off n) m ∧ S.card ≤ MAXOPBLOCKS
  := ⟨writei_eq (f i) s src off n, (wpc_writei hno hn).called⟩

/-- A full chunk that starts within the only block of a file. -/
theorem writei_chunk_fits_small :
  ∃ S, Called logWrite S (fun log => writeiWith log smallSb smallFile (.kernel fun _ => 7) 0 10 3072)
    smallMachine ∧ S.card ≤ MAXOPBLOCKS
  := by
  have hno : NoHole smallSb smallMachine.view (fun _ => smallFile) 1 := by
    intro bn _ hlt
    have hlt : bn * 1024 < 10 := hlt
    obtain rfl : bn = 0 := by omega
    decide
  exact (writei_chunk_fits smallSb (fun _ => smallFile) 1 smallMachine _ 0 10 3072 hno (by decide)).2

end Xv6
