import Xv6.Fs.Enough

/-!
# Inodes with contents

For the functions that work with names an allocated inode is a node: its type, its device, its
link count and its contents.  What these functions change are the nodes and the numbers of
references in the inode table.  `At sb N R V s` says that the file system `s` has the nodes `N`
and the references `R`, and that the inodes in `V` have been locked; there is a rule for each
function that makes and drops references, reads or writes an inode.
-/

namespace Xv6

open Stop Superblock Function

/-- An allocated inode. -/
@[ext]
structure Node where
  type : ℕ
  major : ℕ
  minor : ℕ
  nlink : ℕ
  contents : List UInt8
  deriving DecidableEq

def Inode.node (ip : Inode) (view : ℕ → Block) : Node where
  type := ip.type
  major := ip.major
  minor := ip.minor
  nlink := ip.nlink
  contents := ip.contents view

namespace FileSys

/-- The allocated inodes. -/
def nodes (sb : Superblock) (s : FileSys) (i : ℕ) : Option Node :=
  if sb.Live (s.inodes sb) i then some ((s.inodes sb i).node s.machine.obs.view) else none

/-- The number of references to an inode. -/
def refs (s : FileSys) (i : ℕ) : ℕ := (s.itable.lookup i).elim 0 InodeEntry.ref

theorem refs_of_lookup {s : FileSys} {i : ℕ} {slot : InodeEntry} (h : s.itable.lookup i = some slot) :
  s.refs i = slot.ref
  := by
  rw [refs, h]
  rfl

theorem refs_of_none {s : FileSys} {i : ℕ} (h : s.itable.lookup i = none) : s.refs i = 0 := by
  rw [refs, h]
  rfl

end FileSys

/-- There are files, the copies in the table are up to date, and an entry has references. -/
structure Intact (sb : Superblock) (s : FileSys) : Prop where
  files : Files sb s.machine.obs (s.inodes sb)
  copies : ∀ i ip, s.copy i = some ip → sb.Live (s.inodes sb) i ∧ ip = s.inodes sb i
  counted : ∀ i slot, s.itable.lookup i = some slot → 0 < slot.ref

/-- The nodes are `N`, the references `R`, and the inodes in `V` have been locked. -/
structure At (sb : Superblock) (N : ℕ → Option Node) (R : ℕ → ℕ) (V : Set ℕ) (s : FileSys) : Prop
    extends Intact sb s where
  nodes : s.nodes sb = N
  refs : s.refs = R
  valid : ∀ i ∈ V, s.copy i ≠ none

section Nodes

variable {sb : Superblock} {s s' : FileSys} {N : ℕ → Option Node} {R : ℕ → ℕ} {V V' : Set ℕ}
  {i : ℕ} {nd : Node}

theorem Intact.at (h : Intact sb s) : At sb (s.nodes sb) s.refs { i | s.copy i ≠ none } s :=
  ⟨h, rfl, rfl, fun _ hi => hi⟩

section

variable (h : At sb N R V s)

include h

theorem At.nodes_eq_some :
  N i = some nd ↔ sb.Live (s.inodes sb) i ∧ nd = (s.inodes sb i).node s.machine.obs.view
  := by
  rw [← h.nodes, FileSys.nodes]
  split_ifs with hlive
  · simp [hlive, eq_comm]
  · simp [hlive]

theorem At.live (hN : N i = some nd) : sb.Live (s.inodes sb) i :=
  (h.nodes_eq_some.mp hN).1

theorem At.node_eq (hN : N i = some nd) :
  nd = (s.inodes sb i).node s.machine.obs.view
  := (h.nodes_eq_some.mp hN).2

theorem At.length_contents (hN : N i = some nd) : nd.contents.length = (s.inodes sb i).size := by
  rw [h.node_eq hN]
  exact Inode.length_contents ..

theorem At.mono (hV : V' ⊆ V) : At sb N R V' s :=
  ⟨h.toIntact, h.nodes, h.refs, fun i hi => h.valid i (hV hi)⟩

theorem At.lookup_of_refs (hR : 0 < R i) : ∃ copy, s.itable.lookup i = some ⟨R i, copy⟩ := by
  rw [← h.refs] at hR ⊢
  cases hslot : s.itable.lookup i with
  | none =>
    rw [FileSys.refs_of_none hslot] at hR
    exact absurd hR (Nat.lt_irrefl 0)
  | some slot => exact ⟨slot.copy, by rw [FileSys.refs_of_lookup hslot]⟩

theorem At.lookup_of_zero (hR : R i = 0) : s.itable.lookup i = none := by
  rw [← h.refs] at hR
  cases hslot : s.itable.lookup i with
  | none => rfl
  | some slot =>
    have := h.counted i slot hslot
    rw [FileSys.refs_of_lookup hslot] at hR
    omega

/-- An inode that has been locked is in the table with an up-to-date copy. -/
theorem At.locked (hi : i ∈ V) :
  s.itable.lookup i = some ⟨R i, some (s.inodes sb i)⟩ ∧ sb.Live (s.inodes sb) i ∧ 0 < R i
  := by
  have hcopy := h.valid i hi
  cases hslot : s.itable.lookup i with
  | none =>
    rw [FileSys.copy, hslot] at hcopy
    exact absurd rfl hcopy
  | some slot =>
    obtain ⟨ref, copy⟩ := slot
    rw [copy_of_lookup hslot] at hcopy
    obtain ⟨ip, rfl⟩ := Option.ne_none_iff_exists'.mp hcopy
    obtain ⟨hlive, rfl⟩ := h.copies i ip (copy_of_lookup hslot)
    have hpos := h.counted i _ hslot
    have href := FileSys.refs_of_lookup hslot
    rw [h.refs] at href
    rw [href]
    exact ⟨rfl, hlive, hpos⟩

/-- The disk and the cache are the same and one entry of the table has changed. -/
theorem At.setEntry (hobs : s'.machine.obs = s.machine.obs)
    (hother : ∀ j, j ≠ i → s'.itable.lookup j = s.itable.lookup j)
    (hslot : ∀ slot, s'.itable.lookup i = some slot → 0 < slot.ref
      ∧ ∀ ip, slot.copy = some ip → sb.Live (s.inodes sb) i ∧ ip = s.inodes sb i)
    (hV : ∀ j ∈ V', if j = i then s'.copy i ≠ none else j ∈ V) :
  At sb N (update R i (s'.refs i)) V' s'
  := by
  have hinodes : s'.inodes sb = s.inodes sb := by
    unfold FileSys.inodes
    rw [hobs]
  have hcopy : ∀ j, j ≠ i → s'.copy j = s.copy j := by
    intro j hj
    rw [FileSys.copy, FileSys.copy, hother j hj]
  refine ⟨⟨?_, ?_, ?_⟩, ?_, ?_, ?_⟩
  · rw [hinodes, hobs]
    exact h.files
  · intro j ip hip
    rw [hinodes]
    by_cases hj : j = i
    · subst hj
      obtain ⟨slot, hlookup, hcopy⟩ := Option.bind_eq_some_iff.mp hip
      exact (hslot slot hlookup).2 ip hcopy
    · rw [hcopy j hj] at hip
      exact h.copies j ip hip
  · intro j slot hlookup
    by_cases hj : j = i
    · subst hj
      exact (hslot slot hlookup).1
    · rw [hother j hj] at hlookup
      exact h.counted j slot hlookup
  · rw [← h.nodes]
    funext j
    rw [FileSys.nodes, FileSys.nodes, hinodes, hobs]
  · rw [← h.refs]
    funext j
    by_cases hj : j = i
    · subst hj
      rw [update_self]
    · rw [update_of_ne hj, FileSys.refs, FileSys.refs, hother j hj]
  · intro j hj
    have hcond := hV j hj
    split_ifs at hcond with hji
    · rw [hji]
      exact hcond
    · rw [hcopy j hji]
      exact h.valid j hcond

/-- The table is the same but for the order of its entries. -/
theorem At.congr (hobs : s'.machine.obs = s.machine.obs)
    (hlookup : ∀ j, s'.itable.lookup j = s.itable.lookup j) :
  At sb N R V s'
  := by
  have hcopy : s'.copy 0 = s.copy 0 := by rw [FileSys.copy, FileSys.copy, hlookup]
  have hset : At sb N (update R 0 (s'.refs 0)) V s' := by
    refine h.setEntry hobs (fun j _ => hlookup j) ?_ ?_
    · intro slot hslot
      rw [hlookup] at hslot
      refine ⟨h.counted 0 slot hslot, ?_⟩
      intro ip hip
      apply h.copies
      rw [FileSys.copy, hslot]
      exact hip
    · intro j hj
      split_ifs with h0
      · rw [hcopy, ← h0]
        exact h.valid j hj
      · exact hj
  rwa [FileSys.refs, hlookup, ← FileSys.refs, h.refs, update_eq_self] at hset

end

/-- Only the inodes with numbers below `ninodes` matter. -/
theorem Files.congr_inodes {o : Obs} {f f' : ℕ → Inode} (h : Files sb o f) (hf : ∀ j < sb.ninodes, f' j = f j) : Files sb o f' := by
  obtain ⟨hcons, hcell⟩ := h.consistent.congr_inodes hf
  have hlive : ∀ j, sb.Live f' j → sb.Live f j := by
    intro j hj
    refine ⟨hj.1, ?_⟩
    rw [← hf j hj.1]
    exact hj.2
  refine ⟨hcons, ?_, ?_⟩
  · intro j hj bn hbn h0
    rw [hcell] at h0 ⊢
    exact h.legible j (hlive j hj) bn hbn h0
  · intro j hj
    rw [hf j hj.1]
    exact h.filled j (hlive j hj)

/-- One inode has changed on the disk and in the table. -/
theorem At.change (s' : FileSys) (V' : Set ℕ) (h : At sb N R V s) {f' : ℕ → Inode}
    (hsaved : Saved sb i s.machine.obs (s.inodes sb) s'.machine.obs f') (hi : i < sb.ninodes)
    (hcontents : ∀ j, j ≠ i → sb.Live (s.inodes sb) j →
      (f' j).contents s'.machine.obs.view = (s.inodes sb j).contents s.machine.obs.view)
    (hfiles : Files sb s'.machine.obs f')
    (hother : ∀ j, j ≠ i → s'.itable.lookup j = s.itable.lookup j)
    (hslot : ∀ slot, s'.itable.lookup i = some slot → 0 < slot.ref
      ∧ ∀ ip, slot.copy = some ip → (f' i).type ≠ 0 ∧ ip = f' i)
    (hV : ∀ j ∈ V', if j = i then s'.copy i ≠ none else j ∈ V) :
  At sb (update N i (if (f' i).type ≠ 0 then some ((f' i).node s'.machine.obs.view) else none))
    (update R i (s'.refs i)) V' s'
  := by
  have hf : ∀ j < sb.ninodes, s'.inodes sb j = f' j := by
    intro j hj
    apply (hsaved.inode j hj).trans
    by_cases hji : j = i
    · subst hji
      rw [update_self]
    · rw [update_of_ne hji, hsaved.other j hji]
  have hsame : ∀ j, j ≠ i → j < sb.ninodes → s'.inodes sb j = s.inodes sb j := by
    intro j hj hlt
    rw [hf j hlt, hsaved.other j hj]
  have hlive : ∀ j, j ≠ i → (sb.Live (s'.inodes sb) j ↔ sb.Live (s.inodes sb) j) := by
    intro j hj
    apply and_congr_right
    intro hlt
    rw [hsame j hj hlt]
  have hcopy : ∀ j, j ≠ i → s'.copy j = s.copy j := by
    intro j hj
    rw [FileSys.copy, FileSys.copy, hother j hj]
  refine ⟨⟨hfiles.congr_inodes hf, ?_, ?_⟩, ?_, ?_, ?_⟩
  · intro j ip hip
    by_cases hj : j = i
    · subst hj
      obtain ⟨slot, hlookup, hcopy⟩ := Option.bind_eq_some_iff.mp hip
      obtain ⟨htype, rfl⟩ := (hslot slot hlookup).2 ip hcopy
      rw [← hf j hi] at htype
      exact ⟨⟨hi, htype⟩, (hf j hi).symm⟩
    · rw [hcopy j hj] at hip
      obtain ⟨hold, rfl⟩ := h.copies j ip hip
      exact ⟨(hlive j hj).mpr hold, (hsame j hj hold.1).symm⟩
  · intro j slot hlookup
    by_cases hj : j = i
    · subst hj
      exact (hslot slot hlookup).1
    · rw [hother j hj] at hlookup
      exact h.counted j slot hlookup
  · rw [← h.nodes]
    funext j
    by_cases hj : j = i
    · subst hj
      have hiff : sb.Live (s'.inodes sb) j ↔ (f' j).type ≠ 0 := by
        unfold Live
        rw [hf j hi]
        exact and_iff_right hi
      rw [update_self, FileSys.nodes, hf j hi]
      simp only [hiff]
    · rw [update_of_ne hj, FileSys.nodes, FileSys.nodes]
      by_cases hold : sb.Live (s.inodes sb) j
      · rw [if_pos hold, if_pos ((hlive j hj).mpr hold)]
        have hsame' := hcontents j hj hold
        rw [← hf j hold.1] at hsame'
        rw [Inode.node, hsame', hsame j hj hold.1]
        rfl
      · rw [if_neg hold, if_neg (fun hnew => hold ((hlive j hj).mp hnew))]
  · rw [← h.refs]
    funext j
    by_cases hj : j = i
    · subst hj
      rw [update_self]
    · rw [update_of_ne hj, FileSys.refs, FileSys.refs, hother j hj]
  · intro j hj
    have hcond := hV j hj
    split_ifs at hcond with hji
    · rw [hji]
      exact hcond
    · rw [hcopy j hji]
      exact h.valid j hcond

end Nodes

/-! ### References -/

section References

variable {sb : Superblock} {s : FileSys} {N : ℕ → Option Node} {R : ℕ → ℕ} {V V' : Set ℕ}
  {i : ℕ} {nd : Node} {C : Fault → FileSys → Prop} {Q : Unit → FileSys → Prop}

theorem setSlot_lookup (s : FileSys) (i : ℕ) (slot : InodeEntry) :
  (s.setSlot i slot).itable.lookup i = some slot
  := AList.lookup_insert ..

theorem setSlot_lookup_ne (s : FileSys) {i j : ℕ} (slot : InodeEntry) (hj : j ≠ i) :
  (s.setSlot i slot).itable.lookup j = s.itable.lookup j
  := AList.lookup_insert_ne hj

variable (h : At sb N R V s)

include h

/-- An entry of the table is replaced. -/
theorem At.setSlot (slot : InodeEntry) (hpos : 0 < slot.ref)
    (hcopy : ∀ ip, slot.copy = some ip → sb.Live (s.inodes sb) i ∧ ip = s.inodes sb i)
    (hV : ∀ j ∈ V', if j = i then slot.copy ≠ none else j ∈ V) :
  At sb N (update R i slot.ref) V' (s.setSlot i slot)
  := by
  have hlookup := setSlot_lookup s i slot
  rw [← FileSys.refs_of_lookup hlookup]
  refine h.setEntry rfl (fun j hj => setSlot_lookup_ne s slot hj) ?_ ?_
  · intro slot' hslot'
    rw [hlookup] at hslot'
    cases hslot'
    exact ⟨hpos, hcopy⟩
  · rwa [copy_of_lookup hlookup]

theorem At.dropSlot (hV : ∀ j ∈ V', j ∈ V ∧ j ≠ i) : At sb N (update R i 0) V' (s.dropSlot i) := by
  have hlookup : (s.dropSlot i).itable.lookup i = none := AList.lookup_erase ..
  rw [← FileSys.refs_of_none hlookup]
  refine h.setEntry rfl (fun j hj => AList.lookup_erase_ne hj) ?_ ?_
  · intro slot hslot
    rw [hlookup] at hslot
    cases hslot
  · intro j hj
    obtain ⟨hjV, hji⟩ := hV j hj
    rwa [if_neg hji]

/-- `iget` refers to an inode.  A new entry is not valid. -/
theorem At.wp_iget
    (hfull : R i = 0 → NINODE ≤ s.itable.entries.length → C (.panic "iget: no inodes") s)
    (hQ : ∀ s', At sb N (update R i (R i + 1)) V s' → (R i = 0 → s'.copy i = none) →
      s'.machine = s.machine → Q () s') :
  wp (iget i) Q C s
  := by
  simp only [iget, wp_bind, wp_get]
  split
  · rename_i slot hslot
    have href := FileSys.refs_of_lookup hslot
    rw [h.refs] at href
    rw [wp_set]
    refine hQ _ ?_ ?_ rfl
    · rw [href]
      apply h.setSlot { slot with ref := slot.ref + 1 } (Nat.succ_pos _)
      · intro ip hip
        apply h.copies
        rw [copy_of_lookup hslot]
        exact hip
      · intro j hj
        split_ifs with hji
        · rw [← copy_of_lookup hslot, ← hji]
          exact h.valid j hj
        · exact hj
    · intro hzero
      have hpos := h.counted i slot hslot
      omega
  · rename_i hslot
    have href := FileSys.refs_of_none hslot
    rw [h.refs] at href
    split_ifs with hroom
    · rw [wp_set]
      refine hQ _ ?_ (fun _ => copy_of_lookup (setSlot_lookup s i _)) rfl
      rw [href]
      apply h.setSlot { ref := 1, copy := none } (Nat.succ_pos _)
      · intro ip hip
        cases hip
      · intro j hj
        split_ifs with hji
        · have hvalid := h.valid j hj
          rw [hji, FileSys.copy, hslot] at hvalid
          exact absurd rfl hvalid
        · exact hj
    · exact hfull href (Nat.le_of_not_lt hroom)

/-- `ilock` panics if the inode is free. -/
theorem At.wp_ilock (hR : 0 < R i) (hi : i < sb.ninodes)
    (hfree : N i = none → ∀ s', C (.panic "ilock: no type") s')
    (hQ : ∀ s', (∃ nd, N i = some nd) → At sb N R (insert i V) s' → s'.machine.obs = s.machine.obs →
      Q () s') :
  wp (ilock sb i) Q C s
  := by
  obtain ⟨copy, hslot⟩ := h.lookup_of_refs hR
  simp only [ilock, wp_bind, wp_get, hslot]
  cases copy with
  | none =>
    rw [wp_bind, wp_onDisk]
    apply wp_bread_hold rfl
    intro m₁ h₁
    rw [wp_bind, wp_onDisk]
    apply wp_brelse_hold h₁ (h.files.consistent.settled_iblock hi)
    intro m₂ h₂
    simp only [wp_bind, wp_modify]
    split_ifs with htype
    · apply hfree
      by_contra hne
      obtain ⟨nd, hnd⟩ := Option.ne_none_iff_exists'.mp hne
      exact (h.live hnd).2 htype
    · have hlive : sb.Live (s.inodes sb) i := ⟨hi, htype⟩
      rw [wp_pure]
      apply hQ _ ⟨_, h.nodes_eq_some.mpr ⟨hlive, rfl⟩⟩ _ h₂
      have hat : At sb N R V ((s.setMachine m₁).setMachine m₂) := h.congr h₂ (fun _ => rfl)
      have hset : At sb N (update R i (R i)) (insert i V) (((s.setMachine m₁).setMachine m₂).setSlot i
          { ref := R i, copy := some (s.inodes sb i) }) := by
        apply hat.setSlot { ref := R i, copy := some (s.inodes sb i) } hR
        · intro ip hip
          cases hip
          have hinodes : ((s.setMachine m₁).setMachine m₂).inodes sb = s.inodes sb := by
            change sb.inode m₂.obs.view = sb.inode s.machine.obs.view
            rw [h₂]
          rw [hinodes]
          exact ⟨hlive, rfl⟩
        · intro j hj
          split_ifs with hji
          · exact Option.some_ne_none _
          · exact (Set.mem_insert_iff.mp hj).resolve_left hji
      rwa [update_eq_self] at hset
  | some ip =>
    have hcopy := copy_of_lookup hslot
    obtain ⟨hlive, -⟩ := h.copies i ip hcopy
    rw [wp_pure]
    apply hQ s ⟨_, h.nodes_eq_some.mpr ⟨hlive, rfl⟩⟩ _ rfl
    refine ⟨h.toIntact, h.nodes, h.refs, ?_⟩
    rintro j (rfl | hj)
    · rw [hcopy]
      exact Option.some_ne_none _
    · exact h.valid j hj

/-- A reference is dropped that is not the last one to a valid inode without links. -/
theorem At.wp_iput (hR : 0 < R i)
    (hkeep : R i = 1 → s.copy i = none ∨ ∀ nd, N i = some nd → nd.nlink ≠ 0) (hV : ∀ j ∈ V', j ∈ V ∧ (j = i → R i ≠ 1))
    (hQ : ∀ s', At sb N (update R i (R i - 1)) V' s' → s'.machine = s.machine → Q () s') :
  wp (iput sb i) Q C s
  := by
  obtain ⟨copy, hslot⟩ := h.lookup_of_refs hR
  have hdrop : wp (if R i = 1 then modify (·.dropSlot i)
      else modify (·.setSlot i { ref := R i - 1, copy }) : FsM Unit) Q C s := by
    split_ifs with hone
    · rw [wp_modify]
      refine hQ _ ?_ rfl
      rw [hone]
      apply h.dropSlot
      intro j hj
      refine ⟨(hV j hj).1, ?_⟩
      intro hji
      exact (hV j hj).2 hji hone
    · rw [wp_modify]
      refine hQ _ ?_ rfl
      apply h.setSlot { ref := R i - 1, copy } (by change 0 < R i - 1; omega)
      · intro ip hip
        apply h.copies
        rw [copy_of_lookup hslot]
        exact hip
      · intro j hj
        split_ifs with hji
        · rw [← copy_of_lookup hslot, ← hji]
          exact h.valid j (hV j hj).1
        · exact (hV j hj).1
  simp only [iput, wp_bind, wp_get, hslot]
  cases copy with
  | none => simpa only [wp_bind, wp_pure] using hdrop
  | some ip =>
    obtain ⟨hlive, rfl⟩ := h.copies i ip (copy_of_lookup hslot)
    have hnot : ¬ (R i = 1 ∧ (s.inodes sb i).nlink = 0) := by
      rintro ⟨hone, hzero⟩
      rcases hkeep hone with hnone | hlinks
      · rw [copy_of_lookup hslot] at hnone
        cases hnone
      · exact hlinks _ (h.nodes_eq_some.mpr ⟨hlive, rfl⟩) hzero
    simpa only [hnot, if_false, wp_bind, wp_pure] using hdrop

end References

/-! ### Locked inodes -/

section Locked

variable {sb : Superblock} {s : FileSys} {N : ℕ → Option Node} {R : ℕ → ℕ} {V V' : Set ℕ}
  {i : ℕ} {nd : Node} {C : Fault → FileSys → Prop} {α : Type}

variable (h : At sb N R V s) (hi : i ∈ V) {g : Inode → Kernel (α × Inode)} {Q : α → FileSys → Prop}

include h hi

/-- A function that reads a locked inode. -/
theorem At.wp_read
    (hg : wp (g (s.inodes sb i)) (fun r m' => r.2 = s.inodes sb i ∧ m'.obs = s.machine.obs
      ∧ ∀ s', At sb N R V s' → s'.machine.obs = s.machine.obs → Q r.1 s') (fun _ _ => False) s.machine) :
  wp (withInode i g) Q C s
  := by
  obtain ⟨hslot, hlive, hpos⟩ := h.locked hi
  simp only [withInode, wp_bind, wp_get, hslot, wp_onDisk]
  apply wp_mono hg
  · rintro ⟨a, ip⟩ m' ⟨rfl, hobs, hQ⟩
    simp only [wp_modify, wp_pure]
    refine hQ _ ?_ hobs
    apply h.congr hobs
    intro j
    by_cases hj : j = i
    · subst hj
      rw [setSlot_lookup, hslot]
    · rw [setSlot_lookup_ne _ _ hj]
      rfl
  · intro _ _ he
    exact he.elim

/-- A function that changes a locked inode. -/
theorem At.wp_write (hg : wp (g (s.inodes sb i)) (fun r m' => ∃ f', r.2 = f' i
      ∧ Saved sb i s.machine.obs (s.inodes sb) m'.obs f' ∧ (∀ j, j ≠ i → sb.Live (s.inodes sb) j →
        (f' j).contents m'.obs.view = (s.inodes sb j).contents s.machine.obs.view)
      ∧ Files sb m'.obs f' ∧ (f' i).type ≠ 0
      ∧ ∀ s', At sb (update N i (some ((f' i).node m'.obs.view))) R V s' → s'.machine = m' → Q r.1 s')
      (fun e m' => C e (s.setMachine m')) s.machine) :
  wp (withInode i g) Q C s
  := by
  obtain ⟨hslot, hlive, hpos⟩ := h.locked hi
  simp only [withInode, wp_bind, wp_get, hslot, wp_onDisk]
  apply wp_mono hg
  · rintro ⟨a, ip⟩ m' ⟨f', rfl, hsaved, hcontents, hfiles, htype, hQ⟩
    simp only [wp_modify, wp_pure]
    refine hQ _ ?_ rfl
    have hlookup := setSlot_lookup (s.setMachine m') i { ref := R i, copy := some (f' i) }
    have hchange := h.change ((s.setMachine m').setSlot i { ref := R i, copy := some (f' i) }) V
      hsaved hlive.1 hcontents hfiles (fun j hj => setSlot_lookup_ne _ _ hj) ?_ ?_
    · rw [FileSys.refs_of_lookup hlookup, if_pos htype, update_eq_self] at hchange
      exact hchange
    · intro slot hslot'
      rw [hlookup] at hslot'
      cases hslot'
      refine ⟨hpos, ?_⟩
      intro ip hip
      exact ⟨htype, (Option.some.inj hip).symm⟩
    · intro j hj
      split_ifs with hji
      · rw [copy_of_lookup hlookup]
        exact Option.some_ne_none _
      · exact hj
  · intro e m' he
    exact he

theorem At.wp_inodeOf {Q : Inode → FileSys → Prop}
    (hQ : ∀ s', At sb N R V s' → s'.machine.obs = s.machine.obs → Q (s.inodes sb i) s') :
  wp (inodeOf i) Q C s
  := h.wp_read hi ⟨rfl, rfl, hQ⟩

/-- Bytes from the memory of the kernel are written. -/
theorem At.wp_writei (hN : N i = some nd) {bytes : ℕ → UInt8} {off n : ℕ}
    (hoff : off ≤ nd.contents.length) (hn : 0 < n) (hmax : off + n ≤ MAXFILE * BSIZE)
    {Q : ℤ → FileSys → Prop}
    (hC : ∀ e s', LogFault e s'.machine → (1 ≤ s.machine.outstanding →
      LOGBLOCKS ≤ s.machine.lh.length + (2 * rangeBlocks off n + 3)) → C e s')
    (hQ : ∀ (tot : ℕ) s', tot ≤ n → (tot < n → tot = 0 ∨ (off + tot) % BSIZE = 0) →
      (tot = n ↔ sb.Enough s.machine.obs.view (s.inodes sb) i off n) →
      At sb (update N i (some { nd with
        contents := overwrite nd.contents off ((List.range tot).map bytes) })) R V s' → Q tot s') :
  wp (withInode i (fun ip => writei sb ip (.kernel bytes) 0 off n)) Q C s
  := by
  have hlive := h.live hN
  have hnode := h.node_eq hN
  have hlen := h.length_contents hN
  have hread : ∀ a k, (Source.kernel bytes).readable a k = k := by
    intro a k
    rw [Source.readable_eq_iff]
    intro _ _
    rfl
  have hbytes : (Source.kernel bytes).bytes 0 = bytes := by
    funext k
    rw [Source.bytes, Nat.zero_add]
    rfl
  have hover := @wp_writei_overwritten sb (.kernel bytes) 0 off n i _ _ h.files hlive (hlen ▸ hoff) hmax
  have henough := wp_writei_enough (.kernel bytes) 0 h.files hlive (hlen ▸ hoff) hn hmax
  have hroom : wp (writei sb (s.inodes sb i) (.kernel bytes) 0 off n) (fun _ _ => True)
      (fun _ _ => 1 ≤ s.machine.outstanding →
        LOGBLOCKS ≤ s.machine.lh.length + (2 * rangeBlocks off n + 3)) s.machine := by
    by_cases hout : 1 ≤ s.machine.outstanding
    · exact wp_mono (wp_writei_transaction hover hout) (fun _ _ _ => trivial) (fun _ _ he _ => he.2)
    · exact wp_mono wp_trivial (fun _ _ _ => trivial) (fun _ _ _ h => absurd h hout)
  apply h.wp_write hi
  apply wp_mono (wp_both (wp_both hover henough) hroom)
  · rintro ⟨r, ip⟩ m' ⟨⟨⟨tot, rfl, hw⟩, hall⟩, -⟩
    dsimp only at hw hall ⊢
    obtain ⟨hfiles, hcontents⟩ := hw.contents (hread _ _)
    have hself : update (s.inodes sb) i ip i = ip := update_self ..
    have hfields := hw.written.fields
    rw [hself] at hfields hcontents
    refine ⟨_, hself.symm, hw.written.toSaved, fun j hj => (hw.other j hj).2, hfiles, ?_, ?_⟩
    · rw [hself, hfields]
      exact hlive.2
    · intro s' hs' _
      apply hQ tot s' hw.le hw.chunks
      · exact ⟨fun heq => hall (by rw [heq]), fun hfits => hw.all hfits (hread _ _)⟩
      · rw [hself] at hs'
        have hnode' : ip.node m'.obs.view = { nd with
            contents := overwrite nd.contents off ((List.range tot).map bytes) } := by
          rw [hbytes] at hcontents
          rw [hnode, Inode.node, hcontents]
          rw [hfields]
          rfl
        rwa [hnode'] at hs'
  · intro e m' he
    exact hC e _ he.1.1 he.2

end Locked

end Xv6
