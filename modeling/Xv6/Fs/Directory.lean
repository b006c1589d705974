import Xv6.Fs.Format
import Xv6.Fs.Names
import Xv6.Fs.Nodes

/-!
# Directories as finite maps

`dirlookup` finds the first slot with a name, and `dirlink` puts a name that is not there into the
first free slot or behind the last one.  Seen through the slots of its contents a directory is a
finite map, which its runs extend and restrict: no two entries in use have the same name, a name
is found with the inode number that was linked to it last, and where `dirlink` fails the map is
what it was.
-/

namespace Xv6

open Stop Superblock Slots Function

/-! ### Reading entries -/

/-- The inode table has no room for another inode. -/
def TableFull (e : Fault) (s : FileSys) : Prop :=
  e = .panic "iget: no inodes" ∧ NINODE ≤ s.itable.entries.length

section Lookup

variable {sb : Superblock} {s : FileSys} {N : ℕ → Option Node} {R : ℕ → ℕ} {V : Set ℕ}
  {d inum : ℕ} {nd : Node} {name : CString} {C : Fault → FileSys → Prop}

theorem At.length_contents_le (h : At sb N R V s) (hN : N d = some nd) :
  nd.contents.length ≤ MAXFILE * BSIZE
  := by
  rw [h.length_contents hN]
  exact h.files.size_le (h.live hN)

theorem At.wp_readDirent (h : At sb N R V s) (hd : d ∈ V) (hN : N d = some nd) {off : ℕ}
    (hoff : off < nd.contents.length) {Q : ℤ × List UInt8 → FileSys → Prop}
    (hQ : ∀ s', At sb N R V s' → s'.machine.obs = s.machine.obs →
      Q (((nd.contents.drop off).take DIRENT).length, (nd.contents.drop off).take DIRENT) s') :
  wp (readDirent sb d off) Q C s
  := by
  have hlive := h.live hN
  have hnode := h.node_eq hN
  have hwrap : off + DIRENT < 2 ^ 32 := by
    have := h.length_contents_le hN
    simp only [MAXFILE, NDIRECT, NINDIRECT, BSIZE, DIRENT, DIRSIZ] at *
    omega
  apply h.wp_read hd
  rw [wp_bind]
  apply wp_mono (wp_readi_contents h.files hlive hwrap (fun _ _ => rfl) rfl) _ (fun _ _ he => he)
  rintro _ m' ⟨rfl, hobs⟩
  refine ⟨rfl, hobs, ?_⟩
  intro s' hs' hobs'
  have hq := hQ s' hs' hobs'
  rw [hnode] at hq
  exact hq

variable {c : List UInt8}

/-- The slots from the one of an entry on. -/
theorem slots_drop {j : ℕ} (hj : j < c.length / DIRENT) :
  (slots c).drop j = direntSlot (entryAt c j) :: (slots c).drop (j + 1)
  := by
  have hget := slots_get_of_lt hj
  obtain ⟨hlt, heq⟩ := List.getElem?_eq_some_iff.mp hget
  rw [List.drop_eq_getElem_cons hlt, heq]

theorem slots_drop_nil {j : ℕ} (hj : c.length ≤ DIRENT * j) : (slots c).drop j = [] := by
  apply List.drop_of_length_le
  rw [length_slots]
  simp only [DIRENT, DIRSIZ] at *
  omega

/-- An entry that is read in full. -/
theorem index_lt_of_length {j : ℕ} (h : ((c.drop (DIRENT * j)).take DIRENT).length = DIRENT) :
  j < c.length / DIRENT
  := by
  rw [List.length_take, List.length_drop] at h
  simp only [DIRENT, DIRSIZ] at *
  omega

theorem length_mod_of_short {j : ℕ} (hj : DIRENT * j < c.length)
    (h : ((c.drop (DIRENT * j)).take DIRENT).length ≠ DIRENT) :
  c.length % DIRENT ≠ 0
  := by
  rw [List.length_take, List.length_drop] at h
  simp only [DIRENT, DIRSIZ] at *
  omega

variable {Q : Option (ℕ × ℕ) → FileSys → Prop}

/-- The loop of `dirlookup` looks for the name in the slots.  The size of the directory is a
multiple of that of an entry, or the loop may panic. -/
theorem At.wp_dirlookupFrom (h : At sb N R V s) (hd : d ∈ V) (hN : N d = some nd) {fuel j : ℕ}
    (hfuel : nd.contents.length ≤ DIRENT * j + DIRENT * fuel)
    (hbad : nd.contents.length % DIRENT ≠ 0 → ∀ s', C (.panic "dirlookup read") s')
    (hfull : ∀ inum s', At sb N R V s' → R inum = 0 → TableFull (.panic "iget: no inodes") s' →
    C (.panic "iget: no inodes") s')
    (hnone : ∀ s', findFrom name.name ((slots nd.contents).drop j) j = none → At sb N R V s' →
    s'.machine.obs = s.machine.obs → Q none s')
    (hsome : ∀ inum k s', findFrom name.name ((slots nd.contents).drop j) j = some (inum, k) →
    At sb N (update R inum (R inum + 1)) V s' → (R inum = 0 → s'.copy inum = none) →
    s'.machine.obs = s.machine.obs → Q (some (inum, DIRENT * k)) s') :
  wp (dirlookupFrom sb d nd.contents.length name fuel (DIRENT * j)) Q C s
  := by
  induction fuel generalizing j s with
  | zero =>
    apply hnone s _ h rfl
    rw [slots_drop_nil hfuel]
    rfl
  | succ fuel ih =>
    have hnext : ∀ {s₁}, At sb N R V s₁ → s₁.machine.obs = s.machine.obs →
        findFrom name.name ((slots nd.contents).drop j) j
          = findFrom name.name ((slots nd.contents).drop (j + 1)) (j + 1) →
        wp (dirlookupFrom sb d nd.contents.length name fuel (DIRENT * (j + 1))) Q C s₁ := by
      intro s₁ h₁ hobs₁ hfrom
      rw [hfrom] at hnone hsome
      apply ih h₁
      · rw [Nat.mul_succ] at hfuel ⊢
        omega
      · intro s' hnone' hs' hobs'
        exact hnone s' hnone' hs' (hobs'.trans hobs₁)
      · intro inum k s' hsome' hs' hcopy hobs'
        exact hsome inum k s' hsome' hs' hcopy (hobs'.trans hobs₁)
    unfold dirlookupFrom
    split_ifs with hlt
    · rw [wp_bind]
      apply h.wp_readDirent hd hN hlt
      intro s₁ h₁ hobs₁
      dsimp only
      split_ifs with hr hinum hname
      · exact hbad (length_mod_of_short hlt (fun hlen => hr (congrArg Int.ofNat hlen))) s₁
      all_goals
        have hdrop := slots_drop (index_lt_of_length (Int.ofNat_inj.mp (not_not.mp hr)))
      · -- the entry is free
        apply hnext h₁ hobs₁
        rw [hdrop, direntSlot, entryAt, if_pos hinum, findFrom]
      · -- it has the name
        have hfrom : findFrom name.name ((slots nd.contents).drop j) j
            = some (direntInum ((nd.contents.drop (DIRENT * j)).take DIRENT), j) := by
          rw [hdrop, direntSlot, entryAt, if_neg hinum, findFrom, if_pos (namecmp_eq_zero.mp hname)]
        rw [wp_bind]
        apply h₁.wp_iget
        · intro hzero hroom
          exact hfull _ s₁ h₁ hzero ⟨rfl, hroom⟩
        · intro s' hs' hcopy hmachine
          apply hsome _ _ s' hfrom hs' hcopy
          rw [hmachine, hobs₁]
      · -- it has another name
        apply hnext h₁ hobs₁
        rw [hdrop, direntSlot, entryAt, if_neg hinum, findFrom,
          if_neg (fun heq => hname (namecmp_eq_zero.mpr heq))]
    · apply hnone s _ h rfl
      rw [slots_drop_nil (Nat.le_of_not_lt hlt)]
      rfl

/-- The contents of a directory: whole entries. -/
structure Node.IsDir (nd : Node) : Prop where
  type : nd.type = T_DIR
  length : nd.contents.length % DIRENT = 0

/-- The panics of the functions for directories that are not well formed. -/
def Malformed (e : Fault) : Prop :=
  e = .panic "dirlookup not DIR" ∨ e = .panic "dirlookup read" ∨ e = .panic "dirlink read"

/-- `dirlookup` finds the first slot with the name. -/
theorem At.wp_dirlookup (h : At sb N R V s) (hd : d ∈ V) (hN : N d = some nd)
    (hbad : ¬ nd.IsDir → ∀ e s', Malformed e → C e s')
    (hfull : ∀ inum s', At sb N R V s' → R inum = 0 → TableFull (.panic "iget: no inodes") s' →
    C (.panic "iget: no inodes") s')
    (hnone : ∀ s', nd.type = T_DIR → find name.name (slots nd.contents) = none → At sb N R V s' →
    s'.machine.obs = s.machine.obs → Q none s')
    (hsome : ∀ inum k s', nd.type = T_DIR → find name.name (slots nd.contents) = some (inum, k) →
    At sb N (update R inum (R inum + 1)) V s' → (R inum = 0 → s'.copy inum = none) →
    s'.machine.obs = s.machine.obs → Q (some (inum, DIRENT * k)) s') :
  wp (dirlookup sb d name) Q C s
  := by
  have hnode := h.node_eq hN
  unfold dirlookup
  rw [wp_bind]
  apply h.wp_inodeOf hd
  intro s₁ h₁ hobs₁
  have htype : (s.inodes sb d).type = nd.type := by rw [hnode]; rfl
  split_ifs with hdir
  · rw [htype] at hdir
    exact hbad (fun hnd => hdir hnd.type) _ _ (Or.inl rfl)
  · rw [not_not, htype] at hdir
    rw [← h.length_contents hN]
    apply h₁.wp_dirlookupFrom hd hN (j := 0)
    · simp only [DIRENT, DIRSIZ]
      omega
    · intro hlen s'
      exact hbad (fun hnd => hlen hnd.length) _ s' (Or.inr (Or.inl rfl))
    · exact hfull
    · intro s' hfind hs' hobs'
      exact hnone s' hdir hfind hs' (hobs'.trans hobs₁)
    · intro inum k s' hfind hs' hcopy hobs'
      exact hsome inum k s' hdir hfind hs' hcopy (hobs'.trans hobs₁)

/-- The loop of `dirlink` finds the first free slot, or the end. -/
theorem At.wp_freeDirent (h : At sb N R V s) (hd : d ∈ V) (hN : N d = some nd) {fuel j : ℕ}
    {Q : ℕ → FileSys → Prop} (hfuel : nd.contents.length ≤ DIRENT * j + DIRENT * fuel)
    (hj : j ≤ nd.contents.length / DIRENT)
    (hbad : nd.contents.length % DIRENT ≠ 0 → ∀ s', C (.panic "dirlink read") s')
    (hQ : ∀ s', freeFrom ((slots nd.contents).drop j) j < nd.contents.length / DIRENT
        ∨ nd.contents.length % DIRENT = 0 →
      At sb N R V s' → s'.machine.obs = s.machine.obs →
      Q (DIRENT * freeFrom ((slots nd.contents).drop j) j) s') :
  wp (freeDirent sb d nd.contents.length fuel (DIRENT * j)) Q C s
  := by
  -- the end is reached only if there is no part of an entry
  have hend : nd.contents.length ≤ DIRENT * j → Q (DIRENT * j) s := by
    intro hle
    have hfree : freeFrom ((slots nd.contents).drop j) j = j := by
      rw [slots_drop_nil hle]
      rfl
    rw [hfree] at hQ
    apply hQ s _ h rfl
    right
    simp only [DIRENT, DIRSIZ] at *
    omega
  induction fuel generalizing j s with
  | zero => exact hend hfuel
  | succ fuel ih =>
    unfold freeDirent
    split_ifs with hlt
    · rw [wp_bind]
      apply h.wp_readDirent hd hN hlt
      intro s₁ h₁ hobs₁
      dsimp only
      split_ifs with hr hinum
      · exact hbad (length_mod_of_short hlt (fun hlen => hr (congrArg Int.ofNat hlen))) s₁
      · have hindex := index_lt_of_length (Int.ofNat_inj.mp (not_not.mp hr))
        have hfree : freeFrom ((slots nd.contents).drop j) j = j := by
          rw [slots_drop hindex, direntSlot, entryAt, if_pos hinum, freeFrom]
        rw [hfree] at hQ
        exact hQ s₁ (Or.inl hindex) h₁ hobs₁
      · have hindex := index_lt_of_length (Int.ofNat_inj.mp (not_not.mp hr))
        have hfree : freeFrom ((slots nd.contents).drop j) j
            = freeFrom ((slots nd.contents).drop (j + 1)) (j + 1) := by
          rw [slots_drop hindex, direntSlot, entryAt, if_neg hinum, freeFrom]
        rw [hfree] at hQ
        have hQ₁ : ∀ s', freeFrom ((slots nd.contents).drop (j + 1)) (j + 1) < nd.contents.length / DIRENT
              ∨ nd.contents.length % DIRENT = 0 →
            At sb N R V s' → s'.machine.obs = s₁.machine.obs →
            Q (DIRENT * freeFrom ((slots nd.contents).drop (j + 1)) (j + 1)) s' := by
          intro s' hlast hs' hobs'
          exact hQ s' hlast hs' (hobs'.trans hobs₁)
        apply ih h₁ _ hindex hQ₁
        · intro hle
          have hfree : freeFrom ((slots nd.contents).drop (j + 1)) (j + 1) = j + 1 := by
            rw [slots_drop_nil hle]
            rfl
          rw [hfree] at hQ₁
          apply hQ₁ s₁ _ h₁ rfl
          right
          simp only [DIRENT, DIRSIZ] at *
          omega
        · rw [Nat.mul_succ] at hfuel ⊢
          omega
    · exact hend (Nat.le_of_not_lt hlt)

end Lookup

/-! ### Writing entries -/

/-- There is room for an entry in the first free slot: the file may be so long, and there are
blocks for it. -/
def HasRoom (sb : Superblock) (s : FileSys) (d : ℕ) (c : List UInt8) : Prop :=
  DIRENT * free (slots c) + DIRENT ≤ MAXFILE * BSIZE
    ∧ sb.Enough s.machine.obs.view (s.inodes sb) d (DIRENT * free (slots c)) DIRENT

/-- The contents of a directory with a new entry. -/
def linked (c : List UInt8) (name : CString) (inum : ℕ) : List UInt8 :=
  overwrite c (DIRENT * free (slots c)) (dirent name inum)

/-- The entry at an offset is cleared, as in `sys_unlink`. -/
def clearDirent (sb : Superblock) (d off : ℕ) : FsM Unit := do
  let r ← withInode d (fun dp => writei sb dp (.kernel fun _ => 0) 0 off DIRENT)
  if r ≠ DIRENT then throw (.panic "unlink: writei")

/-- The contents of a directory without the entry `k`. -/
def cleared (c : List UInt8) (k : ℕ) : List UInt8 := overwrite c (DIRENT * k) (List.replicate DIRENT 0)

section Link

variable {sb : Superblock} {s : FileSys} {N : ℕ → Option Node} {R : ℕ → ℕ} {V : Set ℕ}
  {d inum : ℕ} {nd : Node} {name : CString} {C : Fault → FileSys → Prop}

/-- The bytes of a list in the memory of the kernel. -/
theorem range_map_ofList (l : List UInt8) : (List.range l.length).map (CString.ofList l) = l := by
  apply List.ext_getElem
  · simp
  · intro k h₁ h₂
    simp [CString.ofList, h₂]

theorem overwrite_nil (c : List UInt8) (off : ℕ) : overwrite c off [] = c := by
  rw [overwrite, List.append_nil, List.length_nil, Nat.add_zero, List.take_append_drop]

/-- A reference that has just been made is dropped. -/
theorem At.wp_iput_again (h : At sb N (update R inum (R inum + 1)) V s)
    (hcopy : R inum = 0 → s.copy inum = none) {Q : Unit → FileSys → Prop}
    (hQ : ∀ s', At sb N R V s' → s'.machine = s.machine → Q () s') :
  wp (iput sb inum) Q C s
  := by
  have hself : update R inum (R inum + 1) inum = R inum + 1 := update_self ..
  apply h.wp_iput
  · rw [hself]
    exact Nat.succ_pos _
  · intro hone
    rw [hself] at hone
    exact Or.inl (hcopy (Nat.succ.inj hone))
  · intro j hj
    refine ⟨hj, ?_⟩
    rintro rfl hone
    rw [hself] at hone
    exact h.valid j hj (hcopy (Nat.succ.inj hone))
  · intro s' hs' hmachine
    rw [hself, Nat.add_sub_cancel, update_idem, update_eq_self] at hs'
    exact hQ s' hs' hmachine

/-- An entry is written as a whole or not at all, since a block has whole entries. -/
theorem At.wp_writeDirent (h : At sb N R V s) (hd : d ∈ V) (hN : N d = some nd) {k : ℕ} {de : CString}
    (hk : DIRENT * k ≤ nd.contents.length) {Q : ℤ → FileSys → Prop}
    (hC : ∀ e s', LogFault e s'.machine → (1 ≤ s.machine.outstanding →
      LOGBLOCKS ≤ s.machine.lh.length + 5) → C e s')
    (hfail : ∀ (r : ℤ) s', r ≠ DIRENT → ¬ (DIRENT * k + DIRENT ≤ MAXFILE * BSIZE
        ∧ sb.Enough s.machine.obs.view (s.inodes sb) d (DIRENT * k) DIRENT) → At sb N R V s' → Q r s')
    (hok : ∀ s', DIRENT * k + DIRENT ≤ MAXFILE * BSIZE →
      sb.Enough s.machine.obs.view (s.inodes sb) d (DIRENT * k) DIRENT →
      At sb (update N d (some { nd with
        contents := overwrite nd.contents (DIRENT * k) ((List.range DIRENT).map de) })) R V s' → Q DIRENT s') :
  wp (withInode d (fun dp => writei sb dp (.kernel de) 0 (DIRENT * k) DIRENT)) Q C s
  := by
  by_cases hmax : DIRENT * k + DIRENT ≤ MAXFILE * BSIZE
  · have hblocks : 2 * rangeBlocks (DIRENT * k) DIRENT + 3 = 5 := by
      simp only [rangeBlocks, DIRENT, DIRSIZ, BSIZE]
      omega
    apply h.wp_writei hd hN hk (by decide) hmax
    · intro e s' he hroom
      rw [hblocks] at hroom
      exact hC e s' he hroom
    · intro tot s' hle hchunks hall hs'
      rcases Nat.lt_or_ge tot DIRENT with hlt | hge
      · have hzero : tot = 0 := by
          have := hchunks hlt
          simp only [DIRENT, DIRSIZ, BSIZE] at *
          omega
        subst hzero
        apply hfail _ s' (by decide) (fun hroom => absurd (hall.mpr hroom.2) (by decide))
        rwa [List.range_zero, List.map_nil, overwrite_nil, ← hN, update_eq_self] at hs'
      · obtain rfl : tot = DIRENT := Nat.le_antisymm hle hge
        exact hok s' hmax (hall.mp rfl) hs'
  · apply h.wp_read hd
    have hwrap : ¬ (DIRENT * k + DIRENT) % 2 ^ 32 < DIRENT * k
        ∧ MAXFILE * BSIZE < (DIRENT * k + DIRENT) % 2 ^ 32 := by
      have := h.length_contents_le hN
      simp only [MAXFILE, NDIRECT, NINDIRECT, BSIZE, DIRENT, DIRSIZ] at *
      omega
    have hsize : ¬ ((s.inodes sb d).size < DIRENT * k ∨ (DIRENT * k + DIRENT) % 2 ^ 32 < DIRENT * k) := by
      rw [← h.length_contents hN]
      rintro (hlt | hlt)
      · exact absurd hk (Nat.not_le.mpr hlt)
      · exact hwrap.1 hlt
    rw [writei, if_neg hsize, if_pos hwrap.2]
    exact ⟨rfl, rfl, fun s' hs' _ => hfail (-1) s' (by decide) (fun hroom => hmax hroom.1) hs'⟩

/-- `dirlink` writes the entry into the first free slot.  It fails if the name is there or if there
is no room, and then changes nothing. -/
theorem At.wp_dirlink (h : At sb N R V s) (hd : d ∈ V) (hN : N d = some nd)
    {Q : ℤ → FileSys → Prop} (hbad : ¬ nd.IsDir → ∀ e s', Malformed e → C e s')
    (hfull : ∀ inum s', At sb N R V s' → R inum = 0 → TableFull (.panic "iget: no inodes") s' →
      C (.panic "iget: no inodes") s')
    (hC : ∀ e s', LogFault e s'.machine → (1 ≤ s.machine.outstanding →
      LOGBLOCKS ≤ s.machine.lh.length + 5) → C e s')
    (hfail : ∀ s', find name.name (slots nd.contents) ≠ none ∨ ¬ HasRoom sb s d nd.contents →
      At sb N R V s' → Q (-1) s')
    (hok : ∀ s', nd.type = T_DIR → find name.name (slots nd.contents) = none → HasRoom sb s d nd.contents →
      At sb (update N d (some { nd with contents := linked nd.contents name inum })) R V s' → Q 0 s') :
  wp (dirlink sb d name inum) Q C s
  := by
  unfold dirlink
  rw [wp_bind]
  apply h.wp_dirlookup hd hN hbad hfull
  · intro s₁ hdir hfind h₁ hobs₁
    dsimp only
    rw [wp_bind]
    apply h₁.wp_inodeOf hd
    intro s₂ h₂ hobs₂
    rw [← h₁.length_contents hN, wp_bind]
    apply h₂.wp_freeDirent hd hN (j := 0)
    · simp only [DIRENT, DIRSIZ]
      omega
    · exact Nat.zero_le _
    · intro hlen s'
      exact hbad (fun hnd => hlen hnd.length) _ s' (Or.inr (Or.inr rfl))
    · intro s₃ hend h₃ hobs₃
      have hobs := (hobs₃.trans hobs₂).trans hobs₁
      have hinodes : s₃.inodes sb = s.inodes sb := by
        unfold FileSys.inodes
        rw [hobs]
      have hout : s₃.machine.outstanding = s.machine.outstanding := congrArg Obs.outstanding hobs
      have hlh : s₃.machine.lh = s.machine.lh := congrArg Obs.lh hobs
      have hle : DIRENT * free (slots nd.contents) ≤ nd.contents.length := by
        have hfree := free_le (slots nd.contents)
        rw [length_slots] at hfree
        simp only [DIRENT, DIRSIZ] at *
        omega
      have hbytes : (List.range DIRENT).map (CString.ofList (dirent name inum)) = dirent name inum := by
        rw [← length_dirent name inum]
        exact range_map_ofList _
      rw [wp_bind]
      apply h₃.wp_writeDirent hd hN hle
      · intro e s' he hroom
        rw [hout, hlh] at hroom
        exact hC e s' he hroom
      · intro r s' hr hroom hs'
        rw [hobs, hinodes] at hroom
        rw [wp_pure, if_pos hr]
        exact hfail s' (Or.inr hroom) hs'
      · intro s' hmax henough hs'
        rw [hobs, hinodes] at henough
        rw [hbytes] at hs'
        exact hok s' hdir hfind ⟨hmax, henough⟩ hs'
  · intro found k s₁ hdir hfind h₁ hcopy hobs₁
    dsimp only
    rw [wp_bind]
    apply h₁.wp_iput_again hcopy
    intro s' hs' _
    exact hfail s' (Or.inl (by rw [hfind]; exact Option.some_ne_none _)) hs'

/-- A part of a file that is there needs no blocks. -/
theorem At.enough (h : At sb N R V s) (hN : N d = some nd) {off n : ℕ} (hn : 0 < n)
    (hend : off + n ≤ nd.contents.length) :
  sb.Enough s.machine.obs.view (s.inodes sb) d off n
  := by
  have hlive := h.live hN
  have hmax := h.length_contents_le hN
  rw [h.length_contents hN] at hend hmax
  have hempty : sb.emptyCells s.machine.obs.view (s.inodes sb) d off n = ∅ := by
    apply Finset.filter_eq_empty_iff.mpr
    apply rangeCells_ne_zero hlive hn (hend.trans hmax)
    intro bn hbn hin hlt
    -- the byte at the beginning of the block, or at the offset, has a block
    obtain ⟨c, hc⟩ := h.files.filled d hlive (max off (bn * BSIZE)) (by omega)
    obtain ⟨-, hne, -⟩ := cell_of_byte hlive hc
    have hdiv : max off (bn * BSIZE) / BSIZE = bn := by
      simp only [BSIZE] at *
      omega
    rwa [hdiv] at hne
  unfold Enough
  rw [hempty]
  exact Nat.zero_le _

/-- Clearing an entry that is there does not fail. -/
theorem At.wp_clearDirent (h : At sb N R V s) (hd : d ∈ V) (hN : N d = some nd) {k : ℕ}
    (hk : k < nd.contents.length / DIRENT) {Q : Unit → FileSys → Prop}
    (hC : ∀ e s', LogFault e s'.machine → (1 ≤ s.machine.outstanding →
      LOGBLOCKS ≤ s.machine.lh.length + 5) → C e s')
    (hQ : ∀ s', At sb (update N d (some { nd with contents := cleared nd.contents k })) R V s' →
      Q () s') :
  wp (clearDirent sb d (DIRENT * k)) Q C s
  := by
  have hend : DIRENT * k + DIRENT ≤ nd.contents.length := by
    simp only [DIRENT, DIRSIZ] at *
    omega
  unfold clearDirent
  rw [wp_bind]
  apply h.wp_writeDirent hd hN (by omega) hC
  · intro r s' _ hroom
    exact absurd ⟨hend.trans (h.length_contents_le hN), h.enough hN (by decide) hend⟩ hroom
  · intro s' _ _ hs'
    rw [if_neg (not_not_intro rfl)]
    apply hQ s'
    rwa [List.map_const', List.length_range] at hs'

end Link

/-! ### Runs -/

/-- An entry is removed as in `sys_unlink`, which looks for the name and clears the entry that it
finds.  The reference to the inode of the entry is left to the rest of the call. -/
def removeEntry (sb : Superblock) (d : ℕ) (name : CString) : FsM (Option ℕ) := do
  match ← dirlookup sb d name with
  | none => return none
  | some (inum, off) => do
    clearDirent sb d off
    return some inum

/-- The entries of the directory `d` are the finite map `map`. -/
structure DirMap (sb : Superblock) (d : ℕ) (nd : Node) (map : List UInt8 → Option ℕ) (s : FileSys) : Prop
    extends Intact sb s, nd.IsDir where
  node : s.nodes sb d = some nd
  distinct : Distinct (slots nd.contents)
  get_eq : get (slots nd.contents) = map

/-- What may stop a change of a directory: there is no room in the inode table or in the log. -/
def DirFault (s : FileSys) (e : Fault) (s' : FileSys) : Prop :=
  TableFull e s' ∨ LogFault e s'.machine ∧ (1 ≤ s.machine.outstanding → LOGBLOCKS ≤ s.machine.lh.length + 5)

namespace DirMap

variable {sb : Superblock} {s s' : FileSys} {d : ℕ} {nd : Node} {map : List UInt8 → Option ℕ}

theorem toAt (h : DirMap sb d nd map s) : At sb (s.nodes sb) s.refs { i | s.copy i ≠ none } s := h.toIntact.at

theorem length_le (h : DirMap sb d nd map s) {k : ℕ} (hk : k ≤ (slots nd.contents).length) :
  k ≤ nd.contents.length / DIRENT
  := by rwa [length_slots] at hk

theorem of_at (h : DirMap sb d nd map s) {N : ℕ → Option Node} {R : ℕ → ℕ} {V : Set ℕ} (hs' : At sb N R V s')
    (hN : N d = some nd) :
  DirMap sb d nd map s'
  := ⟨hs'.toIntact, h.toIsDir, by rw [hs'.nodes, hN], h.distinct, h.get_eq⟩

/-- A name has a slot or is not in the map. -/
theorem find_eq (h : DirMap sb d nd map s) (name : List UInt8) :
  (find name (slots nd.contents)).map Prod.fst = map name
  := by rw [← h.get_eq, Slots.get]

/-- `dirlookup` returns what the map has for the name, and where the entry is. -/
theorem wp_dirlookup (h : DirMap sb d nd map s) (hd : s.copy d ≠ none) (name : CString) :
  wp (dirlookup sb d name)
    (fun r s' => DirMap sb d nd map s' ∧ s'.nodes sb = s.nodes sb ∧ r.map Prod.fst = map name.name
      ∧ ∀ inum off, r = some (inum, off) →
        direntSlot ((nd.contents.drop off).take DIRENT) = some (name.name, inum))
    TableFull s
  := by
  apply h.toAt.wp_dirlookup hd h.node
  · intro hbad
    exact absurd h.toIsDir hbad
  · intro _ s' _ _ hfull
    exact hfull
  · intro s' _ hfind hs' _
    refine ⟨h.of_at hs' h.node, hs'.nodes, ?_, ?_⟩
    · rw [← h.find_eq, hfind]
    · intro _ _ hr
      cases hr
  · intro inum k s' _ hfind hs' _ _
    refine ⟨h.of_at hs' h.node, hs'.nodes, ?_, ?_⟩
    · rw [← h.find_eq, hfind]
      rfl
    · intro _ _ hr
      cases hr
      have hslot := find_eq_some hfind
      rw [slots_get] at hslot
      split_ifs at hslot
      exact Option.some.inj hslot

/-- The directory after the slot `k` has been written. -/
theorem put (h : DirMap sb d nd map s) {N : ℕ → Option Node} {R : ℕ → ℕ} {V : Set ℕ} {k : ℕ}
    {de : List UInt8} {map' : List UInt8 → Option ℕ} (hk : k ≤ nd.contents.length / DIRENT) (hde : de.length = DIRENT)
    (hs' : At sb (update N d (some { nd with contents := overwrite nd.contents (DIRENT * k) de })) R V s')
    (hdistinct : Distinct (Slots.put (slots nd.contents) k (direntSlot de)))
    (hmap : get (Slots.put (slots nd.contents) k (direntSlot de)) = map') :
  DirMap sb d { nd with contents := overwrite nd.contents (DIRENT * k) de } map' s'
  := by
  have hslots := slots_overwrite h.length hk hde
  refine ⟨hs'.toIntact, ⟨h.type, length_overwrite_mod h.length hk hde⟩, ?_, ?_, ?_⟩
  · rw [hs'.nodes, update_self]
  · rwa [hslots]
  · rwa [hslots]

/-- `dirlink` fails if the map has the name or there is no room, and does not change the map; else
it extends the map and writes only the first free slot. -/
theorem wp_dirlink (h : DirMap sb d nd map s) (hd : s.copy d ≠ none) (name : CString) {inum : ℕ}
    (h0 : inum ≠ 0) (hlt : inum < 2 ^ 16) :
  wp (dirlink sb d name inum)
    (fun r s' => (r = -1 ∧ (map name.name ≠ none ∨ ¬ HasRoom sb s d nd.contents) ∧ DirMap sb d nd map s')
      ∨ r = 0 ∧ map name.name = none ∧ HasRoom sb s d nd.contents
        ∧ ∃ nd', DirMap sb d nd' (update map name.name (some inum)) s'
          ∧ slots nd'.contents
            = Slots.put (slots nd.contents) (free (slots nd.contents)) (some (name.name, inum)))
    (DirFault s) s
  := by
  have hfind : map name.name = none ↔ find name.name (slots nd.contents) = none := by
    rw [← h.get_eq]
    exact get_eq_none
  apply h.toAt.wp_dirlink hd h.node
  · intro hbad
    exact absurd h.toIsDir hbad
  · intro _ s' _ _ hfull
    exact Or.inl hfull
  · intro e s' he hroom
    exact Or.inr ⟨he, hroom⟩
  · intro s' hwhy hs'
    left
    rw [ne_eq, hfind]
    exact ⟨rfl, hwhy, h.of_at hs' h.node⟩
  · intro s' _ hnew hroom hs'
    right
    have hslot : direntSlot (dirent name inum) = some (name.name, inum) := direntSlot_dirent h0 hlt
    have hfree := free_le (slots nd.contents)
    refine ⟨rfl, hfind.mpr hnew, hroom, { nd with contents := linked nd.contents name inum }, ?_, ?_⟩
    · apply h.put (h.length_le hfree) (length_dirent name inum) hs'
      · rw [hslot]
        exact h.distinct.put_some hfree hnew
      · rw [hslot, h.distinct.get_put_some hfree (free_ne_some _) hnew, h.get_eq]
    · change slots (overwrite _ _ _) = _
      rw [slots_overwrite h.length (h.length_le hfree) (length_dirent name inum), hslot]

/-- Removing an entry restricts the map and writes only the slot of the entry. -/
theorem wp_removeEntry (h : DirMap sb d nd map s) (hd : s.copy d ≠ none) (name : CString) :
  wp (removeEntry sb d name)
    (fun r s' => r = map name.name ∧ (r = none → DirMap sb d nd map s')
      ∧ ∀ inum, r = some inum → ∃ nd' k, DirMap sb d nd' (update map name.name none) s'
        ∧ (slots nd.contents)[k]? = some (some (name.name, inum))
        ∧ slots nd'.contents = Slots.put (slots nd.contents) k none)
    (DirFault s) s
  := by
  unfold removeEntry
  rw [wp_bind]
  apply h.toAt.wp_dirlookup hd h.node
  · intro hbad
    exact absurd h.toIsDir hbad
  · intro _ s' _ _ hfull
    exact Or.inl hfull
  · intro s' _ hfind hs' _
    refine ⟨?_, fun _ => h.of_at hs' h.node, ?_⟩
    · rw [← h.find_eq, hfind]
      rfl
    · intro _ hr
      cases hr
  · intro inum k s₁ _ hfind h₁ _ hobs
    have hslot := find_eq_some hfind
    have hk : k < nd.contents.length / DIRENT := by
      rw [← length_slots]
      exact (List.getElem?_eq_some_iff.mp hslot).1
    dsimp only
    rw [wp_bind]
    apply h₁.wp_clearDirent hd h.node hk
    · intro e s' he hroom
      have hout : s₁.machine.outstanding = s.machine.outstanding := congrArg Obs.outstanding hobs
      have hlh : s₁.machine.lh = s.machine.lh := congrArg Obs.lh hobs
      rw [hout, hlh] at hroom
      exact Or.inr ⟨he, hroom⟩
    · intro s' hs'
      refine ⟨?_, fun hr => absurd hr (Option.some_ne_none _), ?_⟩
      · rw [← h.find_eq, hfind]
        rfl
      · intro inum' hr
        cases hr
        have hlen : (List.replicate DIRENT (0 : UInt8)).length = DIRENT := List.length_replicate
        refine ⟨{ nd with contents := cleared nd.contents k }, k, ?_, hslot, ?_⟩
        · apply h.put hk.le hlen hs'
          · rw [direntSlot_zero]
            exact h.distinct.put_none (by rw [length_slots]; exact hk.le)
          · rw [direntSlot_zero, h.distinct.get_put_none hslot, h.get_eq]
        · change slots (overwrite _ _ _) = _
          rw [slots_overwrite h.length hk.le hlen, direntSlot_zero]

end DirMap

/-- A change of a directory. -/
inductive DirEvent where
  | link (name : List UInt8) (inum : ℕ)
  | remove (name : List UInt8)

/-- The inode number that was linked to a name last, unless the name has been removed since.  The
last change is the first one of the list. -/
def bound : List DirEvent → List UInt8 → Option ℕ
  | [] => fun _ => none
  | .link name inum :: h => update (bound h) name (some inum)
  | .remove name :: h => update (bound h) name none

/-- The inode `d` is a directory with the contents `c`. -/
def HasDir (sb : Superblock) (d : ℕ) (c : List UInt8) (s : FileSys) : Prop :=
  Intact sb s ∧ ∃ nd, s.nodes sb d = some nd ∧ nd.type = T_DIR ∧ nd.contents = c

/-- The changes of a directory that was empty at first, by calls that succeed or fail.  Between them
anything may happen that does not change the contents of the directory. -/
inductive DirRun (sb : Superblock) (d : ℕ) : List DirEvent → FileSys → Prop where
  | empty {s : FileSys} : HasDir sb d [] s → DirRun sb d [] s
  | link {h : List DirEvent} {s s' : FileSys} {name : CString} {inum : ℕ} {r : ℤ} : DirRun sb d h s →
      s.copy d ≠ none → inum ≠ 0 → inum < 2 ^ 16 → dirlink sb d name inum s = .ok r s' →
      DirRun sb d (if r = 0 then .link name.name inum :: h else h) s'
  | remove {h : List DirEvent} {s s' : FileSys} {name : CString} {r : Option ℕ} : DirRun sb d h s →
      s.copy d ≠ none → removeEntry sb d name s = .ok r s' →
      DirRun sb d (if r = none then h else .remove name.name :: h) s'
  | other {h : List DirEvent} {s s' : FileSys} {c : List UInt8} : DirRun sb d h s →
      HasDir sb d c s → HasDir sb d c s' → DirRun sb d h s'

theorem DirRun.dirMap {sb : Superblock} {d : ℕ} {h : List DirEvent} {s : FileSys} (hrun : DirRun sb d h s) :
  ∃ nd, DirMap sb d nd (bound h) s
  := by
  induction hrun with
  | empty hdir =>
    obtain ⟨hintact, nd, hnd, htype, hnil⟩ := hdir
    have hslots : slots nd.contents = [] := by rw [hnil]; rfl
    refine ⟨nd, hintact, ⟨htype, by rw [hnil]; rfl⟩, hnd, ?_, ?_⟩
    · rw [hslots]
      exact distinct_nil
    · rw [hslots]
      rfl
  | link _ hcopy h0 hlt hok ih =>
    obtain ⟨nd, hmap⟩ := ih
    rcases wp_of_ok hok (hmap.wp_dirlink hcopy _ h0 hlt) with ⟨rfl, -, hmap'⟩ | ⟨rfl, -, -, nd', hmap', -⟩
    · exact ⟨nd, hmap'⟩
    · exact ⟨nd', hmap'⟩
  | @remove h _ _ name r _ hcopy hok ih =>
    obtain ⟨nd, hmap⟩ := ih
    obtain ⟨-, hnone, hsome⟩ := wp_of_ok hok (hmap.wp_removeEntry hcopy _)
    cases r with
    | none => exact ⟨nd, hnone rfl⟩
    | some inum =>
      obtain ⟨nd', -, hmap', -⟩ := hsome inum rfl
      exact ⟨nd', hmap'⟩
  | other _ hold hnew ih =>
    obtain ⟨nd, hmap⟩ := ih
    obtain ⟨-, nd₁, hnd₁, -, rfl⟩ := hold
    obtain rfl := Option.some.inj (hmap.node.symm.trans hnd₁)
    obtain ⟨hintact, nd', hnd', htype, hcontents⟩ := hnew
    refine ⟨nd', hintact, ⟨htype, ?_⟩, hnd', ?_, ?_⟩
    · rw [hcontents]
      exact hmap.length
    · rw [hcontents]
      exact hmap.distinct
    · rw [hcontents]
      exact hmap.get_eq

/-- A directory is a finite map on names of at most `DIRSIZ` bytes.  Its entries are those that were
linked and not removed, each once; a look-up returns the last inode number that was linked to the
name; `dirlink` fails exactly if the name is there or there is no room for an entry, and otherwise
writes one free slot. -/
theorem directory_map {sb : Superblock} {d : ℕ} {h : List DirEvent} {s : FileSys} (hrun : DirRun sb d h s) :
  ∃ nd, DirMap sb d nd (bound h) s ∧ (s.copy d ≠ none → ∀ name : CString,
    wp (dirlookup sb d name)
      (fun r s' => DirMap sb d nd (bound h) s' ∧ s'.nodes sb = s.nodes sb
        ∧ r.map Prod.fst = bound h name.name
        ∧ ∀ inum off, r = some (inum, off) →
          direntSlot ((nd.contents.drop off).take DIRENT) = some (name.name, inum))
      TableFull s
    ∧ (∀ inum, inum ≠ 0 → inum < 2 ^ 16 → wp (dirlink sb d name inum)
      (fun r s' => (r = -1 ∧ (bound h name.name ≠ none ∨ ¬ HasRoom sb s d nd.contents)
          ∧ DirMap sb d nd (bound h) s')
        ∨ r = 0 ∧ bound h name.name = none ∧ HasRoom sb s d nd.contents
          ∧ ∃ nd', DirMap sb d nd' (update (bound h) name.name (some inum)) s'
            ∧ slots nd'.contents
              = put (slots nd.contents) (free (slots nd.contents)) (some (name.name, inum)))
      (DirFault s) s)
    ∧ wp (removeEntry sb d name)
      (fun r s' => r = bound h name.name ∧ (r = none → DirMap sb d nd (bound h) s')
        ∧ ∀ inum, r = some inum → ∃ nd' k, DirMap sb d nd' (update (bound h) name.name none) s'
          ∧ (slots nd.contents)[k]? = some (some (name.name, inum))
          ∧ slots nd'.contents = put (slots nd.contents) k none)
      (DirFault s) s)
  := by
  obtain ⟨nd, hmap⟩ := hrun.dirMap
  refine ⟨nd, hmap, ?_⟩
  intro hcopy name
  refine ⟨hmap.wp_dirlookup hcopy name, ?_, hmap.wp_removeEntry hcopy name⟩
  intro inum h0 hlt
  exact hmap.wp_dirlink hcopy name h0 hlt

/-! ### A disk with an empty root directory -/

def rootDir : Inode where
  inum := 1
  type := T_DIR
  major := 0
  minor := 0
  nlink := 1
  size := 0
  addrs := fun _ => 0

def rootDisk : ℕ → Block := format [rootDir] 35 (fun _ _ => 0)

theorem root_inodeList : InodeList [rootDir] := by
  refine ⟨?_, ?_, List.pairwise_singleton _ _⟩
  · intro ip hip
    rw [List.mem_singleton.mp hip]
    decide
  · intro ip hip
    rw [List.mem_singleton.mp hip]
    exact ⟨by decide, by decide, by decide, by decide, by decide, by decide⟩

theorem root_inode : formatSb.inode rootDisk 1 = rootDir :=
  format_inode_of_mem root_inodeList (List.mem_singleton_self rootDir)

theorem root_live {i : ℕ} : formatSb.Live (formatSb.inode rootDisk) i ↔ i = 1 := by
  constructor
  · intro hlive
    obtain ⟨ip, hip, rfl⟩ := format_live root_inodeList hlive
    rw [List.mem_singleton.mp hip]
    rfl
  · rintro rfl
    refine ⟨by decide, ?_⟩
    rw [root_inode]
    decide

theorem root_cell : formatSb.cell rootDisk (formatSb.inode rootDisk) = fun _ => 0 := by
  funext q
  cases q with
  | addr i k =>
    rw [cell]
    split_ifs with hlive
    · rw [root_live] at hlive
      rw [hlive, root_inode]
      rfl
    · rfl
  | entry i j =>
    apply if_neg
    rintro ⟨hlive, hind⟩
    rw [root_live] at hlive
    rw [hlive, root_inode] at hind
    exact hind rfl

theorem root_clean : CleanImage formatSb 2 rootDisk := by
  apply format_clean root_cell (Nat.le_refl 35) (by decide)
  · intro q hq
    exact absurd rfl hq
  · intro q q' hq
    exact absurd rfl hq
  · intro b hge hlt
    exact absurd hlt (Nat.not_lt.mpr hge)
  · intro i hlive bn _ hbelow
    obtain rfl := root_live.mp hlive
    have hbelow : bn * BSIZE < (formatSb.inode rootDisk 1).size := hbelow
    rw [root_inode] at hbelow
    exact absurd hbelow (Nat.not_lt_zero _)

/-- The file system in a transaction, with its root directory locked. -/
def rootSys : FileSys where
  machine := { Machine.boot rootDisk 2 100 (fun _ => true) with outstanding := 1 }
  itable := AList.insert 1 { ref := 1, copy := some rootDir } ∅

theorem root_lookup (i : ℕ) :
  rootSys.itable.lookup i = if i = 1 then some { ref := 1, copy := some rootDir } else none
  := by
  unfold rootSys
  split_ifs with hi
  · rw [hi]
    exact AList.lookup_insert ..
  · rw [AList.lookup_insert_ne hi]
    rfl

theorem root_intact : Intact formatSb rootSys := by
  have hfiles : Files formatSb rootSys.machine.obs (formatSb.inode rootDisk) := by
    apply root_clean.files
    intro i hi
    rw [root_live.mp hi, root_inode]
    decide
  refine ⟨hfiles, ?_, ?_⟩
  · intro i ip hip
    rw [FileSys.copy, root_lookup] at hip
    split_ifs at hip with hi
    · subst hi
      cases hip
      exact ⟨root_live.mpr rfl, root_inode.symm⟩
    · cases hip
  · intro i slot hslot
    rw [root_lookup] at hslot
    split_ifs at hslot
    cases hslot
    decide

theorem root_node : rootSys.nodes formatSb 1 = some (Node.mk T_DIR 0 0 1 []) := by
  have hlive : formatSb.Live (rootSys.inodes formatSb) 1 := root_live.mpr rfl
  rw [FileSys.nodes, if_pos hlive]
  change some ((formatSb.inode rootDisk 1).node rootDisk) = _
  rw [root_inode]
  rfl

/-- Whether a call has returned `r`. -/
def answers {α : Type} [DecidableEq α] (r : α) : EStateM.Result Fault FileSys α → Bool
  | .ok a _ => a = r
  | .error _ _ => false

/-- A name of fifteen bytes is linked, and found under its first fourteen bytes. -/
theorem directory_map_root :
  ∃ s, DirRun formatSb 1 [.link (List.replicate 14 97) 1] s
    ∧ ∃ nd, DirMap formatSb 1 nd (bound [.link (List.replicate 14 97) 1]) s
  := by
  have hreturns : answers 0 (dirlink formatSb 1 (CString.ofList (List.replicate 15 97)) 1 rootSys) = true := by
    decide +kernel
  have hempty : DirRun formatSb 1 [] rootSys := .empty ⟨root_intact, _, root_node, rfl, rfl⟩
  have hcopy : rootSys.copy 1 ≠ none := by
    rw [FileSys.copy, root_lookup]
    exact Option.some_ne_none _
  cases hrun : dirlink formatSb 1 (CString.ofList (List.replicate 15 97)) 1 rootSys with
  | error e s =>
    rw [hrun] at hreturns
    cases hreturns
  | ok r s =>
    rw [hrun] at hreturns
    obtain rfl : r = 0 := of_decide_eq_true hreturns
    have hlinked := hempty.link hcopy (by decide) (by decide) hrun
    obtain ⟨nd, hmap, -⟩ := directory_map hlinked
    exact ⟨s, hlinked, nd, hmap⟩

end Xv6
