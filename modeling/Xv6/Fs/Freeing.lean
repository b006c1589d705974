import Xv6.Fs.Footprint

/-!
# The blocks that are logged when a file is freed

`itrunc` frees the blocks of a file one by one, and `bfree` logs the block of the free map with
the bit.  So the blocks logged are the inode and the blocks of the free map for the blocks of the
file, of which there may be many on a large disk.
-/

namespace Xv6

open Stop Superblock

/-! ### The functions with another `log_write` inside -/

def bfreeWith (log : ℕ → Kernel Unit) (sb : Superblock) (b : ℕ) : Kernel Unit := do
  let data ← bread (sb.bblock b)
  if data.testBit (b % BPB) = false then panic "freeing free block"
  fill (sb.bblock b) (data.setBit (b % BPB) false)
  log (sb.bblock b)
  brelse (sb.bblock b)

def itruncWith (log : ℕ → Kernel Unit) (sb : Superblock) (ip : Inode) : Kernel Inode := do
  let ip ← (List.finRange NDIRECT).foldlM (fun ip k => do
    if ip.addrs k.castSucc ≠ 0 then
      bfreeWith log sb (ip.addrs k.castSucc)
      return ip.setAddr k.castSucc 0
    else return ip) ip
  let ip ← if ip.indirect ≠ 0 then do
      let a ← bread ip.indirect
      (List.finRange NINDIRECT).forM fun j => do
        if entry a j ≠ 0 then bfreeWith log sb (entry a j)
      brelse ip.indirect
      bfreeWith log sb ip.indirect
      pure (ip.setAddr (Fin.last NDIRECT) 0)
    else pure ip
  let ip := ip.setSize 0
  iupdateWith log sb ip
  return ip

/-- The source has `log_write` there. -/
theorem itrunc_eq (sb : Superblock) : itrunc sb = itruncWith logWrite sb := rfl

/-! ### The blocks of the free map for a file -/

/-- The block of the free map for an address. -/
def mapSet (sb : Superblock) (a : ℕ) : Finset ℕ := if a = 0 then ∅ else {sb.bblock a}

/-- The blocks of the free map with the bits of the entries of an indirect block. -/
def entryMaps (sb : Superblock) (a : Block) : Finset ℕ :=
  Finset.univ.biUnion (fun j : Fin NINDIRECT => mapSet sb (entry a j))

/-- The blocks of the free map with the bits of the direct blocks of a file. -/
def directMaps (sb : Superblock) (ip : Inode) : Finset ℕ :=
  Finset.univ.biUnion (fun k : Fin NDIRECT => mapSet sb (ip.addrs k.castSucc))

/-- The blocks of the free map with the bits of the blocks of a file. -/
def freeMaps (sb : Superblock) (view : ℕ → Block) (ip : Inode) : Finset ℕ :=
  directMaps sb ip
    ∪ if ip.indirect = 0 then ∅ else entryMaps sb (view ip.indirect) ∪ {sb.bblock ip.indirect}

/-! ### What is not logged -/

/-- When it ends, the program has changed what is found in the blocks `T` only. -/
def Touches {α : Type} (T : Finset ℕ) (x : Kernel α) : Prop :=
  ∀ m, wp x (fun _ m' => ∀ c ∉ T, m'.view c = m.view c) (fun _ _ => True) m

section Touches

variable {α β : Type} {T : Finset ℕ} {b : ℕ} {sb : Superblock}

theorem Touches.bind {x : Kernel α} {f : α → Kernel β} (hx : Touches T x) (hf : ∀ a, Touches T (f a)) :
  Touches T (x >>= f)
  := by
  intro m
  rw [wp_bind]
  apply wp_mono (hx m) _ (fun _ _ _ => trivial)
  intro a m₁ h₁
  apply wp_mono (hf a m₁) _ (fun _ _ _ => trivial)
  intro _ m₂ h₂ c hc
  rw [h₂ c hc, h₁ c hc]

theorem touches_panic (msg : String) : Touches T (panic msg : Kernel α) := fun _ => trivial

theorem view_setBuf {m : Machine} {buf : Option CachedBlock} {c : ℕ} (hc : c ≠ b) :
  (m.setBuf b buf).view c = m.view c
  := by
  unfold Machine.view Machine.setBuf
  dsimp only
  rw [Function.update_of_ne hc]

theorem touches_bread : Touches T (bread b) := by
  intro m c _
  by_cases hc : c = b
  · subst hc
    simp [Machine.view, Machine.setBuf]
  · exact view_setBuf hc

theorem touches_fill (hb : b ∈ T) (data : Block) : Touches T (fill b data) := by
  intro m
  simp only [fill, wp_bind, wp_get]
  split
  · intro c hc
    exact view_setBuf (fun heq => hc (heq ▸ hb))
  · trivial

theorem touches_brelse (hb : b ∈ T) : Touches T (brelse b) := by
  intro m
  simp only [brelse, wp_bind, wp_get]
  split
  · split_ifs
    · intro c hc
      exact view_setBuf (fun heq => hc (heq ▸ hb))
    · intro c hc
      exact view_setBuf (fun heq => hc (heq ▸ hb))
  · trivial

theorem touches_logWrite (hb : b ∈ T) : Touches T (logWrite b) := by
  intro m
  simp only [logWrite, wp_bind, wp_get]
  split_ifs
  · trivial
  · trivial
  · exact fun _ _ => rfl
  · simp only [bpin, wp_bind, wp_get]
    split
    · intro c hc
      exact view_setBuf (m := m) (fun heq => hc (heq ▸ hb))
    · trivial

theorem touches_bfree : Touches {sb.bblock b} (bfree sb b) := by
  have hmem := Finset.mem_singleton_self (sb.bblock b)
  unfold bfree
  apply touches_bread.bind
  intro data
  dsimp only
  split_ifs
  · exact (touches_panic _).bind (fun _ => (touches_fill hmem _).bind (fun _ =>
      (touches_logWrite hmem).bind (fun _ => touches_brelse hmem)))
  · exact (touches_fill hmem _).bind (fun _ => (touches_logWrite hmem).bind (fun _ => touches_brelse hmem))

theorem touches_iupdate {ip : Inode} : Touches {sb.iblock ip.inum} (iupdate sb ip) := by
  have hmem := Finset.mem_singleton_self (sb.iblock ip.inum)
  unfold iupdate
  apply touches_bread.bind
  intro data
  exact (touches_fill hmem _).bind (fun _ => (touches_logWrite hmem).bind (fun _ => touches_brelse hmem))

end Touches

/-! ### The calls of `itrunc` -/

section Itrunc

variable {sb : Superblock} {m : Machine} {ip : Inode} {b : ℕ}

theorem wpc_bfree :
  wpc logTracker logWrite (fun log => bfreeWith log sb b)
    (fun S _ m' => S = {sb.bblock b} ∧ ∀ c ≠ sb.bblock b, m'.view c = m.view c)
    (fun S _ _ => S ⊆ {sb.bblock b}) m
  := by
  have hcalls : wpc logTracker logWrite (fun log => bfreeWith log sb b) (fun S _ _ => S = {sb.bblock b})
      (fun S _ _ => S ⊆ {sb.bblock b}) m := by
    have hrest : ∀ m', wpc logTracker logWrite (fun log => do
        log (sb.bblock b)
        brelse (sb.bblock b)) (fun S _ _ => S = {sb.bblock b}) (fun S _ _ => S ⊆ {sb.bblock b}) m' := by
      intro m'
      refine wpc_call_seq (fun m₃ => ?_) (fun _ _ => Finset.Subset.refl _)
      apply wpc_const
      apply wp_mono wp_trivial
      · intro _ _ _
        exact Finset.union_empty _
      · intro _ _ _
        rw [Finset.union_empty]
    unfold bfreeWith
    refine wpc_skip (fun data m₁ => ?_) (fun _ _ => Finset.empty_subset _)
    dsimp only
    apply wpc_ite
    · intro _
      refine wpc_skip (fun _ m₂ => ?_) (fun _ _ => Finset.empty_subset _)
      exact wpc_skip (fun _ m₃ => hrest m₃) (fun _ _ => Finset.empty_subset _)
    · intro _
      exact wpc_skip (fun _ m₃ => hrest m₃) (fun _ _ => Finset.empty_subset _)
  apply wpc_mono (wpc_and hcalls (touches_bfree m))
  · rintro S _ m' ⟨hS, hframe⟩
    refine ⟨hS, ?_⟩
    intro c hc
    exact hframe c (fun hmem => hc (Finset.mem_singleton.mp hmem))
  · rintro S _ _ ⟨hS, -⟩
    exact hS

/-- Free the block at an address, if there is one. -/
theorem wpc_bfree_addr {α : Type} {r r' : α} :
  wpc logTracker logWrite
    (fun log => if b ≠ 0 then do bfreeWith log sb b; return r else return r')
    (fun S a m' => S = mapSet sb b ∧ (∀ c ∉ mapSet sb b, m'.view c = m.view c)
      ∧ a = if b ≠ 0 then r else r')
    (fun S _ _ => S ⊆ mapSet sb b) m
  := by
  unfold mapSet
  by_cases hb : b = 0
  · subst hb
    exact wpc_pure ⟨rfl, fun _ _ => rfl, rfl⟩
  · simp only [if_neg hb, if_pos (show b ≠ 0 from hb)]
    apply wpc_bind
    apply wpc_mono wpc_bfree
    · rintro S _ m' ⟨rfl, hframe⟩
      apply wpc_pure
      rw [Finset.union_empty]
      refine ⟨rfl, ?_, rfl⟩
      intro c hc
      exact hframe c (fun heq => hc (Finset.mem_singleton.mpr heq))
    · intro S _ _ hS
      exact hS

/-- What remains to be done of the loop over the direct blocks. -/
structure FreeingDirect (sb : Superblock) (ip₀ : Inode) (m₀ : Machine) (l : List (Fin NDIRECT)) (ip : Inode)
    (m : Machine) : Prop where
  nodup : l.Nodup
  inum : ip.inum = ip₀.inum
  indirect : ip.indirect = ip₀.indirect
  addrs : ∀ k ∈ l, ip.addrs k.castSucc = ip₀.addrs k.castSucc
  view : ∀ c ∉ directMaps sb ip₀, m.view c = m₀.view c

theorem FreeingDirect.step {ip₀ : Inode} {m₀ m' : Machine} {k : Fin NDIRECT} {l : List (Fin NDIRECT)}
    (h : FreeingDirect sb ip₀ m₀ (k :: l) ip m)
    (hview : ∀ c ∉ mapSet sb (ip.addrs k.castSucc), m'.view c = m.view c) :
  FreeingDirect sb ip₀ m₀ l (if ip.addrs k.castSucc ≠ 0 then ip.setAddr k.castSucc 0 else ip) m'
  := by
  obtain ⟨hk, hnodup⟩ := List.nodup_cons.mp h.nodup
  have hview' : ∀ c ∉ directMaps sb ip₀, m'.view c = m₀.view c := by
    intro c hc
    rw [hview c, h.view c hc]
    rw [h.addrs k List.mem_cons_self]
    exact fun hmem => hc (Finset.mem_biUnion.mpr ⟨k, Finset.mem_univ k, hmem⟩)
  split_ifs
  · refine ⟨hnodup, h.inum, ?_, ?_, hview'⟩
    · rw [Inode.setAddr_indirect (Fin.castSucc_ne_last k)]
      exact h.indirect
    · intro j hj
      rw [Inode.setAddr_addrs, Function.update_of_ne]
      · exact h.addrs j (List.mem_cons_of_mem k hj)
      · intro heq
        exact hk (Fin.castSucc_inj.mp heq ▸ hj)
  · exact ⟨hnodup, h.inum, h.indirect, fun j hj => h.addrs j (List.mem_cons_of_mem k hj), hview'⟩

theorem wpc_freeDirect :
  wpc logTracker logWrite (fun log => (List.finRange NDIRECT).foldlM (fun (ip : Inode) k => do
      if ip.addrs k.castSucc ≠ 0 then
        bfreeWith log sb (ip.addrs k.castSucc)
        return ip.setAddr k.castSucc 0
      else return ip) ip)
    (fun S ip' m' => S = directMaps sb ip ∧ FreeingDirect sb ip m [] ip' m')
    (fun S _ _ => S ⊆ directMaps sb ip) m
  := by
  have hloop := wpc_foldlM (R := logTracker) (p := logWrite) (s := m) (a := ip) (l := List.finRange NDIRECT)
    (F := fun (ip : Inode) (k : Fin NDIRECT) (log : ℕ → Kernel Unit) => do
      if ip.addrs k.castSucc ≠ 0 then
        bfreeWith log sb (ip.addrs k.castSucc)
        return ip.setAddr k.castSucc 0
      else return ip)
    (fun k => mapSet sb (ip.addrs k.castSucc)) (FreeingDirect sb ip m) ?_ ?_
  · rw [List.toFinset_finRange] at hloop
    exact hloop
  · intro k l ip' m' h
    rw [← h.addrs k List.mem_cons_self]
    apply wpc_mono wpc_bfree_addr
    · rintro S _ m'' ⟨rfl, hframe, rfl⟩
      exact ⟨rfl, h.step hframe⟩
    · intro S _ _ hS
      exact hS
  · exact ⟨List.nodup_finRange _, rfl, rfl, fun _ _ => rfl, fun _ _ => rfl⟩

theorem wpc_freeEntries {a : Block} :
  wpc logTracker logWrite (fun log => (List.finRange NINDIRECT).forM fun j => do
      if entry a j ≠ 0 then bfreeWith log sb (entry a j))
    (fun S _ m' => S = entryMaps sb a ∧ ∀ c ∉ entryMaps sb a, m'.view c = m.view c)
    (fun S _ _ => S ⊆ entryMaps sb a) m
  := by
  have hloop := wpc_forM (R := logTracker) (p := logWrite) (s := m) (l := List.finRange NINDIRECT)
    (F := fun (j : Fin NINDIRECT) (log : ℕ → Kernel Unit) => do
      if entry a j ≠ 0 then bfreeWith log sb (entry a j))
    (fun j => mapSet sb (entry a j)) (fun _ m' => ∀ c ∉ entryMaps sb a, m'.view c = m.view c) ?_ ?_
  · rw [List.toFinset_finRange] at hloop
    exact hloop
  · intro j l m' h
    have hround : wpc logTracker logWrite
        (fun log => if entry a j ≠ 0 then do bfreeWith log sb (entry a j); return () else return ())
        _ _ m' := wpc_bfree_addr
    simp only [bind_pure_unit] at hround
    apply wpc_mono hround
    · rintro S _ m'' ⟨rfl, hframe, -⟩
      refine ⟨rfl, ?_⟩
      intro c hc
      rw [hframe c, h c hc]
      exact fun hmem => hc (Finset.mem_biUnion.mpr ⟨j, Finset.mem_univ j, hmem⟩)
    · intro S _ _ hS
      exact hS
  · exact fun _ _ => rfl

/-- The end of `itrunc`. -/
theorem wpc_itrunc_end {n : ℕ} :
  wpc logTracker logWrite (fun log => do
      iupdateWith log sb (ip.setSize n)
      return ip.setSize n)
    (fun S r m' => r.inum = ip.inum ∧ S = {sb.iblock ip.inum}
      ∧ ∀ c ≠ sb.iblock ip.inum, m'.view c = m.view c)
    (fun S _ _ => S ⊆ {sb.iblock ip.inum}) m
  := by
  apply wpc_bind
  apply wpc_mono (wpc_and wpc_iupdate (touches_iupdate m))
  · rintro S _ m' ⟨rfl, hframe⟩
    apply wpc_pure
    refine ⟨rfl, Finset.union_empty _, ?_⟩
    intro c hc
    exact hframe c (fun hmem => hc (Finset.mem_singleton.mp hmem))
  · rintro S _ _ ⟨hS, -⟩
    exact hS

/-- `itrunc` behind the loop over the direct blocks, if there is an indirect block. -/
theorem wpc_itrunc_indirect :
  wpc logTracker logWrite (fun log => do
      let a ← bread ip.indirect
      (List.finRange NINDIRECT).forM fun j => do
        if entry a j ≠ 0 then bfreeWith log sb (entry a j)
      brelse ip.indirect
      bfreeWith log sb ip.indirect
      let ip ← pure (ip.setAddr (Fin.last NDIRECT) 0)
      iupdateWith log sb (ip.setSize 0)
      return ip.setSize 0)
    (fun S r m' => r.inum = ip.inum
      ∧ S = entryMaps sb (m.view ip.indirect) ∪ {sb.bblock ip.indirect} ∪ {sb.iblock ip.inum}
      ∧ ∀ c ∉ S, c ≠ ip.indirect → m'.view c = m.view c)
    (fun S _ _ => S ⊆ entryMaps sb (m.view ip.indirect) ∪ {sb.bblock ip.indirect} ∪ {sb.iblock ip.inum}) m
  := by
  apply wpc_const_bind
  apply wp_bread
  intro m₁ h₁
  have hview₁ : ∀ c, m₁.view c = m.view c := congrFun (congrArg Obs.view h₁)
  change wpc _ _ (fun log => (List.finRange NINDIRECT).forM (fun j => do
    if entry (m.view ip.indirect) j ≠ 0 then bfreeWith log sb (entry (m.view ip.indirect) j)) >>= _) _ _ _
  apply wpc_bind
  apply wpc_mono wpc_freeEntries
  · rintro S _ m₂ ⟨rfl, hview₂⟩
    apply wpc_const_bind
    apply wp_mono (touches_brelse (Finset.mem_singleton_self ip.indirect) m₂)
    · intro _ m₃ hview₃
      apply wpc_bind
      apply wpc_mono wpc_bfree
      · rintro S _ m₄ ⟨rfl, hview₄⟩
        apply wpc_const_bind
        apply wpc_mono wpc_itrunc_end
        · rintro S r m₅ ⟨hinum, rfl, hview₅⟩
          refine ⟨hinum, (Finset.union_assoc _ _ _).symm, ?_⟩
          intro c hc hne
          simp only [Finset.notMem_union, Finset.mem_singleton] at hc
          rw [hview₅ c hc.2.2, hview₄ c hc.2.1, hview₃ c (Finset.notMem_singleton.mpr hne),
            hview₂ c hc.1, hview₁ c]
        · intro S _ _ hS
          rw [Finset.union_assoc]
          exact Finset.union_subset_union_right (Finset.union_subset_union_right hS)
      · intro S _ _ hS
        exact (Finset.union_subset_union_right hS).trans Finset.subset_union_left
    · intro _ _ _
      rw [Finset.union_empty, Finset.union_assoc]
      exact Finset.subset_union_left
  · intro S _ _ hS
    rw [Finset.union_assoc]
    exact hS.trans Finset.subset_union_left

/-- `itrunc` logs the inode and the blocks of the free map for the blocks of the file. -/
theorem wpc_itrunc (hind : ip.indirect ∉ directMaps sb ip) :
  wpc logTracker logWrite (fun log => itruncWith log sb ip)
    (fun S r m' => r.inum = ip.inum ∧ S = freeMaps sb m.view ip ∪ {sb.iblock ip.inum}
      ∧ ∀ c ∉ S, c ≠ ip.indirect → m'.view c = m.view c)
    (fun S _ _ => S ⊆ freeMaps sb m.view ip ∪ {sb.iblock ip.inum}) m
  := by
  unfold itruncWith
  apply wpc_bind
  apply wpc_mono wpc_freeDirect
  · rintro S₁ ip₁ m₁ ⟨rfl, h₁⟩
    have hind₁ := h₁.indirect
    dsimp only
    apply wpc_ite
    · intro hne
      rw [hind₁] at hne
      have hmaps : freeMaps sb m.view ip = directMaps sb ip
          ∪ (entryMaps sb (m.view ip.indirect) ∪ {sb.bblock ip.indirect}) := by
        rw [freeMaps, if_neg hne]
      apply wpc_mono wpc_itrunc_indirect
      · rintro S r m' ⟨hinum, rfl, hframe⟩
        rw [h₁.inum, hind₁, h₁.view _ hind] at hframe ⊢
        rw [hmaps]
        refine ⟨hinum.trans h₁.inum, by simp only [Finset.union_assoc], ?_⟩
        intro c hc hne'
        rw [Finset.notMem_union] at hc
        rw [hframe c hc.2 hne', h₁.view c hc.1]
      · intro S _ _ hS
        rw [h₁.inum, hind₁, h₁.view _ hind] at hS
        rw [hmaps, Finset.union_assoc]
        exact Finset.union_subset_union_right hS
    · intro hzero
      rw [not_not, hind₁] at hzero
      have hmaps : freeMaps sb m.view ip = directMaps sb ip := by
        rw [freeMaps, if_pos hzero, Finset.union_empty]
      apply wpc_mono wpc_itrunc_end
      · rintro S r m' ⟨hinum, rfl, hframe⟩
        rw [h₁.inum] at hframe ⊢
        rw [hmaps]
        refine ⟨hinum.trans h₁.inum, rfl, ?_⟩
        intro c hc _
        rw [Finset.notMem_union, Finset.mem_singleton] at hc
        rw [hframe c hc.2, h₁.view c hc.1]
      · intro S _ _ hS
        rw [h₁.inum] at hS
        rw [hmaps]
        exact Finset.union_subset_union_right hS
  · intro S _ _ hS
    exact hS.trans (Finset.subset_union_left.trans Finset.subset_union_left)

/-! ### In a consistent file system -/

section Consistent

variable {o : Obs} {f : ℕ → Inode} {i : ℕ}

theorem mem_mapSet {a c : ℕ} : c ∈ mapSet sb a ↔ a ≠ 0 ∧ c = sb.bblock a := by
  unfold mapSet
  split_ifs with ha
  · simp [ha]
  · simp [ha]

/-- The blocks of the free map are metadata. -/
theorem lt_of_mem_freeMaps (hcons : Consistent sb o f) (hi : sb.Live f i) {c : ℕ}
    (hc : c ∈ freeMaps sb o.view (f i)) :
  c < sb.nmeta
  := by
  have hlt : ∀ b, sb.Data b → sb.bblock b < sb.nmeta := fun b hb => (bblock_bounds (div_le_of_lt hb.2)).2
  have haddr : ∀ k, (f i).addrs k ≠ 0 → sb.bblock ((f i).addrs k) < sb.nmeta :=
    fun k hk => hlt _ (hcons.data_addr hi hk)
  rcases Finset.mem_union.mp hc with hc | hc
  · obtain ⟨k, -, hk⟩ := Finset.mem_biUnion.mp hc
    obtain ⟨hne, rfl⟩ := mem_mapSet.mp hk
    exact haddr _ hne
  · split_ifs at hc with hzero
    · exact absurd hc (Finset.notMem_empty c)
    · rcases Finset.mem_union.mp hc with hc | hc
      · obtain ⟨j, -, hj⟩ := Finset.mem_biUnion.mp hc
        obtain ⟨hne, rfl⟩ := mem_mapSet.mp hj
        rw [← cell_entry hi hzero] at hne ⊢
        exact hlt _ (hcons.owned.data hne)
      · obtain rfl := Finset.mem_singleton.mp hc
        exact haddr _ hzero

theorem indirect_notMem_directMaps (hcons : Consistent sb o f) (hi : sb.Live f i) :
  (f i).indirect ∉ directMaps sb (f i)
  := by
  intro hmem
  have hlt := lt_of_mem_freeMaps hcons hi (Finset.mem_union_left _ hmem)
  obtain ⟨k, -, hk⟩ := Finset.mem_biUnion.mp hmem
  obtain ⟨hne, heq⟩ := mem_mapSet.mp hk
  by_cases hzero : (f i).indirect = 0
  · have : sb.bmapstart ≤ sb.bblock ((f i).addrs k.castSucc) := Nat.le_add_left _ _
    have := hcons.layout.inodestart_lt
    have := hcons.layout.log
    omega
  · have := (hcons.data_indirect hi hzero).1
    omega

/-- Only `log_write` stops `itrunc`. -/
theorem wpc_itrunc_cons (hm : m.obs = o) (hcons : Consistent sb o f) (hi : sb.Live f i) :
  wpc logTracker logWrite (fun log => itruncWith log sb (f i))
    (fun S r m' => r.inum = i ∧ S = freeMaps sb o.view (f i) ∪ {sb.iblock i}
      ∧ ∀ c ∉ S, c ≠ (f i).indirect → m'.view c = m.view c)
    (fun S e m' => S ⊆ freeMaps sb o.view (f i) ∪ {sb.iblock i} ∧ LogFault e m') m
  := by
  have hview : m.view = o.view := congrArg Obs.view hm
  have hinum := (hcons.wf i hi.1).2
  have hwp : wp (itrunc sb (f i)) (fun _ _ => True) LogFault m :=
    wp_itrunc LogFault.tolerates hm hcons hi (fun _ _ => trivial)
  have hcalls := wpc_itrunc (m := m) (indirect_notMem_directMaps hcons hi)
  rw [hview, hinum] at hcalls
  rw [hview]
  exact wpc_stops hcalls hwp

/-- The same for the part of `iput` that frees an inode. -/
theorem wpc_ifree (hm : m.obs = o) (hcons : Consistent sb o f) (hi : sb.Live f i) :
  wpc logTracker logWrite (fun log => do
      let ip ← itruncWith log sb (f i)
      iupdateWith log sb (ip.setType 0))
    (fun S _ m' => S = freeMaps sb o.view (f i) ∪ {sb.iblock i}
      ∧ ∀ c ∉ S, c ≠ (f i).indirect → m'.view c = m.view c)
    (fun S e m' => S ⊆ freeMaps sb o.view (f i) ∪ {sb.iblock i} ∧ LogFault e m') m
  := by
  have hwp : wp (do let ip ← itrunc sb (f i); iupdate sb (ip.setType 0)) (fun _ _ => True) LogFault m :=
    wp_ifree LogFault.tolerates hm hcons hi (fun _ _ _ _ => trivial)
  refine wpc_stops ?_ hwp
  have hself : freeMaps sb o.view (f i) ∪ {sb.iblock i} ∪ {sb.iblock i}
      = freeMaps sb o.view (f i) ∪ {sb.iblock i} := by
    rw [Finset.union_assoc, Finset.union_self]
  apply wpc_bind
  apply wpc_mono (wpc_itrunc_cons hm hcons hi)
  · rintro S r m₁ ⟨hinum, rfl, hframe⟩
    apply wpc_mono (wpc_and wpc_iupdate (touches_iupdate m₁))
    · rintro S _ m₂ ⟨rfl, hframe'⟩
      have hinum' : (r.setType 0).inum = i := hinum
      rw [hinum'] at hframe' ⊢
      rw [hself]
      refine ⟨rfl, ?_⟩
      intro c hc hne
      rw [hframe' c (fun hmem => hc (Finset.mem_union_right _ hmem)), hframe c hc hne]
    · rintro S _ _ ⟨hS, -⟩
      have hinum' : (r.setType 0).inum = i := hinum
      rw [hinum'] at hS
      exact Finset.union_subset (Finset.Subset.refl _) (hS.trans Finset.subset_union_right)
  · rintro S _ _ ⟨hS, -⟩
    exact hS

end Consistent

end Itrunc

end Xv6
