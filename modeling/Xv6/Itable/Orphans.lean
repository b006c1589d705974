import Xv6.Itable.Coherence

/-!
# Inodes without links

An inode that is allocated and has no links is freed by the process that gives up the last
reference to it.  For some time after it has freed the inode, `iput` still counts as a
reference.  `ialloc` can hand out the inode in that time, and then the reference that is
given up last is one for which nobody looks at the links again.

When `ialloc` takes no inode for which there is still an entry in use, and an inode that
`ialloc` has handed out is read before it is put, no inode is lost.
-/

namespace Xv6

open Function

namespace Dinode

/-- An allocated inode without links. -/
def Orphan (d : Dinode) : Prop := d.type ≠ 0 ∧ d.nlink = 0

/-- An inode that has been freed, with its blocks. -/
structure Freed (d : Dinode) : Prop where
  type : d.type = 0
  nlink : d.nlink = 0
  size : d.size = 0
  addrs : d.addrs = fun _ => 0

end Dinode

/-- The entry that a process has decided to free. -/
def InodePc.dying : InodePc → Option InodePtr
  | .iputTrunc e | .iputFree e | .iputValid e | .iputDrop e => some e
  | _ => none

namespace Itable

variable {ι : Type}

/-- There is a reference to an inode, or `ialloc` is about to make the first one. -/
def Live (s : Itable ι) (key : ℕ × ℕ) : Prop :=
  (∃ e, 0 < (s.inode e).ref ∧ (s.inode e).key = key) ∨ ∃ t, s.pc t = .iallocGet key

/-- `ialloc` takes no inode that has an entry in use. -/
def Vacant (ninodes : ℕ) (s : Itable ι) : InodePc → Prop
  | .iallocScan dev _ inum =>
    inum < ninodes ∧ (s.disk (dev, inum)).type = 0 → s.find (dev, inum) = none
  | _ => True

/-- `ialloc` takes no inode that has an entry in use, and an inode is read before it is put. -/
def Careful (ninodes : ℕ) (s : Itable ι) : InodeAct ι → Prop
  | .run t => s.Vacant ninodes (s.pc t)
  | .iput _ e => s.fresh e = false
  | _ => True

instance (ninodes : ℕ) (s : Itable ι) (k : InodePc) : Decidable (s.Vacant ninodes k) := by
  cases k <;> unfold Vacant <;> infer_instance

instance (ninodes : ℕ) (s : Itable ι) (a : InodeAct ι) : Decidable (s.Careful ninodes a) := by
  cases a <;> unfold Careful <;> infer_instance

/-! ### The invariant -/

/-- What holds for a process that frees an inode or allocates one. -/
def Doomed (s : Itable ι) : InodePc → Prop
  | .iputTrunc e => (s.inode e).ref = 1 ∧ (s.inode e).copy.nlink = 0
  | .iputFree e => (s.inode e).ref = 1 ∧ (s.inode e).copy.nlink = 0 ∧ (s.inode e).copy.size = 0
      ∧ (s.inode e).copy.addrs = fun _ => 0
  | .iputValid e | .iputDrop e => (s.inode e).ref = 1 ∧ (s.disk (s.inode e).key).Freed
  | .iallocScan _ type _ => type ≠ 0
  | .iallocGet key => (∀ e, 0 < (s.inode e).ref → (s.inode e).key ≠ key) ∧ (s.disk key).Orphan
  | _ => True

/-- An entry that has not been read is for an inode with links, for one that `ialloc` has
handed out, or for one that has been freed. -/
def Unread (s : Itable ι) (e : InodePtr) : Prop :=
  0 < (s.inode e).ref → (s.inode e).valid = false →
    0 < (s.disk (s.inode e).key).nlink ∨ s.fresh e = true ∨ ∃ t, s.pc t = .iputDrop e

/-- The invariant of the careful runs that start from a disk. -/
structure Kept (disk : ℕ × ℕ → Dinode) (s : Itable ι) : Prop where
  doomed : ∀ t, s.Doomed (s.pc t)
  once : ∀ t t' key, s.pc t = .iallocGet key → s.pc t' = .iallocGet key → t' = t
  unread : ∀ e, s.Unread e
  live : ∀ key, (s.disk key).Orphan → s.Live key ∨ (disk key).Orphan

theorem Doomed.congr {s s' : Itable ι} {k : InodePc} (h : s.Doomed k)
    (hdying : ∀ e, k.dying = some e → s'.inode e = s.inode e
      ∧ (0 < (s.inode e).ref → s'.disk (s.inode e).key = s.disk (s.inode e).key))
    (hget : ∀ key, k = .iallocGet key →
      (∀ e, 0 < (s'.inode e).ref → (s'.inode e).key ≠ key) ∧ s'.disk key = s.disk key) :
  s'.Doomed k
  := by
  cases k with
  | iputTrunc e | iputFree e =>
    obtain ⟨hinode, -⟩ := hdying e rfl
    simpa only [Doomed, hinode] using h
  | iputValid e | iputDrop e =>
    obtain ⟨hinode, hdisk⟩ := hdying e rfl
    have hpos : 0 < (s.inode e).ref := by rw [h.1]; exact one_pos
    simpa only [Doomed, hinode, hdisk hpos] using h
  | iallocGet key =>
    obtain ⟨hnone, hdisk⟩ := hget key rfl
    refine ⟨hnone, ?_⟩
    rw [hdisk]
    exact h.2
  | idle => trivial
  | ilockWait e => trivial
  | ilockRead e => trivial
  | iputSleep e => trivial
  | iallocScan dev type inum => exact h

theorem Kept.boot (disk : ℕ × ℕ → Dinode) : (Itable.boot disk : Itable ι).Kept disk where
  doomed _ := trivial
  once _ _ _ := nofun
  unread _ hpos := absurd hpos (Nat.lt_irrefl 0)
  live _ := .inr

variable [DecidableEq ι] {disk : ℕ × ℕ → Dinode} {s s' : Itable ι} {t t' : ι} {e : InodePtr}
  {k : InodePc}

variable {key : ℕ × ℕ}

theorem pc_eq {k' : InodePc} (hpc : s'.pc = update s.pc t k) (hfrom : s.pc t ≠ k') (ht' : s.pc t' = k') :
  s'.pc t' = k'
  := by
  rw [hpc, update_of_ne]
  · exact ht'
  · rintro rfl
    exact hfrom ht'

theorem Live.move (h : s.Live key) (hpc : s'.pc = update s.pc t k)
    (hfrom : s.pc t ≠ .iallocGet key)
    (hinode : ∀ e, 0 < (s.inode e).ref → (s.inode e).key = key →
    0 < (s'.inode e).ref ∧ (s'.inode e).key = key) :
  s'.Live key
  := by
  obtain ⟨e, hpos, hkey⟩ | ⟨t', ht'⟩ := h
  · exact .inl ⟨e, hinode e hpos hkey⟩
  · exact .inr ⟨t', pc_eq hpc hfrom ht'⟩

namespace Kept

section

variable (hk : s.Kept disk)

include hk

/-- An entry that is unread as before is so for the same reason. -/
theorem unread_of_eq (hpc : s'.pc = update s.pc t k)
    (hdrop : s.pc t ≠ .iputDrop e) (href : 0 < (s'.inode e).ref → 0 < (s.inode e).ref)
    (hkey : (s'.inode e).key = (s.inode e).key) (hvalid : (s'.inode e).valid = (s.inode e).valid)
    (hdisk : s'.disk (s.inode e).key = s.disk (s.inode e).key) (hfresh : s'.fresh e = s.fresh e) :
  s'.Unread e
  := by
  intro hpos hv
  rw [hvalid] at hv
  rw [hkey, hdisk, hfresh]
  refine (hk.unread e (href hpos) hv).imp_right (Or.imp_right ?_)
  rintro ⟨t', ht'⟩
  exact ⟨t', pc_eq hpc hdrop ht'⟩

/-- A process moves, and at most one entry and the inodes on the disk that nobody else has
anything to do with change. -/
theorem touch (hpc : s'.pc = update s.pc t k)
    (hinode : ∀ e', e' ≠ e → s'.inode e' = s.inode e' ∧ s'.fresh e' = s.fresh e')
    (hdisk : ∀ e', e' ≠ e → 0 < (s.inode e').ref →
      s'.disk (s.inode e').key = s.disk (s.inode e').key)
    (hget : ∀ t' key, t' ≠ t → s.pc t' = .iallocGet key →
      (0 < (s'.inode e).ref → (s'.inode e).key ≠ key) ∧ s'.disk key = s.disk key)
    (hothers : ∀ t', t' ≠ t → (s.pc t').dying ≠ some e)
    (hfrom : ∀ e', s.pc t = .iputDrop e' → e' = e) (hto : ∀ key, k ≠ .iallocGet key)
    (hdoomed : s'.Doomed k) (hunread : s'.Unread e)
    (hlive : ∀ key, (s'.disk key).Orphan → s'.Live key ∨ (disk key).Orphan) :
  s'.Kept disk
  := by
  refine ⟨?_, ?_, ?_, hlive⟩
  · intro t'
    rw [hpc]
    refine update_cases t' hdoomed (fun ht' => ?_)
    have hother := hk.doomed t'
    apply hother.congr
    · intro e' he'
      have hne : e' ≠ e := by
        rintro rfl
        exact hothers t' ht' he'
      exact ⟨(hinode e' hne).1, hdisk e' hne⟩
    · intro key hkey
      obtain ⟨hnew, hsame⟩ := hget t' key ht' hkey
      refine ⟨?_, hsame⟩
      intro e' hpos
      by_cases hne : e' = e
      · subst hne
        exact hnew hpos
      · rw [(hinode e' hne).1] at hpos ⊢
        rw [hkey] at hother
        exact hother.1 e' hpos
  · intro t₁ t₂ key h₁ h₂
    have hold : ∀ t', s'.pc t' = .iallocGet key → s.pc t' = .iallocGet key := by
      intro t'
      rw [hpc]
      exact update_cases t' (fun h => absurd h (hto key)) (fun _ => id)
    exact hk.once t₁ t₂ key (hold t₁ h₁) (hold t₂ h₂)
  · intro e'
    by_cases hne : e' = e
    · subst hne
      exact hunread
    · obtain ⟨hsame, hfresh⟩ := hinode e' hne
      intro hpos
      rw [hsame] at hpos
      exact hk.unread_of_eq hpc (fun hdrop => hne (hfrom e' hdrop)) (fun _ => hpos) (by rw [hsame])
        (by rw [hsame]) (hdisk e' hne hpos) hfresh (hsame ▸ hpos)

/-- A process moves without touching the table. -/
theorem goto (hfrom : (s.pc t).dying = none ∧ ∀ key, s.pc t ≠ .iallocGet key)
    (hto : ∀ key, k ≠ .iallocGet key) (hdoomed : s.Doomed k) :
  (s.goto t k).Kept disk
  := by
  have hback : ∀ t' key, (s.goto t k).pc t' = .iallocGet key → s.pc t' = .iallocGet key := by
    intro t' key
    simp only [Itable.goto]
    exact update_cases t' (fun h => absurd h (hto key)) (fun _ => id)
  refine ⟨?_, ?_, ?_, ?_⟩
  · intro t'
    change (s.goto t k).Doomed (update s.pc t k t')
    refine update_cases t' ?_ (fun _ => ?_)
    · exact hdoomed.congr (fun _ _ => ⟨rfl, fun _ => rfl⟩) fun key hkey => absurd hkey (hto key)
    · apply (hk.doomed t').congr (fun _ _ => ⟨rfl, fun _ => rfl⟩)
      intro key hkey
      have hget := hk.doomed t'
      rw [hkey] at hget
      exact ⟨hget.1, rfl⟩
  · intro t₁ t₂ key h₁ h₂
    exact hk.once t₁ t₂ key (hback t₁ key h₁) (hback t₂ key h₂)
  · intro e
    refine hk.unread_of_eq rfl ?_ id rfl rfl rfl rfl
    intro hdrop
    simp [hdrop, InodePc.dying] at hfrom
  · intro key horphan
    refine (hk.live key horphan).imp_left fun hlive => ?_
    exact hlive.move rfl (hfrom.2 key) fun _ hpos hkey => ⟨hpos, hkey⟩

/-- The first reference to an entry. -/
theorem recycle {fresh : Bool} (hzero : (s.inode e).ref = 0)
    (hfrom : s.pc t = .idle ∨ s.pc t = .iallocGet key)
    (halone : ∀ t', t' ≠ t → s.pc t' ≠ .iallocGet key)
    (hunread : 0 < (s.disk key).nlink ∨ fresh = true) :
  ((((s.setInode e ((s.inode e).recycle key)).setRefs t (e :: s.refs t)).setFresh e fresh).goto t
    .idle).Kept disk
  := by
  set s' := (((s.setInode e ((s.inode e).recycle key)).setRefs t (e :: s.refs t)).setFresh e
    fresh).goto t .idle with hs'
  have hinode : s'.inode e = (s.inode e).recycle key := update_self ..
  have hother : ∀ e', e' ≠ e → s'.inode e' = s.inode e' := fun e' hne => update_of_ne hne ..
  have hdrop : ∀ e', s.pc t ≠ .iputDrop e' := by
    intro e' he'
    rw [he'] at hfrom
    simp at hfrom
  apply hk.touch (t := t) (k := .idle) (e := e) rfl
  · intro e' hne
    exact ⟨hother e' hne, update_of_ne hne ..⟩
  · intro _ _ _
    rfl
  · intro t' key' hne hkey'
    refine ⟨?_, rfl⟩
    rw [hinode]
    rintro _ rfl
    exact halone t' hne hkey'
  · intro t' _ hdying
    have hdoomed := hk.doomed t'
    cases hp : s.pc t' <;> rw [hp] at hdying hdoomed <;> simp_all [InodePc.dying, Doomed]
  · intro e' he'
    exact absurd he' (hdrop e')
  · simp
  · trivial
  · intro _ _
    rw [hinode]
    refine hunread.imp_right fun hf => .inl ?_
    exact (update_self ..).trans hf
  · intro key' horphan
    by_cases hsame : key' = key
    · subst hsame
      refine .inl (.inl ⟨e, ?_⟩)
      rw [hinode]
      exact ⟨one_pos, rfl⟩
    · refine (hk.live key' horphan).imp_left fun hlive => ?_
      apply hlive.move (t := t) (k := .idle) rfl
      · intro hp
        rw [hp] at hfrom
        simp [hsame] at hfrom
      · intro e' hpos hkey'
        rw [hother e']
        · exact ⟨hpos, hkey'⟩
        · rintro rfl
          omega

/-- `ialloc` takes a free inode. -/
theorem allocate {dev type inum : ℕ} (hpc : s.pc t = .iallocScan dev type inum)
    (hfree : (s.disk (dev, inum)).type = 0) (hvacant : s.find (dev, inum) = none) :
  ((s.setDisk (dev, inum) (.allocated type)).goto t (.iallocGet (dev, inum))).Kept disk
  := by
  set key := (dev, inum) with hkey
  have htype := hk.doomed t
  rw [hpc] at htype
  have hnone := find_eq_none hvacant
  have hdisk : ∀ key', key' ≠ key → update s.disk key (.allocated type) key' = s.disk key' :=
    fun key' hne => update_of_ne hne ..
  have hothers : ∀ {t' key'}, s.pc t' = .iallocGet key' → key' ≠ key := by
    rintro t' key' hp rfl
    have hdoomed := hk.doomed t'
    rw [hp] at hdoomed
    exact hdoomed.2.1 hfree
  refine ⟨?_, ?_, ?_, ?_⟩
  · intro t'
    change Doomed _ (update s.pc t (.iallocGet key) t')
    refine update_cases t' ⟨hnone, ?_⟩ (fun _ => ?_)
    · simp only [Itable.goto, Itable.setDisk, update_self]
      exact ⟨htype, rfl⟩
    · have hdoomed := hk.doomed t'
      apply hdoomed.congr
      · intro e _
        exact ⟨rfl, fun hpos => hdisk _ (hnone e hpos)⟩
      · intro key' hp
        rw [hp] at hdoomed
        exact ⟨hdoomed.1, hdisk _ (hothers hp)⟩
  · intro t₁ t₂ key'
    simp only [Itable.goto, Itable.setDisk]
    refine update_cases t₁ (update_cases t₂ ?_ ?_) fun _ => update_cases t₂ ?_ ?_
    · exact fun _ _ => rfl
    · exact fun _ h₁ h₂ => absurd (InodePc.iallocGet.inj h₁).symm (hothers h₂)
    · exact fun h₁ h₂ => absurd (InodePc.iallocGet.inj h₂).symm (hothers h₁)
    · exact fun _ => hk.once t₁ t₂ key'
  · intro e hpos
    exact hk.unread_of_eq rfl (by simp [hpc]) id rfl rfl (hdisk _ (hnone e hpos)) rfl hpos
  · intro key' horphan
    by_cases hsame : key' = key
    · exact .inl (.inr ⟨t, hsame ▸ update_self ..⟩)
    · simp only [Itable.goto, Itable.setDisk, hdisk _ hsame] at horphan
      refine (hk.live key' horphan).imp_left fun hlive => ?_
      exact hlive.move rfl (by simp [hpc]) fun _ hpos' hkey' => ⟨hpos', hkey'⟩

end

variable [Fintype ι]

section

variable (hk : s.Kept disk) (h : s.Inv)

include hk h

/-- Nobody frees an entry to which another process has a reference. -/
theorem dying_ne (he : e ∈ s.refs t) (hne : t' ≠ t) : (s.pc t').dying ≠ some e := by
  intro hdying
  have hent : (s.pc t').entry = some e := by
    cases hp : s.pc t' <;> rw [hp] at hdying <;> simp_all [InodePc.dying, InodePc.entry]
  have hone : (s.inode e).ref = 1 := by
    have hdoomed := hk.doomed t'
    cases hp : s.pc t' <;> rw [hp] at hdying hdoomed <;> simp_all [InodePc.dying, Doomed]
  exact hne (h.eq_of_ref_one hone he (h.mem_of_entry hent))

/-- A process changes an entry in use that nobody else frees, and its inode on the disk. -/
theorem rework (hused : 0 < (s.inode e).ref)
    (hothers : ∀ t', t' ≠ t → (s.pc t').dying ≠ some e)
    (hpc : s'.pc = update s.pc t k)
    (hinode : ∀ e', e' ≠ e → s'.inode e' = s.inode e' ∧ s'.fresh e' = s.fresh e')
    (hkey : (s'.inode e).key = (s.inode e).key) (hpos : 0 < (s'.inode e).ref)
    (hdisk : ∀ key, key ≠ (s.inode e).key → s'.disk key = s.disk key)
    (hfrom : ∀ e', (s.pc t).entry = some e' → e' = e) (hget : ∀ key, s.pc t ≠ .iallocGet key)
    (hto : ∀ key, k ≠ .iallocGet key) (hdoomed : s'.Doomed k) (hunread : s'.Unread e) :
  s'.Kept disk
  := by
  refine hk.touch hpc hinode ?_ ?_ hothers ?_ hto hdoomed hunread ?_
  · intro e' hne hpos'
    apply hdisk
    intro hsame
    exact hne (h.unique e' e hpos' hused hsame)
  · intro t' key _ hkey'
    have hnone := hk.doomed t'
    rw [hkey'] at hnone
    have hne := hnone.1 e hused
    exact ⟨fun _ => hkey ▸ hne, hdisk key hne.symm⟩
  · intro e' hdrop
    apply hfrom
    rw [hdrop]
    rfl
  · intro key horphan
    by_cases hsame : key = (s.inode e).key
    · subst hsame
      exact .inl (.inl ⟨e, hpos, hkey⟩)
    · rw [hdisk key hsame] at horphan
      refine (hk.live key horphan).imp_left fun hlive => ?_
      apply hlive.move hpc (hget key)
      intro e' hpos' hkey'
      rw [(hinode e' _).1]
      · exact ⟨hpos', hkey'⟩
      · rintro rfl
        exact hsame hkey'.symm

/-! ### The steps -/

omit [DecidableEq ι] in
/-- An inode that is being freed has no links. -/
theorem nlink_of_dying (hdying : (s.pc t).dying = some e) : (s.disk (s.inode e).key).nlink = 0 := by
  have hdoomed := hk.doomed t
  have hok := h.pc t
  -- Before `type` is cleared the copy agrees with the disk.
  cases hp : s.pc t with
  | iputTrunc e' =>
    rw [hp] at hdying hdoomed hok
    cases hdying
    rw [← (h.of_locked hp hok.1 (by simp) (by simp)).1.resolve_left (by simp [hok.2.2])]
    exact hdoomed.2
  | iputFree e' =>
    rw [hp] at hdying hdoomed hok
    cases hdying
    rw [← (h.of_locked hp hok.1 (by simp) (by simp)).1.resolve_left (by simp [hok.2.2])]
    exact hdoomed.2.1
  | iputValid e' | iputDrop e' =>
    rw [hp] at hdying hdoomed
    cases hdying
    exact hdoomed.2.nlink
  | _ => simp [hp, InodePc.dying] at hdying

/-- One more reference to an entry in use. -/
theorem gain (hpc : s.pc t = .idle) (hpos : 0 < (s.inode e).ref)
    (hothers : ∀ t', t' ≠ t → (s.pc t').dying ≠ some e) :
  (((s.gain t e).setFresh e (s.fresh e)).goto t .idle).Kept disk
  := by
  have hinode : (((s.gain t e).setFresh e (s.fresh e)).goto t .idle).inode e
      = (s.inode e).setRef ((s.inode e).ref + 1) := update_self ..
  apply hk.rework h hpos hothers rfl
  · intro e' hne
    exact ⟨update_of_ne hne .., update_of_ne hne ..⟩
  · rw [hinode]
    rfl
  · rw [hinode]
    exact Nat.succ_pos _
  · intro _ _
    rfl
  · simp [hpc, InodePc.entry]
  · simp [hpc]
  · simp
  · trivial
  · refine hk.unread_of_eq rfl (by simp [hpc]) (fun _ => hpos) ?_ ?_ rfl (update_self ..)
    · rw [hinode]
      rfl
    · rw [hinode]
      rfl

/-- A reference is given up. -/
theorem lose (he : e ∈ s.refs t)
    (hfrom : s.pc t = .idle ∨ s.pc t = .iputDrop e)
    (hlast : (s.inode e).ref = 1 → ¬ (s.disk (s.inode e).key).Orphan) :
  ((s.lose t e).goto t .idle).Kept disk
  := by
  have hpos := h.ref_pos he
  have hinode : ((s.lose t e).goto t .idle).inode e = (s.inode e).setRef ((s.inode e).ref - 1) :=
    update_self ..
  have hother : ∀ e', e' ≠ e → ((s.lose t e).goto t .idle).inode e' = s.inode e' :=
    fun e' hne => update_of_ne hne ..
  have hget : ∀ key, s.pc t ≠ .iallocGet key := by
    intro key hp
    rw [hp] at hfrom
    simp at hfrom
  have hentry : ∀ e', s.pc t = .iputDrop e' → e' = e := by
    intro e' hp
    rw [hp] at hfrom
    simpa using hfrom
  have hunread : ((s.lose t e).goto t .idle).Unread e := by
    obtain hidle | hdrop := hfrom
    · refine hk.unread_of_eq rfl (by simp [hidle]) (fun _ => hpos) ?_ ?_ rfl rfl
      · rw [hinode]
        rfl
      · rw [hinode]
        rfl
    · intro hpos'
      have hdoomed := hk.doomed t
      rw [hdrop] at hdoomed
      simp [hinode, InCore.setRef, hdoomed.1] at hpos'
  apply hk.touch (t := t) (k := .idle) rfl
  · intro e' hne
    exact ⟨hother e' hne, rfl⟩
  · intro _ _ _
    rfl
  · intro t' key _ hkey
    have hnone := hk.doomed t'
    rw [hkey] at hnone
    refine ⟨fun _ => ?_, rfl⟩
    rw [hinode]
    exact hnone.1 e hpos
  · exact fun t' => hk.dying_ne h he
  · exact hentry
  · simp
  · trivial
  · exact hunread
  · intro key horphan
    refine (hk.live key horphan).imp_left fun hlive => ?_
    apply hlive.move (t := t) (k := .idle) rfl (hget key)
    intro e' hpos' hkey
    by_cases hne : e' = e
    · subst hne
      subst hkey
      rw [hinode]
      refine ⟨?_, rfl⟩
      have hone : (s.inode e').ref ≠ 1 := fun hone => hlast hone horphan
      simp only [InCore.setRef]
      omega
    · rw [hother e' hne]
      exact ⟨hpos', hkey⟩

/-- A process changes an entry to which it has a reference, apart from the count. -/
theorem own (ip : InCore ι) (he : e ∈ s.refs t)
    (hfrom : s.pc t = .idle ∨ (s.pc t).entry = some e) (hpc : s'.pc = update s.pc t k)
    (hinode : s'.inode = update s.inode e ip) (hkey : ip.key = (s.inode e).key)
    (href : ip.ref = (s.inode e).ref)
    (hdisk : ∀ key, key ≠ (s.inode e).key → s'.disk key = s.disk key)
    (hfresh : ∀ e', e' ≠ e → s'.fresh e' = s.fresh e') (hto : ∀ key, k ≠ .iallocGet key)
    (hdoomed : s'.Doomed k) (hunread : ip.valid = false → s'.Unread e) :
  s'.Kept disk
  := by
  have hself : s'.inode e = ip := by rw [hinode, update_self]
  have hpos := h.ref_pos he
  refine hk.rework h hpos (fun t' => hk.dying_ne h he) hpc ?_ ?_ ?_ hdisk ?_ ?_ hto hdoomed ?_
  · intro e' hne
    exact ⟨by rw [hinode, update_of_ne hne], hfresh e' hne⟩
  · rw [hself, hkey]
  · rwa [hself, href]
  · intro e' he'
    obtain hidle | hentry := hfrom
    · simp [hidle, InodePc.entry] at he'
    · exact Option.some.inj (he'.symm.trans hentry)
  · rintro key hget
    simp [hget, InodePc.entry] at hfrom
  · intro hpos' hvalid
    rw [hself] at hvalid
    exact hunread hvalid hpos' (by rwa [hself])

/-- The last reference to an inode that `iput` does not free is one to an inode with links. -/
theorem linked_of_last (hpc : s.pc t = .idle) (he : e ∈ s.refs t)
    (hkept : (s.inode e).lock = some t → 2 ≤ (s.refs t).count e) (hfresh : s.fresh e = false)
    (hone : (s.inode e).ref = 1)
    (hmore : ¬ ((s.inode e).ref = 1 ∧ (s.inode e).valid = true ∧ (s.inode e).copy.nlink = 0)) :
  0 < (s.disk (s.inode e).key).nlink
  := by
  have hpos := h.ref_pos he
  cases hvalid : (s.inode e).valid with
  | false =>
    obtain hlink | hf | ⟨t', ht'⟩ := hk.unread e hpos hvalid
    · exact hlink
    · rw [hfresh] at hf
      cases hf
    · have hmem : e ∈ s.refs t' := h.mem_of_entry (by rw [ht']; rfl)
      obtain rfl := h.eq_of_ref_one hone he hmem
      rw [hpc] at ht'
      cases ht'
  | true =>
    have hl : (s.inode e).lock = none := by
      apply h.lock_none_of_unheld hone he
      intro hl
      have hle := le_tally (List.count e) s.refs t
      rw [← h.ref e, hone] at hle
      have := hkept hl
      omega
    rw [← h.coherence.unlocked e hpos hvalid hl]
    exact Nat.pos_of_ne_zero fun hnlink => hmore ⟨hone, hvalid, hnlink⟩

/-- `iget` for a process that is not `ialloc`. -/
theorem iget (hpc : s.pc t = .idle)
    (hlink : 0 < (s.disk key).nlink) (hgot : s.Got t key false s') :
  (s'.goto t .idle).Kept disk
  := by
  cases hgot with
  | found hfind =>
    obtain ⟨hpos, rfl⟩ := of_find hfind
    rw [Bool.false_or]
    apply hk.gain h hpc hpos
    intro t' _ hdying
    rw [hk.nlink_of_dying h hdying] at hlink
    exact Nat.not_lt_zero _ hlink
  | recycled hfind hempty =>
    refine hk.recycle (of_empty hempty) (.inl hpc) ?_ (.inl hlink)
    intro t' _ hget
    have hdoomed := hk.doomed t'
    rw [hget] at hdoomed
    rw [hdoomed.2.2] at hlink
    exact Nat.not_lt_zero _ hlink

end

omit [Fintype ι] in
/-- `iget` for `ialloc`. -/
theorem handOut (hk : s.Kept disk) (hpc : s.pc t = .iallocGet key)
    (hgot : s.Got t key true s') :
  (s'.goto t .idle).Kept disk
  := by
  cases hgot with
  | found hfind =>
    obtain ⟨hpos, hkey⟩ := of_find hfind
    have hdoomed := hk.doomed t
    rw [hpc] at hdoomed
    exact absurd hkey (hdoomed.1 _ hpos)
  | recycled hfind hempty =>
    refine hk.recycle (of_empty hempty) (.inr hpc) ?_ (.inr rfl)
    intro t' hne hget
    exact hne (hk.once t t' key hpc hget)

variable {ninodes : ℕ} {a : InodeAct ι} (hk : s.Kept disk) (h : s.Inv)
  (heff : s.Effect ninodes a s') (hcare : s.Careful ninodes a)

include hk h heff hcare

/-- Every careful step keeps the invariant. -/
theorem step : s'.Kept disk := by
  have hmem : ∀ {e t}, (s.inode e).lock = some t → e ∈ s.refs t := fun hl => (h.holder _ _ hl).1
  have hread : ∀ {e t}, s.pc t = .idle → (s.inode e).lock = some t → (s.inode e).valid ≠ false := by
    intro e t hpc hl
    have hvalid := (h.holder e t hl).2
    simp only [hpc, reduceCtorEq, or_false] at hvalid
    simp [hvalid]
  have hent : ∀ {t k e}, s.pc t = k → k.entry = some e →
      s.PcOk t k ∧ s.Doomed k ∧ (s.pc t).entry = some e ∧ e ∈ s.refs t := by
    rintro t k e rfl he
    exact ⟨h.pc t, hk.doomed t, he, h.mem_of_entry he⟩
  have hidle : ∀ {t}, s.pc t = .idle → (s.pc t).dying = none ∧ ∀ key, s.pc t ≠ .iallocGet key := by
    intro t hpc
    simp [hpc, InodePc.dying]
  cases heff with
  | iget hpc _ hlink hgot => exact hk.iget h hpc hlink hgot
  | idup hpc _ he => exact hk.gain h hpc (h.ref_pos he) fun t' => hk.dying_ne h he
  | ilock hpc _ => exact hk.goto (hidle hpc) (by simp) trivial
  | modify hpc hl _ | iunlock hpc hl _ =>
    exact hk.own h _ (hmem hl) (.inl hpc) rfl rfl rfl rfl (fun _ _ => rfl) (fun _ _ => rfl)
      (by simp) trivial fun hv => absurd hv (hread hpc hl)
  | iupdate hpc hl =>
    exact hk.own h _ (hmem hl) (.inl hpc) rfl rfl rfl rfl
      (fun _ hne => update_of_ne hne ..) (fun _ _ => rfl)
      (by simp) trivial fun hv => absurd hv (hread hpc hl)
  | last hpc _ he _ _ hvalid _ =>
    exact hk.own h (s.inode _) he (.inl hpc) rfl (update_eq_self ..).symm rfl rfl
      (fun _ _ => rfl) (fun _ _ => rfl) (by simp) trivial
      fun hv => absurd (hv.symm.trans hvalid) (by simp)
  | iput hpc _ he hkept hmore =>
    apply hk.lose h he (.inl hpc)
    intro hone horphan
    have hlink := hk.linked_of_last h hpc he hkept hcare hone hmore
    rw [horphan.2] at hlink
    exact Nat.not_lt_zero _ hlink
  | ialloc hpc htype => exact hk.goto (hidle hpc) (by simp) htype
  | @lock t e hpc hl =>
    obtain ⟨-, -, hentry, he⟩ := hent hpc rfl
    have hk' : ∀ {P : InodePc → Prop}, P .idle → P (.ilockRead e) →
        P (if (s.inode e).valid then .idle else .ilockRead e) := by
      intro P hvalid hinvalid
      split
      · exact hvalid
      · exact hinvalid
    refine hk.own h _ he (.inr hentry) rfl rfl rfl rfl (fun _ _ => rfl) (fun _ _ => rfl)
      (hk' (P := fun k => ∀ key, k ≠ .iallocGet key) (by simp) (by simp)) (hk' trivial trivial)
      fun _ => ?_
    refine hk.unread_of_eq rfl (by simp [hpc]) (fun _ => h.ref_pos he) ?_ ?_ rfl rfl
    · simp only [Itable.goto, Itable.setInode, update_self]
      rfl
    · simp only [Itable.goto, Itable.setInode, update_self]
      rfl
  | read hpc _ =>
    obtain ⟨-, -, hentry, he⟩ := hent hpc rfl
    exact hk.own h _ he (.inr hentry) rfl rfl rfl rfl (fun _ _ => rfl)
      (fun _ hne => update_of_ne hne ..) (by simp) trivial (by rintro ⟨⟩)
  | wake hpc _ =>
    obtain ⟨hok, -, hentry, he⟩ := hent hpc rfl
    refine hk.own h _ he (.inr hentry) rfl rfl rfl rfl (fun _ _ => rfl) (fun _ _ => rfl) (by simp)
      ?_ fun hv => absurd (hv.symm.trans hok.2.2.2.1) (by simp)
    simp only [Doomed, Itable.goto, Itable.setLock, Itable.setInode, update_self]
    exact ⟨hok.2.1, hok.2.2.2.2.1⟩
  | trunc hpc =>
    obtain ⟨hok, hdoomed, hentry, he⟩ := hent hpc rfl
    refine hk.own h _ he (.inr hentry) rfl rfl rfl rfl
      (fun _ hne => update_of_ne hne ..) (fun _ _ => rfl) (by simp)
      ?_ fun hv => absurd (hv.symm.trans hok.2.1) (by simp)
    simp only [Doomed, Itable.goto, Itable.save, Itable.setDisk, Itable.setInode,
      update_self]
    exact ⟨hdoomed.1, hdoomed.2, rfl, rfl⟩
  | free hpc =>
    obtain ⟨hok, hdoomed, hentry, he⟩ := hent hpc rfl
    refine hk.own h _ he (.inr hentry) rfl rfl rfl rfl
      (fun _ hne => update_of_ne hne ..) (fun _ _ => rfl) (by simp)
      ?_ fun hv => absurd (hv.symm.trans hok.2.1) (by simp)
    simp only [Doomed, Itable.goto, Itable.save, Itable.setDisk, Itable.setInode,
      update_self]
    refine ⟨hdoomed.1, ?_⟩
    rw [show ((s.inode _).save _).key = (s.inode _).key from rfl, update_self]
    exact ⟨rfl, hdoomed.2.1, hdoomed.2.2.1, hdoomed.2.2.2⟩
  | @invalidate t e hpc =>
    obtain ⟨-, hdoomed, hentry, he⟩ := hent hpc rfl
    refine hk.own h _ he (.inr hentry) rfl rfl rfl rfl (fun _ _ => rfl) (fun _ _ => rfl) (by simp)
      ?_ fun _ _ _ => .inr (.inr ⟨t, update_self ..⟩)
    simp only [Doomed, Itable.goto, Itable.setInode, update_self]
    exact hdoomed
  | drop hpc _ =>
    obtain ⟨-, hdoomed, -, he⟩ := hent hpc rfl
    exact hk.lose h he (.inr hpc) fun _ horphan => horphan.1 hdoomed.2.type
  | allocate hpc hlt htype =>
    refine hk.allocate hpc htype ?_
    have hvacant : s.Vacant ninodes (s.pc _) := hcare
    rw [hpc] at hvacant
    exact hvacant ⟨hlt, htype⟩
  | @scan t _ _ _ _ hpc hnext =>
    have htype := hk.doomed t
    rw [hpc] at htype
    apply hk.goto (by simp [hpc, InodePc.dying])
    · obtain rfl | rfl := hnext <;> simp
    · obtain rfl | rfl := hnext
      · exact htype
      · trivial
  | handOut hpc _ hgot => exact hk.handOut hpc hgot

/-- A count drops to 0 only for an inode that has links or has been freed. -/
theorem last_reference (hpos : 0 < (s.inode e).ref)
    (hzero : (s'.inode e).ref = 0) :
  0 < (s'.disk (s.inode e).key).nlink ∨ (s'.disk (s.inode e).key).Freed
  := by
  obtain ⟨t, hpc, he, hkept, hone, hmore, rfl, hdisk⟩ | ⟨t, hpc, hdisk⟩ := heff.of_ref_zero hpos hzero
  · rw [hdisk]
    exact .inl (hk.linked_of_last h hpc he hkept hcare hone hmore)
  · have hdoomed := hk.doomed t
    rw [hpc] at hdoomed
    rw [hdisk]
    exact .inr hdoomed.2

end Kept

/-- A careful run keeps both invariants, as long as it does not panic. -/
theorem kept_of_careful [Fintype ι] {ninodes : ℕ} {as : List (InodeAct ι)}
    (hrun : (itableSystem ι ninodes).exec (Itable.boot disk) as = some s)
    (hcare : (itableSystem ι ninodes).Admissible (Careful ninodes) (Itable.boot disk) as)
    (hok : s.panicked = false) :
  s.Inv ∧ s.Kept disk
  := by
  have hinv : s.panicked = false → s.Inv ∧ s.Kept disk := by
    apply TransitionSystem.exec_invariant (I := fun s => s.panicked = false → s.Inv ∧ s.Kept disk)
      _ _ hrun hcare
    · intro s a s' ih hcare hstep hok'
      obtain ⟨h, hk⟩ := ih (running hstep)
      have heff := step_effect hstep hok'
      exact ⟨h.step heff, hk.step h heff hcare⟩
    · intro _
      exact ⟨Inv.boot disk, Kept.boot disk⟩
  exact hinv hok

end Itable

/-- When `ialloc` takes no inode that has an entry in use, and an inode is read before it is
put, the last reference to an inode without links is given up by the process that has freed
it. -/
theorem orphans_reclaimed
    {ι : Type} [Fintype ι] [DecidableEq ι] {ninodes : ℕ} {disk : ℕ × ℕ → Dinode}
    {as : List (InodeAct ι)} {a : InodeAct ι} {s s' : Itable ι}
    (hrun : (itableSystem ι ninodes).exec (Itable.boot disk) as = some s)
    (hstep : (itableSystem ι ninodes).step s a = some s')
    (hcare : (itableSystem ι ninodes).Admissible (Itable.Careful ninodes) (Itable.boot disk)
      (as ++ [a]))
    (hok : s'.panicked = false) :
  (∀ e, 0 < (s.inode e).ref → (s'.inode e).ref = 0 →
      0 < (s'.disk (s.inode e).key).nlink ∨ (s'.disk (s.inode e).key).Freed)
    ∧ ∀ key, (s'.disk key).Orphan → s'.Live key ∨ (disk key).Orphan
  := by
  obtain ⟨h, hk⟩ := Itable.kept_of_careful hrun hcare.append_left (Itable.running hstep)
  have hlast := hcare.ok_of_append hrun
  have heff := Itable.step_effect hstep hok
  exact ⟨fun e hpos hzero => hk.last_reference h heff hlast hpos hzero, (hk.step h heff hlast).live⟩

/-- A process makes a file, removes it while it has it open, and closes it. -/
def unlinkOpen : List (InodeAct (Fin 2)) :=
  [.ialloc 0 1 T_FILE, .run 0, .run 0, .ilock 0 0, .run 0, .run 0,
    .modify 0 0 { Dinode.allocated T_FILE with nlink := 1 }, .iupdate 0 0, .iunlock 0 0,
    .iget 0 (1, 1), .ilock 0 0, .run 0, .modify 0 0 (.allocated T_FILE), .iupdate 0 0,
    .iunlock 0 0, .iput 0 0, .iput 0 0, .run 0, .run 0, .run 0, .run 0]

theorem orphans_reclaimed_unlinkOpen :
  ∃ s s', (itableSystem (Fin 2) 3).exec (Itable.boot fun _ => .allocated 0) unlinkOpen = some s
    ∧ (itableSystem (Fin 2) 3).step s (.run 0) = some s'
    ∧ (s.inode 0).ref = 1 ∧ (s'.inode 0).ref = 0
    ∧ (0 < (s'.disk (s.inode 0).key).nlink ∨ (s'.disk (s.inode 0).key).Freed)
  := by
  have hexec : (((itableSystem (Fin 2) 3).exec (Itable.boot fun _ => .allocated 0) unlinkOpen).bind
      fun s => ((itableSystem (Fin 2) 3).step s (.run 0)).map fun s' =>
        ((s.inode 0).ref, (s'.inode 0).ref, s'.panicked)) = some (1, 0, false) := by
    decide
  obtain ⟨s, hrun, hnext⟩ := Option.bind_eq_some_iff.mp hexec
  obtain ⟨s', hstep, hobs⟩ := Option.map_eq_some_iff.mp hnext
  obtain ⟨hone, hzero, hok⟩ : (s.inode 0).ref = 1 ∧ (s'.inode 0).ref = 0
      ∧ s'.panicked = false := by
    simpa only [Prod.mk.injEq] using hobs
  have hcare : (itableSystem (Fin 2) 3).Admissible (Itable.Careful 3)
      (Itable.boot fun _ => .allocated 0) (unlinkOpen ++ [.run 0]) := by
    decide
  have hpos : 0 < (s.inode 0).ref := hone ▸ one_pos
  exact ⟨s, s', hrun, hstep, hone, hzero, (orphans_reclaimed hrun hstep hcare hok).1 0 hpos hzero⟩

/-- While `iput` has freed an inode and not yet given up its reference, another process makes
a directory with that inode and removes it again. -/
def leak : List (InodeAct (Fin 2)) :=
  reuse ++ [.modify 1 0 { Dinode.allocated T_DIR with nlink := 1 }, .iupdate 1 0, .iunlock 1 0,
    .iput 1 0, .iget 1 (1, 1), .ilock 1 0, .run 1, .modify 1 0 (.allocated T_DIR), .iupdate 1 0,
    .iunlock 1 0, .iput 1 0]

/-- Then the last reference is given up without a look at the links. -/
theorem orphan_leaked :
  ∃ s s', (itableSystem (Fin 2) 3).exec (Itable.boot fun _ => .allocated 0) leak = some s
    ∧ (itableSystem (Fin 2) 3).step s (.run 0) = some s' ∧ s'.panicked = false
    ∧ (s.inode 0).key = (1, 1) ∧ (s.inode 0).ref = 1 ∧ (s'.inode 0).ref = 0
    ∧ (s'.disk (1, 1)).Orphan ∧ ¬ s'.Live (1, 1)
  := by
  have hexec : (((itableSystem (Fin 2) 3).exec (Itable.boot fun _ => .allocated 0) leak).bind
      fun s => ((itableSystem (Fin 2) 3).step s (.run 0)).map fun s' =>
        ((s'.panicked, (s.inode 0).key, (s.inode 0).ref, (s'.inode 0).ref),
          s'.disk (1, 1), s'.find (1, 1), s'.pc 0, s'.pc 1))
      = some ((false, (1, 1), 1, 0), .allocated T_DIR, none, .idle, .idle) := by
    decide
  obtain ⟨s, hrun, hnext⟩ := Option.bind_eq_some_iff.mp hexec
  obtain ⟨s', hstep, hobs⟩ := Option.map_eq_some_iff.mp hnext
  simp only [Prod.mk.injEq] at hobs
  obtain ⟨⟨hok, hkey, hone, hzero⟩, hdisk, hfind, hpc₀, hpc₁⟩ := hobs
  refine ⟨s, s', hrun, hstep, hok, hkey, hone, hzero, ?_, ?_⟩
  · rw [hdisk]
    exact ⟨by decide, rfl⟩
  · rintro (⟨e, hpos, he⟩ | ⟨t, ht⟩)
    · exact Itable.find_eq_none hfind e hpos he
    · fin_cases t
      · exact absurd (hpc₀.symm.trans ht) (by simp)
      · exact absurd (hpc₁.symm.trans ht) (by simp)

end Xv6
