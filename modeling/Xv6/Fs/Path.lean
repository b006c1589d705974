import Mathlib.Data.List.TakeWhile
import Xv6.Fs.Directory

/-!
# Paths

`namex` takes the elements of a path one after the other and looks each of them up in the inode
reached so far.  What it returns is the fold of the look-up over the components of the path; it
keeps one reference to the inode it returns and drops all others, whichever way it ends.
-/

namespace Xv6

open Stop Superblock Slots Function

/-! ### Components -/

/-- The root directory. -/
abbrev ROOTINO : ℕ := 1

/-- The character between the elements of a path. -/
abbrev SLASH : UInt8 := 47

/-- `skipelem`: the first element of a path as far as it fits into a name, and what is left of the
path.  A path is the list of the bytes before its zero. -/
def skipelem (path : List UInt8) : Option (List UInt8 × List UInt8) :=
  match path.dropWhile (· = SLASH) with
  | [] => none
  | s => some ((s.takeWhile (· ≠ SLASH)).take DIRSIZ, (s.dropWhile (· ≠ SLASH)).dropWhile (· = SLASH))

/-- The non-empty parts of a path between slashes, cut to the length of a name. -/
def components (path : List UInt8) : List (List UInt8) :=
  ((path.splitOn SLASH).filter (· ≠ [])).map (·.take DIRSIZ)

section Components

variable {path rest elem : List UInt8} {c : UInt8}

theorem components_slash (path : List UInt8) : components (SLASH :: path) = components path := by
  simp [components, List.splitOn, List.splitOnP_cons_eq_if_modifyHead]

theorem components_dropWhile (path : List UInt8) : components (path.dropWhile (· = SLASH)) = components path := by
  induction path with
  | nil => rfl
  | cons c path ih =>
    rw [List.dropWhile_cons]
    split_ifs with hc
    · rw [of_decide_eq_true hc, components_slash, ih]
    · rfl

/-- The bytes before the first slash are a component, unless there are none. -/
theorem components_takeWhile (h : path.takeWhile (· ≠ SLASH) ≠ []) :
  components path
    = (path.takeWhile (· ≠ SLASH)).take DIRSIZ :: components (path.dropWhile (· ≠ SLASH))
  := by
  have hnot : ∀ c ∈ path.takeWhile (· ≠ SLASH), (c == SLASH) = false := by
    intro c hc
    simpa using List.mem_takeWhile_imp hc
  have hhead := List.head?_dropWhile_not (· ≠ SLASH) path
  have hsplit := List.takeWhile_append_dropWhile (p := (· ≠ SLASH)) (l := path)
  generalize path.takeWhile (· ≠ SLASH) = elem at *
  generalize path.dropWhile (· ≠ SLASH) = rest at *
  rw [← hsplit]
  cases rest with
  | nil =>
    rw [List.append_nil, components, List.splitOn, List.splitOnP_eq_singleton hnot]
    simp [h, components]
  | cons c rest =>
    obtain rfl : c = SLASH := by simpa using hhead
    rw [components, List.splitOn, List.splitOnP_append_cons_of_forall_mem hnot _ (beq_self_eq_true _)]
    simp [h, components, List.splitOn, List.splitOnP_cons_eq_if_modifyHead]

theorem head_dropWhile_slash (path : List UInt8) {rest : List UInt8}
    (h : path.dropWhile (· = SLASH) = c :: rest) :
  c ≠ SLASH
  := by
  have hhead := List.head?_dropWhile_not (· = SLASH) path
  rw [h] at hhead
  simpa using hhead

/-- A path that starts with a character has a component. -/
theorem components_cons (hc : c ≠ SLASH) (path : List UInt8) : components (c :: path) ≠ [] := by
  rw [components_takeWhile]
  · exact List.cons_ne_nil _ _
  · simp [hc]

theorem skipelem_eq_none (h : skipelem path = none) : components path = [] := by
  rw [← components_dropWhile]
  unfold skipelem at h
  split at h
  · rename_i hdrop
    rw [hdrop]
    rfl
  · cases h

/-- The bytes of the element and of what is left come from the path. -/
theorem skipelem_subset (h : skipelem path = some (elem, rest)) : elem ⊆ path ∧ rest ⊆ path := by
  have hs := (List.dropWhile_sublist (p := (· = SLASH)) (l := path)).subset
  unfold skipelem at h
  split at h
  · cases h
  · cases h
    constructor
    · intro c hc
      exact hs (((List.take_sublist _ _).trans (List.takeWhile_sublist _)).subset hc)
    · intro c hc
      exact hs (((List.dropWhile_sublist _).trans (List.dropWhile_sublist _)).subset hc)

/-- `skipelem` takes the first component off a path. -/
theorem skipelem_eq_some (h : skipelem path = some (elem, rest)) :
  components path = elem :: components rest ∧ (components rest = [] ↔ rest = []) ∧ rest.length < path.length
    ∧ elem.length ≤ DIRSIZ
  := by
  have hle := (List.dropWhile_sublist (p := (· = SLASH)) (l := path)).length_le
  rw [← components_dropWhile path]
  unfold skipelem at h
  split at h
  · cases h
  · rename_i s hne
    cases h
    cases hs : path.dropWhile (· = SLASH) with
    | nil => exact absurd hs hne
    | cons c s =>
      have hc := head_dropWhile_slash path hs
      rw [hs] at hle
      refine ⟨?_, ?_, ?_, List.length_take_le _ _⟩
      · rw [components_takeWhile (by simp [hc]), components_dropWhile]
      · constructor
        · intro hnil
          cases hrest : ((c :: s).dropWhile (· ≠ SLASH)).dropWhile (· = SLASH) with
          | nil => rfl
          | cons b rest =>
            rw [hrest] at hnil
            exact absurd hnil (components_cons (head_dropWhile_slash _ hrest) rest)
        · intro hnil
          rw [hnil]
          rfl
      · have hlen₁ := (List.dropWhile_sublist (p := (· = SLASH)) (l := (c :: s).dropWhile (· ≠ SLASH))).length_le
        have hlen₂ := (List.dropWhile_sublist (p := (· ≠ SLASH)) (l := s)).length_le
        rw [List.dropWhile_cons_of_pos (by simpa using hc)] at hlen₁ ⊢
        rw [List.length_cons] at hle
        omega

/-- A component is a part of the path that fits into a name. -/
theorem mem_components {c : List UInt8} (h : c ∈ components path) : c ⊆ path ∧ c.length ≤ DIRSIZ := by
  induction hn : path.length using Nat.strong_induction_on generalizing path with
  | _ n ih =>
    subst hn
    cases helem : skipelem path with
    | none =>
      rw [skipelem_eq_none helem] at h
      cases h
    | some r =>
      obtain ⟨elem, rest⟩ := r
      obtain ⟨hcomponents, -, hlen, hshort⟩ := skipelem_eq_some helem
      obtain ⟨helem', hrest⟩ := skipelem_subset helem
      rw [hcomponents] at h
      rcases List.mem_cons.mp h with rfl | h
      · exact ⟨helem', hshort⟩
      · obtain ⟨hsub, hfits⟩ := ih rest.length hlen h rfl
        exact ⟨fun b hb => hrest (hsub hb), hfits⟩

end Components

/-! ### The functions -/

/-- `idup`: another reference to an inode in the table. -/
def idup (i : ℕ) : FsM Unit := modify fun s =>
  match s.itable.lookup i with
  | some slot => s.setSlot i { slot with ref := slot.ref + 1 }
  | none => s

/-- The loop of `namex`, with the name and the inode reached so far. -/
def namexLoop (sb : Superblock) (parent : Bool) : ℕ → List UInt8 → List UInt8 → ℕ → FsM (Option (ℕ × List UInt8))
  | fuel, path, name, ip => do
    match fuel, skipelem path with
    | fuel + 1, some (elem, rest) => do
      ilock sb ip
      let dp ← inodeOf ip
      if dp.type ≠ T_DIR then
        iput sb ip
        return none
      else if parent ∧ rest = [] then return some (ip, elem)
      else
        match ← dirlookup sb ip (CString.ofList elem) with
        | none => do
          iput sb ip
          return none
        | some (next, _) => do
          iput sb ip
          namexLoop sb parent fuel rest elem next
    | _, _ =>
      if parent then
        iput sb ip
        return none
      else return some (ip, name)

/-- `namex`: the inode for a path, or for its parent, and the last element that was read. -/
def namex (sb : Superblock) (cwd : ℕ) (parent : Bool) (path : List UInt8) : FsM (Option (ℕ × List UInt8)) := do
  if path.head? = some SLASH then
    iget ROOTINO
    namexLoop sb parent path.length path [] ROOTINO
  else
    idup cwd
    namexLoop sb parent path.length path [] cwd

def namei (sb : Superblock) (cwd : ℕ) (path : List UInt8) : FsM (Option ℕ) := do
  let r ← namex sb cwd false path
  return r.map Prod.fst

def nameiparent (sb : Superblock) (cwd : ℕ) (path : List UInt8) : FsM (Option (ℕ × List UInt8)) :=
  namex sb cwd true path

/-! ### Walking a tree -/

/-- The inode is a directory. -/
abbrev IsDirAt (N : ℕ → Option Node) (i : ℕ) : Prop := (N i).map Node.type = some T_DIR

/-- Look a name up in an inode, which must be a directory. -/
def lookup (N : ℕ → Option Node) (i : ℕ) (name : List UInt8) : Option ℕ :=
  (N i).bind fun nd => if nd.type = T_DIR then Slots.get (slots nd.contents) name else none

/-- What `namex` returns for a list of components. -/
def pathWalk (N : ℕ → Option Node) (parent : Bool) : List (List UInt8) → List UInt8 → ℕ → Option (ℕ × List UInt8)
  | [], name, i => if parent then none else some (i, name)
  | c :: cs, _, i =>
    if IsDirAt N i then
      if parent ∧ cs = [] then some (i, c) else (lookup N i c).bind (pathWalk N parent cs c)
    else none

section Walk

variable {N : ℕ → Option Node} {i j : ℕ} {nd : Node} {name : List UInt8}

theorem isDirAt_of_some (hN : N i = some nd) : IsDirAt N i ↔ nd.type = T_DIR := by
  rw [IsDirAt, hN, Option.map_some, Option.some_inj]

theorem lookup_of_dir (hN : N i = some nd) (htype : nd.type = T_DIR) :
  lookup N i name = Slots.get (slots nd.contents) name
  := by rw [lookup, hN, Option.bind_some, if_pos htype]

theorem isDirAt_of_lookup (h : lookup N i name = some j) : IsDirAt N i := by
  obtain ⟨nd, hN, hget⟩ := Option.bind_eq_some_iff.mp h
  split_ifs at hget with htype
  exact (isDirAt_of_some hN).mpr htype

/-- `namei` is the fold of the look-up. -/
theorem pathWalk_eq_foldlM (cs : List (List UInt8)) (name : List UInt8) (i : ℕ) :
  (pathWalk N false cs name i).map Prod.fst = cs.foldlM (lookup N) i
  := by
  induction cs generalizing name i with
  | nil => rfl
  | cons c cs ih =>
    rw [List.foldlM_cons, pathWalk]
    cases hlookup : lookup N i c with
    | none =>
      split_ifs with hdir hlast
      · exact absurd hlast.1 (by decide)
      · rfl
      · rfl
    | some j =>
      rw [if_pos (isDirAt_of_lookup hlookup), if_neg (fun h => absurd h.1 (by decide))]
      exact ih c j

/-- `nameiparent` is the fold over all components but the last one. -/
theorem pathWalk_parent_eq_some {cs : List (List UInt8)} {name last : List UInt8} {i : ℕ} :
  pathWalk N true cs name i = some (j, last)
    ↔ cs.getLast? = some last ∧ cs.dropLast.foldlM (lookup N) i = some j ∧ IsDirAt N j
  := by
  induction cs generalizing name i with
  | nil => simp [pathWalk]
  | cons c cs ih =>
    rw [pathWalk]
    cases cs with
    | nil =>
      simp only [and_self, if_true, List.getLast?_singleton, List.dropLast_singleton, List.foldlM_nil]
      split_ifs with hdir
      · simp only [Option.some_inj, Prod.mk.injEq, pure]
        constructor
        · rintro ⟨rfl, rfl⟩
          exact ⟨rfl, rfl, hdir⟩
        · rintro ⟨rfl, rfl, -⟩
          exact ⟨rfl, rfl⟩
      · simp only [pure, Option.some_inj, false_iff, not_and]
        rintro - rfl
        exact hdir
    | cons c' cs =>
      rw [List.getLast?_cons_cons, List.dropLast_cons_cons, List.foldlM_cons]
      cases hlookup : lookup N i c with
      | none =>
        simp [bind]
      | some k =>
        rw [if_pos (isDirAt_of_lookup hlookup), if_neg (by simp)]
        exact @ih c k

end Walk

/-! ### What the walk needs -/

/-- There is an entry for the inode in a directory. -/
def Linked (N : ℕ → Option Node) (j : ℕ) : Prop :=
  ∃ i nd name, N i = some nd ∧ nd.type = T_DIR ∧ some (name, j) ∈ slots nd.contents

/-- The directories have whole entries, which are numbers of inodes, and an inode without links is
referred to.  A reference is one to an allocated inode. -/
structure Tree (sb : Superblock) (N : ℕ → Option Node) (R : ℕ → ℕ) : Prop where
  whole : ∀ i nd, N i = some nd → nd.type = T_DIR → nd.contents.length % DIRENT = 0
  linked_lt : ∀ j, Linked N j → j < sb.ninodes
  root_lt : ROOTINO < sb.ninodes
  orphan : ∀ i nd, N i = some nd → nd.nlink = 0 → 0 < R i
  held : ∀ i, 0 < R i → N i ≠ none

/-- One reference more to an inode. -/
abbrev oneMore (R : ℕ → ℕ) (i : ℕ) : ℕ → ℕ := update R i (R i + 1)

section Namex

variable {sb : Superblock} {s s' : FileSys} {N N' : ℕ → Option Node} {R : ℕ → ℕ} {V V' : Set ℕ}
  {i j : ℕ} {nd : Node} {C : Fault → FileSys → Prop}

theorem CString.name_ofList {l : List UInt8} (h0 : 0 ∉ l) (hlen : l.length ≤ DIRSIZ) : (CString.ofList l).name = l := by
  have hcut : ∀ n (l : List UInt8), 0 ∉ l → (CString.ofList l).cut n = l.take n := by
    intro n
    induction n with
    | zero => exact fun _ _ => rfl
    | succ n ih =>
      intro l h0
      cases l with
      | nil => rfl
      | cons b l =>
        have hb : b ≠ 0 := fun hb => h0 (hb ▸ List.mem_cons_self)
        have hfirst : CString.ofList (b :: l) 0 = b := rfl
        rw [CString.cut, hfirst, if_neg hb, CString.ofList_cons_succ, List.take_succ_cons,
          ih l (fun hl => h0 (List.mem_cons_of_mem b hl))]
  rw [CString.name, hcut _ _ h0, List.take_of_length_le hlen]

theorem mem_keys_iff {s : FileSys} : j ∈ s.itable.keys ↔ s.itable.lookup j ≠ none := by
  rw [← AList.mem_keys, ← AList.lookup_isSome, Option.isSome_iff_ne_none]

/-- With one reference more there is at most one entry more in the table. -/
theorem At.length_le (h : At sb N R V s) (h' : At sb N' (oneMore R i) V' s') :
  s'.itable.entries.length ≤ s.itable.entries.length + 1
  := by
  have hsub : s'.itable.keys ⊆ i :: s.itable.keys := by
    intro j hj
    by_cases hji : j = i
    · rw [hji]
      exact List.mem_cons_self
    · apply List.mem_cons_of_mem
      rw [mem_keys_iff] at hj ⊢
      intro hnone
      apply hj
      apply h'.lookup_of_zero
      rw [oneMore, update_of_ne hji, ← h.refs]
      exact FileSys.refs_of_none hnone
  have hle := (s'.itable.keys_nodup.subperm hsub).length_le
  simpa [AList.keys, List.keys] using hle

/-- `idup` refers to an inode in the table once more. -/
theorem At.wp_idup (h : At sb N R V s) (hR : 0 < R i) {Q : Unit → FileSys → Prop}
    (hQ : ∀ s', At sb N (oneMore R i) V s' → s'.machine = s.machine → Q () s') :
  wp (idup i) Q C s
  := by
  obtain ⟨copy, hslot⟩ := h.lookup_of_refs hR
  have hget : wp (iget i) Q C s := by
    apply h.wp_iget
    · intro hzero
      omega
    · intro s' hs' _
      exact hQ s' hs'
  simpa only [iget, idup, wp_bind, wp_get, wp_set, wp_modify, hslot] using hget

/-- A reference that has been made to `i` is dropped.  Were it the last one to an inode without
links, there would have been one before. -/
theorem At.wp_iput_walk (h : At sb N (oneMore R i) V s) (horphan : ∀ nd, N i = some nd → nd.nlink = 0 → 0 < R i)
    {Q : Unit → FileSys → Prop} (hQ : ∀ s', At sb N R ∅ s' → s'.machine = s.machine → Q () s') :
  wp (iput sb i) Q C s
  := by
  have hself : oneMore R i i = R i + 1 := update_self ..
  apply h.wp_iput
  · rw [hself]
    exact Nat.succ_pos _
  · rw [hself]
    intro hone
    right
    intro nd hnd hzero
    have := horphan nd hnd hzero
    omega
  · intro j hj
    exact absurd hj (Set.notMem_empty j)
  · intro s' hs' hmachine
    rw [hself, Nat.add_sub_cancel, update_idem, update_eq_self] at hs'
    exact hQ s' hs' hmachine

theorem oneMore_comm (R : ℕ → ℕ) (i j : ℕ) : oneMore (oneMore R i) j = oneMore (oneMore R j) i := by
  by_cases hij : i = j
  · rw [hij]
  · simp only [oneMore, update_of_ne hij, update_of_ne (Ne.symm hij)]
    exact update_comm hij _ _ _

theorem le_oneMore (R : ℕ → ℕ) (i j : ℕ) : R j ≤ oneMore R i j := by
  unfold oneMore
  rw [update_apply]
  split_ifs with hji
  · rw [hji]
    exact Nat.le_succ _
  · exact Nat.le_refl _

variable {Q : Option (ℕ × List UInt8) → FileSys → Prop} {parent : Bool}

/-- The end of the path. -/
theorem At.wp_namexEnd (hT : Tree sb N R) {name : List UInt8} (h : At sb N (oneMore R i) V s)
    (hnone : ∀ s', pathWalk N parent [] name i = none → At sb N R ∅ s' → s'.machine.obs = s.machine.obs → Q none s')
    (hsome : ∀ j last s', pathWalk N parent [] name i = some (j, last) → At sb N (oneMore R j) ∅ s' →
    s'.machine.obs = s.machine.obs → Q (some (j, last)) s') :
  wp (if parent then do iput sb i; return none else return some (i, name) : FsM (Option (ℕ × List UInt8))) Q C s
  := by
  split_ifs with hparent
  · rw [wp_bind]
    apply h.wp_iput_walk (hT.orphan i)
    intro s' hs' hmachine
    exact hnone s' (if_pos hparent) hs' (by rw [hmachine])
  · exact hsome i name s (if_neg hparent) (h.mono (Set.empty_subset _)) rfl

/-- The loop of `namex` walks along the components. -/
theorem At.wp_namexLoop (hT : Tree sb N R) {fuel : ℕ} {path name : List UInt8}
    (h : At sb N (oneMore R i) V s) (hi : i < sb.ninodes) (hfuel : path.length ≤ fuel) (hpath : 0 ∉ path)
    (hdead : ∀ j s', j = i ∨ Linked N j → N j = none → C (.panic "ilock: no type") s')
    (hfull : ∀ j V' s', At sb N (oneMore R j) V' s' → TableFull (.panic "iget: no inodes") s' →
    C (.panic "iget: no inodes") s')
    (hnone : ∀ s', pathWalk N parent (components path) name i = none → At sb N R ∅ s' →
    s'.machine.obs = s.machine.obs → Q none s')
    (hsome : ∀ j last s', pathWalk N parent (components path) name i = some (j, last) →
    At sb N (oneMore R j) ∅ s' → s'.machine.obs = s.machine.obs → Q (some (j, last)) s') :
  wp (namexLoop sb parent fuel path name i) Q C s
  := by
  induction fuel generalizing path name i s V with
  | zero =>
    obtain rfl : path = [] := List.length_eq_zero_iff.mp (Nat.le_zero.mp hfuel)
    unfold namexLoop
    exact h.wp_namexEnd hT hnone hsome
  | succ fuel ih =>
    unfold namexLoop
    cases helem : skipelem path with
    | none =>
      rw [skipelem_eq_none helem] at hnone hsome
      exact h.wp_namexEnd hT hnone hsome
    | some r =>
      obtain ⟨elem, rest⟩ := r
      obtain ⟨hcomponents, hlast, hlen, hshort⟩ := skipelem_eq_some helem
      obtain ⟨helem0, hrest0⟩ := skipelem_subset helem
      have hname : (CString.ofList elem).name = elem := CString.name_ofList (fun h => hpath (helem0 h)) hshort
      rw [hcomponents, pathWalk] at hnone hsome
      dsimp only
      rw [wp_bind]
      apply h.wp_ilock (by rw [oneMore, update_self]; exact Nat.succ_pos _) hi
        (fun hfree s' => hdead i s' (Or.inl rfl) hfree)
      rintro s₁ ⟨nd, hnd⟩ h₁ hobs₁
      have hiV : i ∈ insert i V := Set.mem_insert i V
      have htype : (s₁.inodes sb i).type = nd.type := by rw [h₁.node_eq hnd]; rfl
      have hdirAt := isDirAt_of_some hnd
      rw [wp_bind]
      apply h₁.wp_inodeOf hiV
      intro s₂ h₂ hobs₂
      have hobs := hobs₂.trans hobs₁
      rw [htype]
      split_ifs with hdir hpar
      · rw [wp_bind]
        apply h₂.wp_iput_walk (hT.orphan i)
        intro s' hs' hmachine
        exact hnone s' (if_neg (fun hd => hdir (hdirAt.mp hd))) hs' (by rw [hmachine, hobs])
      · rw [not_not] at hdir
        apply hsome i elem s₂ _ (h₂.mono (Set.empty_subset _)) hobs
        rw [if_pos (hdirAt.mpr hdir), if_pos ⟨hpar.1, hlast.mpr hpar.2⟩]
      · rw [not_not] at hdir
        rw [if_pos (hdirAt.mpr hdir), if_neg (fun hp => hpar ⟨hp.1, hlast.mp hp.2⟩),
          lookup_of_dir hnd hdir, Slots.get] at hnone hsome
        rw [wp_bind]
        apply h₂.wp_dirlookup hiV hnd
        · intro hbad
          exact absurd ⟨hdir, hT.whole i nd hnd hdir⟩ hbad
        · intro _ s' hs' _ hfull'
          exact hfull i _ s' hs' hfull'
        · intro s₃ _ hfind h₃ hobs₃
          rw [hname] at hfind
          rw [hfind] at hnone
          dsimp only
          rw [wp_bind]
          apply h₃.wp_iput_walk (hT.orphan i)
          intro s' hs' hmachine
          exact hnone s' rfl hs' (by rw [hmachine, hobs₃, hobs])
        · intro next k s₃ _ hfind h₃ _ hobs₃
          rw [hname] at hfind
          rw [hfind] at hnone hsome
          have hlinked : Linked N next :=
            ⟨i, nd, elem, hnd, hdir, List.mem_of_getElem? (find_eq_some hfind)⟩
          dsimp only
          rw [wp_bind]
          rw [show update (oneMore R i) next (oneMore R i next + 1) = oneMore (oneMore R next) i
            from oneMore_comm R i next] at h₃
          apply h₃.wp_iput_walk
          · intro nd' hnd' hzero
            exact (hT.orphan i nd' hnd' hzero).trans_le (le_oneMore R next i)
          · intro s₄ h₄ hmachine
            have hobs₄ : s₄.machine.obs = s.machine.obs := by rw [hmachine, hobs₃, hobs]
            apply ih h₄ (hT.linked_lt next hlinked) (by omega) (fun h0 => hpath (hrest0 h0))
            · rintro j s' (rfl | hj) hfree
              · exact hdead j s' (Or.inr hlinked) hfree
              · exact hdead j s' (Or.inr hj) hfree
            · intro s' hwalk hs' hobs'
              exact hnone s' hwalk hs' (hobs'.trans hobs₄)
            · intro j last s' hwalk hs' hobs'
              exact hsome j last s' hwalk hs' (hobs'.trans hobs₄)

/-- Where a path begins. -/
def startOf (cwd : ℕ) (path : List UInt8) : ℕ := if path.head? = some SLASH then ROOTINO else cwd

/-- `namex` walks along the components from the root or the current directory. -/
theorem At.wp_namex (hT : Tree sb N R) {path : List UInt8} {cwd : ℕ} (h : At sb N R V s)
    (hcwd : 0 < R cwd) (hpath : 0 ∉ path)
    (hdead : ∀ j s', j = startOf cwd path ∨ Linked N j → N j = none → C (.panic "ilock: no type") s')
    (hfull : ∀ s', s'.itable.entries.length ≤ s.itable.entries.length + 1 →
    TableFull (.panic "iget: no inodes") s' → C (.panic "iget: no inodes") s')
    (hnone : ∀ s', pathWalk N parent (components path) [] (startOf cwd path) = none → At sb N R ∅ s' →
    s'.machine.obs = s.machine.obs → Q none s')
    (hsome : ∀ j last s', pathWalk N parent (components path) [] (startOf cwd path) = some (j, last) →
    At sb N (oneMore R j) ∅ s' → s'.machine.obs = s.machine.obs → Q (some (j, last)) s') :
  wp (namex sb cwd parent path) Q C s
  := by
  have hloop : ∀ s₁, startOf cwd path < sb.ninodes → At sb N (oneMore R (startOf cwd path)) V s₁ →
      s₁.machine = s.machine → wp (namexLoop sb parent path.length path [] (startOf cwd path)) Q C s₁ := by
    intro s₁ hlt h₁ hmachine
    apply h₁.wp_namexLoop hT hlt (Nat.le_refl _) hpath hdead
    · intro j V' s' hs'
      exact hfull s' (h.length_le hs')
    · intro s' hwalk hs' hobs
      exact hnone s' hwalk hs' (by rw [hobs, hmachine])
    · intro j last s' hwalk hs' hobs
      exact hsome j last s' hwalk hs' (by rw [hobs, hmachine])
  unfold namex
  unfold startOf at hloop
  split_ifs at hloop ⊢ with hslash
  · rw [wp_bind]
    apply h.wp_iget
    · intro _ hroom
      exact hfull s (Nat.le_succ _) ⟨rfl, hroom⟩
    · intro s₁ h₁ _ hmachine
      exact hloop s₁ hT.root_lt h₁ hmachine
  · obtain ⟨nd, hnd⟩ := Option.ne_none_iff_exists'.mp (hT.held cwd hcwd)
    rw [wp_bind]
    apply h.wp_idup hcwd
    intro s₁ h₁ hmachine
    exact hloop s₁ (h.live hnd).1 h₁ hmachine

end Namex

/-! ### The fold -/

/-- A directory tree while nobody changes it: the directories have whole entries for allocated inodes,
and an inode without links is referred to, as the inodes in the table are allocated. -/
structure Quiescent (sb : Superblock) (s : FileSys) : Prop extends Intact sb s where
  root : IsDirAt (s.nodes sb) ROOTINO
  whole : ∀ i nd, s.nodes sb i = some nd → nd.type = T_DIR → nd.contents.length % DIRENT = 0
  linked : ∀ j, Linked (s.nodes sb) j → s.nodes sb j ≠ none
  orphan : ∀ i nd, s.nodes sb i = some nd → nd.nlink = 0 → 0 < s.refs i
  held : ∀ i, 0 < s.refs i → s.nodes sb i ≠ none

/-- A walk needs two entries of the inode table. -/
def TableShort (s : FileSys) (e : Fault) (_ : FileSys) : Prop :=
  e = .panic "iget: no inodes" ∧ NINODE ≤ s.itable.entries.length + 1

section Fold

variable {sb : Superblock} {s : FileSys} {cwd : ℕ} {path : List UInt8}

section

variable (h : Quiescent sb s)

include h

theorem Quiescent.root_ne : s.nodes sb ROOTINO ≠ none := by
  intro hnone
  have hroot := h.root
  rw [IsDirAt, hnone] at hroot
  cases hroot

theorem Quiescent.lt {j : ℕ} (hj : s.nodes sb j ≠ none) : j < sb.ninodes := by
  obtain ⟨nd, hnd⟩ := Option.ne_none_iff_exists'.mp hj
  exact (h.toIntact.at.live hnd).1

theorem Quiescent.tree : Tree sb (s.nodes sb) s.refs :=
  ⟨h.whole, fun j hj => h.lt (h.linked j hj), h.lt h.root_ne, h.orphan, h.held⟩

theorem Quiescent.startOf_ne (hcwd : 0 < s.refs cwd) : s.nodes sb (startOf cwd path) ≠ none := by
  unfold startOf
  split_ifs
  · exact h.root_ne
  · exact h.held cwd hcwd

/-- `namex` in a quiescent tree. -/
theorem Quiescent.wp_namex (hcwd : 0 < s.refs cwd) (hpath : 0 ∉ path) (parent : Bool) :
  wp (namex sb cwd parent path)
    (fun r s' => r = pathWalk (s.nodes sb) parent (components path) [] (startOf cwd path)
      ∧ At sb (s.nodes sb) ((r.map Prod.fst).elim s.refs (oneMore s.refs)) ∅ s')
    (TableShort s) s
  := by
  apply h.toIntact.at.wp_namex h.tree hcwd hpath
  · rintro j s' (rfl | hj) hfree
    · exact absurd hfree (h.startOf_ne hcwd)
    · exact absurd hfree (h.linked j hj)
  · intro s' hle hfull
    exact ⟨rfl, hfull.2.trans hle⟩
  · intro s' hwalk hs' _
    exact ⟨hwalk.symm, hs'⟩
  · intro j last s' hwalk hs' _
    exact ⟨hwalk.symm, hs'⟩

end

/-- The last look-up of a fold. -/
theorem foldlM_getLast {N : ℕ → Option Node} {cs : List (List UInt8)} {last : List UInt8} {i j : ℕ}
    (hlast : cs.getLast? = some last) (hj : cs.dropLast.foldlM (lookup N) i = some j) :
  cs.foldlM (lookup N) i = lookup N j last
  := by
  have hsplit : cs.dropLast ++ [last] = cs := List.dropLast_append_getLast? last hlast
  rw [← hsplit, List.foldlM_append, hj]
  simp

end Fold

/-! ### The root directory alone -/

theorem root_nodes (i : ℕ) :
  rootSys.nodes formatSb i = if i = 1 then some (Node.mk T_DIR 0 0 1 []) else none
  := by
  split_ifs with hi
  · rw [hi, root_node]
  · exact if_neg (fun hlive => hi (root_live.mp hlive))

theorem root_nodes_eq_some {i : ℕ} {nd : Node} (h : rootSys.nodes formatSb i = some nd) :
  i = 1 ∧ nd = Node.mk T_DIR 0 0 1 []
  := by
  rw [root_nodes] at h
  split_ifs at h with hi
  exact ⟨hi, (Option.some.inj h).symm⟩

theorem root_refs (i : ℕ) : rootSys.refs i = if i = 1 then 1 else 0 := by
  rw [FileSys.refs, root_lookup]
  split_ifs <;> rfl

theorem root_quiescent : Quiescent formatSb rootSys := by
  refine ⟨root_intact, ?_, ?_, ?_, ?_, ?_⟩
  · rw [IsDirAt, root_nodes]
    rfl
  · intro i nd hnd _
    obtain ⟨-, rfl⟩ := root_nodes_eq_some hnd
    rfl
  · rintro j ⟨i, nd, name, hnd, -, hmem⟩
    obtain ⟨-, rfl⟩ := root_nodes_eq_some hnd
    cases hmem
  · intro i nd hnd hzero
    obtain ⟨-, rfl⟩ := root_nodes_eq_some hnd
    cases hzero
  · intro i hpos
    rw [root_refs] at hpos
    split_ifs at hpos with hi
    · rw [root_nodes, if_pos hi]
      exact Option.some_ne_none _
    · exact absurd hpos (Nat.lt_irrefl 0)

end Xv6
