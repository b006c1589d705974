import Xv6.Lib.Bytes
import Xv6.Vm.Walk

/-!
# User memory

The functions of `kernel/vm.c` that build, copy and free the memory of a process, and the
ones that copy between a process and the kernel.  A page is 512 words for the page table and
4096 bytes, least significant byte of a word first, for a copy.  A kernel buffer is the list
of its bytes.
-/

namespace Xv6.Uvm

/-! ### The bytes of a page -/

/-- The bytes of a page. -/
def pageBytes (f : PageData) : Bytes PGSIZE :=
  fun i => UInt8.ofNat ((f ⟨i.val / 8, Nat.div_lt_of_lt_mul i.isLt⟩).toNat / 256 ^ (i.val % 8))

/-- The page with the given bytes. -/
def pageOfBytes (b : Bytes PGSIZE) : PageData := fun i => BitVec.ofNat 64 (b.load (8 * i.val) 8)

theorem pageBytes_pageOfBytes (b : Bytes PGSIZE) : pageBytes (pageOfBytes b) = b := by
  funext i
  have hi : 8 * (i.val / 8) + i.val % 8 = i.val := Nat.div_add_mod i.val 8
  have hlt : b.load (8 * (i.val / 8)) 8 < 2 ^ 64 := b.load_lt (8 * (i.val / 8)) 8
  have hbyte := b.byte_load (8 * (i.val / 8)) (Nat.mod_lt i.val (by decide : 0 < 8))
  rw [hi] at hbyte
  simp only [pageBytes, pageOfBytes, BitVec.toNat_ofNat, Nat.mod_eq_of_lt hlt, hbyte]
  exact dif_pos i.isLt

theorem pageOfBytes_pageBytes (f : PageData) : pageOfBytes (pageBytes f) = f := by
  funext i
  apply BitVec.eq_of_toNat_eq
  have hbytes : ∀ k < 8, (pageBytes f).byteAt (8 * i.val + k) = UInt8.ofNat ((f i).toNat / 256 ^ k) := by
    intro k hk
    have hlt : 8 * i.val + k < PGSIZE := by
      have := i.isLt
      unfold PGSIZE
      omega
    have hdiv : (8 * i.val + k) / 8 = i.val := by omega
    have hmod : (8 * i.val + k) % 8 = k := by omega
    rw [Bytes.byteAt, dif_pos hlt]
    simp only [pageBytes, hdiv, hmod]
  have hlt : (f i).toNat < 2 ^ 64 := (f i).isLt
  rw [pageOfBytes, Bytes.load_eq_mod hbytes, BitVec.toNat_ofNat]
  omega

/-- The bytes of a page that has been cleared. -/
theorem pageBytes_memset_zero : pageBytes (memset 0) = fun _ => 0 := by
  funext i
  simp [pageBytes, memset]

/-- `memmove` into a page, at an offset. -/
def patchPage (off : ℕ) (src : List UInt8) (f : PageData) : PageData :=
  pageOfBytes ((pageBytes f).patch off src.length fun k => src.getD k 0)

/-- `n` bytes of a page from an offset on. -/
def slicePage (f : PageData) (off n : ℕ) : List UInt8 :=
  (List.range n).map fun k => (pageBytes f).byteAt (off + k)

/-! ### Building and freeing -/

def uvmcreate : Vm ℕ := do
  match ← kalloc with
  | none => return 0
  | some pagetable =>
    Prog.write pagetable fun _ => memset 0
    return pagetable

def uvmdealloc (L : Link) (pagetable oldsz newsz : ℕ) : Vm ℕ :=
  if oldsz ≤ newsz then return oldsz
  else if PGROUNDUP newsz < PGROUNDUP oldsz then do
    uvmunmap L pagetable (PGROUNDUP newsz) ((PGROUNDUP oldsz - PGROUNDUP newsz) / PGSIZE) true
    return newsz
  else return newsz

/-- The loop of `uvmalloc`, at the address `a`. -/
def allocLoop (L : Link) (pagetable oldsz newsz : ℕ) (xperm : Word) : ℕ → ℕ → Vm ℕ
  | 0, a => if a < newsz then Prog.diverge else return newsz
  | n + 1, a =>
    if a < newsz then do
      match ← kalloc with
      | none =>
        let _ ← uvmdealloc L pagetable a oldsz
        return 0
      | some mem =>
        Prog.write mem fun _ => memset 0
        let r ← mappages pagetable a PGSIZE mem (PTE_R ||| PTE_U ||| xperm)
        if r ≠ 0 then
          kfree L mem
          let _ ← uvmdealloc L pagetable a oldsz
          return 0
        else allocLoop L pagetable oldsz newsz xperm n ((a + PGSIZE) % 2 ^ 64)
    else return newsz

def uvmalloc (L : Link) (pagetable oldsz newsz : ℕ) (xperm : Word) : Vm ℕ :=
  if newsz < oldsz then return oldsz
  else
    allocLoop L pagetable (PGROUNDUP oldsz) newsz xperm
      ((PGROUNDUP newsz - PGROUNDUP oldsz) / PGSIZE) (PGROUNDUP oldsz)

/-- The loop of `freewalk` over entries, with the function that frees a page table below. -/
def freeEntries (freeBelow : ℕ → Vm Unit) (pagetable : ℕ) : List (Fin 512) → Vm Unit
  | [] => return ()
  | i :: is => do
    let pte ← readPte (pagetable, i)
    if pte &&& PTE_V ≠ 0 ∧ pte &&& (PTE_R ||| PTE_W ||| PTE_X) = 0 then
      freeBelow (PTE2PA pte)
      writePte (pagetable, i) 0
      freeEntries freeBelow pagetable is
    else if pte &&& PTE_V ≠ 0 then Prog.panic "freewalk: leaf"
    else freeEntries freeBelow pagetable is

/-- `freewalk`, with a bound for the depth of the recursion. -/
def freewalk (L : Link) : ℕ → ℕ → Vm Unit
  | 0, _ => Prog.diverge
  | depth + 1, pagetable => do
    freeEntries (freewalk L depth) pagetable (List.finRange 512)
    kfree L pagetable

def uvmfree (L : Link) (pagetable sz : ℕ) : Vm Unit := do
  if 0 < sz then uvmunmap L pagetable 0 (PGROUNDUP sz / PGSIZE) true
  freewalk L 3 pagetable

/-- `proc_pagetable`, for a process with its trapframe at the given page. -/
def procPagetable (L : Link) (trapframe : ℕ) : Vm ℕ := do
  let pagetable ← uvmcreate
  if pagetable = 0 then return 0
  else
    let r ← mappages pagetable TRAMPOLINE PGSIZE L.trampoline (PTE_R ||| PTE_X)
    if r < 0 then
      uvmfree L pagetable 0
      return 0
    else
      let r ← mappages pagetable TRAPFRAME PGSIZE trapframe (PTE_R ||| PTE_W)
      if r < 0 then
        uvmunmap L pagetable TRAMPOLINE 1 false
        uvmfree L pagetable 0
        return 0
      else return pagetable

def procFreepagetable (L : Link) (pagetable sz : ℕ) : Vm Unit := do
  uvmunmap L pagetable TRAMPOLINE 1 false
  uvmunmap L pagetable TRAPFRAME 1 false
  uvmfree L pagetable sz

/-- The loop of `uvmcopy`, at the address `i`. -/
def copyLoop (L : Link) (old new sz : ℕ) : ℕ → ℕ → Vm ℤ
  | 0, i => if i < sz then Prog.diverge else return 0
  | n + 1, i =>
    if i < sz then do
      match ← walk old i false with
      | none => copyLoop L old new sz n ((i + PGSIZE) % 2 ^ 64)
      | some pte =>
        let w ← readPte pte
        if w &&& PTE_V = 0 then copyLoop L old new sz n ((i + PGSIZE) % 2 ^ 64)
        else
          match ← kalloc with
          | none =>
            uvmunmap L new 0 (i / PGSIZE) true
            return -1
          | some mem =>
            let page ← Prog.read (PTE2PA w)
            Prog.write mem fun _ => page
            let r ← mappages new i PGSIZE mem (PTE_FLAGS w)
            if r ≠ 0 then
              kfree L mem
              uvmunmap L new 0 (i / PGSIZE) true
              return -1
            else copyLoop L old new sz n ((i + PGSIZE) % 2 ^ 64)
    else return 0

def uvmcopy (L : Link) (old new sz : ℕ) : Vm ℤ :=
  copyLoop L old new sz (PGROUNDUP sz / PGSIZE) 0

/-! ### Pages that were promised -/

/-- The fields of `struct proc` that say where the memory of a process is. -/
structure ProcMem where
  pagetable : ℕ
  sz : ℕ

def ismapped (pagetable va : ℕ) : Vm Bool := do
  match ← walk pagetable va false with
  | none => return false
  | some pte =>
    let w ← readPte pte
    if w &&& PTE_V ≠ 0 then return true else return false

/-- `vmfault`, for the process `p`. -/
def vmfault (L : Link) (p : ProcMem) (pagetable va : ℕ) : Vm ℕ :=
  if p.sz ≤ va then return 0
  else do
    let mapped ← ismapped pagetable (PGROUNDDOWN va)
    if mapped then return 0
    else
      match ← kalloc with
      | none => return 0
      | some mem =>
        Prog.write mem fun _ => memset 0
        let r ← mappages p.pagetable (PGROUNDDOWN va) PGSIZE mem (PTE_W ||| PTE_U ||| PTE_R)
        if r ≠ 0 then
          kfree L mem
          return 0
        else return mem

/-! ### Growing and shrinking -/

/-- `growproc`, for the process `p`: what it returns, and the process afterwards. -/
def growproc (L : Link) (p : ProcMem) (n : ℤ) : Vm (ℤ × ProcMem) :=
  if 0 < n then
    if TRAPFRAME < (p.sz + n.toNat) % 2 ^ 64 then return (-1, p)
    else do
      let sz ← uvmalloc L p.pagetable p.sz ((p.sz + n.toNat) % 2 ^ 64) PTE_W
      if sz = 0 then return (-1, p) else return (0, { p with sz })
  else if n < 0 then do
    let sz ← uvmdealloc L p.pagetable p.sz ((p.sz + n) % 2 ^ 64).toNat
    return (0, { p with sz })
  else return (0, p)

def SBRK_EAGER : ℤ := 1

/-- `sys_sbrk`, for the process `p`: what it returns, and the process afterwards. -/
def sysSbrk (L : Link) (p : ProcMem) (n t : ℤ) : Vm (ℤ × ProcMem) :=
  if t = SBRK_EAGER ∨ n < 0 then do
    let grown ← growproc L p n
    if grown.1 < 0 then return (-1, grown.2) else return (p.sz, grown.2)
  else if (p.sz + n.toNat) % 2 ^ 64 < p.sz then return (-1, p)
  else if TRAPFRAME < (p.sz + n.toNat) % 2 ^ 64 then return (-1, p)
  else return (p.sz, { p with sz := (p.sz + n.toNat) % 2 ^ 64 })

/-! ### Copies -/

/-- The page of an address that the kernel is about to use: the one that is there, or the one
that was promised. -/
def userPage (L : Link) (p : ProcMem) (pagetable va0 : ℕ) : Vm ℕ := do
  let pa0 ← walkaddr pagetable va0
  if pa0 = 0 then vmfault L p pagetable va0 else return pa0

/-- The loop of `copyout`; the bytes that are left to copy are `src`. -/
def copyoutLoop (L : Link) (p : ProcMem) (pagetable : ℕ) : ℕ → ℕ → List UInt8 → Vm ℤ
  | 0, _, src => if src.length = 0 then return 0 else Prog.diverge
  | k + 1, dstva, src =>
    if src.length = 0 then return 0
    else if MAXVA ≤ PGROUNDDOWN dstva then return -1
    else do
      let pa0 ← userPage L p pagetable (PGROUNDDOWN dstva)
      if pa0 = 0 then return -1
      else
        match ← walk pagetable (PGROUNDDOWN dstva) false with
        -- the kernel has nothing mapped at address 0
        | none => Prog.panic "kerneltrap"
        | some pte =>
          let w ← readPte pte
          if w &&& PTE_W = 0 then return -1
          else
            let n := min (PGSIZE - (dstva - PGROUNDDOWN dstva)) src.length
            Prog.write pa0 (patchPage (dstva - PGROUNDDOWN dstva) (src.take n))
            copyoutLoop L p pagetable k ((PGROUNDDOWN dstva + PGSIZE) % 2 ^ 64) (src.drop n)

def copyout (L : Link) (p : ProcMem) (pagetable dstva : ℕ) (src : List UInt8) : Vm ℤ :=
  copyoutLoop L p pagetable src.length dstva src

/-- The loop of `copyin`: what it returns, and the bytes it has copied. -/
def copyinLoop (L : Link) (p : ProcMem) (pagetable : ℕ) : ℕ → ℕ → ℕ → Vm (ℤ × List UInt8)
  | 0, _, len => if len = 0 then return (0, []) else Prog.diverge
  | k + 1, srcva, len =>
    if len = 0 then return (0, [])
    else do
      let pa0 ← userPage L p pagetable (PGROUNDDOWN srcva)
      if pa0 = 0 then return (-1, [])
      else
        let n := min (PGSIZE - (srcva - PGROUNDDOWN srcva)) len
        let page ← Prog.read pa0
        let rest ← copyinLoop L p pagetable k ((PGROUNDDOWN srcva + PGSIZE) % 2 ^ 64) (len - n)
        return (rest.1, slicePage page (srcva - PGROUNDDOWN srcva) n ++ rest.2)

def copyin (L : Link) (p : ProcMem) (pagetable srcva len : ℕ) : Vm (ℤ × List UInt8) :=
  copyinLoop L p pagetable len srcva len

/-- The bytes up to the first zero byte and with it, and whether there is one. -/
def untilNull : List UInt8 → List UInt8 × Bool
  | [] => ([], false)
  | b :: bs => if b = 0 then ([0], true) else (b :: (untilNull bs).1, (untilNull bs).2)

/-- The loop of `copyinstr`: what it returns, and the bytes it has copied. -/
def copyinstrLoop (pagetable : ℕ) : ℕ → ℕ → ℕ → Vm (ℤ × List UInt8)
  | 0, _, max => if max = 0 then return (-1, []) else Prog.diverge
  | k + 1, srcva, max =>
    if max = 0 then return (-1, [])
    else do
      let pa0 ← walkaddr pagetable (PGROUNDDOWN srcva)
      if pa0 = 0 then return (-1, [])
      else
        let n := min (PGSIZE - (srcva - PGROUNDDOWN srcva)) max
        let page ← Prog.read pa0
        let found := untilNull (slicePage page (srcva - PGROUNDDOWN srcva) n)
        if found.2 then return (0, found.1)
        else
          let rest ← copyinstrLoop pagetable k ((PGROUNDDOWN srcva + PGSIZE) % 2 ^ 64) (max - n)
          return (rest.1, found.1 ++ rest.2)

def copyinstr (pagetable srcva max : ℕ) : Vm (ℤ × List UInt8) := copyinstrLoop pagetable max srcva max

end Xv6.Uvm
