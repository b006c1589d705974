import Xv6.Lib.Program
import Xv6.Vm.Pte

/-!
# The page allocator and page tables

`kalloc`, `kfree`, `walk`, `walkaddr`, `mappages`, `uvmunmap` and `uvmclear` as programs over
pages.  A pointer to a page-table entry is the page and the index of the entry.  The loops
are bounded by the number of pages they go through; a loop that goes on longer does not
return.
-/

namespace Xv6

/-- Programs over pages. -/
abbrev Vm (α : Type) : Type := Prog ℕ PageData α

/-- `memset(page, c, PGSIZE)`: the contents of a page that is filled with a byte. -/
def memset (c : ℕ) : PageData := fun _ => BitVec.ofNat 64 (c * 0x0101010101010101)

def kalloc : Vm (Option ℕ) := do
  match ← Prog.take with
  | none => return none
  | some r =>
    Prog.write r fun _ => memset 5
    return some r

def kfree (L : Link) (pa : ℕ) : Vm Unit :=
  if pa % PGSIZE ≠ 0 ∨ pa < L.kend ∨ PHYSTOP ≤ pa then Prog.panic "kfree"
  else do
    Prog.write pa fun _ => memset 1
    Prog.give pa

/-- Reading the entry that a pointer points to. -/
def readPte (pte : ℕ × Fin 512) : Vm Word := do
  let page ← Prog.read pte.1
  return page pte.2

/-- Writing the entry that a pointer points to. -/
def writePte (pte : ℕ × Fin 512) (w : Word) : Vm Unit :=
  Prog.write pte.1 fun page => Function.update page pte.2 w

/-- The loop of `walk`, at a page table of the given level. -/
def walkLevel (va : ℕ) (alloc : Bool) : ℕ → ℕ → Vm (Option (ℕ × Fin 512))
  | 0, pagetable => return some (pagetable, PX 0 va)
  | level + 1, pagetable => do
    let pte ← readPte (pagetable, PX (level + 1) va)
    if pte &&& PTE_V ≠ 0 then
      walkLevel va alloc level (PTE2PA pte)
    else if alloc = false then
      return none
    else
      match ← kalloc with
      | none => return none
      | some page =>
        Prog.write page fun _ => memset 0
        writePte (pagetable, PX (level + 1) va) (PA2PTE page ||| PTE_V)
        walkLevel va alloc level page

def walk (pagetable va : ℕ) (alloc : Bool) : Vm (Option (ℕ × Fin 512)) :=
  if MAXVA ≤ va then Prog.panic "walk" else walkLevel va alloc 2 pagetable

def walkaddr (pagetable va : ℕ) : Vm ℕ :=
  if MAXVA ≤ va then return 0
  else do
    match ← walk pagetable va false with
    | none => return 0
    | some pte =>
      let w ← readPte pte
      if w &&& PTE_V = 0 then return 0
      else if w &&& PTE_U = 0 then return 0
      else return PTE2PA w

/-- The loop of `mappages`, at the address `a`. -/
def mapLoop (pagetable last : ℕ) (perm : Word) : ℕ → ℕ → ℕ → Vm ℤ
  | 0, _, _ => Prog.diverge
  | n + 1, a, pa => do
    match ← walk pagetable a true with
    | none => return -1
    | some pte =>
      let w ← readPte pte
      if w &&& PTE_V ≠ 0 then Prog.panic "mappages: remap"
      else
        writePte pte (PA2PTE pa ||| perm ||| PTE_V)
        if a = last then return 0
        else mapLoop pagetable last perm n ((a + PGSIZE) % 2 ^ 64) ((pa + PGSIZE) % 2 ^ 64)

def mappages (pagetable va size pa : ℕ) (perm : Word) : Vm ℤ :=
  if va % PGSIZE ≠ 0 then Prog.panic "mappages: va not aligned"
  else if size % PGSIZE ≠ 0 then Prog.panic "mappages: size not aligned"
  else if size = 0 then Prog.panic "mappages: size"
  else mapLoop pagetable ((va + size - PGSIZE) % 2 ^ 64) perm (size / PGSIZE) va pa

/-- Freeing the page of a mapping, when that is asked for. -/
def freeIf (L : Link) (doFree : Bool) (pa : ℕ) : Vm Unit :=
  if doFree then kfree L pa else return ()

/-- The loop of `uvmunmap`, at the address `a`. -/
def unmapLoop (L : Link) (pagetable bound : ℕ) (doFree : Bool) : ℕ → ℕ → Vm Unit
  | 0, a => if a < bound then Prog.diverge else return ()
  | n + 1, a =>
    if a < bound then do
      match ← walk pagetable a false with
      | none => unmapLoop L pagetable bound doFree n ((a + PGSIZE) % 2 ^ 64)
      | some pte =>
        let w ← readPte pte
        if w &&& PTE_V = 0 then unmapLoop L pagetable bound doFree n ((a + PGSIZE) % 2 ^ 64)
        else
          freeIf L doFree (PTE2PA w)
          writePte pte 0
          unmapLoop L pagetable bound doFree n ((a + PGSIZE) % 2 ^ 64)
    else return ()

def uvmunmap (L : Link) (pagetable va npages : ℕ) (doFree : Bool) : Vm Unit :=
  if va % PGSIZE ≠ 0 then Prog.panic "uvmunmap: not aligned"
  else unmapLoop L pagetable ((va + npages * PGSIZE) % 2 ^ 64) doFree npages va

def uvmclear (pagetable va : ℕ) : Vm Unit := do
  match ← walk pagetable va false with
  | none => Prog.panic "uvmclear"
  | some pte =>
    let w ← readPte pte
    writePte pte (w &&& ~~~PTE_U)

end Xv6
