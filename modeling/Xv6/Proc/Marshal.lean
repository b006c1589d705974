import Mathlib
import Xv6.Lib.Stop
import Xv6.Proc.Disclosure
import Xv6.Vm.Copyout

/-!
# The listing in the memory of the caller

`sys_getprocs` with its locks and with the memory of the process that calls it, when nobody
else is running.  The records that can be written are found in the memory of the caller one
after the other, in the order of the slots.  The call ends at the first record that cannot be
written, and the table and its locks are then as before.
-/

namespace Xv6

/-- The table and the memory of the caller. -/
structure CallState where
  sys : Sys
  mem : UserMem

/-- Programs that read and write them, or wait for a lock for ever. -/
abbrev CallM : Type → Type := EStateM Unit CallState

namespace CallM

/-- `acquire(&wait_lock)` by process `p`. -/
def acquireWait (p : Slot) : CallM Unit := do
  let s ← get
  if s.sys.waitLock = none then set { s with sys := s.sys.setWait (some p) } else throw ()

/-- `release(&wait_lock)`. -/
def releaseWait : CallM Unit := modify fun s => { s with sys := s.sys.setWait none }

/-- `acquire(&p->lock)` for the slot `i`, by process `p`. -/
def acquire (p i : Slot) : CallM Unit := do
  let s ← get
  if s.sys.lock i = none then set { s with sys := s.sys.setLock i (some p) } else throw ()

/-- `release(&p->lock)` for the slot `i`. -/
def release (i : Slot) : CallM Unit := modify fun s => { s with sys := s.sys.setLock i none }

/-- `copyout` to the memory of the caller. -/
def copyout (dstva : ℕ) (src : List UInt8) : CallM Bool := do
  let s ← get
  let (mem, ok) := s.mem.copyout dstva src
  set { s with mem }
  pure ok

/-- The loop of `sys_getprocs` over the slots that are left. -/
def sysGetprocsLoop (p : Slot) (buf : ℕ) (maxCount : ℤ) : List Slot → Pinfo → ℕ → CallM ℤ
  | [], _, count => do
    releaseWait
    pure count
  | i :: is, pi, count =>
    if (count : ℤ) < maxCount then do
      acquire p i
      let s ← get
      if (s.sys.proc i).state = .unused then do
        release i
        sysGetprocsLoop p buf maxCount is pi count
      else do
        let pi := s.sys.entry i pi
        release i
        let ok ← copyout ((buf + count * sizeofPinfo) % 2 ^ 64) pi.bytes
        if ok then sysGetprocsLoop p buf maxCount is pi (count + 1)
        else do
          releaseWait
          pure (-1)
    else do
      releaseWait
      pure count

/-- `sys_getprocs`, called by process `p` with the arguments `buf` and `max_count`, and with `pi`
on the stack where its local variable will be. -/
def sysGetprocs (p : Slot) (buf : ℕ) (maxCount : ℤ) (pi : Pinfo) : CallM ℤ :=
  if maxCount ≤ 0 then pure (-1)
  else do
    acquireWait p
    sysGetprocsLoop p buf maxCount (List.finRange NPROC) pi 0

end CallM

/-! ### Records in memory -/

/-- The value of the C `int` at an address. -/
def UserMem.int (m : UserMem) (a : ℕ) : ℤ :=
  (Bytes.load (fun k : Fin 4 => m.byte (a + k)) 0 4 : ℤ).bmod (2 ^ 32)

/-- The `struct pinfo` at an address. -/
def UserMem.pinfo (m : UserMem) (a : ℕ) : Pinfo where
  pid := m.int a
  ppid := m.int (a + 4)
  state := m.int (a + 8)
  name := (List.range 16).map fun k => m.byte (a + 12 + k)

/-- What a record says about a process. -/
def Pinfo.metadata (pi : Pinfo) : Metadata where
  pid := pi.pid
  ppid := pi.ppid
  state := pi.state
  name := pi.name.takeWhile (· ≠ 0)

/-- The metadata with the part of the name that fits in a record. -/
def Metadata.cut (m : Metadata) : Metadata := { m with name := m.name.take 15 }

/-- The fields of the table have the types of the C fields. -/
structure Sys.Typed (s : Sys) : Prop where
  name : s.Sized
  pid : ∀ i, -2 ^ 31 ≤ (s.proc i).pid ∧ (s.proc i).pid < 2 ^ 31

theorem bmod_emod {v : ℤ} (hv : -2 ^ 31 ≤ v ∧ v < 2 ^ 31) : (v % 2 ^ 32).bmod (2 ^ 32) = v := by
  rw [Int.bmod_def]
  push_cast
  omega

theorem getD_intBytes (v : ℤ) {k : ℕ} (hk : k < 4) :
  (intBytes v).getD k 0 = UInt8.ofNat ((v % 2 ^ 32).toNat / 256 ^ k)
  := by
  rw [intBytes, List.getD_eq_getElem _ _ (by simpa using hk), List.getElem_map, List.getElem_range]

/-- The value of a C `int` is made of its bytes. -/
theorem UserMem.int_eq {m : UserMem} {a : ℕ} {v : ℤ} (hv : -2 ^ 31 ≤ v ∧ v < 2 ^ 31)
    (h : ∀ k < 4, m.byte (a + k) = (intBytes v).getD k 0) :
  m.int a = v
  := by
  have hload : Bytes.load (fun k : Fin 4 => m.byte (a + k)) 0 4 = (v % 2 ^ 32).toNat % 256 ^ 4 := by
    apply Bytes.load_eq_mod
    intro k hk
    rw [← getD_intBytes v hk, ← h k hk, Nat.zero_add, Bytes.byteAt, dif_pos hk]
  have hcast : (((v % 2 ^ 32).toNat % 256 ^ 4 : ℕ) : ℤ) = v % 2 ^ 32 := by omega
  unfold UserMem.int
  rw [hload, hcast]
  exact bmod_emod hv

variable {pi : Pinfo} {a : ℕ}

/-- A record that was written is read back. -/
theorem UserMem.pinfo_eq {m : UserMem}
    (hpid : -2 ^ 31 ≤ pi.pid ∧ pi.pid < 2 ^ 31) (hppid : -2 ^ 31 ≤ pi.ppid ∧ pi.ppid < 2 ^ 31)
    (hstate : -2 ^ 31 ≤ pi.state ∧ pi.state < 2 ^ 31) (hname : pi.name.length = 16)
    (h : ∀ i < 28, m.byte (a + i) = pi.bytes.getD i 0) :
  m.pinfo a = pi
  := by
  have hlen : ∀ v, (intBytes v).length = 4 := length_intBytes
  have hpid' : m.int a = pi.pid := by
    apply UserMem.int_eq hpid
    intro k hk
    rw [h k (by omega), Pinfo.bytes, List.getD_append _ _ _ _ (by simp only [List.length_append, hlen]; omega),
      List.getD_append _ _ _ _ (by simp only [List.length_append, hlen]; omega),
      List.getD_append _ _ _ _ (by rw [hlen]; exact hk)]
  have hppid' : m.int (a + 4) = pi.ppid := by
    apply UserMem.int_eq hppid
    intro k hk
    rw [Nat.add_assoc, h (4 + k) (by omega), Pinfo.bytes,
      List.getD_append _ _ _ _ (by simp only [List.length_append, hlen]; omega),
      List.getD_append _ _ _ _ (by simp only [List.length_append, hlen]; omega),
      List.getD_append_right _ _ _ _ (by rw [hlen]; omega), hlen, Nat.add_sub_cancel_left]
  have hstate' : m.int (a + 8) = pi.state := by
    apply UserMem.int_eq hstate
    intro k hk
    rw [Nat.add_assoc, h (8 + k) (by omega), Pinfo.bytes,
      List.getD_append _ _ _ _ (by simp only [List.length_append, hlen]; omega),
      List.getD_append_right _ _ _ _ (by simp only [List.length_append, hlen]; omega)]
    simp only [List.length_append, hlen, Nat.add_sub_cancel_left]
  have hname' : (List.range 16).map (fun k => m.byte (a + 12 + k)) = pi.name := by
    apply List.ext_getElem
    · rw [List.length_map, List.length_range, hname]
    · intro k hk hk'
      rw [List.getElem_map, List.getElem_range, Nat.add_assoc, h (12 + k) (by omega), Pinfo.bytes,
        List.getD_append_right _ _ _ _ (by simp only [List.length_append, hlen]; omega)]
      simp only [List.length_append, hlen, Nat.add_sub_cancel_left]
      exact List.getD_eq_getElem _ _ hk'
  rw [UserMem.pinfo, hpid', hppid', hstate', hname']

theorem UserMem.int_congr {m m' : UserMem} (h : ∀ k < 4, m'.byte (a + k) = m.byte (a + k)) :
  m'.int a = m.int a
  := by
  have hload : Bytes.load (fun k : Fin 4 => m'.byte (a + k)) 0 4
      = Bytes.load (fun k : Fin 4 => m.byte (a + k)) 0 4 := by
    congr 1
    funext k
    exact h k k.isLt
  unfold UserMem.int
  rw [hload]

/-- A record depends on its bytes only. -/
theorem UserMem.pinfo_congr {m m' : UserMem} (h : ∀ i < 28, m'.byte (a + i) = m.byte (a + i)) :
  m'.pinfo a = m.pinfo a
  := by
  have hint : ∀ off, off + 4 ≤ 28 → m'.int (a + off) = m.int (a + off) := by
    intro off hoff
    apply UserMem.int_congr
    intro k hk
    rw [Nat.add_assoc]
    exact h _ (by omega)
  have hname : (List.range 16).map (fun k => m'.byte (a + 12 + k))
      = (List.range 16).map (fun k => m.byte (a + 12 + k)) := by
    apply List.map_congr_left
    intro k hk
    rw [List.mem_range] at hk
    rw [Nat.add_assoc]
    exact h _ (by omega)
  have hpid : m'.int a = m.int a := hint 0 (by omega)
  rw [UserMem.pinfo, UserMem.pinfo, hname, hpid, hint 4 (by omega), hint 8 (by omega)]

/-! ### The records of a table -/

namespace Sys

variable {s : Sys}

/-- The name in a record is the name of the process, cut to fifteen characters, with a NUL. -/
theorem takeWhile_name_entry (hs : s.Sized) (i : Slot) (hpi : pi.name.length = 16) :
  (s.entry i pi).name.takeWhile (· ≠ 0) = (s.metadataOf i).name.take 15 ∧ 0 ∈ (s.entry i pi).name
  := by
  have hne : ∀ c ∈ (s.metadataOf i).name, c ≠ 0 := by
    intro c hc
    have hall := List.all_takeWhile (p := fun c : UInt8 => decide (c ≠ 0)) (l := (s.proc i).name)
    simpa using List.all_eq_true.mp hall c hc
  have hstop : ∀ (w rest : List UInt8), (∀ c ∈ w, c ≠ 0) →
      (w ++ 0 :: rest).takeWhile (· ≠ 0) = w := by
    intro w rest hw
    rw [List.takeWhile_append_of_pos (by simpa using hw)]
    simp
  rw [name_entry hs, Metadata.cstring, safestrcpy_cstring hne hpi.ge]
  split_ifs with hlen
  · refine ⟨hstop _ _ ?_, by simp⟩
    intro c hc
    exact hne c (List.mem_of_mem_take hc)
  · refine ⟨?_, by simp⟩
    rw [hstop _ _ hne, List.take_of_length_le (by omega)]

theorem length_name_entry (s : Sys) (i : Slot) (hpi : pi.name.length = 16) :
  (s.entry i pi).name.length = 16
  := by
  rw [entry, length_safestrcpy, hpi]

theorem length_bytes_entry (s : Sys) (i : Slot) (hpi : pi.name.length = 16) :
  (s.entry i pi).bytes.length = sizeofPinfo
  := by
  simp only [Pinfo.bytes, List.length_append, length_intBytes, s.length_name_entry i hpi]

theorem code_lt (st : ProcState) : -2 ^ 31 ≤ st.code ∧ st.code < 2 ^ 31 := by
  cases st <;> decide

/-- The record at an address describes a process. -/
def Describes (m : UserMem) (a : ℕ) (md : Metadata) : Prop :=
  (m.pinfo a).metadata = md.cut ∧ 0 ∈ (m.pinfo a).name

/-- A record that `sys_getprocs` has copied describes the process. -/
theorem describes_entry (hs : s.Typed) (i : Slot) (hpi : pi.name.length = 16)
    {m : UserMem} (h : ∀ k < 28, m.byte (a + k) = (s.entry i pi).bytes.getD k 0) :
  Describes m a (s.metadataOf i)
  := by
  have hppid : -2 ^ 31 ≤ (s.entry i pi).ppid ∧ (s.entry i pi).ppid < 2 ^ 31 := by
    simp only [entry]
    cases (s.proc i).parent with
    | none => simp
    | some q => exact hs.pid q
  have hrecord : m.pinfo a = s.entry i pi :=
    UserMem.pinfo_eq (hs.pid i) hppid (code_lt _) (s.length_name_entry i hpi) h
  obtain ⟨hname, hnul⟩ := takeWhile_name_entry hs.name i hpi
  rw [Describes, hrecord]
  refine ⟨?_, hnul⟩
  rw [Pinfo.metadata, hname]
  rfl

end Sys

/-! ### The loop -/

namespace UserMem

/-- The user may write the bytes from `lo` to `hi`. -/
def Accepts (m : UserMem) (lo hi : ℕ) : Prop := ∀ a, lo ≤ a → a < hi → m.CanWrite (a / PGSIZE)

variable {m m' : UserMem} {lo hi lo' hi' : ℕ}

theorem Accepts.mono (h : m.Accepts lo hi) (hlo : lo ≤ lo') (hhi : hi' ≤ hi) : m.Accepts lo' hi' :=
  fun a ha ha' => h a (by omega) (by omega)

theorem Copied.accepts (h : m.Copied m' lo hi) (lo' hi' : ℕ) : m'.Accepts lo' hi' ↔ m.Accepts lo' hi' := by
  simp only [Accepts, h.canWrite]

end UserMem

namespace CallM

/-- What the loop does to the memory of the caller, from `base` on, and what it returns: the
records that are left are written, up to the first that is not accepted. -/
structure Listing (m m' : UserMem) (base : ℕ) (ms : List Metadata) (count : ℕ) (r : ℤ) : Prop where
  success : m.Accepts base (base + sizeofPinfo * ms.length) →
    r = count + ms.length ∧ m.Copied m' base (base + sizeofPinfo * ms.length)
      ∧ ∀ j (hj : j < ms.length), Sys.Describes m' (base + sizeofPinfo * j) ms[j]
  failure : ∀ j < ms.length, m.Accepts base (base + sizeofPinfo * j) →
    ¬ m.Accepts (base + sizeofPinfo * j) (base + sizeofPinfo * (j + 1)) →
      r = -1 ∧ m.Copied m' base (base + sizeofPinfo * (j + 1))

theorem Listing.nil (m : UserMem) (base count : ℕ) : Listing m m base [] count count := by
  refine ⟨fun _ => ⟨by simp, UserMem.Copied.refl _ _ _, ?_⟩, ?_⟩
  · intro j hj
    cases hj
  · intro j hj
    cases hj

section

variable {m m₁ m' : UserMem} {base count : ℕ} {md : Metadata} {ms : List Metadata} {r : ℤ}

/-- The first record is not accepted. -/
theorem Listing.fault (hcopied : m.Copied m' base (base + sizeofPinfo))
    (hfault : ¬ m.Accepts base (base + sizeofPinfo)) :
  Listing m m' base (md :: ms) count (-1)
  := by
  refine ⟨?_, ?_⟩
  · intro hall
    refine absurd (hall.mono (Nat.le_refl _) ?_) hfault
    rw [List.length_cons, Nat.mul_succ]
    omega
  · intro j hj haccepts hreject
    cases j with
    | zero => exact ⟨rfl, hcopied⟩
    | succ j =>
      refine absurd (haccepts.mono (Nat.le_refl _) ?_) hfault
      rw [Nat.mul_succ]
      omega

/-- The first record is written, and then the others. -/
theorem Listing.cons
    (hcopied : m.Copied m₁ base (base + sizeofPinfo)) (haccepts : m.Accepts base (base + sizeofPinfo))
    (hrecord : Sys.Describes m₁ base md) (h : Listing m₁ m' (base + sizeofPinfo) ms (count + 1) r) :
  Listing m m' base (md :: ms) count r
  := by
  have hnext : ∀ j, base + sizeofPinfo + sizeofPinfo * j = base + sizeofPinfo * (j + 1) := by
    intro j
    rw [Nat.mul_succ, Nat.add_assoc, Nat.add_comm sizeofPinfo]
  have hwiden : ∀ j, m₁.Copied m' (base + sizeofPinfo) (base + sizeofPinfo * (j + 1)) →
      m.Copied m' base (base + sizeofPinfo * (j + 1)) := by
    intro j hj
    apply (hcopied.mono (Nat.le_refl _) _).trans (hj.mono (Nat.le_add_right _ _) (Nat.le_refl _))
    rw [← hnext]
    exact Nat.le_add_right _ _
  refine ⟨?_, ?_⟩
  · intro hall
    rw [List.length_cons] at hall
    obtain ⟨hr, hcopied', hrecords⟩ := h.success (by
      rw [hcopied.accepts, hnext]
      exact hall.mono (Nat.le_add_right _ _) (Nat.le_refl _))
    refine ⟨by rw [hr, List.length_cons]; push_cast; ring, hwiden _ (hnext _ ▸ hcopied'), ?_⟩
    intro j hj
    cases j with
    | zero =>
      have hkept : m'.pinfo base = m₁.pinfo base := by
        apply UserMem.pinfo_congr
        intro i hi
        apply hcopied'.byte
        unfold sizeofPinfo
        omega
      rw [Sys.Describes, Nat.mul_zero, Nat.add_zero, hkept]
      exact hrecord
    | succ j =>
      rw [← hnext]
      exact hrecords j (Nat.lt_of_succ_lt_succ hj)
  · intro j hj hbefore hreject
    cases j with
    | zero =>
      rw [Nat.mul_zero, Nat.add_zero, Nat.zero_add, Nat.mul_one] at hreject
      exact absurd haccepts hreject
    | succ j =>
      obtain ⟨hr, hcopied'⟩ := h.failure j (Nat.lt_of_succ_lt_succ hj)
        (by
          rw [hcopied.accepts, hnext]
          exact hbefore.mono (Nat.le_add_right _ _) (Nat.le_refl _))
        (by
          rw [hcopied.accepts, hnext, hnext]
          exact hreject)
      exact ⟨hr, hwiden _ (hnext _ ▸ hcopied')⟩

end

variable {s : Sys} {mem : UserMem} {p : Slot} {buf : ℕ} {maxCount : ℤ}

section

variable (hlock : ∀ i, s.lock i = none)

include hlock

theorem setLock_setLock (i : Slot) (holder : Option Slot) :
  (s.setLock i holder).setLock i none = s
  := by
  simp only [Sys.setLock, Function.update_idem]
  rw [← hlock i, Function.update_eq_self]

theorem acquire_eq (p i : Slot) : acquire p i ⟨s, mem⟩ = .ok () ⟨s.setLock i (some p), mem⟩ := by
  simp [acquire, bind, EStateM.bind, get, getThe, MonadStateOf.get, EStateM.get, hlock i, set,
    EStateM.set]

theorem release_eq (p i : Slot) : release i ⟨s.setLock i (some p), mem⟩ = .ok () ⟨s, mem⟩ := by
  have hfree := setLock_setLock hlock i (some p)
  exact congrArg (fun t : Sys => EStateM.Result.ok () (CallState.mk t mem)) hfree

variable {i : Slot} {is : List Slot} {count : ℕ} (hcount : (count : ℤ) < maxCount)

include hcount

/-- The iteration at a free slot. -/
theorem loop_skip (hunused : (s.proc i).state = .unused) :
  sysGetprocsLoop p buf maxCount (i :: is) pi count ⟨s, mem⟩
    = sysGetprocsLoop p buf maxCount is pi count ⟨s, mem⟩
  := by
  have hproc : ((s.setLock i (some p)).proc i).state = .unused := hunused
  rw [sysGetprocsLoop, if_pos hcount]
  simp only [bind, EStateM.bind, acquire_eq hlock, get, getThe, MonadStateOf.get, EStateM.get,
    if_pos hproc, release_eq hlock]

/-- The iteration at a slot that is in use. -/
theorem loop_entry (hused : (s.proc i).state ≠ .unused) :
  sysGetprocsLoop p buf maxCount (i :: is) pi count ⟨s, mem⟩
    = match mem.copyout ((buf + count * sizeofPinfo) % 2 ^ 64) (s.entry i pi).bytes with
      | (mem, true) => sysGetprocsLoop p buf maxCount is (s.entry i pi) (count + 1) ⟨s, mem⟩
      | (mem, false) => .ok (-1) ⟨s.setWait none, mem⟩
  := by
  have hproc : ((s.setLock i (some p)).proc i).state ≠ .unused := hused
  have hentry : (s.setLock i (some p)).entry i pi = s.entry i pi := rfl
  rw [sysGetprocsLoop, if_pos hcount]
  simp only [bind, EStateM.bind, acquire_eq hlock, get, getThe, MonadStateOf.get, EStateM.get,
    if_neg hproc, release_eq hlock, hentry, copyout]
  cases mem.copyout ((buf + count * sizeofPinfo) % 2 ^ 64) (s.entry i pi).bytes with
  | mk mem₁ ok =>
    cases ok with
    | true => rfl
    | false => rfl

end

/-- The loop lists the slots that are left. -/
theorem loop_listing (hs : s.Typed) (hlock : ∀ i, s.lock i = none) (mem : UserMem) (p : Slot)
    (maxCount : ℤ) (is : List Slot) (hpi : pi.name.length = 16) (count : ℕ)
    (hbase : buf + count * sizeofPinfo < 2 ^ 64) :
  ∃ r mem', sysGetprocsLoop p buf maxCount is pi count ⟨s, mem⟩ = .ok r ⟨s.setWait none, mem'⟩
    ∧ Listing mem mem' (buf + count * sizeofPinfo)
        ((s.metadataIn is).take (maxCount - count).toNat) count r
  := by
  induction is generalizing pi count mem with
  | nil => exact ⟨count, mem, rfl, by simpa [Sys.metadataIn] using Listing.nil mem _ count⟩
  | cons i is ih =>
    by_cases hcount : (count : ℤ) < maxCount
    · by_cases hunused : (s.proc i).state = .unused
      · rw [loop_skip hlock hcount hunused, Sys.metadataIn_cons_of_unused hunused]
        exact ih mem hpi count hbase
      · rw [loop_entry hlock hcount hunused, Sys.metadataIn_cons_of_used hunused, Nat.mod_eq_of_lt hbase]
        have hleft : (maxCount - count).toNat = (maxCount - (count + 1 : ℕ)).toNat + 1 := by omega
        rw [hleft, List.take_succ_cons]
        obtain ⟨hcopied, hok, hbytes⟩ :=
          mem.copyout_spec (buf + count * sizeofPinfo) (s.entry i pi).bytes
        rw [s.length_bytes_entry i hpi] at hcopied hok hbytes
        generalize mem.copyout _ _ = res at hcopied hok hbytes ⊢
        obtain ⟨mem₁, _ | _⟩ := res
        · refine ⟨-1, mem₁, rfl, Listing.fault hcopied ?_⟩
          intro haccepts
          exact absurd (hok.mpr haccepts) Bool.false_ne_true
        · have haccepts : mem.Accepts _ _ := hok.mp rfl
          have hnext : buf + count * sizeofPinfo + sizeofPinfo = buf + (count + 1) * sizeofPinfo := by
            rw [Nat.succ_mul, Nat.add_assoc]
          have hbase' : buf + (count + 1) * sizeofPinfo < 2 ^ 64 := by
            obtain ⟨hlt, -⟩ := haccepts (buf + count * sizeofPinfo + 27) (by omega)
              (by unfold sizeofPinfo; omega)
            unfold PGSIZE MAXVA at hlt
            unfold sizeofPinfo at *
            omega
          obtain ⟨r, mem', hrun, hlisting⟩ := ih mem₁ (s.length_name_entry i hpi) (count + 1) hbase'
          refine ⟨r, mem', hrun, ?_⟩
          rw [← hnext] at hlisting
          exact Listing.cons hcopied haccepts (s.describes_entry hs i hpi (hbytes rfl)) hlisting
    · have hnone : (maxCount - count).toNat = 0 := by omega
      rw [hnone, List.take_zero]
      refine ⟨count, mem, ?_, Listing.nil mem _ count⟩
      rw [sysGetprocsLoop, if_neg hcount]
      rfl

end CallM

theorem Metadata.cut_eq {m : Metadata} (h : m.name.length ≤ 15) : m.cut = m := by
  rw [Metadata.cut, List.take_of_length_le h]

/-- `sys_getprocs` marshals the table.  The records of the first processes are in the caller's
memory if it accepts them, and otherwise the call fails at the first record it does not accept.
The table and its locks are as before. -/
theorem sysGetprocs_marshals
    {s : Sys} (hs : s.Typed) (hwait : s.waitLock = none) (hlock : ∀ i, s.lock i = none) (mem : UserMem)
    (p : Slot) (buf : ℕ) (hbuf : buf < 2 ^ 64) (maxCount : ℤ) (hmax : 0 < maxCount) (pi : Pinfo)
    (hpi : pi.name.length = 16) {k : ℕ} (hk : k = min maxCount.toNat s.metadata.length) :
  ∃ r mem', CallM.sysGetprocs p buf maxCount pi ⟨s, mem⟩ = .ok r ⟨s, mem'⟩
    ∧ (mem.Accepts buf (buf + sizeofPinfo * k) →
        r = k
          ∧ (∀ j (hj : j < s.metadata.length), j < k →
              (mem'.pinfo (buf + sizeofPinfo * j)).metadata = s.metadata[j].cut
                ∧ 0 ∈ (mem'.pinfo (buf + sizeofPinfo * j)).name
                ∧ (s.metadata[j].name.length ≤ 15 →
                    (mem'.pinfo (buf + sizeofPinfo * j)).metadata = s.metadata[j]))
          ∧ ∀ a, a < buf ∨ buf + sizeofPinfo * k ≤ a → mem'.byte a = mem.byte a)
    ∧ ∀ j < k, mem.Accepts buf (buf + sizeofPinfo * j) →
        ¬ mem.Accepts (buf + sizeofPinfo * j) (buf + sizeofPinfo * (j + 1)) →
          r = -1 ∧ ∀ a, a < buf ∨ buf + sizeofPinfo * (j + 1) ≤ a → mem'.byte a = mem.byte a
  := by
  have hacquire : CallM.acquireWait p ⟨s, mem⟩ = .ok () ⟨s.setWait (some p), mem⟩ := by
    simp [CallM.acquireWait, bind, EStateM.bind, get, getThe, MonadStateOf.get, EStateM.get, hwait,
      set, EStateM.set]
  have hreleased : (s.setWait (some p)).setWait none = s := by
    rw [← hwait]
    rfl
  have hleft : ((s.setWait (some p)).metadataIn (List.finRange NPROC)).take (maxCount - (0 : ℕ)).toNat
      = s.metadata.take k := by
    show s.metadata.take (maxCount - 0).toNat = s.metadata.take k
    rw [hk, sub_zero, List.take_eq_take_iff]
    omega
  obtain ⟨r, mem', hrun, hlisting⟩ :=
    CallM.loop_listing (s := s.setWait (some p)) ⟨hs.name, hs.pid⟩ hlock mem p maxCount
      (List.finRange NPROC) hpi 0 (by rwa [Nat.zero_mul, Nat.add_zero])
  have hlen : (s.metadata.take k).length = k := by
    rw [List.length_take]
    omega
  rw [hreleased] at hrun
  rw [Nat.zero_mul, Nat.add_zero, hleft] at hlisting
  refine ⟨r, mem', ?_, ?_, ?_⟩
  · rw [CallM.sysGetprocs, if_neg (Int.not_le.mpr hmax)]
    simp only [bind, EStateM.bind, hacquire, hrun]
  · intro haccepts
    obtain ⟨hr, hcopied, hrecords⟩ := hlisting.success (by rwa [hlen])
    rw [hlen] at hr hcopied
    refine ⟨by simpa using hr, ?_, hcopied.byte⟩
    intro j hj hjk
    obtain ⟨hmeta, hnul⟩ := hrecords j (hlen.symm ▸ hjk)
    rw [List.getElem_take] at hmeta
    refine ⟨hmeta, hnul, fun hshort => ?_⟩
    rw [hmeta, Metadata.cut_eq hshort]
  · intro j hj haccepts hreject
    obtain ⟨hr, hcopied⟩ := hlisting.failure j (hlen.symm ▸ hj) haccepts hreject
    exact ⟨hr, hcopied.byte⟩

theorem boot_typed : Sys.boot.Typed := by
  refine ⟨?_, ?_⟩
  · show ∀ i, (Sys.boot.proc i).name.length = 16
    decide
  · show ∀ i, -2 ^ 31 ≤ (Sys.boot.proc i).pid ∧ (Sys.boot.proc i).pid < 2 ^ 31
    decide

/-- A process with a page and another one that it has not used yet. -/
def twoPages : UserMem where
  sz := 3 * PGSIZE
  page v := if v = 1 then some ⟨true, true, fun _ => 0⟩ else none
  memory _ := true

theorem twoPages_accepts : twoPages.Accepts 8180 (8180 + sizeofPinfo * 1) := by
  intro a ha ha'
  have hpage : a / PGSIZE = 1 ∨ a / PGSIZE = 2 := by
    unfold sizeofPinfo at ha'
    unfold PGSIZE
    omega
  obtain h | h := hpage
  · rw [h]
    exact ⟨by decide, by simp [twoPages]⟩
  · rw [h]
    exact ⟨by decide, by simp [twoPages]⟩

/-- The listing of the first process, across a page boundary. -/
theorem sysGetprocs_marshals_boot :
  ∃ mem', CallM.sysGetprocs 0 8180 5 ⟨0, 0, 0, List.replicate 16 0⟩ ⟨Sys.boot, twoPages⟩
      = .ok 1 ⟨Sys.boot, mem'⟩
    ∧ (mem'.pinfo 8180).metadata = ⟨1, -1, 3, []⟩
  := by
  have hmeta : Sys.boot.metadata = [⟨1, -1, 3, []⟩] := by decide
  obtain ⟨r, mem', hrun, hsuccess, -⟩ :=
    sysGetprocs_marshals (k := 1) boot_typed rfl (fun _ => rfl) twoPages 0 8180 (by decide) 5
      (by decide) ⟨0, 0, 0, List.replicate 16 0⟩ rfl (by rw [hmeta]; rfl)
  obtain ⟨rfl, hrecords, -⟩ := hsuccess twoPages_accepts
  refine ⟨mem', hrun, ?_⟩
  obtain ⟨-, -, hrecord⟩ := hrecords 0 (by rw [hmeta]; decide) (by decide)
  simp only [hmeta, List.getElem_cons_zero, List.length_nil] at hrecord
  exact hrecord (by decide)

end Xv6
