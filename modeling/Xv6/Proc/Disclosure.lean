import Xv6.Proc.Step

/-!
# What `sys_getprocs` discloses

`sys_getprocs` fills one local `struct pinfo` again and again and copies the whole of it to
the caller.  `safestrcpy` writes the name up to its NUL and at most one byte more, so the
bytes behind it are those of the names listed before and, for the first process listed,
those the kernel stack held.  The bytes written are therefore the metadata of the processes
laid over the old contents of the local variable; they depend on the metadata alone exactly
if the first name leaves nothing of the old contents in the part the caller can read.

The call is taken as a function of the table, which is what the steps of the process
compute when nobody interferes.
-/

namespace Xv6

/-! ### The call -/

/-- `sizeof(struct pinfo)`. -/
abbrev sizeofPinfo : ℕ := 28

/-- The bytes of a C `int`. -/
def intBytes (v : ℤ) : List UInt8 :=
  (List.range 4).map fun k => UInt8.ofNat ((v % 2 ^ 32).toNat / 256 ^ k)

/-- A `struct pinfo` in memory. -/
def Pinfo.bytes (pi : Pinfo) : List UInt8 :=
  intBytes pi.pid ++ intBytes pi.ppid ++ intBytes pi.state ++ pi.name

/-- `copyout` to offset `off` of the caller's buffer, of which the first `room` bytes can be
written: what it writes, and whether it succeeds. -/
def copyoutRoom (room off : ℕ) (src : List UInt8) : List UInt8 × Bool :=
  (src.take (room - off), off + src.length ≤ room)

namespace Sys

/-- The loop of `sys_getprocs` over the slots that are left: the result and the bytes
written to the caller's buffer. -/
def getprocsLoop (s : Sys) (maxCount : ℤ) (room : ℕ) :
    List Slot → Pinfo → ℕ → ℤ × List UInt8
  | [], _, count => (count, [])
  | i :: is, pi, count =>
    if (count : ℤ) < maxCount then
      if (s.proc i).state = .unused then s.getprocsLoop maxCount room is pi count
      else
        match copyoutRoom room (count * sizeofPinfo) (s.entry i pi).bytes with
        | (out, true) =>
          (s.getprocsLoop maxCount room is (s.entry i pi) (count + 1)).map id (out ++ ·)
        | (out, false) => (-1, out)
    else (count, [])

/-- `sys_getprocs`, with `pi` on the stack where its local variable will be. -/
def getprocs (s : Sys) (maxCount : ℤ) (room : ℕ) (pi : Pinfo) : ℤ × List UInt8 :=
  if maxCount ≤ 0 then (-1, [])
  else s.getprocsLoop maxCount room (List.finRange NPROC) pi 0

end Sys

/-! ### Metadata -/

/-- What a listing is meant to say about a process. -/
structure Metadata where
  pid : ℤ
  ppid : ℤ
  state : ℤ
  name : List UInt8
  deriving DecidableEq

namespace Metadata

/-- The string that `name` points to. -/
def cstring (m : Metadata) : List UInt8 := m.name ++ [0]

/-- The fields of the entry before the name. -/
def header (m : Metadata) : List UInt8 := intBytes m.pid ++ intBytes m.ppid ++ intBytes m.state

end Metadata

namespace Sys

/-- The metadata of a slot. -/
def metadataOf (s : Sys) (i : Slot) : Metadata where
  pid := (s.proc i).pid
  ppid := match (s.proc i).parent with
    | some q => (s.proc q).pid
    | none => -1
  state := (s.proc i).state.code
  name := (s.proc i).name.takeWhile (· ≠ 0)

/-- The metadata of the processes in some slots. -/
def metadataIn (s : Sys) (is : List Slot) : List Metadata :=
  (is.filter fun i => (s.proc i).state ≠ .unused).map s.metadataOf

/-- The metadata of the processes. -/
def metadata (s : Sys) : List Metadata := s.metadataIn (List.finRange NPROC)

/-- The names fill their arrays. -/
def Sized (s : Sys) : Prop := ∀ i, (s.proc i).name.length = 16

end Sys

/-- The entries of a listing one after the other, each name laid over the one before. -/
def overlaid : List Metadata → List UInt8 → List UInt8
  | [], _ => []
  | m :: ms, old => m.header ++ safestrcpy old m.cstring 16 ++ overlaid ms (safestrcpy old m.cstring 16)

/-! ### Names laid over other names -/

theorem safestrcpy_cons {c : UInt8} (hc : c ≠ 0) (b : UInt8) (old t : List UInt8) (n : ℕ) :
  safestrcpy (b :: old) (c :: t) (n + 2) = c :: safestrcpy old t (n + 1)
  := if_neg hc

/-- What is left of the old contents when a string is copied over them. -/
theorem safestrcpy_cstring
    {v : List UInt8} (hv : ∀ c ∈ v, c ≠ 0) {old : List UInt8} {n : ℕ} (hn : n + 1 ≤ old.length) :
  safestrcpy old (v ++ [0]) (n + 1)
    = if n ≤ v.length then v.take n ++ 0 :: old.drop (n + 1)
      else v ++ 0 :: 0 :: old.drop (v.length + 2)
  := by
  induction v generalizing old n with
  | nil =>
    obtain _ | ⟨b, old⟩ := old
    · simp at hn
    obtain _ | n := n
    · rfl
    obtain _ | ⟨b', old⟩ := old
    · simp at hn
    rfl
  | cons c v ih =>
    obtain _ | ⟨b, old⟩ := old
    · simp at hn
    obtain _ | n := n
    · rfl
    have hc := hv c List.mem_cons_self
    have := ih (fun c hc => hv c (List.mem_cons_of_mem _ hc)) (Nat.le_of_succ_le_succ hn)
    simp only [List.cons_append, safestrcpy_cons hc, this, List.length_cons,
      Nat.add_le_add_iff_right, List.take_succ_cons, List.drop_succ_cons]
    split <;> rfl

/-- Only the string counts of the array it is copied from. -/
theorem safestrcpy_takeWhile
    {t old : List UInt8} {n : ℕ} (hn : n ≤ t.length) :
  safestrcpy old t n = safestrcpy old (t.takeWhile (· ≠ 0) ++ [0]) n
  := by
  induction t generalizing old n with
  | nil =>
    obtain rfl : n = 0 := Nat.le_zero.mp hn
    cases old <;> rfl
  | cons c t ih =>
    obtain _ | _ | n := n
    · cases old <;> rfl
    · cases old <;> cases h : List.takeWhile (fun x => decide (x ≠ 0)) (c :: t) <;> rfl
    obtain _ | ⟨b, old⟩ := old
    · cases h : List.takeWhile (fun x => decide (x ≠ 0)) (c :: t) <;> rfl
    by_cases hc : c = 0
    · subst hc
      rfl
    · simp only [List.takeWhile, ne_eq, hc, not_false_eq_true, decide_true, List.cons_append]
      rw [safestrcpy_cons hc, safestrcpy_cons hc, ih (Nat.le_of_succ_le_succ hn)]

theorem length_safestrcpy (old t : List UInt8) (n : ℕ) : (safestrcpy old t n).length = old.length := by
  fun_induction safestrcpy old t n <;> simp_all
  split <;> simp

/-- The name of a process covers the front of the array and leaves the rest of it as it was. -/
theorem Metadata.covers
    (m : Metadata) (hm : ∀ c ∈ m.name, c ≠ 0) :
  ∃ w : List UInt8, w.length = min 16 (m.name.length + 2)
    ∧ ∀ old : List UInt8, old.length = 16 →
        safestrcpy old m.cstring 16 = w ++ old.drop (m.name.length + 2)
  := by
  refine ⟨if 15 ≤ m.name.length then m.name.take 15 ++ [0] else m.name ++ [0, 0], ?_, ?_⟩
  · split
    · rename_i h
      rw [List.length_append, List.length_take]
      simp only [List.length_cons, List.length_nil]
      omega
    · rename_i h
      simp only [List.length_append, List.length_cons, List.length_nil]
      omega
  · intro old hold
    rw [Metadata.cstring, safestrcpy_cstring hm hold.ge]
    split
    · rename_i h
      rw [List.drop_eq_nil_of_le hold.le, List.drop_eq_nil_of_le (by omega), List.append_nil]
    · rw [List.append_assoc]
      rfl

/-! ### The bytes as a function of the metadata -/

theorem length_intBytes (v : ℤ) : (intBytes v).length = 4 := by
  rw [intBytes, List.length_map, List.length_range]

theorem Metadata.length_header (m : Metadata) : m.header.length = 12 := by
  simp only [header, List.length_append, length_intBytes]

namespace Sys

variable {s s' : Sys} {maxCount : ℤ} {room : ℕ} {pi pi' : Pinfo} {i : Slot}

theorem metadata_name_ne_zero (s : Sys) {m : Metadata} (hm : m ∈ s.metadata) :
  ∀ c ∈ m.name, c ≠ 0
  := by
  obtain ⟨i, -, rfl⟩ := List.mem_map.mp hm
  intro c hc
  have := List.all_takeWhile (p := fun c : UInt8 => decide (c ≠ 0)) (l := (s.proc i).name)
  simpa using List.all_eq_true.mp this c hc

theorem bytes_entry (hs : s.Sized) (i : Slot) (pi : Pinfo) :
  (s.entry i pi).bytes = (s.metadataOf i).header ++ safestrcpy pi.name (s.metadataOf i).cstring 16
  := by
  rw [Pinfo.bytes, entry, safestrcpy_takeWhile (hs i).ge]
  rfl

theorem name_entry (hs : s.Sized) (i : Slot) (pi : Pinfo) :
  (s.entry i pi).name = safestrcpy pi.name (s.metadataOf i).cstring 16
  := safestrcpy_takeWhile (hs i).ge

theorem metadataIn_cons_of_unused (h : (s.proc i).state = .unused) (is : List Slot) :
  s.metadataIn (i :: is) = s.metadataIn is
  := by
  simp [metadataIn, h]

theorem metadataIn_cons_of_used (h : (s.proc i).state ≠ .unused) (is : List Slot) :
  s.metadataIn (i :: is) = s.metadataOf i :: s.metadataIn is
  := by
  simp [metadataIn, h]

/-- The loop writes the entries of the slots that are left, as far as there is room. -/
theorem getprocsLoop_bytes
    (hs : s.Sized) (is : List Slot) (hpi : pi.name.length = 16) (count : ℕ) :
  (s.getprocsLoop maxCount room is pi count).2
    = (overlaid ((s.metadataIn is).take (maxCount - count).toNat) pi.name).take
        (room - count * sizeofPinfo)
  := by
  induction is generalizing pi count with
  | nil => simp [getprocsLoop, metadataIn, overlaid]
  | cons i is ih =>
    rw [getprocsLoop]
    by_cases hc : (count : ℤ) < maxCount
    · rw [if_pos hc]
      by_cases hu : (s.proc i).state = .unused
      · rw [if_pos hu, ih hpi, metadataIn_cons_of_unused hu]
      · have hname := name_entry hs i pi
        have hlen : (s.entry i pi).bytes.length = sizeofPinfo := by
          rw [bytes_entry hs, List.length_append, Metadata.length_header, length_safestrcpy, hpi]
        have hnat : (maxCount - count).toNat = (maxCount - (count + 1 : ℕ)).toNat + 1 := by omega
        rw [if_neg hu, metadataIn_cons_of_used hu, hnat, List.take_succ_cons, overlaid,
          ← bytes_entry hs, ← hname, List.take_append, hlen, copyoutRoom]
        have hroom : room - count * sizeofPinfo - sizeofPinfo = room - (count + 1) * sizeofPinfo := by
          rw [Nat.add_one_mul, Nat.sub_add_eq]
        by_cases hfit : count * sizeofPinfo + (s.entry i pi).bytes.length ≤ room
        · have hpi' : (s.entry i pi).name.length = 16 := by rw [hname, length_safestrcpy, hpi]
          simp only [hfit, decide_true, Prod.map_snd, ih hpi', hroom]
        · have hzero : room - count * sizeofPinfo - sizeofPinfo = 0 := by omega
          simp only [hfit, decide_false, hzero, List.take_zero, List.append_nil]
    · have hzero : (maxCount - count).toNat = 0 := by omega
      rw [if_neg hc, hzero, List.take_zero, overlaid, List.take_nil]

/-- The bytes `sys_getprocs` writes are a function of the metadata and of the old name. -/
theorem getprocs_bytes (hs : s.Sized) (hpi : pi.name.length = 16) :
  (s.getprocs maxCount room pi).2
    = (overlaid (s.metadata.take maxCount.toNat) pi.name).take room
  := by
  rw [getprocs]
  split
  · rename_i h
    rw [Int.toNat_of_nonpos h, List.take_zero, overlaid, List.take_nil]
  · rw [getprocsLoop_bytes hs _ hpi, metadata]
    simp

end Sys

/-! ### What is seen of the old contents -/

theorem overlaid_cons (m : Metadata) (ms : List Metadata) (old : List UInt8) :
  overlaid (m :: ms) old
    = m.header ++ safestrcpy old m.cstring 16 ++ overlaid ms (safestrcpy old m.cstring 16)
  := rfl

/-- The bytes of a listing do not depend on the old contents if the first name covers what
the caller can read. -/
theorem overlaid_take_eq
    {m : Metadata} (hm : ∀ c ∈ m.name, c ≠ 0) {room : ℕ}
    (hroom : min room sizeofPinfo ≤ 14 + m.name.length) (ms : List Metadata)
    {old old' : List UInt8} (hold : old.length = 16) (hold' : old'.length = 16) :
  (overlaid (m :: ms) old).take room = (overlaid (m :: ms) old').take room
  := by
  change min room 28 ≤ _ at hroom
  obtain ⟨w, hw, hcover⟩ := m.covers hm
  rw [overlaid_cons, overlaid_cons, hcover _ hold, hcover _ hold']
  by_cases hlen : 14 ≤ m.name.length
  · rw [List.drop_eq_nil_of_le (by omega), List.drop_eq_nil_of_le (by omega)]
  · have hle : room ≤ (m.header ++ w).length := by
      rw [List.length_append, m.length_header, hw]
      omega
    simp only [← List.append_assoc m.header, List.append_assoc (m.header ++ w),
      List.take_append_of_le_length hle]

/-- The first byte behind the first name is one of the old contents. -/
theorem overlaid_stale
    {m : Metadata} (hm : ∀ c ∈ m.name, c ≠ 0) {room : ℕ}
    (hroom : 14 + m.name.length < min room sizeofPinfo) (ms : List Metadata)
    {old : List UInt8} (hold : old.length = 16) :
  ((overlaid (m :: ms) old).take room)[14 + m.name.length]? = old[2 + m.name.length]?
  := by
  change _ < min room 28 at hroom
  obtain ⟨w, hw, hcover⟩ := m.covers hm
  have hlen : (m.header ++ w).length = 14 + m.name.length := by
    rw [List.length_append, m.length_header, hw]
    omega
  rw [List.getElem?_take_of_lt (by omega), overlaid_cons, hcover _ hold, ← List.append_assoc m.header,
    List.append_assoc (m.header ++ w), List.getElem?_append_right hlen.le, hlen, Nat.sub_self,
    List.getElem?_append_left, List.getElem?_drop]
  · congr 1
    omega
  · rw [List.length_drop]
    omega

/-- The first process under a name of fifteen characters. -/
def longName : Sys :=
  Sys.boot.setProc 0 { Proc.zero with
    pid := 1, state := .runnable, name := List.replicate 15 97 ++ [0] }

theorem longName_sized : longName.Sized := by
  intro i
  obtain rfl | hi := eq_or_ne i 0
  · rfl
  · have hproc : longName.proc i = Sys.boot.proc i := Function.update_of_ne hi _ _
    have hboot : Sys.boot.proc i = Proc.zero := Function.update_of_ne hi _ (fun _ => Proc.zero)
    rw [hproc, hboot]
    rfl

section Alone

variable {s : Sys} {p : Slot}

/-- Nobody is in the way of `p`. -/
structure Sys.Alone (s : Sys) (p : Slot) : Prop where
  running : (s.proc p).state = .running
  noPanic : s.panicked = false
  wait : s.waitLock = none
  lock : ∀ i, s.lock i = none

/-- `p` in the scan of `sys_getprocs`. -/
def Sys.scanning (s : Sys) (p : Slot) (maxCount : ℤ) (k : ℕ) (pi : Pinfo) (copied : List Pinfo) : Sys :=
  (s.setWait (some p)).goto p (.getprocsScan maxCount k pi copied)

/-- `p` back from `sys_getprocs`. -/
def Sys.listed (s : Sys) (p : Slot) (maxCount count : ℤ) (copied : List Pinfo) : Sys :=
  s.goto p (.user (some (.getprocs maxCount count copied)))

variable {maxCount : ℤ} {pi : Pinfo} {copied : List Pinfo} {k : ℕ}

section

variable (h : s.Alone p)

include h

theorem step_scan :
  procSystem.step (s.scanning p maxCount k pi copied) (.run p true)
    = if hk : k < NPROC ∧ (copied.length : ℤ) < maxCount then
        if (s.proc ⟨k, hk.1⟩).state = .unused then some (s.scanning p maxCount (k + 1) pi copied)
        else some ((s.setWait (some p)).goto p (.getprocsCopyout maxCount k (s.entry ⟨k, hk.1⟩ pi) copied))
      else some (s.listed p maxCount copied.length copied)
  := by
  simp [procSystem, Sys.step, Sys.scanning, Sys.listed, Sys.goto, Sys.setWait, Sys.advance, Sys.entry,
    h.running, h.noPanic, h.wait, h.lock]

theorem step_copyout (ok : Bool) :
  procSystem.step ((s.setWait (some p)).goto p (.getprocsCopyout maxCount k pi copied)) (.run p ok)
    = some (if ok then s.scanning p maxCount (k + 1) pi (copied ++ [pi])
        else s.listed p maxCount (-1) copied)
  := by
  cases ok <;> simp [procSystem, Sys.step, Sys.scanning, Sys.listed, Sys.goto, Sys.setWait, Sys.advance,
    h.running, h.noPanic, h.wait]

theorem exec_scan_end (hend : ¬ (k < NPROC ∧ (copied.length : ℤ) < maxCount)) :
  procSystem.exec (s.scanning p maxCount k pi copied) [.run p true]
    = some (s.listed p maxCount copied.length (copied ++ []))
  := by
  rw [TransitionSystem.exec, step_scan h, dif_neg hend, List.append_nil]
  rfl

theorem exec_scan_entry {i : Slot} (hc : (copied.length : ℤ) < maxCount)
    (hu : (s.proc i).state ≠ .unused) (ok : Bool) :
  procSystem.exec (s.scanning p maxCount i pi copied) [.run p true, .run p ok]
    = some (if ok then s.scanning p maxCount (i + 1) (s.entry i pi) (copied ++ [s.entry i pi])
        else s.listed p maxCount (-1) copied)
  := by
  rw [TransitionSystem.exec, step_scan h, dif_pos ⟨i.isLt, hc⟩, if_neg hu]
  exact TransitionSystem.exec_cons_iff.mpr ⟨_, step_copyout h ok, rfl⟩

end

theorem eq_of_copyoutRoom {room off : ℕ} {src out : List UInt8}
    (h : copyoutRoom room off src = (out, true)) :
  out = src
  := by
  obtain ⟨rfl, hfit⟩ := Prod.mk.inj h
  apply List.take_of_length_le
  have := of_decide_eq_true hfit
  omega

/-- The steps of the scan compute the loop: the entries copied are the bytes written, and if
a copy fails the bytes written begin with them. -/
theorem scan_alone (h : s.Alone p) (maxCount : ℤ) (room : ℕ) (is : List Slot)
    (hk : (List.finRange NPROC).drop k = is) (pi : Pinfo) (copied : List Pinfo) :
  ∃ (oks : List Bool) (entries : List Pinfo),
    procSystem.exec (s.scanning p maxCount k pi copied) (oks.map (Act.run p))
      = some (s.listed p maxCount (s.getprocsLoop maxCount room is pi copied.length).1
          (copied ++ entries))
    ∧ entries.flatMap Pinfo.bytes <+: (s.getprocsLoop maxCount room is pi copied.length).2
    ∧ (0 ≤ (s.getprocsLoop maxCount room is pi copied.length).1 →
        entries.flatMap Pinfo.bytes = (s.getprocsLoop maxCount room is pi copied.length).2)
  := by
  induction is generalizing k pi copied with
  | nil =>
    have hlen := List.drop_eq_nil_iff.mp hk
    rw [List.length_finRange] at hlen
    exact ⟨[true], [], exec_scan_end h (fun hend => Nat.not_lt_of_le hlen hend.1), List.nil_prefix,
      fun _ => rfl⟩
  | cons i is ih =>
    have hlt : k < (List.finRange NPROC).length := by
      by_contra hlt
      rw [List.drop_eq_nil_of_le (Nat.le_of_not_lt hlt)] at hk
      cases hk
    rw [List.drop_eq_getElem_cons hlt, List.getElem_finRange] at hk
    obtain ⟨hi, hnext⟩ := List.cons.inj hk
    obtain rfl : k = i := congrArg Fin.val hi
    rw [Sys.getprocsLoop]
    by_cases hc : (copied.length : ℤ) < maxCount
    · rw [if_pos hc]
      split
      · rename_i hu
        obtain ⟨oks, entries, hexec, hbytes⟩ := ih hnext pi copied
        refine ⟨true :: oks, entries, ?_, hbytes⟩
        rw [List.map_cons, TransitionSystem.exec, step_scan h, dif_pos ⟨i.isLt, hc⟩, if_pos hu]
        apply hexec
      · rename_i hu
        generalize hcopy : copyoutRoom room _ _ = res
        obtain ⟨out, _ | _⟩ := res
        · refine ⟨[true, false], [], ?_, List.nil_prefix, ?_⟩
          · rw [List.append_nil]
            exact exec_scan_entry h hc hu false
          · intro hneg
            cases hneg
        · obtain rfl := eq_of_copyoutRoom hcopy
          obtain ⟨oks, entries, hexec, hprefix, hbytes⟩ :=
            ih hnext (s.entry i pi) (copied ++ [s.entry i pi])
          rw [List.length_append, List.length_singleton] at hexec hprefix hbytes
          refine ⟨true :: true :: oks, s.entry i pi :: entries, ?_, ?_, ?_⟩
          · have hrun := TransitionSystem.exec_append (T := procSystem)
              (s.scanning p maxCount i pi copied) [.run p true, .run p true] (oks.map (Act.run p))
            rw [exec_scan_entry h hc hu true, Option.bind_some, if_pos rfl, hexec, List.append_assoc] at hrun
            apply hrun
          · rw [List.flatMap_cons]
            apply List.prefix_append_right_inj _ |>.mpr hprefix
          · intro hres
            rw [List.flatMap_cons, hbytes hres]
            rfl
    · rw [if_neg hc]
      exact ⟨[true], [], exec_scan_end h (fun hend => hc hend.2), List.nil_prefix, fun _ => rfl⟩

/-- A process that calls `sys_getprocs` and is alone gets the result of the function, and its
buffer holds the entries copied. -/
theorem getprocs_alone
    (h : s.Alone p) {r : Option Ret} (hpc : s.pc p = .user r) (maxCount : ℤ) (room : ℕ) (pi : Pinfo) :
  ∃ (oks : List Bool) (entries : List Pinfo),
    procSystem.exec s (.call p (.getprocs maxCount pi) :: oks.map (Act.run p))
      = some (s.listed p maxCount (s.getprocs maxCount room pi).1 entries)
    ∧ entries.flatMap Pinfo.bytes <+: (s.getprocs maxCount room pi).2
    ∧ (0 ≤ (s.getprocs maxCount room pi).1 →
        entries.flatMap Pinfo.bytes = (s.getprocs maxCount room pi).2)
  := by
  rw [Sys.getprocs]
  split
  · rename_i hmax
    refine ⟨[], [], ?_, List.nil_prefix, fun _ => rfl⟩
    simp [TransitionSystem.exec, procSystem, Sys.step, Sys.enter, Sys.listed, Sys.goto, h.running,
      h.noPanic, hpc, hmax]
  · rename_i hmax
    obtain ⟨oks, entries, hexec, hbytes⟩ :=
      scan_alone h maxCount room (List.finRange NPROC) (k := 0) rfl pi []
    refine ⟨true :: oks, entries, ?_, hbytes⟩
    rw [List.nil_append] at hexec
    rw [List.length_nil] at hexec
    rw [← hexec]
    simp [TransitionSystem.exec, procSystem, Sys.step, Sys.enter, Sys.scanning, Sys.goto, Sys.setWait,
      Sys.advance, h.running, h.noPanic, h.wait, hpc, hmax]

/-- The first process lists the table. -/
theorem getprocs_alone_first :
  ∃ s, procSystem.exec Sys.boot [.dispatch 0] = some s ∧ ∃ (oks : List Bool) (entries : List Pinfo),
    procSystem.exec s (.call 0 (.getprocs 9 ⟨0, 0, 0, []⟩) :: oks.map (Act.run 0))
      = some (s.listed 0 9 (s.getprocs 9 99 ⟨0, 0, 0, []⟩).1 entries)
  := by
  obtain ⟨s, hs, halone, hpc⟩ : ∃ s, procSystem.exec Sys.boot [.dispatch 0] = some s ∧ s.Alone 0
    ∧ s.pc 0 = .user none := ⟨_, rfl, ⟨rfl, rfl, rfl, fun _ => rfl⟩, rfl⟩
  obtain ⟨oks, entries, hexec, -⟩ := getprocs_alone halone hpc 9 99 ⟨0, 0, 0, []⟩
  exact ⟨s, hs, oks, entries, hexec⟩

end Alone

end Xv6
