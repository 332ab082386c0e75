import Mathlib
import Ferrite.Fs.DescriptorEntries
import Ferrite.Library.Runs
import Ferrite.Memory.BuddyRuns
import Ferrite.Sys.FreePagedir

/-!
# A fork that runs out of memory

`do_fork` takes a slot, a kernel stack, a page directory, references to the files and the two
directories of the parent, and the frames of a copy of its memory. `__alloc_proc` gives back
what it has taken when there is no memory for the stack or the directory; `vmm_copy_pgdir`
and `do_fork` give nothing back.

A pointer into the direct map is written as the frame that it leads to, and `NULL` as the
frame behind the first GiB. The credentials and the name of the child, its trap frame and its
context are left out.
-/
namespace Ferrite.Memory
open Pages

def Machine.freePage (m : Machine) (ptr : ℕ) : Option Machine :=
  ((Sys.freePage (p2v ptr)).foldlM (fun b paddr => BuddyAllocator.buddyDealloc b paddr 0) m.buddy).map fun b =>
    { m with buddy := b }

end Ferrite.Memory

namespace Ferrite.Sys
open Ferrite.Memory Fs Packed Pages Runs

/-- What `do_fork` and `do_wait` read and write. -/
structure ForkState where
  tables : FileTables
  pid : Slot → ℤ
  pidCounter : ℤ
  status : Slot → ℤ
  kstack : Slot → ℕ
  pgdir : Slot → ℕ
  machine : Machine

/-- What a child takes from its parent at the end of `__alloc_proc`. -/
def inherit (t : FileTables) (p c : Slot) : Option FileTables := do
  let root ← (t.procs p).root
  let pwd ← (t.procs p).pwd
  let t := t.setProc c { t.procs c with parent := some p, root := some root, pwd := some pwd }
  FileTables.shareFrom p c maxOpenFiles 0 ((t.inodeHold root).inodeHold pwd)

namespace ForkState

/-- `__alloc_proc`, called by `p`. -/
def allocProc (s : ForkState) (p : Slot) : Option (Option Slot × ForkState) :=
  match (List.finRange numProc).find? fun c => (s.tables.procs c).state = .unused with
  | none => some (none, s)
  | some c =>
      let s := { s with
        tables := s.tables.setState c .embryo
        pid := Function.update s.pid c s.pidCounter
        pidCounter := s.pidCounter + 1 }
      match s.machine.getFreePage with
      | none => none
      | some (none, m) =>
          some (none, { s with
            tables := s.tables.setState c .unused
            kstack := Function.update s.kstack c nullFrame
            machine := m })
      | some (some stack, m) =>
          let s := { s with kstack := Function.update s.kstack c stack }
          match setupKvm m with
          | none => none
          | some (none, m) => do
              let m ← m.freePage stack
              return (none, { s with
                tables := s.tables.setState c .unused
                pgdir := Function.update s.pgdir c nullFrame
                machine := m })
          | some (some dir, m) => do
              let tables ← inherit s.tables p c
              return (some c, { s with
                tables := tables, pgdir := Function.update s.pgdir c dir, machine := m })

def doFork (s : ForkState) (p : Slot) : Option (ℤ × ForkState) := do
  match ← s.allocProc p with
  | (none, s) => return (-1, s)
  | (some c, s) =>
      let m ← s.machine.freePage (s.pgdir c)
      match ← vmmCopyPgdir m (s.pgdir p) with
      | (none, m) => return (-1, { s with pgdir := Function.update s.pgdir c nullFrame, machine := m })
      | (some dir, m) =>
          return (s.pid c, { s with
            tables := s.tables.setState c .ready, pgdir := Function.update s.pgdir c dir, machine := m })

end ForkState

/-- What one pass of `do_wait` over the table ends with. -/
inductive WaitScan
  | zombie (c : Slot)
  | sleep
  | noKids
deriving DecidableEq, Repr

def waitScan (t : FileTables) (p : Slot) : WaitScan :=
  match (List.finRange numProc).find? fun c => (t.procs c).parent = some p ∧ (t.procs c).state = .zombie with
  | some c => .zombie c
  | none => if ∃ c, (t.procs c).parent = some p then .sleep else .noKids

/-- What `do_wait` answers at once: the child that it reaps with its status, or -1. -/
def ForkState.doWait (s : ForkState) (p : Slot) : Option (ℤ × Option ℤ) :=
  match waitScan s.tables p with
  | .zombie c => some (s.pid c, some (s.status c))
  | .sleep => none
  | .noKids => some (-1, none)

/-- The call has left no trace: the process table, the counts and the free frames are the
old ones, and so are the answers to a `do_wait` of the caller, now and after any later calls. -/
structure NoTrace (P : Memory.Pool) (s t : ForkState) (p : Slot) : Prop where
  states : ∀ c, (t.tables.procs c).state = (s.tables.procs c).state
  parents : ∀ c, (t.tables.procs c).parent = (s.tables.procs c).parent
  files : t.tables.files = s.tables.files
  icount : t.tables.icount = s.tables.icount
  frames : ∀ F, FreeFrames P s.machine.buddy F → FreeFrames P t.machine.buddy F
  wait : t.doWait p = s.doWait p
  later : ∀ calls : List FdCall, (exec FileTables.call t.tables calls).map (waitScan · p) =
    (exec FileTables.call s.tables calls).map (waitScan · p)

variable {P : Memory.Pool} {F : Set ℕ} {m m' : Machine} {s t : ForkState} {p c : Slot} {lent : List ℕ} {q : ℕ}

/-! ## Frames -/

/-- The direct map covers the first GiB at most. -/
def DirectMap (m : Machine) : Prop := ∀ q, m.direct q = true → q < nullFrame

theorem getFreePage_none (hlend : Lends P m.buddy lent F) (h : m.getFreePage = some (none, m')) :
    m' = m ∧ ∀ q ∈ F, q ∈ lent := by
  unfold Machine.getFreePage at h
  rcases hb : m.buddy.buddyAlloc 0 with _ | ⟨paddr, b⟩
  · rw [hb] at h
    cases h
  · rw [hb] at h
    dsimp only at h
    split_ifs at h with hzero hdirect
    · cases h
      rw [hzero] at hb
      have hsame := hlend.free.alloc_none hb
      rw [hsame]
      refine ⟨rfl, fun q hq => ?_⟩
      by_contra hnot
      exact hlend.free.alloc_ne_zero ⟨hq, hnot⟩ hb rfl
    · cases h

theorem getFreePage_some (hlend : Lends P m.buddy lent F) (h : m.getFreePage = some (some q, m')) :
    Lends P m'.buddy (q :: lent) F ∧ q ∈ F ∧ q ∉ lent ∧ m.direct q = true := by
  unfold Machine.getFreePage at h
  rcases hb : m.buddy.buddyAlloc 0 with _ | ⟨paddr, b⟩
  · rw [hb] at h
    cases h
  · rw [hb] at h
    dsimp only at h
    split_ifs at h with hzero hdirect
    · cases h
    · cases h
      obtain ⟨hF, -⟩ := hlend.free.alloc hb hzero
      exact ⟨hlend.alloc hb hzero, hF.1, hF.2, hdirect⟩

theorem setupKvm_none (hlend : Lends P m.buddy lent F) (h : setupKvm m = some (none, m')) :
    m' = m ∧ ∀ q ∈ F, q ∈ lent := by
  unfold setupKvm at h
  rcases hget : m.getFreePage with _ | ⟨_ | q, m₁⟩
  · rw [hget] at h
    cases h
  · rw [hget] at h
    cases h
    exact getFreePage_none hlend hget
  · rw [hget] at h
    cases h

theorem setupKvm_some (hlend : Lends P m.buddy lent F) (h : setupKvm m = some (some q, m')) :
    q ∈ F ∧ q ∉ lent := by
  unfold setupKvm at h
  rcases hget : m.getFreePage with _ | ⟨_ | r, m₁⟩
  · rw [hget] at h
    cases h
  · rw [hget] at h
    cases h
  · rw [hget] at h
    cases h
    exact ⟨(getFreePage_some hlend hget).2.1, (getFreePage_some hlend hget).2.2.1⟩

/-- A lent frame goes back. -/
theorem freePage_lent (hlend : Lends P m.buddy (q :: lent) F) (hne : q ≠ nullFrame)
    (h : m.freePage q = some m') : Lends P m'.buddy lent F := by
  have hq : IsFrame q := hlend.isFrame List.mem_cons_self
  unfold Machine.freePage at h
  rw [freePage_of_ne hq hne, List.foldlM_cons] at h
  obtain ⟨b, hb, rfl⟩ := Option.map_eq_some_iff.mp h
  obtain ⟨b', hb', hrest⟩ := Option.bind_eq_some_iff.mp hb
  cases hrest
  exact hlend.dealloc hb'

/-! ## The slot -/

/-- A slot that was free and is given back is as before. -/
theorem setState_unused (t : FileTables) (h : (t.procs c).state = .unused) :
    (t.setState c .embryo).setState c .unused = t := by
  have hproc : ((t.procs c).setState .embryo).setState .unused = t.procs c := by
    unfold Proc.setState
    rw [← h]
  unfold FileTables.setState FileTables.setProc
  dsimp only
  rw [Function.update_self, Function.update_idem, hproc, Function.update_eq_self]

/-- Sharing the files changes no state and no parent. -/
theorem shareFrom_state {n fd : ℕ} {t u : FileTables} (h : FileTables.shareFrom p c n fd t = some u) :
    ∀ d, (u.procs d).state = (t.procs d).state ∧ (u.procs d).parent = (t.procs d).parent := by
  induction n generalizing fd t with
  | zero =>
      cases h
      exact fun d => ⟨rfl, rfl⟩
  | succ n ih =>
      obtain ⟨v, hv, hu⟩ := Option.bind_eq_some_iff.mp h
      intro d
      rw [(ih hu d).1, (ih hu d).2]
      have hopen (f : Option ℕ) : ((t.setOpen c fd f).procs d).state = (t.procs d).state ∧
          ((t.setOpen c fd f).procs d).parent = (t.procs d).parent := by
        by_cases hd : d = c
        · rw [hd, FileTables.setOpen_procs_self]
          exact ⟨rfl, rfl⟩
        · rw [FileTables.setOpen_procs_of_ne hd]
          exact ⟨rfl, rfl⟩
      unfold FileTables.shareOne at hv
      split at hv
      · cases hv
        exact hopen none
      · obtain ⟨file, _, hv⟩ := Option.bind_eq_some_iff.mp hv
        cases hv
        exact hopen _

/-- The child that `inherit` makes. -/
theorem inherit_child {t u : FileTables} (h : inherit t p c = some u) :
    (u.procs c).state = (t.procs c).state ∧ (u.procs c).parent = some p := by
  obtain ⟨root, _, h⟩ := Option.bind_eq_some_iff.mp h
  obtain ⟨pwd, _, h⟩ := Option.bind_eq_some_iff.mp h
  have hchild : (t.setProc c { t.procs c with parent := some p, root := some root, pwd := some pwd }).procs c =
      { t.procs c with parent := some p, root := some root, pwd := some pwd } := Function.update_self ..
  have hshared := shareFrom_state h c
  unfold FileTables.inodeHold at hshared
  rw [hchild] at hshared
  exact hshared

/-! ## The two outcomes -/

/-- `__alloc_proc` fails for want of a slot or of one of its two frames, and changes nothing
that is in use. -/
theorem allocProc_none (hfree : FreeFrames P s.machine.buddy F) (hdirect : DirectMap s.machine)
    (h : s.allocProc p = some (none, t)) :
    ((∀ c, (s.tables.procs c).state ≠ .unused) ∨ F.encard < 2) ∧ t.tables = s.tables ∧
      FreeFrames P t.machine.buddy F ∧ t.status = s.status ∧
      ∀ c, (s.tables.procs c).state ≠ .unused → t.pid c = s.pid c := by
  unfold ForkState.allocProc at h
  cases hfind : (List.finRange numProc).find? fun c => (s.tables.procs c).state = .unused with
  | none =>
      rw [hfind] at h
      cases h
      have hused : ∀ c, (s.tables.procs c).state ≠ .unused := by
        intro c
        simpa using List.find?_eq_none.mp hfind c (List.mem_finRange c)
      exact ⟨.inl hused, rfl, hfree, rfl, fun _ _ => rfl⟩
  | some c =>
      rw [hfind] at h
      dsimp only at h
      have hunused : (s.tables.procs c).state = .unused := by simpa using List.find?_some hfind
      have hpid : ∀ d, (s.tables.procs d).state ≠ .unused →
          Function.update s.pid c s.pidCounter d = s.pid d := by
        intro d hd
        apply Function.update_of_ne
        intro heq
        exact hd (heq ▸ hunused)
      have hlend : Lends P s.machine.buddy [] F := lends_nil.mpr hfree
      rcases hget : s.machine.getFreePage with _ | ⟨_ | stack, m⟩
      · rw [hget] at h
        cases h
      · rw [hget] at h
        cases h
        have ⟨hsame, hnone⟩ := getFreePage_none hlend hget
        have hempty : F = ∅ := Set.eq_empty_of_forall_notMem fun q hq => List.not_mem_nil (hnone q hq)
        refine ⟨.inr ?_, setState_unused _ hunused, ?_, rfl, hpid⟩
        · rw [hempty, Set.encard_empty]
          decide
        · rw [hsame]
          exact hfree
      · rw [hget] at h
        dsimp only at h
        obtain ⟨hlend', -, -, hreached⟩ := getFreePage_some hlend hget
        rcases hsetup : setupKvm m with _ | ⟨_ | dir, m'⟩
        · rw [hsetup] at h
          cases h
        · rw [hsetup] at h
          obtain ⟨m'', hback, h⟩ := Option.bind_eq_some_iff.mp h
          cases h
          have ⟨hsame, hnone⟩ := setupKvm_none hlend' hsetup
          have hone : F ⊆ {stack} := fun q hq => List.mem_singleton.mp (hnone q hq)
          have hne : stack ≠ nullFrame := ne_of_lt (hdirect stack hreached)
          rw [hsame] at hback
          refine ⟨.inr ?_, setState_unused _ hunused, lends_nil.mp (freePage_lent hlend' hne hback), rfl, hpid⟩
          calc F.encard ≤ ({stack} : Set ℕ).encard := Set.encard_le_encard hone
            _ < 2 := by
              rw [Set.encard_singleton]
              decide
        · rw [hsetup] at h
          obtain ⟨tables, _, h⟩ := Option.bind_eq_some_iff.mp h
          cases h

/-- With a slot and two frames it makes a child of the caller. -/
theorem allocProc_some (hfree : FreeFrames P s.machine.buddy F) (h : s.allocProc p = some (some c, t)) :
    (s.tables.procs c).state = .unused ∧ 2 ≤ F.encard ∧ (t.tables.procs c).state = .embryo ∧
      (t.tables.procs c).parent = some p := by
  unfold ForkState.allocProc at h
  cases hfind : (List.finRange numProc).find? fun c => (s.tables.procs c).state = .unused with
  | none =>
      rw [hfind] at h
      cases h
  | some d =>
      rw [hfind] at h
      dsimp only at h
      have hunused : (s.tables.procs d).state = .unused := by simpa using List.find?_some hfind
      have hlend : Lends P s.machine.buddy [] F := lends_nil.mpr hfree
      rcases hget : s.machine.getFreePage with _ | ⟨_ | stack, m⟩
      · rw [hget] at h
        cases h
      · rw [hget] at h
        cases h
      · rw [hget] at h
        dsimp only at h
        obtain ⟨hlend', hstack, -⟩ := getFreePage_some hlend hget
        rcases hsetup : setupKvm m with _ | ⟨_ | dir, m'⟩
        · rw [hsetup] at h
          cases h
        · rw [hsetup] at h
          obtain ⟨m'', _, h⟩ := Option.bind_eq_some_iff.mp h
          cases h
        · rw [hsetup] at h
          obtain ⟨tables, hinherit, h⟩ := Option.bind_eq_some_iff.mp h
          cases h
          have ⟨hdir, hnot⟩ := setupKvm_some hlend' hsetup
          have hne : dir ≠ stack := fun heq => hnot (List.mem_singleton.mpr heq)
          have htwo : ({dir, stack} : Set ℕ) ⊆ F := Set.insert_subset hdir (Set.singleton_subset_iff.mpr hstack)
          have ⟨hstate, hparent⟩ := inherit_child hinherit
          refine ⟨hunused, ?_, ?_, hparent⟩
          · rw [← Set.encard_pair hne]
            exact Set.encard_le_encard htwo
          · rw [hstate]
            unfold FileTables.setState FileTables.setProc
            dsimp only
            rw [Function.update_self]
            rfl

/-- A fork that fails after `__alloc_proc` leaves a child that never ran. -/
theorem doFork_failed (hfree : FreeFrames P s.machine.buddy F) (hdirect : DirectMap s.machine)
    (h : s.doFork p = some (-1, t)) :
    (((∀ c, (s.tables.procs c).state ≠ .unused) ∨ F.encard < 2) ∧ s.allocProc p = some (none, t)) ∨
      2 ≤ F.encard ∧ ∃ c, (s.tables.procs c).state = .unused ∧ (t.tables.procs c).state ≠ .unused ∧
        (t.tables.procs c).parent = some p := by
  obtain ⟨⟨r, u⟩, hr, h⟩ := Option.bind_eq_some_iff.mp h
  cases r with
  | none =>
      cases h
      exact .inl ⟨(allocProc_none hfree hdirect hr).1, hr⟩
  | some c =>
      obtain ⟨hunused, htwo, hstate, hparent⟩ := allocProc_some hfree hr
      refine .inr ⟨htwo, c, hunused, ?_⟩
      obtain ⟨m, _, h⟩ := Option.bind_eq_some_iff.mp h
      obtain ⟨⟨d, m'⟩, _, h⟩ := Option.bind_eq_some_iff.mp h
      cases d with
      | none =>
          cases h
          rw [hstate]
          exact ⟨nofun, hparent⟩
      | some d =>
          simp only [Option.pure_def, Option.some.injEq, Prod.mk.injEq] at h
          rw [← h.2]
          unfold FileTables.setState FileTables.setProc
          dsimp only
          rw [Function.update_self]
          exact ⟨nofun, hparent⟩

/-- `do_wait` reads the table, and the pids and results of the processes in it. -/
theorem doWait_congr (htables : t.tables = s.tables) (hstatus : t.status = s.status)
    (hpid : ∀ c, (s.tables.procs c).state ≠ .unused → t.pid c = s.pid c) : t.doWait p = s.doWait p := by
  unfold ForkState.doWait
  rw [htables, hstatus]
  cases hscan : waitScan s.tables p with
  | zombie c =>
      have hzombie : (s.tables.procs c).state = .zombie := by
        unfold waitScan at hscan
        split at hscan
        · next d hd =>
            cases hscan
            have hfound := List.find?_some hd
            simp only [decide_eq_true_eq] at hfound
            exact hfound.2
        · split_ifs at hscan
      dsimp only
      rw [hpid c (by rw [hzombie]; nofun)]
  | sleep => rfl
  | noKids => rfl

/-- A process with a child gets no -1 from `do_wait`. -/
theorem waitScan_ne_noKids {u : FileTables} (h : (u.procs c).parent = some p) : waitScan u p ≠ .noKids := by
  unfold waitScan
  split
  · nofun
  · rw [if_pos ⟨c, h⟩]
    nofun

/-- When a fork fails with a slot and two frames to spare, the caller gets no -1 from
`do_wait` afterwards. -/
theorem doWait_after_failure (hfree : FreeFrames P s.machine.buddy F) (hdirect : DirectMap s.machine)
    (h : s.doFork p = some (-1, t)) (hslot : (s.tables.procs c).state = .unused) (htwo : 2 ≤ F.encard) :
    t.doWait p ≠ some (-1, none) := by
  rcases doFork_failed hfree hdirect h with ⟨hfull | hfew, -⟩ | ⟨-, d, -, -, hparent⟩
  · exact absurd hslot (hfull c)
  · exact absurd htwo (not_le.mpr hfew)
  · have hscan := waitScan_ne_noKids hparent
    unfold ForkState.doWait
    cases hw : waitScan t.tables p with
    | zombie e => simp
    | sleep => simp
    | noKids => exact absurd hw hscan

/-- A fork that fails leaves no trace exactly if there was no free slot, or there were fewer
than two free frames. -/
theorem failed_fork_clean_iff (hfree : FreeFrames P s.machine.buddy F) (hdirect : DirectMap s.machine)
    (h : s.doFork p = some (-1, t)) :
    NoTrace P s t p ↔ (∀ c, (s.tables.procs c).state ≠ .unused) ∨ F.encard < 2 := by
  rcases doFork_failed hfree hdirect h with ⟨hcond, halloc⟩ | ⟨htwo, c, hunused, hused, -⟩
  · obtain ⟨-, htables, hframes, hstatus, hpid⟩ := allocProc_none hfree hdirect halloc
    refine ⟨fun _ => hcond, fun _ => ?_⟩
    constructor
    · exact fun c => by rw [htables]
    · exact fun c => by rw [htables]
    · rw [htables]
    · rw [htables]
    · intro G hG
      rw [hG.unique hfree]
      exact hframes
    · exact doWait_congr htables hstatus hpid
    · exact fun calls => by rw [htables]
  · constructor
    · intro hclean
      exact absurd ((hclean.states c).trans hunused) hused
    · rintro (hfull | hfew)
      · exact absurd hunused (hfull c)
      · exact absurd htwo (not_le.mpr hfew)

/-! ## Two frames -/

/-- A machine with two frames of memory, and a first process with a table at 16 MiB. -/
def twoFrames : Memblock := ⟨0x200000, 0x204000, by decide, by decide, by decide⟩

def tightMemory : Bytes := fun a => if a = 0x1010 then 0x7 else if a = 0x1011 then 0x20 else 0

def tightMachine (b : BuddyAllocator) (mem : Bytes) : Machine :=
  { buddy := b, mem := mem, pageDirectory := 0x4000, direct := fun q => q < nullFrame }

def tightState (b : BuddyAllocator) : ForkState :=
  { tables := bootTables, pid := fun _ => 1, pidCounter := 2, status := fun _ => 0,
    kstack := fun _ => nullFrame, pgdir := fun _ => 0x1000, machine := tightMachine b tightMemory }

/-- Without kernel entries a new directory is empty but for the one that leads to itself. -/
theorem setupKvm_absent (hget : m.getFreePage = some (some q, m'))
    (habsent : ∀ j < 1024, present (entry m'.mem m'.pageDirectory j) = false) :
    setupKvm m = some (some q, { m' with mem := setEntry m'.mem q 1023 (q ||| pteP ||| pteW ||| pteU) }) := by
  have hcopy (n i : ℕ) (hi : i + n ≤ 1024) : copyKernelEntries m'.pageDirectory q n i m'.mem = m'.mem := by
    induction n generalizing i with
    | zero => rfl
    | succ n ih =>
        unfold copyKernelEntries
        simp only [habsent i (by omega), Bool.false_eq_true, if_false]
        exact ih (i + 1) (by omega)
  unfold setupKvm
  rw [hget]
  dsimp only
  rw [hcopy 4 0 (by omega), hcopy 256 768 (by omega)]

/-- `get_free_page` on the small machine. -/
theorem getFreePage_tight {b b' : BuddyAllocator} {mem : Bytes} (hb : b.buddyAlloc 0 = some (q, b'))
    (hq : q = 0x202000 ∨ q = 0x203000) : (tightMachine b mem).getFreePage =
      some (some q, tightMachine b' (copy pageSize mem q (fun _ => 0) 0)) := by
  unfold Machine.getFreePage
  rw [show (tightMachine b mem).buddy = b from rfl, hb]
  rcases hq with rfl | rfl <;> rfl

theorem freePage_tight {b b' : BuddyAllocator} {mem : Bytes} (hb : b.buddyDealloc 0x203000 0 = some b') :
    (tightMachine b mem).freePage 0x203000 = some (tightMachine b' mem) := by
  have hframe : freePage (p2v 0x203000) = [0x203000] := by decide
  unfold Machine.freePage
  rw [hframe, List.foldlM_cons, show (tightMachine b mem).buddy = b from rfl, hb]
  rfl

/-- The memory with a stack, and with a new directory in the second frame. -/
def stackMemory : Bytes := copy pageSize tightMemory 0x202000 (fun _ => 0) 0

def clearedMemory (mem : Bytes) : Bytes := copy pageSize mem 0x203000 (fun _ => 0) 0

def directoryMemory (mem : Bytes) : Bytes :=
  setEntry (clearedMemory mem) 0x203000 1023 (0x203000 ||| pteP ||| pteW ||| pteU)

theorem no_kernel_entries : (∀ j < 1024, present (entry (clearedMemory stackMemory) 0x4000 j) = false) ∧
    (∀ j < 1024, present (entry (clearedMemory (directoryMemory stackMemory)) 0x4000 j) = false) ∧
    present (entry (directoryMemory (directoryMemory stackMemory)) 0x1000 4) = true := by
  decide +kernel

theorem setupKvm_tight {b b' : BuddyAllocator} {mem : Bytes} (hb : b.buddyAlloc 0 = some (0x203000, b'))
    (hmem : ∀ j < 1024, present (entry (clearedMemory mem) 0x4000 j) = false) :
    setupKvm (tightMachine b mem) = some (some 0x203000, tightMachine b' (directoryMemory mem)) :=
  setupKvm_absent (getFreePage_tight hb (.inr rfl)) hmem

theorem vmmCopyPgdir_tight {b b' b'' : BuddyAllocator} (hb : b.buddyAlloc 0 = some (0x203000, b'))
    (hnone : b'.buddyAlloc 0 = some (0, b'')) :
    vmmCopyPgdir (tightMachine b (directoryMemory stackMemory)) 0x1000 =
      some (none, tightMachine b'' (directoryMemory (directoryMemory stackMemory))) := by
  have hentry := no_kernel_entries.2.2
  have hdirect : (tightMachine b' (directoryMemory (directoryMemory stackMemory))).direct 0x1000 = true := by
    change decide (0x1000 < nullFrame) = true
    decide
  unfold vmmCopyPgdir
  rw [setupKvm_tight hb no_kernel_entries.2.1]
  simp only [hdirect, Bool.not_true, Bool.false_eq_true, if_false]
  generalize hmem : directoryMemory (directoryMemory stackMemory) = mem at *
  have htable : (tightMachine b' mem).getFreePage = some (none, tightMachine b'' mem) := by
    unfold Machine.getFreePage
    rw [show (tightMachine b' mem).buddy = b' from rfl, hnone]
    rfl
  have hpresent : present (entry (tightMachine b' mem).mem 0x1000 4) = true := hentry
  rw [show 764 = 763 + 1 from rfl]
  unfold copyPdes
  simp only [hpresent, htable, Bool.not_true, Bool.false_eq_true, if_false]

/-- The child of the first process. -/
def firstChild : Slot := slot1

theorem first_child : ((List.finRange numProc).find? fun c => (bootTables.procs c).state = .unused) =
      some firstChild ∧ (inherit (bootTables.setState firstChild .embryo) init firstChild).isSome = true ∧
    init ≠ firstChild ∧ (bootTables.procs firstChild).state = .unused ∧ waitScan bootTables init = .noKids := by
  decide

theorem allocProc_tight {b b₁ b₂ : BuddyAllocator} (hstack : b.buddyAlloc 0 = some (0x202000, b₁))
    (hdir : b₁.buddyAlloc 0 = some (0x203000, b₂)) :
    ∃ u, (tightState b).allocProc init = some (some firstChild, u) ∧
      u.machine = tightMachine b₂ (directoryMemory stackMemory) ∧ u.pgdir firstChild = 0x203000 ∧
      u.pgdir init = 0x1000 := by
  obtain ⟨hfind, hinherit, hne, -⟩ := first_child
  obtain ⟨tables, htables⟩ := Option.isSome_iff_exists.mp hinherit
  have hget : (tightState b).machine.getFreePage = some (some 0x202000, tightMachine b₁ stackMemory) :=
    getFreePage_tight hstack (.inl rfl)
  unfold ForkState.allocProc
  rw [show (tightState b).tables = bootTables from rfl, hfind]
  simp only [hget, setupKvm_tight hdir no_kernel_entries.1, htables]
  refine ⟨_, rfl, rfl, ?_, ?_⟩
  · dsimp only
    rw [Function.update_self]
  · dsimp only
    rw [Function.update_of_ne hne]
    rfl

/-- How `do_fork` fails when it has no memory for the copy. -/
theorem doFork_of_copy_none {u : ForkState} (halloc : s.allocProc p = some (some c, u))
    (hfree : u.machine.freePage (u.pgdir c) = some m)
    (hcopy : vmmCopyPgdir m (u.pgdir p) = some (none, m')) : s.doFork p =
      some (-1, { u with pgdir := Function.update u.pgdir c nullFrame, machine := m' }) := by
  apply Option.bind_eq_some_iff.mpr
  refine ⟨_, halloc, ?_⟩
  apply Option.bind_eq_some_iff.mpr
  refine ⟨_, hfree, ?_⟩
  apply Option.bind_eq_some_iff.mpr
  exact ⟨_, hcopy, rfl⟩

theorem doFork_tight {b b₁ b₂ b₃ b₄ b₅ : BuddyAllocator} (hstack : b.buddyAlloc 0 = some (0x202000, b₁))
    (hdir : b₁.buddyAlloc 0 = some (0x203000, b₂)) (hback : b₂.buddyDealloc 0x203000 0 = some b₃)
    (hcopied : b₃.buddyAlloc 0 = some (0x203000, b₄)) (hnone : b₄.buddyAlloc 0 = some (0, b₅)) :
    ∃ t, (tightState b).doFork init = some (-1, t) := by
  obtain ⟨u, hu, hmachine, hchild, hparent⟩ := allocProc_tight hstack hdir
  have hfree : u.machine.freePage (u.pgdir firstChild) =
      some (tightMachine b₃ (directoryMemory stackMemory)) := by
    rw [hmachine, hchild]
    exact freePage_tight hback
  have hcopy := vmmCopyPgdir_tight hcopied hnone
  rw [← hparent] at hcopy
  exact ⟨_, doFork_of_copy_none hu hfree hcopy⟩

/-- The fork of the first process fails in `vmm_copy_pgdir`. -/
theorem tight_fork : ∃ (P : Memory.Pool) (F : Set ℕ) (s t : ForkState), FreeFrames P s.machine.buddy F ∧
    DirectMap s.machine ∧ s.doFork init = some (-1, t) ∧ s.doWait init = some (-1, none) ∧
      (s.tables.procs firstChild).state = .unused ∧ 2 ≤ F.encard := by
  have hinit : ((BuddyAllocator.buddyInit twoFrames fun _ => 0).any fun r =>
      (r.1.buddyAlloc 0).any fun x => x.1 = 0x202000 ∧ (x.2.buddyAlloc 0).any fun y =>
        y.1 = 0x203000 ∧ (y.2.buddyDealloc 0x203000 0).any fun b => (b.buddyAlloc 0).any fun z =>
          z.1 = 0x203000 ∧ (z.2.buddyAlloc 0).any fun w => w.1 = 0) = true := by
    decide +kernel
  simp only [Option.any_eq_true, decide_eq_true_eq] at hinit
  obtain ⟨⟨b, m'⟩, hb, ⟨stack, b₁⟩, hstack, rfl, ⟨dir, b₂⟩, hdir, rfl, b₃, hback, ⟨copied, b₄⟩, hcopied, rfl,
    ⟨none, b₅⟩, hnone, rfl⟩ := hinit
  obtain ⟨P, free, hinv, -⟩ := BuddyAllocator.buddyInit_spec (by decide) hb
  obtain ⟨t, ht⟩ := doFork_tight hstack hdir hback hcopied hnone
  have hfree : FreeFrames P b {p | ∃ i < P.pages, p = P.paddr i} := ⟨free, [], hinv, fun p => by simp⟩
  have hdirect : DirectMap (tightState b).machine := fun q hq => by simpa [tightState, tightMachine] using hq
  obtain ⟨hfirst, hfree'⟩ := hfree.alloc hstack (by decide)
  obtain ⟨hsecond, -⟩ := hfree'.alloc hdir (by decide)
  obtain ⟨-, -, -, hunused, hkids⟩ := first_child
  have hwait : (tightState b).doWait init = some (-1, none) := by
    unfold ForkState.doWait
    rw [show (tightState b).tables = bootTables from rfl, hkids]
  refine ⟨P, _, tightState b, t, hfree, hdirect, ht, hwait, hunused, ?_⟩
  rw [← Set.encard_pair hsecond.2]
  exact Set.encard_le_encard (Set.insert_subset hsecond.1 (Set.singleton_subset_iff.mpr hfirst))

theorem failed_fork_clean_iff_tight : ∃ (P : Memory.Pool) (F : Set ℕ) (s t : ForkState),
    s.doFork init = some (-1, t) ∧
    (NoTrace P s t init ↔ (∀ c, (s.tables.procs c).state ≠ .unused) ∨ F.encard < 2) := by
  obtain ⟨P, F, s, t, hfree, hdirect, ht, -⟩ := tight_fork
  exact ⟨P, F, s, t, ht, failed_fork_clean_iff hfree hdirect ht⟩

theorem failed_fork_leaves_child : ¬ ∀ (P : Memory.Pool) (F : Set ℕ) (s t : ForkState) (p : Slot),
    FreeFrames P s.machine.buddy F → DirectMap s.machine → s.doFork p = some (-1, t) → NoTrace P s t p := by
  intro hclaim
  obtain ⟨P, F, s, t, hfree, hdirect, ht, hwait, hslot, htwo⟩ := tight_fork
  apply doWait_after_failure hfree hdirect ht hslot htwo
  rw [(hclaim P F s t init hfree hdirect ht).wait]
  exact hwait

end Ferrite.Sys
