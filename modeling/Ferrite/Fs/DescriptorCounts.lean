import Mathlib
import Ferrite.Fs.Descriptors
import Ferrite.Library.Runs
import Ferrite.Library.Tables
import Ferrite.Sys.DeadProcess

/-!
# The counts of open files agree with the descriptor tables

Every entry of the table of a live process points to an allocated `file_t`, whose
`f_count` is the number of such entries. Within a call a reference may be on its
way between tables, and is then held by the call.

All calls keep this, but for a `sys_open` whose open operation fails (it frees
the file and leaves the entry) and a fork that fails after `__alloc_proc` (its
child has the entries and never lives). The bound in `fd_get` lets the number
`MAX_OPEN_FILES` through to the word behind the table.
-/
namespace Ferrite.Fs
open Runs Tables Sys

namespace Proc

@[simp] theorem setOpen_state (q : Proc) (fd : ℕ) (f : Option ℕ) :
    (q.setOpen fd f).state = q.state := rfl
@[simp] theorem setOpen_openFiles (q : Proc) (fd : ℕ) (f : Option ℕ) :
    (q.setOpen fd f).openFiles = Function.update q.openFiles fd f := rfl
@[simp] theorem setState_state (q : Proc) (st : ProcState) : (q.setState st).state = st := rfl
@[simp] theorem setState_openFiles (q : Proc) (st : ProcState) :
    (q.setState st).openFiles = q.openFiles := rfl

theorem setOpen_self {q : Proc} {fd : ℕ} {f : Option ℕ} (h : q.openFiles fd = f) :
    q.setOpen fd f = q := by
  subst h
  simp [setOpen]

/-- How many entries of a live table point to `f`. -/
def owned (q : Proc) (f : ℕ) : ℕ :=
  if q.state.Alive then occurrences maxOpenFiles q.openFiles f else 0

end Proc

namespace FileTables
variable {s t : FileTables} {p c : Slot} {held : ℕ → ℕ} {f fd n : ℕ}

@[simp] theorem setProc_procs_self (s : FileTables) (p : Slot) (q : Proc) :
    (s.setProc p q).procs p = q := by simp [setProc]
theorem setProc_procs_of_ne {q : Proc} (h : c ≠ p) : (s.setProc p q).procs c = s.procs c := by
  simp [setProc, h]
@[simp] theorem setOpen_procs_self (s : FileTables) (p : Slot) (fd : ℕ) (f : Option ℕ) :
    (s.setOpen p fd f).procs p = (s.procs p).setOpen fd f := by simp [setOpen]
theorem setOpen_procs_of_ne {v : Option ℕ} (h : c ≠ p) :
    (s.setOpen p fd v).procs c = s.procs c := setProc_procs_of_ne h
@[simp] theorem setFile_procs (s : FileTables) (f : ℕ) (file : Option File) :
    (s.setFile f file).procs = s.procs := rfl

/-- `open_files[]` entries over all live processes that point to `f`. -/
def refs (s : FileTables) (f : ℕ) : ℕ := ∑ p, (s.procs p).owned f

structure Counted (s : FileTables) : Prop where
  valid : ∀ p, (s.procs p).state.Alive → ∀ fd < maxOpenFiles, ∀ f,
    (s.procs p).openFiles fd = some f → (s.files f).isSome
  count : ∀ f file, s.files f = some file → file.count.toNat = s.refs f

/-- The same while a call holds references. -/
structure Holding (s : FileTables) (held : ℕ → ℕ) : Prop where
  valid : ∀ p, (s.procs p).state.Alive → ∀ fd < maxOpenFiles, ∀ f,
    (s.procs p).openFiles fd = some f → (s.files f).isSome
  heldValid : ∀ f, held f ≠ 0 → (s.files f).isSome
  count : ∀ f file, s.files f = some file → file.count.toNat = s.refs f + held f

theorem counted_iff_holding : Counted s ↔ Holding s (fun _ => 0) := by
  constructor
  · intro h
    exact ⟨h.valid, fun _ hf => (hf rfl).elim, by simpa only [Nat.add_zero] using h.count⟩
  · intro h
    exact ⟨h.valid, by simpa only [Nat.add_zero] using h.count⟩

theorem owned_le (q : Proc) (f : ℕ) : q.owned f ≤ maxOpenFiles := by
  unfold Proc.owned
  split_ifs
  · exact occurrences_le ..
  · exact Nat.zero_le _

theorem refs_le (s : FileTables) (f : ℕ) : s.refs f ≤ numProc * maxOpenFiles := by
  have := Finset.sum_le_card_nsmul Finset.univ (fun p => (s.procs p).owned f) maxOpenFiles
    fun p _ => owned_le _ _
  simpa [refs] using this

/-- The table of one process changes. -/
theorem refs_update {q : Proc} (f : ℕ) :
    (s.setProc p q).refs f + (s.procs p).owned f = s.refs f + q.owned f := by
  have := sum_update (f := fun r => ((s.setProc p q).procs r).owned f)
    (g := fun r => (s.procs r).owned f) p fun r hr => by simp [setProc, Function.update_of_ne hr]
  simpa [refs, setProc] using this

/-- One entry of a live table changes. -/
theorem refs_setOpen {v : Option ℕ} (hp : (s.procs p).state.Alive) (hfd : fd < maxOpenFiles)
    (f : ℕ) : (s.setOpen p fd v).refs f + (if (s.procs p).openFiles fd = some f then 1 else 0) =
      s.refs f + if v = some f then 1 else 0 := by
  have hup : (s.setOpen p fd v).refs f + _ = _ := refs_update f
  have hocc := occurrences_update (v := v) (t := (s.procs p).openFiles) (a := f) hfd
  simp only [Proc.owned, Proc.setOpen_state, Proc.setOpen_openFiles, hp, if_true] at hup
  omega

theorem refs_congr (h : ∀ p, (t.procs p).owned f = (s.procs p).owned f) : t.refs f = s.refs f :=
  Finset.sum_congr rfl fun p _ => h p

theorem Proc.owned_pos {q : Proc} (hq : q.state.Alive) (hfd : fd < maxOpenFiles)
    (h : q.openFiles fd = some f) : 0 < q.owned f := by
  rw [Proc.owned, if_pos hq]
  exact occurrences_pos hfd h

theorem refs_pos (hp : (s.procs p).state.Alive) (hfd : fd < maxOpenFiles)
    (h : (s.procs p).openFiles fd = some f) : 0 < s.refs f := by
  have := Finset.single_le_sum (f := fun p => (s.procs p).owned f) (fun _ _ => Nat.zero_le _)
    (Finset.mem_univ p)
  exact (Proc.owned_pos hp hfd h).trans_le this

/-- What is not allocated is in no live table. -/
theorem Holding.refs_eq_zero (h : Holding s held) (hf : s.files f = none) :
    s.refs f = 0 ∧ held f = 0 := by
  constructor
  · apply Finset.sum_eq_zero
    intro p _
    unfold Proc.owned
    split_ifs with hp
    · apply occurrences_none
      intro fd hfd hopen
      have := h.valid p hp fd hfd f hopen
      rw [hf] at this
      cases this
    · rfl
  · by_contra hne
    have := h.heldValid f hne
    rw [hf] at this
    cases this

/-- Changes of other fields. -/
theorem Holding.congr (h : Holding s held) (hfiles : t.files = s.files)
    (hprocs : ∀ p, (t.procs p).state = (s.procs p).state ∧
      (t.procs p).openFiles = (s.procs p).openFiles) : Holding t held := by
  have hrefs (f : ℕ) : t.refs f = s.refs f :=
    refs_congr fun p => by simp only [Proc.owned, hprocs p]
  refine ⟨fun p hp fd hfd f hopen => ?_, fun f hf => ?_, fun f file hf => ?_⟩
  · rw [(hprocs p).1] at hp
    rw [(hprocs p).2] at hopen
    rw [hfiles]
    exact h.valid p hp fd hfd f hopen
  · rw [hfiles]
    exact h.heldValid f hf
  · rw [hfiles] at hf
    rw [hrefs]
    exact h.count f file hf

@[simp] theorem inodeHold_files (s : FileTables) (n : ℕ) : (s.inodeHold n).files = s.files := rfl
@[simp] theorem inodeHold_procs (s : FileTables) (n : ℕ) : (s.inodeHold n).procs = s.procs := rfl

@[simp] theorem inodePut_files (s : FileTables) (n : Option ℕ) :
    (s.inodePut n).files = s.files := by
  unfold inodePut
  cases n with
  | none => rfl
  | some n => simp only; split_ifs <;> rfl

@[simp] theorem inodePut_procs (s : FileTables) (n : Option ℕ) :
    (s.inodePut n).procs = s.procs := by
  unfold inodePut
  cases n with
  | none => rfl
  | some n => simp only; split_ifs <;> rfl

/-- An entry that is taken out of a live table is held. -/
theorem Holding.clear (h : Holding s held) (hp : (s.procs p).state.Alive) (hfd : fd < maxOpenFiles)
    (hopen : (s.procs p).openFiles fd = some f) :
    Holding (s.setOpen p fd none) fun g => held g + if g = f then 1 else 0 := by
  have hrefs (g : ℕ) : (s.setOpen p fd none).refs g + (if g = f then 1 else 0) = s.refs g := by
    have := refs_setOpen (v := none) hp hfd g
    simpa [hopen, @eq_comm _ f] using this
  refine ⟨fun q hq fd' hfd' g hg => ?_, fun g hg => ?_, fun g file hg => ?_⟩
  · by_cases hqp : q = p
    · subst hqp
      simp only [setOpen, setProc, Function.update_self, Proc.setOpen_openFiles] at hg
      by_cases hfdfd : fd' = fd
      · rw [hfdfd, Function.update_self] at hg
        cases hg
      · rw [Function.update_of_ne hfdfd] at hg
        exact h.valid q hp fd' hfd' g hg
    · simp only [setOpen, setProc, Function.update_of_ne hqp] at hq hg
      exact h.valid q hq fd' hfd' g hg
  · by_cases hgf : g = f
    · subst hgf
      exact h.valid p hp fd hfd g hopen
    · rw [if_neg hgf, Nat.add_zero] at hg
      exact h.heldValid g hg
  · have := h.count g file hg
    have := hrefs g
    omega

/-- A call gives a reference back. -/
theorem Holding.put (h : Holding s fun g => held g + if g = f then 1 else 0) :
    ∃ t, s.filePut f = some t ∧ t.procs = s.procs ∧ Holding t held := by
  obtain ⟨file, hfile⟩ := Option.isSome_iff_exists.mp (h.heldValid f (by simp))
  have hcount := h.count f file hfile
  simp only [if_true] at hcount
  have hpred : (file.count - 1).toNat = s.refs f + held f := by
    bv_omega
  have hzero : file.count - 1 = 0 ↔ s.refs f + held f = 0 := by
    rw [← hpred]
    exact ⟨fun h => by rw [h]; rfl, fun h => BitVec.eq_of_toNat_eq h⟩
  unfold filePut
  simp only [hfile, Option.bind_eq_bind, Option.bind_some]
  split_ifs with hc
  · have hnone := hzero.mp hc
    refine ⟨_, rfl, by simp [setFile], ?_⟩
    have hrefs (g : ℕ) : ((s.inodePut (some file.inode)).setFile f none).refs g = s.refs g :=
      refs_congr fun q => by simp [setFile]
    refine ⟨fun q hq fd hfd g hg => ?_, fun g hg => ?_, fun g file' hg => ?_⟩
    · simp only [setFile, inodePut_procs] at hq hg
      have hgf : g ≠ f := by
        intro hgf
        have := refs_pos hq hfd hg
        rw [hgf] at this
        omega
      simp only [setFile, inodePut_files, Function.update_of_ne hgf]
      exact h.valid q hq fd hfd g hg
    · have hgf : g ≠ f := by
        intro hgf
        rw [hgf] at hg
        omega
      simp only [setFile, inodePut_files, Function.update_of_ne hgf]
      exact h.heldValid g (by omega)
    · by_cases hgf : g = f
      · simp [hgf, setFile] at hg
      · simp only [setFile, inodePut_files, Function.update_of_ne hgf] at hg
        have := h.count g file' hg
        rw [hrefs]
        simpa [hgf] using this
  · refine ⟨_, rfl, rfl, ?_⟩
    refine ⟨fun q hq fd hfd g hg => ?_, fun g hg => ?_, fun g file' hg => ?_⟩
    · by_cases hgf : g = f
      · simp [setFile, hgf]
      · simp only [setFile, Function.update_of_ne hgf]
        exact h.valid q hq fd hfd g hg
    · by_cases hgf : g = f
      · simp [setFile, hgf]
      · simp only [setFile, Function.update_of_ne hgf]
        exact h.heldValid g (by omega)
    · have hrefs : (s.setFile f (some { file with count := file.count - 1 })).refs g = s.refs g :=
        refs_congr fun q => rfl
      rw [hrefs]
      by_cases hgf : g = f
      · subst hgf
        simp only [setFile, Function.update_self, Option.some.injEq] at hg
        rw [← hg]
        exact hpred
      · simp only [setFile, Function.update_of_ne hgf] at hg
        have := h.count g file' hg
        simpa [hgf] using this

/-- A call takes one more reference to the file of a live entry. -/
theorem Holding.take (h : Holding s held) (hp : (s.procs p).state.Alive)
    (hfd : fd < maxOpenFiles) (hopen : (s.procs p).openFiles fd = some f)
    (hbound : held f < maxOpenFiles) :
    ∃ file, s.files f = some file ∧
      Holding (s.setFile f (some { file with count := file.count + 1 }))
        fun g => held g + if g = f then 1 else 0 := by
  obtain ⟨file, hfile⟩ := Option.isSome_iff_exists.mp (h.valid p hp fd hfd f hopen)
  have hcount := h.count f file hfile
  have hsucc : (file.count + 1).toNat = s.refs f + held f + 1 := by
    have := s.refs_le f
    simp only [numProc, maxOpenFiles] at this hbound
    bv_omega
  refine ⟨file, hfile, ?_⟩
  refine ⟨fun q hq fd hfd g hg => ?_, fun g hg => ?_, fun g file' hg => ?_⟩
  · by_cases hgf : g = f
    · simp [setFile, hgf]
    · simp only [setFile, Function.update_of_ne hgf]
      exact h.valid q hq fd hfd g hg
  · by_cases hgf : g = f
    · simp [setFile, hgf]
    · simp only [if_neg hgf, Nat.add_zero] at hg
      simp only [setFile, Function.update_of_ne hgf]
      exact h.heldValid g hg
  · have hrefs : (s.setFile f (some { file with count := file.count + 1 })).refs g = s.refs g :=
      refs_congr fun q => rfl
    rw [hrefs]
    by_cases hgf : g = f
    · subst hgf
      simp only [setFile, Function.update_self, Option.some.injEq] at hg
      rw [← hg, if_pos rfl, ← Nat.add_assoc]
      exact hsucc
    · simp only [setFile, Function.update_of_ne hgf] at hg
      simpa [hgf] using h.count g file' hg

/-- The table of a process that is not live does not count. -/
theorem Holding.setDead (h : Holding s held) {q : Proc} (hp : ¬ (s.procs p).state.Alive)
    (hq : ¬ q.state.Alive) : Holding (s.setProc p q) held := by
  have hrefs (g : ℕ) : (s.setProc p q).refs g = s.refs g := by
    have := refs_update (s := s) (p := p) (q := q) g
    simpa [Proc.owned, hp, hq] using this
  refine ⟨fun r hr fd hfd g hg => ?_, h.heldValid, fun g file hg => ?_⟩
  · by_cases hrp : r = p
    · subst hrp
      simp only [setProc, Function.update_self] at hr
      exact absurd hr hq
    · simp only [setProc, Function.update_of_ne hrp] at hr hg
      exact h.valid r hr fd hfd g hg
  · rw [hrefs]
    exact h.count g file hg

/-- A live process with an empty table may die. -/
theorem Holding.die (h : Holding s held) {q : Proc}
    (hempty : ∀ fd < maxOpenFiles, (s.procs p).openFiles fd = none) (hq : ¬ q.state.Alive) :
    Holding (s.setProc p q) held := by
  have hrefs (g : ℕ) : (s.setProc p q).refs g = s.refs g := by
    have hup := refs_update (s := s) (p := p) (q := q) g
    have hocc : occurrences maxOpenFiles (s.procs p).openFiles g = 0 :=
      occurrences_none fun fd hfd => by rw [hempty fd hfd]; exact Option.some_ne_none g ∘ Eq.symm
    simpa [Proc.owned, hq, hocc] using hup
  refine ⟨fun r hr fd hfd g hg => ?_, h.heldValid, fun g file hg => ?_⟩
  · by_cases hrp : r = p
    · subst hrp
      simp only [setProc, Function.update_self] at hr
      exact absurd hr hq
    · simp only [setProc, Function.update_of_ne hrp] at hr hg
      exact h.valid r hr fd hfd g hg
  · rw [hrefs]
    exact h.count g file hg

/-- A process with the references that the call holds comes to life. -/
theorem Holding.live (h : Holding s held) {q : Proc} (hp : ¬ (s.procs p).state.Alive)
    (hq : q.state.Alive) (hheld : ∀ g, held g = occurrences maxOpenFiles q.openFiles g) :
    Holding (s.setProc p q) fun _ => 0 := by
  have hrefs (g : ℕ) : (s.setProc p q).refs g = s.refs g + held g := by
    have := refs_update (s := s) (p := p) (q := q) g
    simp only [Proc.owned, hp, hq, if_true, if_false, ← hheld] at this
    omega
  refine ⟨fun r hr fd hfd g hg => ?_, fun g hg => (hg rfl).elim, fun g file hg => ?_⟩
  · by_cases hrp : r = p
    · subst hrp
      simp only [setProc, Function.update_self] at hg
      refine h.heldValid g ?_
      rw [hheld]
      exact (occurrences_pos hfd hg).ne'
    · simp only [setProc, Function.update_of_ne hrp] at hr hg
      exact h.valid r hr fd hfd g hg
  · rw [hrefs, Nat.add_zero]
    exact h.count g file hg

/-- A new file in a free entry of a live table. -/
theorem Holding.opened (h : Holding s held) (hp : (s.procs p).state.Alive)
    (hfd : fd < maxOpenFiles) (hopen : (s.procs p).openFiles fd = none) (hf : s.files f = none)
    {file : File} (hfile : file.count = 1) :
    Holding ((s.setOpen p fd (some f)).setFile f (some file)) held := by
  have ⟨hrefs, hheld⟩ := h.refs_eq_zero hf
  have hup (g : ℕ) : ((s.setOpen p fd (some f)).setFile f (some file)).refs g =
      s.refs g + if g = f then 1 else 0 := by
    have hset : ((s.setOpen p fd (some f)).setFile f (some file)).refs g =
      (s.setOpen p fd (some f)).refs g := refs_congr fun q => rfl
    have := refs_setOpen (v := some f) hp hfd g
    rw [hset]
    simpa [hopen, @eq_comm _ f] using this
  refine ⟨fun q hq fd' hfd' g hg => ?_, fun g hg => ?_, fun g file' hg => ?_⟩
  · by_cases hgf : g = f
    · simp [setFile, hgf]
    · simp only [setFile, Function.update_of_ne hgf]
      by_cases hqp : q = p
      · subst hqp
        simp only [setFile, setOpen, setProc, Function.update_self, Proc.setOpen_openFiles] at hg
        by_cases hfdfd : fd' = fd
        · rw [hfdfd, Function.update_self] at hg
          exact absurd (Option.some.inj hg).symm hgf
        · rw [Function.update_of_ne hfdfd] at hg
          exact h.valid q hp fd' hfd' g hg
      · simp only [setFile, setOpen, setProc, Function.update_of_ne hqp] at hq hg
        exact h.valid q hq fd' hfd' g hg
  · have hgf : g ≠ f := fun hgf => hg (hgf ▸ hheld)
    simp only [setFile, Function.update_of_ne hgf]
    exact h.heldValid g hg
  · rw [hup]
    by_cases hgf : g = f
    · subst hgf
      simp only [setFile, Function.update_self, Option.some.injEq] at hg
      rw [← hg, hfile, hrefs, hheld]
      simp
    · simp only [setFile, Function.update_of_ne hgf] at hg
      simpa [hgf] using h.count g file' hg

/-! ## The loops over the descriptors -/

theorem setOpen_self {v : Option ℕ} (h : (s.procs p).openFiles fd = v) : s.setOpen p fd v = s := by
  unfold setOpen
  rw [Proc.setOpen_self h, setProc, Function.update_eq_self]

theorem Holding.exitOne (h : Holding s held) (hp : (s.procs p).state.Alive)
    (hfd : fd < maxOpenFiles) (hs : s.exitOne p fd = some t) : Holding t held ∧
      t.procs p = (s.procs p).setOpen fd none := by
  unfold FileTables.exitOne at hs
  cases hopen : (s.procs p).openFiles fd with
  | none =>
      simp only [hopen, Option.some.injEq] at hs
      subst hs
      exact ⟨h, (Proc.setOpen_self hopen).symm⟩
  | some f =>
      simp only [hopen] at hs
      obtain ⟨u, hu, hprocs, hhold⟩ := (h.clear hp hfd hopen).put
      rw [hu, Option.some.injEq] at hs
      subst hs
      exact ⟨hhold, by rw [hprocs, setOpen_procs_self]⟩

/-- The closing loop empties the table. -/
theorem Holding.exitFrom (h : Holding s held) (hp : (s.procs p).state.Alive)
    (hn : fd + n = maxOpenFiles) (hdone : ∀ i < fd, (s.procs p).openFiles i = none)
    (hs : exitFrom p n fd s = some t) : Holding t held ∧
      ∀ i < maxOpenFiles, (t.procs p).openFiles i = none := by
  induction n generalizing fd s with
  | zero =>
      cases hs
      exact ⟨h, fun i hi => hdone i (by omega)⟩
  | succ n ih =>
      obtain ⟨u, hu, ht⟩ := Option.bind_eq_some_iff.mp hs
      have ⟨hhold, hprocs⟩ := h.exitOne hp (by omega) hu
      refine ih hhold (by rw [hprocs]; exact hp) (by omega) (fun i hi => ?_) ht
      rw [hprocs, Proc.setOpen_openFiles]
      by_cases hifd : i = fd
      · rw [hifd, Function.update_self]
      · rw [Function.update_of_ne hifd]
        exact hdone i (by omega)

theorem Holding.shareOne (h : Holding s fun g => occurrences fd (s.procs c).openFiles g)
    (hp : (s.procs p).state.Alive) (hc : ¬ (s.procs c).state.Alive) (hfd : fd < maxOpenFiles)
    (hs : s.shareOne p c fd = some t) :
    Holding t (fun g => occurrences (fd + 1) (t.procs c).openFiles g) ∧
      t.procs = (s.setOpen c fd ((s.procs p).openFiles fd)).procs := by
  have hpc : p ≠ c := fun hpc => hc (hpc ▸ hp)
  have hset (v : Option ℕ) : Holding (s.setOpen c fd v)
      (fun g => occurrences fd (s.procs c).openFiles g) := h.setDead hc (by exact hc)
  unfold FileTables.shareOne at hs
  cases hopen : (s.procs p).openFiles fd with
  | none =>
      simp only [hopen, Option.some.injEq] at hs
      subst hs
      refine ⟨?_, rfl⟩
      have := hset none
      simpa [setOpen, setProc, occurrences_succ_update] using this
  | some f =>
      simp only [hopen] at hs
      have hopen' : ((s.setOpen c fd (some f)).procs p).openFiles fd = some f := by
        rw [setOpen_procs_of_ne hpc]
        exact hopen
      have hp' : ((s.setOpen c fd (some f)).procs p).state.Alive := by
        rw [setOpen_procs_of_ne hpc]
        exact hp
      obtain ⟨file, hfile, hhold⟩ := (hset (some f)).take hp' hfd hopen'
        (lt_of_le_of_lt (occurrences_le ..) hfd)
      have hfile' : s.files f = some file := hfile
      simp only [hfile', Option.bind_eq_bind, Option.bind_some] at hs
      cases hs
      refine ⟨?_, rfl⟩
      have hocc (g : ℕ) : occurrences (fd + 1)
          (((s.setOpen c fd (some f)).setFile f
            (some { file with count := file.count + 1 })).procs c).openFiles g =
          occurrences fd (s.procs c).openFiles g + if g = f then 1 else 0 := by
        simp [setFile, setOpen, setProc, occurrences_succ_update, @eq_comm _ f]
      simpa only [hocc] using hhold

/-- The sharing loop copies the table and holds one reference for each entry. -/
theorem Holding.shareFrom (h : Holding s fun g => occurrences fd (s.procs c).openFiles g)
    (hp : (s.procs p).state.Alive) (hc : ¬ (s.procs c).state.Alive)
    (hn : fd + n = maxOpenFiles)
    (hdone : ∀ i < fd, (s.procs c).openFiles i = (s.procs p).openFiles i)
    (hs : shareFrom p c n fd s = some t) :
    Holding t (fun g => occurrences maxOpenFiles (t.procs c).openFiles g) ∧
      (t.procs c).state = (s.procs c).state ∧
      ∀ i < maxOpenFiles, (t.procs c).openFiles i = (s.procs p).openFiles i := by
  have hpc : p ≠ c := fun hpc => hc (hpc ▸ hp)
  induction n generalizing fd s with
  | zero =>
      cases hs
      rw [Nat.add_zero] at hn
      subst hn
      exact ⟨h, rfl, hdone⟩
  | succ n ih =>
      obtain ⟨u, hu, ht⟩ := Option.bind_eq_some_iff.mp hs
      have ⟨hhold, hprocs⟩ := h.shareOne hp hc (by omega) hu
      have hup : u.procs p = s.procs p := by
        rw [hprocs, setOpen_procs_of_ne hpc]
      have huc : u.procs c = (s.procs c).setOpen fd ((s.procs p).openFiles fd) := by
        rw [hprocs, setOpen_procs_self]
      have ⟨h₁, h₂, h₃⟩ := ih hhold (by rw [hup]; exact hp) (by rw [huc]; exact hc) (by omega)
        (fun i hi => by
          rw [hup, huc, Proc.setOpen_openFiles]
          by_cases hifd : i = fd
          · rw [hifd, Function.update_self]
          · rw [Function.update_of_ne hifd]
            exact hdone i (by omega)) ht
      rw [huc] at h₂
      rw [hup] at h₃
      exact ⟨h₁, h₂, h₃⟩

/-! ## The calls -/

theorem Counted.congr (h : Counted s) (hfiles : t.files = s.files) (hprocs : t.procs = s.procs) :
    Counted t :=
  counted_iff_holding.mpr ((counted_iff_holding.mp h).congr hfiles fun p => by simp [hprocs])

theorem Counted.exit (h : Counted s) (hp : (s.procs p).state.Alive) (hs : s.doExit p = some t) :
    Counted t := by
  obtain ⟨u, hu, ht⟩ := Option.bind_eq_some_iff.mp hs
  cases ht
  have hsame (q : Slot) : (((s.adopt p).putDirs p).procs q).state = (s.procs q).state ∧
      (((s.adopt p).putDirs p).procs q).openFiles = (s.procs q).openFiles := by
    by_cases hq : q = p
    · subst hq
      simp only [putDirs, setProc_procs_self, adopt]
      split_ifs <;> exact ⟨rfl, rfl⟩
    · simp only [putDirs, setProc_procs_of_ne hq, inodePut_procs, adopt]
      split_ifs <;> exact ⟨rfl, rfl⟩
  have hstart : Holding ((s.adopt p).putDirs p) (fun _ => 0) :=
    (counted_iff_holding.mp h).congr (by simp [putDirs, setProc, adopt]) hsame
  have ⟨hhold, hempty⟩ := hstart.exitFrom ((hsame p).1 ▸ hp) (Nat.zero_add _) (by omega) hu
  exact counted_iff_holding.mpr (hhold.die hempty (by simp))

/-- `__alloc_proc` finds no slot or no page, or returns a new process that is not
live yet, with the table of its parent and the references for it. -/
theorem allocProc_spec {kstack pgdir : Bool} {r : Option Slot} (h : Counted s)
    (hp : (s.procs p).state.Alive) (hs : s.allocProc p kstack pgdir = some (r, t)) :
    (r = none ∧ t = s) ∨ ∃ c, r = some c ∧ ¬ (t.procs c).state.Alive ∧
      Holding t (fun g => occurrences maxOpenFiles (t.procs c).openFiles g) ∧
      ∀ i < maxOpenFiles, (t.procs c).openFiles i = (s.procs p).openFiles i := by
  unfold allocProc at hs
  cases hc : (List.finRange numProc).find? fun c => (s.procs c).state = .unused with
  | none =>
      simp only [hc, Option.some.injEq, Prod.mk.injEq] at hs
      exact .inl ⟨hs.1.symm, hs.2.symm⟩
  | some c =>
      simp only [hc] at hs
      split_ifs at hs with hpages
      · simp only [Option.some.injEq, Prod.mk.injEq] at hs
        exact .inl ⟨hs.1.symm, hs.2.symm⟩
      · right
        have hunused : (s.procs c).state = .unused := by simpa using List.find?_some hc
        have hdead : ¬ (s.procs c).state.Alive := by simp [hunused]
        have hpc : p ≠ c := fun hpc => hdead (hpc ▸ hp)
        obtain ⟨root, -, hs⟩ := Option.bind_eq_some_iff.mp hs
        obtain ⟨pwd, -, hs⟩ := Option.bind_eq_some_iff.mp hs
        obtain ⟨u, hu, hs⟩ := Option.bind_eq_some_iff.mp hs
        cases hs
        have hstart := (counted_iff_holding.mp h).setDead hdead
          (q := { s.procs c with state := .embryo, parent := some p, root := some root, pwd := some pwd })
          (by simp)
        have hheld := hstart.congr (t := ((s.setProc c { s.procs c with
          state := .embryo, parent := some p, root := some root, pwd := some pwd }).inodeHold
            root).inodeHold pwd) rfl fun q => ⟨rfl, rfl⟩
        have ⟨h₁, h₂, h₃⟩ := Holding.shareFrom (p := p) (c := c) (n := maxOpenFiles)
          (by simpa [occurrences] using hheld) (by simpa [setProc_procs_of_ne hpc] using hp)
          (by simp) (by omega) (by omega) hu
        refine ⟨c, rfl, ?_, h₁, ?_⟩
        · rw [h₂]
          simp
        · simpa [setProc_procs_of_ne hpc] using h₃

/-- The child of a fork that fails late keeps what the table of its parent pointed to. -/
def ForkCareful (s : FileTables) (p : Slot) (kstack pgdir copied : Bool) : Prop :=
  copied = false → ∀ c t, s.allocProc p kstack pgdir = some (some c, t) →
    ∀ i < maxOpenFiles, (s.procs p).openFiles i = none

theorem Counted.fork_iff {kstack pgdir copied : Bool} (h : Counted s)
    (hp : (s.procs p).state.Alive) (hs : s.doFork p kstack pgdir copied = some t) :
    Counted t ↔ ForkCareful s p kstack pgdir copied := by
  obtain ⟨⟨r, u⟩, hr, ht⟩ := Option.bind_eq_some_iff.mp hs
  rcases allocProc_spec h hp hr with ⟨rfl, rfl⟩ | ⟨c, rfl, hdead, hhold, hcopy⟩
  · cases ht
    refine iff_of_true h fun _ c t' hc => ?_
    rw [hr] at hc
    cases hc
  · simp only at ht
    cases copied with
    | true =>
        cases ht
        refine iff_of_true ?_ (fun hfalse => by cases hfalse)
        exact counted_iff_holding.mpr (hhold.live hdead (by simp) fun g => by simp)
    | false =>
        simp only [Bool.false_eq_true, if_false] at ht
        cases ht
        constructor
        · intro hcount _ c' t' hc' i hi
          by_contra hne
          obtain ⟨f, hf⟩ := Option.ne_none_iff_exists'.mp hne
          have hpos : 0 < occurrences maxOpenFiles (t.procs c).openFiles f :=
            occurrences_pos hi (by rw [hcopy i hi, hf])
          obtain ⟨file, hfile⟩ := Option.isSome_iff_exists.mp (hhold.heldValid f hpos.ne')
          have h₁ := hhold.count f file hfile
          have h₂ := hcount.count f file hfile
          omega
        · intro hcareful
          have hnone := hcareful rfl c t hr
          have hzero : (fun g => occurrences maxOpenFiles (t.procs c).openFiles g) = fun _ => 0 := by
            funext g
            apply occurrences_none
            intro i hi
            rw [hcopy i hi, hnone i hi]
            exact (Option.some_ne_none g).symm
          rw [hzero] at hhold
          exact counted_iff_holding.mpr hhold

/-! ### Opening and closing -/

theorem openNode_frame (env : OpenEnv) (flags : BitVec 32) :
    (s.openNode env flags).2.procs = s.procs ∧ (s.openNode env flags).2.files = s.files := by
  unfold openNode
  cases env.node with
  | some n =>
      simp only
      split_ifs <;> (try cases env.truncate with | none | some r) <;>
        simp only [inodePut_procs, inodePut_files, inodeHold_procs, inodeHold_files, and_self] <;>
        split_ifs <;> simp
  | none =>
      cases env.parent with
      | none => simp only; split_ifs <;> simp
      | some d => cases env.create.2 <;> simp only <;> split_ifs <;> simp

/-- `fd_alloc` fails and changes nothing, or stores the new object in the first free entry. -/
theorem fdAlloc_spec {mem : Option (ℕ × File)} {fd : ℤ} (hs : s.fdAlloc p mem = (fd, t)) :
    (fd < 0 ∧ t = s) ∨ ∃ i f junk, fd = (i : ℕ) ∧ i < maxOpenFiles ∧
      (s.procs p).openFiles i = none ∧ mem = some (f, junk) ∧
      t = (s.setOpen p i (some f)).setFile f (some junk) := by
  unfold fdAlloc at hs
  cases hi : (List.range maxOpenFiles).find? fun i => (s.procs p).openFiles i = none with
  | none =>
      simp only [hi, Prod.mk.injEq] at hs
      exact .inl ⟨by omega, hs.2.symm⟩
  | some i =>
      have hfree : (s.procs p).openFiles i = none := by simpa using List.find?_some hi
      have hlt : i < maxOpenFiles := List.mem_range.mp (List.mem_of_find?_eq_some hi)
      cases mem with
      | none =>
          simp only [hi, setOpen_self hfree, Prod.mk.injEq] at hs
          exact .inl ⟨by simp [← hs.1, enomem], hs.2.symm⟩
      | some m =>
          simp only [hi, Prod.mk.injEq] at hs
          exact .inr ⟨i, m.1, m.2, hs.1.symm, hlt, hfree, rfl, hs.2.symm⟩

theorem fdGet_of_lt {i : ℕ} (hi : i < maxOpenFiles) :
    s.fdGet p i = ((s.procs p).openFiles i).map .file := by
  have h₁ : ¬ ((i : ℤ) < 0 ∨ (maxOpenFiles : ℤ) < i) := by omega
  have h₂ : (i : ℤ) ≠ maxOpenFiles := by omega
  rw [fdGet, if_neg h₁, if_neg h₂, Int.toNat_natCast]

/-- The entry `fd_get` finds just after `fd_alloc`. -/
theorem fdGet_opened {i : ℕ} {file : Option File} (hi : i < maxOpenFiles) :
    ((s.setOpen p i (some f)).setFile f file).fdGet p i = some (.file f) := by
  rw [fdGet_of_lt hi, setFile_procs, setOpen_procs_self, Proc.setOpen_openFiles,
    Function.update_self, Option.map_some]

theorem setFile_setFile (s : FileTables) (f : ℕ) (a b : Option File) :
    (s.setFile f a).setFile f b = s.setFile f b := by
  simp [setFile]

theorem Counted.opened {i : ℕ} {file : File} (h : Counted s) (hp : (s.procs p).state.Alive)
    (hi : i < maxOpenFiles) (hfree : (s.procs p).openFiles i = none) (hf : s.files f = none)
    (hfile : file.count = 1) : Counted ((s.setOpen p i (some f)).setFile f (some file)) :=
  counted_iff_holding.mpr ((counted_iff_holding.mp h).opened hp hi hfree hf hfile)

/-- No open operation that is reached fails. -/
def OpenCareful (s : FileTables) (p : Slot) (env : OpenEnv) (flags : BitVec 32) : Prop :=
  (s.openNode env flags).1.isOk → 0 ≤ (s.fdAlloc p env.mem).1 → 0 ≤ (openOp env env.ops).1

/-- A failed open leaves the tables alone. -/
def OpenKeeps (s : FileTables) (r : ℤ) (t : FileTables) : Prop :=
  r < 0 → ∀ q, (t.procs q).openFiles = (s.procs q).openFiles

theorem fdAlloc_congr (hprocs : t.procs = s.procs) (mem : Option (ℕ × File)) :
    (t.fdAlloc p mem).1 = (s.fdAlloc p mem).1 := by
  unfold fdAlloc
  rw [hprocs]
  cases (List.range maxOpenFiles).find? fun i => (s.procs p).openFiles i = none with
  | none => rfl
  | some i => cases mem <;> rfl

theorem Counted.open_iff {env : OpenEnv} {flags : BitVec 32} {r : ℤ} (h : Counted s)
    (hp : (s.procs p).state.Alive) (hfresh : ∀ m ∈ env.mem, s.files m.1 = none)
    (hs : s.sysOpen p env flags = some (r, t)) :
    (Counted t ∧ OpenKeeps s r t) ↔ OpenCareful s p env flags := by
  have ⟨hprocs, hfiles⟩ := openNode_frame (s := s) env flags
  unfold sysOpen at hs
  cases hnode : s.openNode env flags with
  | mk res u =>
      rw [hnode] at hs hprocs hfiles
      have hu : Counted u := h.congr hfiles hprocs
      cases res with
      | error e =>
          cases hs
          refine iff_of_true ⟨hu, fun _ q => by rw [hprocs]⟩ ?_
          simp [OpenCareful, hnode, Except.isOk, Except.toBool]
      | ok node =>
          cases hfd : u.fdAlloc p env.mem with
          | mk fd v =>
              have hfdeq : (s.fdAlloc p env.mem).1 = fd := by
                rw [← fdAlloc_congr hprocs, hfd]
              simp only [hfd] at hs
              rcases fdAlloc_spec hfd with ⟨hneg, rfl⟩ | ⟨i, f, junk, rfl, hi, hfree, hmem, rfl⟩
              · rw [if_pos hneg] at hs
                cases hs
                refine iff_of_true ⟨hu.congr (by simp) (by simp), fun _ q => ?_⟩ ?_
                · rw [inodePut_procs, hprocs]
                · intro _ hpos
                  omega
              · have hf : u.files f = none := by
                  rw [hfiles]
                  exact hfresh _ hmem
                have hup : (u.procs p).state.Alive := by rwa [hprocs]
                rw [if_neg (by omega), fdGet_opened hi] at hs
                cases node with
                | none => cases hs
                | some n =>
                    simp only [setFile_setFile] at hs
                    have hcareful : OpenCareful s p env flags ↔ 0 ≤ (openOp env env.ops).1 := by
                      simp [OpenCareful, hnode, hfdeq, Except.isOk, Except.toBool]
                    rw [hcareful]
                    split_ifs at hs with hfail
                    · -- The file is freed and the entry stays.
                      refine iff_of_false ?_ (by simpa [openedFile] using hfail)
                      simp only [filePut, setFile, Function.update_self, Option.bind_eq_bind,
                        Option.bind_some, openedFile] at hs
                      cases hs
                      rintro ⟨hcount, -⟩
                      have := hcount.valid p (by simpa [setFile] using hup) i hi f (by simp)
                      simp at this
                    · cases hs
                      refine iff_of_true ⟨hu.opened hup hi hfree hf rfl, fun hr => ?_⟩
                        (by simpa [openedFile] using hfail)
                      omega

theorem Counted.socket {socket : Except ℤ ℕ} {mem : Option (ℕ × File)} {r : ℤ} (h : Counted s)
    (hp : (s.procs p).state.Alive) (hfresh : ∀ m ∈ mem, s.files m.1 = none)
    (hs : s.socketCreate p socket mem = some (r, t)) : Counted t := by
  unfold socketCreate at hs
  cases socket with
  | error e =>
      cases hs
      exact h
  | ok n =>
      have hu : Counted (s.inodeHold n) := h.congr rfl rfl
      cases hfd : (s.inodeHold n).fdAlloc p mem with
      | mk fd v =>
          simp only [hfd] at hs
          rcases fdAlloc_spec hfd with ⟨hneg, rfl⟩ | ⟨i, f, junk, rfl, hi, hfree, hmem, rfl⟩
          · rw [if_pos hneg] at hs
            cases hs
            exact hu.congr (by simp) (by simp)
          · rw [if_neg (by omega), fdGet_opened hi] at hs
            simp only [setFile_setFile] at hs
            cases hs
            exact hu.opened hp hi hfree (hfresh _ hmem) rfl

theorem fdGet_file {fd : ℤ} (h : s.fdGet p fd = some (.file f)) :
    ∃ i : ℕ, fd = i ∧ i < maxOpenFiles ∧ (s.procs p).openFiles i = some f := by
  unfold fdGet at h
  split_ifs at h with h₁ h₂
  · cases hpar : (s.procs p).parent <;> rw [hpar] at h <;> cases h
  · obtain ⟨g, hg, hgf⟩ := Option.map_eq_some_iff.mp h
    cases hgf
    exact ⟨fd.toNat, by omega, by omega, hg⟩

theorem Counted.close {fd r : ℤ} (h : Counted s) (hp : (s.procs p).state.Alive)
    (hs : s.sysClose p fd = some (r, t)) : Counted t := by
  unfold sysClose at hs
  cases hget : s.fdGet p fd with
  | none =>
      simp only [hget, Option.some.injEq, Prod.mk.injEq] at hs
      exact hs.2 ▸ h
  | some x =>
      cases x with
      | proc q => simp [hget] at hs
      | file f =>
          obtain ⟨i, rfl, hi, hopen⟩ := fdGet_file hget
          simp only [hget, Int.toNat_natCast] at hs
          have hhold := counted_iff_holding.mp h
          obtain ⟨u, hu, -, hput⟩ := (hhold.clear hp hi hopen).put
          rw [hu] at hs
          cases hs
          exact counted_iff_holding.mpr hput

theorem Counted.reap (h : Counted s) (hc : (s.procs c).state = .zombie) :
    Counted (s.reap p c) :=
  counted_iff_holding.mpr ((counted_iff_holding.mp h).setDead (by simp [hc]) (by simp))

end FileTables

/-! ## Runs -/

variable {s t : FileTables} {e : FdCall}

/-- The caller is live, and `kmalloc` returns nothing that is allocated. -/
def FdStep (s : FileTables) (e : FdCall) (t : FileTables) : Prop :=
  (s.procs e.caller).state.Alive ∧ (∀ m ∈ e.mem, s.files m.1 = none) ∧ s.call e = some t

/-- `fd_get` leads to a slot of `open_files` only, and a failed `sys_open` leaves the tables alone. -/
def CallOk (s : FileTables) : FdCall → Prop
  | .open p env flags => ∀ r t, s.sysOpen p env flags = some (r, t) → s.OpenKeeps r t
  | .close p fd | .get p fd =>
      ∀ x, s.fdGet p fd = some x → ∃ (i f : ℕ), fd = i ∧ i < maxOpenFiles ∧
        x = .file f ∧ (s.procs p).openFiles i = some f
  | _ => True

/-- No open operation fails, no fork of a process with open files fails late, and
the number `MAX_OPEN_FILES` is not used by a process that has a parent. -/
def Careful (s : FileTables) : FdCall → Prop
  | .open p env flags => s.OpenCareful p env flags
  | .fork p kstack pgdir copied => s.ForkCareful p kstack pgdir copied
  | .close p fd | .get p fd => fd = maxOpenFiles → (s.procs p).parent = none
  | _ => True

theorem fdGet_ok_iff {p : Slot} {fd : ℤ} :
    (∀ x, s.fdGet p fd = some x → ∃ (i f : ℕ), fd = i ∧ i < maxOpenFiles ∧
      x = .file f ∧ (s.procs p).openFiles i = some f) ↔
      (fd = maxOpenFiles → (s.procs p).parent = none) := by
  constructor
  · intro h hfd
    by_contra hne
    obtain ⟨q, hq⟩ := Option.ne_none_iff_exists'.mp hne
    obtain ⟨i, f, hi, hlt, -⟩ := h (.proc q) (by simp [FileTables.fdGet, hfd, hq])
    omega
  · intro h x hx
    cases x with
    | file f =>
        obtain ⟨i, hi, hlt, hopen⟩ := FileTables.fdGet_file hx
        exact ⟨i, f, hi, hlt, rfl, hopen⟩
    | proc q =>
        unfold FileTables.fdGet at hx
        split_ifs at hx with h₁ h₂
        · simp [h h₂] at hx
        · cases hopen : (s.procs p).openFiles fd.toNat <;> simp [hopen] at hx

theorem FileTables.Counted.call_iff (h : s.Counted) (hs : FdStep s e t) :
    (t.Counted ∧ CallOk s e) ↔ Careful s e := by
  obtain ⟨hp, hfresh, hcall⟩ := hs
  cases e with
  | «open» p env flags =>
      obtain ⟨⟨r, u⟩, hr, rfl⟩ := Option.map_eq_some_iff.mp hcall
      rw [show Careful s (.open p env flags) ↔ _ from (h.open_iff hp hfresh hr).symm]
      refine and_congr_right fun _ => ⟨fun hok => hok r u hr, fun hok r' u' hr' => ?_⟩
      rw [hr] at hr'
      cases hr'
      exact hok
  | socket p socket mem =>
      obtain ⟨⟨r, u⟩, hr, rfl⟩ := Option.map_eq_some_iff.mp hcall
      exact iff_of_true ⟨h.socket hp hfresh hr, trivial⟩ trivial
  | close p fd =>
      obtain ⟨⟨r, u⟩, hr, rfl⟩ := Option.map_eq_some_iff.mp hcall
      exact (and_iff_right (h.close hp hr)).trans fdGet_ok_iff
  | get p fd =>
      cases hcall
      exact (and_iff_right h).trans fdGet_ok_iff
  | fork p kstack pgdir copied =>
      exact (and_iff_left trivial).trans (h.fork_iff hp hcall)
  | exit p => exact iff_of_true ⟨h.exit hp hcall, trivial⟩ trivial
  | reap p c =>
      simp only [FileTables.call] at hcall
      split_ifs at hcall with hc
      cases hcall
      exact iff_of_true ⟨h.reap hc.1, trivial⟩ trivial

theorem bootTables_counted : bootTables.Counted := by
  refine ⟨fun p _ fd _ f hf => ?_, fun f file hf => ?_⟩
  · cases hf
  · cases hf

/-- The counts agree in every state of a run, and every call is sound, exactly when
every call is careful. -/
theorem descriptors_counted_iff {u : FileTables} {tr : List (FileTables × FdCall)}
    (h : Trace FdStep bootTables tr u) :
    (Throughout FileTables.Counted tr u ∧ ∀ x ∈ tr, CallOk x.1 x.2) ↔
      ∀ x ∈ tr, Careful x.1 x.2 :=
  h.throughout_and_iff (fun _ _ _ hs => hs.call_iff) bootTables_counted

/-- An open of the node 1, with operations `ops` and no driver. -/
def plainOpen (ops : FileOps) : OpenEnv :=
  { node := some 1, slash := true, parent := none, parentAllowed := false, create := (0, none),
    allowed := fun _ => true, truncate := none, ops := some ops, chrdev := none,
    mem := some (0, { inode := 0, op := none, pos := 0, mode := 0, flags := 0, count := 0 }) }

/-- The child of the initial process. -/
def child : Slot := slot1

/-- A file is opened, shared by a fork, and closed by an exit and a close. -/
def sharedFile : List FdCall :=
  [.open init (plainOpen .ext2File) oRdwr, .fork init true true true, .exit child, .close init 0]

theorem descriptors_counted_iff_shared : ∃ (u : FileTables) (tr : List (FileTables × FdCall)),
    Trace FdStep bootTables tr u ∧ (u.files 0).isNone ∧ tr.map Prod.snd = sharedFile ∧
      Throughout FileTables.Counted tr u ∧ ∀ x ∈ tr, CallOk x.1 x.2 := by
  have hrun : ((exec FileTables.call bootTables sharedFile).any fun u => (u.files 0).isNone) = true := by
    decide
  obtain ⟨u, hu, hnone⟩ := (Option.any_eq_true _ _).mp hrun
  have hguard : ((history FileTables.call bootTables sharedFile).all fun x =>
      decide (x.1.procs x.2.caller).state.Alive && x.2.mem.all fun m => (x.1.files m.1).isNone) = true := by
    decide
  have htr : Trace FdStep bootTables _ u := (exec_trace hu).imp
    (C := fun s e => (s.procs e.caller).state.Alive ∧ ∀ m ∈ e.mem, s.files m.1 = none)
    (fun s e t hc hst => ⟨hc.1, hc.2, hst⟩) fun x hx => by
      have := List.all_eq_true.mp hguard x hx
      simp only [Bool.and_eq_true, decide_eq_true_eq] at this
      refine ⟨this.1, fun m hm => ?_⟩
      have hm' := this.2
      rw [hm] at hm'
      simpa using hm'
  refine ⟨u, _, htr, hnone, rfl, (descriptors_counted_iff htr).mpr fun x hx => ?_⟩
  have hmem := mem_history hx
  simp only [sharedFile, List.mem_cons, List.not_mem_nil, or_false] at hmem
  rcases hmem with hx | hx | hx | hx <;> rw [hx]
  · exact fun _ _ => by decide
  · exact fun hfalse => by cases hfalse
  · trivial
  · exact fun hfd => absurd hfd (by decide)

/-- Opening a character device that has no driver. -/
theorem not_descriptors_counted_nodev : ¬ ∀ (u : FileTables) (tr : List (FileTables × FdCall)),
    Trace FdStep bootTables tr u →
      Throughout FileTables.Counted tr u ∧ ∀ x ∈ tr, CallOk x.1 x.2 := by
  intro hclaim
  have hrun : (bootTables.call (.open init (plainOpen .chrdev) oRdwr)).isSome := by decide
  obtain ⟨u, hu⟩ := Option.isSome_iff_exists.mp hrun
  have hst : FdStep bootTables (.open init (plainOpen .chrdev) oRdwr) u :=
    ⟨by decide, fun _ _ => rfl, hu⟩
  have ⟨hcount, hok⟩ := hclaim u _ (.single hst)
  have hcareful := (bootTables_counted.call_iff hst).mp ⟨hcount.2, hok _ List.mem_cons_self⟩
  exact absurd (hcareful rfl (by decide)) (by decide)

end Ferrite.Fs
