import Ferrite.Fs.DescriptorCounts

/-!
# The entries of live tables

Opening a file, creating a socket, forking and reaping a zombie fill entries and take none out
of the table of a live process. What `file_put` does is said apart from that.
-/
namespace Ferrite.Fs.FileTables
open Tables Sys

variable {s t : FileTables} {p : Slot} {f : ℕ}

/-- A file has references exactly if it stands in a live table. -/
theorem refs_pos_iff : 0 < s.refs f ↔
    ∃ q, (s.procs q).state.Alive ∧ ∃ i < maxOpenFiles, (s.procs q).openFiles i = some f := by
  constructor
  · intro h
    by_contra hno
    have hzero : s.refs f = 0 := by
      apply Finset.sum_eq_zero
      intro q _
      unfold Proc.owned
      split
      · rename_i hq
        apply occurrences_none
        intro i hi hopen
        exact hno ⟨q, hq, i, hi, hopen⟩
      · rfl
    omega
  · intro h
    obtain ⟨q, hq, i, hi, hopen⟩ := h
    exact refs_pos hq hi hopen

/-- The entries of live tables stay. -/
def Grows (s t : FileTables) : Prop :=
  ∀ q, (s.procs q).state.Alive → (t.procs q).state.Alive ∧
    ∀ i < maxOpenFiles, ∀ f, (s.procs q).openFiles i = some f → (t.procs q).openFiles i = some f

theorem Grows.refl (s : FileTables) : s.Grows s := fun _ hq => ⟨hq, fun _ _ _ h => h⟩

theorem Grows.of_procs (h : t.procs = s.procs) : s.Grows t := by
  intro q hq
  rw [h]
  exact ⟨hq, fun _ _ _ h => h⟩

theorem Grows.refs_pos (h : s.Grows t) (hf : 0 < s.refs f) : 0 < t.refs f := by
  obtain ⟨q, hq, i, hi, hopen⟩ := refs_pos_iff.mp hf
  have ⟨hq', hkeep⟩ := h q hq
  exact refs_pos_iff.mpr ⟨q, hq', i, hi, hkeep i hi f hopen⟩

/-- A free entry is filled. -/
theorem Grows.setOpen {i : ℕ} {v : Option ℕ} (hfree : (s.procs p).openFiles i = none)
    (hprocs : t.procs = (s.setOpen p i v).procs) : s.Grows t := by
  intro q hq
  rw [hprocs]
  by_cases hqp : q = p
  · subst hqp
    rw [setOpen_procs_self]
    refine ⟨hq, ?_⟩
    intro j hj f hopen
    rw [Proc.setOpen_openFiles]
    by_cases hji : j = i
    · rw [hji, hfree] at hopen
      cases hopen
    · rw [Function.update_of_ne hji]
      exact hopen
  · rw [setOpen_procs_of_ne hqp]
    exact ⟨hq, fun _ _ _ h => h⟩

theorem setFile_files_self (s : FileTables) (f : ℕ) (v : Option File) : (s.setFile f v).files f = v := by
  simp [setFile]

theorem setFile_files_of_ne {g : ℕ} {v : Option File} (h : g ≠ f) :
    (s.setFile f v).files g = s.files g := by
  simp [setFile, h]

/-- `file_put` changes no table, and of the files it counts one down or frees it. -/
theorem filePut_spec (h : s.filePut f = some t) :
    t.procs = s.procs ∧ (∀ g ≠ f, t.files g = s.files g) ∧
      ∃ file, s.files f = some file ∧
        ∀ file', t.files f = some file' → file'.op = file.op ∧ file'.inode = file.inode := by
  obtain ⟨file, hfile, h⟩ := Option.bind_eq_some_iff.mp h
  simp only at h
  split at h
  · cases h
    refine ⟨?_, ?_, file, hfile, ?_⟩
    · rw [setFile_procs, inodePut_procs]
    · intro g hg
      rw [setFile_files_of_ne hg, inodePut_files]
    · intro file' hfile'
      rw [setFile_files_self] at hfile'
      cases hfile'
  · cases h
    refine ⟨rfl, ?_, file, hfile, ?_⟩
    · intro g hg
      exact setFile_files_of_ne hg
    · intro file' hfile'
      rw [setFile_files_self] at hfile'
      cases hfile'
      exact ⟨rfl, rfl⟩

/-- A new file takes a free entry. -/
theorem fdAlloc_grows {mem : Option (ℕ × File)} {fd : ℤ} (h : s.fdAlloc p mem = (fd, t)) :
    s.Grows t := by
  rcases fdAlloc_spec h with ⟨_, rfl⟩ | ⟨i, g, junk, _, _, hfree, _, rfl⟩
  · exact Grows.refl t
  · exact Grows.setOpen hfree rfl

theorem Grows.trans {u : FileTables} (h : s.Grows t) (h' : t.Grows u) : s.Grows u := by
  intro q hq
  have ⟨hq', hkeep⟩ := h q hq
  have ⟨hq'', hkeep'⟩ := h' q hq'
  exact ⟨hq'', fun i hi f hopen => hkeep' i hi f (hkeep i hi f hopen)⟩

theorem sysOpen_grows {env : OpenEnv} {flags : BitVec 32} {r : ℤ}
    (h : s.sysOpen p env flags = some (r, t)) : s.Grows t := by
  have ⟨hprocs, _⟩ := openNode_frame (s := s) env flags
  unfold sysOpen at h
  cases hnode : s.openNode env flags with
  | mk res u =>
      rw [hnode] at h hprocs
      have hu : s.Grows u := Grows.of_procs hprocs
      cases res with
      | error e =>
          cases h
          exact hu
      | ok node =>
          cases hfd : u.fdAlloc p env.mem with
          | mk fd v =>
              have hv : s.Grows v := hu.trans (fdAlloc_grows hfd)
              simp only [hfd] at h
              split at h
              · cases h
                exact hv.trans (Grows.of_procs (inodePut_procs v node))
              · split at h
                · cases h
                  exact hv.trans (Grows.of_procs (inodePut_procs v _))
                · split at h
                  · obtain ⟨w, hw, h⟩ := Option.bind_eq_some_iff.mp h
                    cases h
                    apply hv.trans
                    apply Grows.of_procs
                    rw [inodePut_procs, (filePut_spec hw).1]
                    rfl
                  · cases h
                    exact hv.trans (Grows.of_procs rfl)
                · cases h

theorem socketCreate_grows {socket : Except ℤ ℕ} {mem : Option (ℕ × File)} {r : ℤ}
    (h : s.socketCreate p socket mem = some (r, t)) : s.Grows t := by
  unfold socketCreate at h
  cases socket with
  | error e =>
      cases h
      exact Grows.refl s
  | ok n =>
      have hu : s.Grows (s.inodeHold n) := Grows.of_procs rfl
      cases hfd : (s.inodeHold n).fdAlloc p mem with
      | mk fd v =>
          have hv : s.Grows v := hu.trans (fdAlloc_grows hfd)
          simp only [hfd] at h
          split at h
          · cases h
            exact hv.trans (Grows.of_procs (inodePut_procs v (some n)))
          · split at h
            · cases h
              exact hv.trans (Grows.of_procs rfl)
            · cases h

/-- A process that is not live changes. -/
theorem Grows.setDead {c : Slot} (hc : ¬ (s.procs c).state.Alive)
    (hrest : ∀ q ≠ c, t.procs q = s.procs q) : s.Grows t := by
  intro q hq
  have hqc : q ≠ c := fun heq => hc (heq ▸ hq)
  rw [hrest q hqc]
  exact ⟨hq, fun _ _ _ h => h⟩

theorem shareFrom_procs {c : Slot} {n fd : ℕ} (h : shareFrom p c n fd s = some t) :
    ∀ q ≠ c, t.procs q = s.procs q := by
  induction n generalizing fd s with
  | zero =>
      cases h
      exact fun _ _ => rfl
  | succ n ih =>
      obtain ⟨u, hu, ht⟩ := Option.bind_eq_some_iff.mp h
      intro q hq
      rw [ih ht q hq]
      unfold shareOne at hu
      split at hu
      · cases hu
        exact setOpen_procs_of_ne hq
      · obtain ⟨file, _, hu⟩ := Option.bind_eq_some_iff.mp hu
        cases hu
        rw [setFile_procs]
        exact setOpen_procs_of_ne hq

theorem allocProc_procs {kstack pgdir : Bool} {r : Option Slot}
    (h : s.allocProc p kstack pgdir = some (r, t)) :
    (r = none ∧ t = s) ∨
      ∃ c, r = some c ∧ ¬ (s.procs c).state.Alive ∧ ∀ q ≠ c, t.procs q = s.procs q := by
  unfold allocProc at h
  cases hc : (List.finRange numProc).find? fun c => (s.procs c).state = .unused with
  | none =>
      rw [hc] at h
      cases h
      exact .inl ⟨rfl, rfl⟩
  | some c =>
      rw [hc] at h
      simp only at h
      have hunused : (s.procs c).state = .unused := by simpa using List.find?_some hc
      split at h
      · cases h
        exact .inl ⟨rfl, rfl⟩
      · obtain ⟨root, _, h⟩ := Option.bind_eq_some_iff.mp h
        obtain ⟨pwd, _, h⟩ := Option.bind_eq_some_iff.mp h
        obtain ⟨u, hu, h⟩ := Option.bind_eq_some_iff.mp h
        cases h
        refine .inr ⟨c, rfl, ?_, ?_⟩
        · rw [hunused]
          exact not_alive_unused
        · intro q hq
          rw [shareFrom_procs hu q hq]
          exact setProc_procs_of_ne hq

theorem doFork_grows {kstack pgdir copied : Bool} (h : s.doFork p kstack pgdir copied = some t) :
    s.Grows t := by
  obtain ⟨⟨r, u⟩, hr, ht⟩ := Option.bind_eq_some_iff.mp h
  rcases allocProc_procs hr with ⟨rfl, rfl⟩ | ⟨c, rfl, hdead, hrest⟩
  · cases ht
    exact Grows.refl t
  · simp only at ht
    apply Grows.setDead hdead
    intro q hq
    cases copied with
    | true =>
        cases ht
        rw [← hrest q hq]
        exact setProc_procs_of_ne hq
    | false =>
        cases ht
        exact hrest q hq

theorem reap_grows {c : Slot} (hc : (s.procs c).state = .zombie) : s.Grows (s.reap p c) := by
  apply Grows.setDead (c := c)
  · rw [hc]
    exact not_alive_zombie
  · intro q hq
    exact setProc_procs_of_ne hq

end Ferrite.Fs.FileTables
