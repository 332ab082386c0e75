import Ferrite.Fs.DescriptorEntries
import Ferrite.Net.SocketFiles

/-!
# When the release of a file runs

Both `sys_close` and `do_exit` run the release of a file with every entry that they take out of
a table, whatever `f_count` is. The other calls keep all entries of live processes. So the
release runs exactly with the last entry, and a connection stays while an entry leads to its
socket, if no socket that is closed has another entry.
-/
namespace Ferrite.Net
open Fs Runs Sys Tables

namespace SocketFiles
variable {s t u : SocketFiles} {p q : Slot} {f fd i k n : ℕ} {released first rest : List ℕ}
  {closed more : ℕ → ℕ} {stays stays' : Slot → ℕ → Prop}

/-- The file has the operation `release`. -/
def hasRelease (s : SocketFiles) (f : ℕ) : Bool :=
  (s.tables.files f).any fun file => file.op = some .socket

/-- The socket of a file. -/
def socketOf (s : SocketFiles) (f : ℕ) : Option ℕ :=
  (s.tables.files f).bind fun file => if file.op = some .socket then s.payload file.inode else none

/-- The entry of a live table. -/
def Entry (s : SocketFiles) (q : Slot) (i f : ℕ) : Prop :=
  (s.tables.procs q).state.Alive ∧ i < maxOpenFiles ∧ (s.tables.procs q).openFiles i = some f

/-- A descriptor of a live process leads to the socket. -/
def Leads (s : SocketFiles) (q : Slot) (i k : ℕ) : Prop := ∃ f, s.Entry q i f ∧ s.socketOf f = some k

/-- The call runs the release of a file once if the last reference to it goes away, and not at
all otherwise. -/
def Once (s : SocketFiles) (released : List ℕ) (t : SocketFiles) : Prop :=
  ∀ f, released.count f =
    if s.hasRelease f = true ∧ 0 < s.tables.refs f ∧ t.tables.refs f = 0 then 1 else 0

/-- A connected socket with a descriptor stays connected with its peer. -/
def KeepsPeers (s t : SocketFiles) : Prop :=
  ∀ q i k peer, t.Leads q i k → link s.net k = some (.connected, some peer) →
    link t.net k = some (.connected, some peer)

/-- No other descriptor leads to the file, and if its socket is connected, none that stays leads
to the socket. -/
def SoleUse (s : SocketFiles) (f : ℕ) (stays : Slot → ℕ → Prop) : Prop :=
  s.hasRelease f = true → s.tables.refs f = 1 ∧ ∀ k peer, s.socketOf f = some k →
    link s.net k = some (.connected, some peer) → ∀ q i, stays q i → ¬ s.Leads q i k

/-- What a call that closes descriptors does: `closed` tells how many entries of a file it takes
out, and `stays` which entries are left. -/
structure Drops (s t : SocketFiles) (closed : ℕ → ℕ) (stays : Slot → ℕ → Prop) (released : List ℕ) :
    Prop where
  count : ∀ f, released.count f = if s.hasRelease f = true then closed f else 0
  refs : ∀ f, t.tables.refs f + closed f = s.tables.refs f
  valid : ∀ f, 0 < closed f → (s.tables.files f).isSome
  files : ∀ f file', t.tables.files f = some file' →
    ∃ file, s.tables.files f = some file ∧ file'.op = file.op ∧ file'.inode = file.inode
  others : ∀ f, closed f = 0 → t.tables.files f = s.tables.files f
  payload : t.payload = s.payload
  gone : ∀ f k, 0 < closed f → s.socketOf f = some k → link t.net k = some (.disconnecting, none)
  kept : ∀ k, (∀ f, 0 < closed f → s.socketOf f ≠ some k) → link t.net k = link s.net k
  entries : ∀ q i f, t.Entry q i f ↔ s.Entry q i f ∧ stays q i

/-! ## One entry after the other -/

theorem hasRelease_of_socketOf (h : s.socketOf f = some k) : s.hasRelease f = true := by
  unfold socketOf at h
  unfold hasRelease
  obtain ⟨file, hfile, hop⟩ := Option.bind_eq_some_iff.mp h
  rw [hfile]
  split at hop
  · rename_i hsock
    exact decide_eq_true hsock
  · cases hop

theorem socketOf_congr (hfiles : t.tables.files f = s.tables.files f) (hpayload : t.payload = s.payload) :
    t.socketOf f = s.socketOf f := by
  unfold socketOf
  rw [hfiles, hpayload]

theorem Drops.hasRelease_eq (h : Drops s t closed stays released) (hf : (t.tables.files f).isSome) :
    t.hasRelease f = s.hasRelease f ∧ t.socketOf f = s.socketOf f := by
  obtain ⟨file', hfile'⟩ := Option.isSome_iff_exists.mp hf
  obtain ⟨file, hfile, hop, hinode⟩ := h.files f file' hfile'
  unfold hasRelease socketOf
  rw [hfile', hfile, h.payload]
  simp only [Option.any_some, Option.bind_some, hop, hinode, and_self]

theorem Drops.refl (s : SocketFiles) (hstays : ∀ q i f, s.Entry q i f → stays q i) :
    Drops s s (fun _ => 0) stays [] where
  count f := by simp
  refs f := Nat.add_zero _
  valid f hf := absurd hf (lt_irrefl 0)
  files f file' hfile' := ⟨file', hfile', rfl, rfl⟩
  others f _ := rfl
  payload := rfl
  gone f k hf := absurd hf (lt_irrefl 0)
  kept k _ := rfl
  entries q i f := ⟨fun h => ⟨h, hstays q i f h⟩, fun h => h.1⟩

theorem Drops.trans (h : Drops s t closed stays first) (h' : Drops t u more stays' rest) :
    Drops s u (fun f => closed f + more f) (fun q i => stays q i ∧ stays' q i) (first ++ rest) where
  count f := by
    rw [List.count_append, h.count, h'.count]
    by_cases hmore : 0 < more f
    · rw [(h.hasRelease_eq (h'.valid f hmore)).1]
      split <;> rfl
    · have hzero : more f = 0 := by omega
      rw [hzero, ite_self]
      split <;> rfl
  refs f := by
    have := h.refs f
    have := h'.refs f
    omega
  valid f hf := by
    by_cases hc : 0 < closed f
    · exact h.valid f hc
    · have hmore : 0 < more f := by omega
      rw [← h.others f (by omega)]
      exact h'.valid f hmore
  files f file' hfile' := by
    obtain ⟨file, hfile, hop, hinode⟩ := h'.files f file' hfile'
    obtain ⟨file₀, hfile₀, hop₀, hinode₀⟩ := h.files f file hfile
    exact ⟨file₀, hfile₀, hop.trans hop₀, hinode.trans hinode₀⟩
  others f hf := by
    rw [h'.others f (by omega), h.others f (by omega)]
  payload := h'.payload.trans h.payload
  gone f k hf hk := by
    -- What is closed second may be another file of the same socket.
    by_cases hsecond : ∃ g, 0 < more g ∧ t.socketOf g = some k
    · obtain ⟨g, hg, hgk⟩ := hsecond
      exact h'.gone g k hg hgk
    · have hkept := h'.kept k fun g hg hgk => hsecond ⟨g, hg, hgk⟩
      by_cases hc : 0 < closed f
      · rw [hkept, h.gone f k hc hk]
      · have hmore : 0 < more f := by omega
        have hsame := (h.hasRelease_eq (h'.valid f hmore)).2
        exact absurd ⟨f, hmore, hsame.trans hk⟩ hsecond
  kept k hk := by
    have hfirst := h.kept k fun f hf => hk f (by omega)
    have hsecond := h'.kept k fun f hf hfk => by
      have hsame := (h.hasRelease_eq (h'.valid f hf)).2
      exact hk f (by omega) (hsame.symm.trans hfk)
    rw [hsecond, hfirst]
  entries q i f := by
    rw [h'.entries, h.entries, and_assoc]

theorem Drops.of_stays (h : Drops s t closed stays released)
    (hstays : ∀ q i f, s.Entry q i f → (stays q i ↔ stays' q i)) : Drops s t closed stays' released :=
  { h with
    entries := fun q i f => by
      rw [h.entries]
      constructor
      · intro hs
        exact ⟨hs.1, (hstays q i f hs.1).mp hs.2⟩
      · intro hs
        exact ⟨hs.1, (hstays q i f hs.1).mpr hs.2⟩ }

/-- `release` and `file_put` of one entry. -/
theorem closeEntry_drops (hentry : s.Entry p fd f) (h : s.closeEntry p fd f = some (released, t)) :
    Drops s t (fun g => if g = f then 1 else 0) (fun q i => ¬ (q = p ∧ i = fd)) released ∧
      t.tables.procs = (s.tables.setOpen p fd none).procs := by
  obtain ⟨hp, hfd, hopen⟩ := hentry
  obtain ⟨⟨log, v⟩, hrel, h⟩ := Option.bind_eq_some_iff.mp h
  obtain ⟨tables, hput, heq⟩ := Option.bind_eq_some_iff.mp h
  cases heq
  obtain ⟨htables, hpayload, file, hfile, hcase⟩ := release_spec hrel
  rw [htables] at hput
  obtain ⟨hprocs, hothers, file₁, hfile₁, hkeep⟩ := FileTables.filePut_spec hput
  have hfile : s.tables.files f = some file := hfile
  have hsame : file₁ = file := by
    have : s.tables.files f = some file₁ := hfile₁
    rw [hfile] at this
    exact (Option.some.inj this).symm
  subst hsame
  have hsocket : s.socketOf f = if file₁.op = some .socket then s.payload file₁.inode else none := by
    unfold socketOf
    rw [hfile]
    rfl
  have hrelease : s.hasRelease f = decide (file₁.op = some .socket) := by
    unfold hasRelease
    rw [hfile]
    rfl
  refine ⟨?_, hprocs⟩
  constructor
  case count =>
    intro g
    by_cases hg : g = f
    · subst hg
      rw [if_pos rfl, hrelease]
      rcases hcase with ⟨hop, rfl, _⟩ | ⟨hop, rfl, _⟩
      · simp [hop]
      · simp [hop]
    · rw [if_neg hg, ite_self]
      rcases hcase with ⟨_, rfl, _⟩ | ⟨_, rfl, _⟩
      · rfl
      · simp [Ne.symm hg]
  case refs =>
    intro g
    have hrefs : tables.refs g = (s.tables.setOpen p fd none).refs g :=
      FileTables.refs_congr fun q => by rw [hprocs]; rfl
    have := FileTables.refs_setOpen (v := none) hp hfd g
    simp only [hopen, Option.some.injEq, reduceCtorEq, if_false, @eq_comm _ f g] at this
    change tables.refs g + _ = _
    omega
  case valid =>
    intro g hg
    by_cases hgf : g = f
    · rw [hgf, hfile]
      rfl
    · rw [if_neg hgf] at hg
      exact absurd hg (lt_irrefl 0)
  case files =>
    intro g file' hfile'
    by_cases hgf : g = f
    · subst hgf
      exact ⟨file₁, hfile, hkeep file' hfile'⟩
    · have : s.tables.files g = some file' := (hothers g hgf).symm.trans hfile'
      exact ⟨file', this, rfl, rfl⟩
  case others =>
    intro g hg
    have hgf : g ≠ f := by
      intro hgf
      rw [if_pos hgf] at hg
      cases hg
    exact hothers g hgf
  case payload => exact hpayload
  case gone =>
    intro g k hg hk
    have hgf : g = f := by
      by_contra hgf
      rw [if_neg hgf] at hg
      exact lt_irrefl 0 hg
    subst hgf
    rw [hsocket] at hk
    rcases hcase with ⟨hop, _, _⟩ | ⟨hop, _, ⟨hnone, _⟩ | ⟨k', hk', hlink⟩⟩
    · rw [if_neg hop] at hk
      cases hk
    · rw [if_pos hop] at hk
      have hnone : s.payload file₁.inode = none := hnone
      rw [hnone] at hk
      cases hk
    · rw [if_pos hop] at hk
      have hk' : s.payload file₁.inode = some k' := hk'
      rw [hk'] at hk
      cases hk
      change link v.net k = _
      rw [hlink, Function.update_self]
  case kept =>
    intro k hk
    have hkf := hk f (by rw [if_pos rfl]; exact Nat.one_pos)
    rw [hsocket] at hkf
    change link v.net k = _
    rcases hcase with ⟨_, _, rfl⟩ | ⟨hop, _, ⟨_, rfl⟩ | ⟨k', hk', hlink⟩⟩
    · rfl
    · rfl
    · rw [if_pos hop] at hkf
      have hk' : s.payload file₁.inode = some k' := hk'
      rw [hk'] at hkf
      have hne : k ≠ k' := fun heq => hkf (by rw [heq])
      rw [hlink, Function.update_of_ne hne]
      rfl
  case entries =>
    intro q i g
    unfold Entry
    change (tables.procs q).state.Alive ∧ _ ∧ (tables.procs q).openFiles i = some g ↔ _
    rw [hprocs]
    change ((s.tables.setOpen p fd none).procs q).state.Alive ∧ _ ∧
      ((s.tables.setOpen p fd none).procs q).openFiles i = some g ↔ _
    by_cases hqp : q = p
    · subst hqp
      rw [FileTables.setOpen_procs_self, Proc.setOpen_openFiles, Proc.setOpen_state]
      by_cases hifd : i = fd
      · subst hifd
        simp
      · simp [hifd]
    · rw [FileTables.setOpen_procs_of_ne hqp]
      simp [hqp]

theorem exitOne_drops (hp : (s.tables.procs p).state.Alive) (hfd : fd < maxOpenFiles)
    (h : s.exitOne p fd = some (released, t)) :
    (t.tables.procs p).state.Alive ∧ ∃ closed : ℕ → ℕ,
      Drops s t closed (fun q i => ¬ (q = p ∧ i = fd)) released ∧
      ∀ f, 0 < closed f ↔ s.Entry p fd f := by
  unfold exitOne at h
  split at h
  · rename_i hnone
    cases h
    have hno (f : ℕ) : ¬ s.Entry p fd f := fun hentry => by
      have := hentry.2.2
      rw [hnone] at this
      cases this
    refine ⟨hp, fun _ => 0, Drops.refl s ?_, ?_⟩
    · intro q i f hentry hqi
      rw [hqi.1, hqi.2] at hentry
      exact hno f hentry
    · intro f
      exact ⟨fun hf => absurd hf (lt_irrefl 0), fun hentry => absurd hentry (hno f)⟩
  · rename_i f hopen
    have hentry : s.Entry p fd f := ⟨hp, hfd, hopen⟩
    obtain ⟨hdrops, hprocs⟩ := closeEntry_drops hentry h
    refine ⟨?_, _, hdrops, ?_⟩
    · rw [hprocs, FileTables.setOpen_procs_self, Proc.setOpen_state]
      exact hp
    · intro g
      by_cases hg : g = f
      · subst hg
        rw [if_pos rfl]
        exact ⟨fun _ => hentry, fun _ => Nat.one_pos⟩
      · rw [if_neg hg]
        constructor
        · intro hpos
          exact absurd hpos (lt_irrefl 0)
        · intro hentry'
          have := hentry'.2.2
          rw [hopen] at this
          exact absurd (Option.some.inj this).symm hg

/-- The closing loop takes out the entries from `fd` on. -/
theorem exitFrom_drops (hp : (s.tables.procs p).state.Alive) (hn : fd + n = maxOpenFiles)
    (h : exitFrom p n fd s = some (released, t)) :
    (t.tables.procs p).state.Alive ∧ ∃ closed : ℕ → ℕ,
      Drops s t closed (fun q i => ¬ (q = p ∧ fd ≤ i)) released ∧
      ∀ f, 0 < closed f ↔ ∃ i, fd ≤ i ∧ s.Entry p i f := by
  induction n generalizing fd s released with
  | zero =>
      have hno (i f : ℕ) (hentry : s.Entry p i f) : ¬ fd ≤ i := by
        have := hentry.2.1
        omega
      obtain ⟨rfl, rfl⟩ : [] = released ∧ s = t := by
        cases h
        exact ⟨rfl, rfl⟩
      refine ⟨hp, fun _ => 0, Drops.refl s ?_, ?_⟩
      · intro q i f hentry hqi
        rw [hqi.1] at hentry
        exact hno i f hentry hqi.2
      · intro f
        refine ⟨fun hf => absurd hf (lt_irrefl 0), ?_⟩
        intro hi
        obtain ⟨i, hle, hentry⟩ := hi
        exact absurd hle (hno i f hentry)
  | succ n ih =>
      obtain ⟨⟨first, u⟩, hu, h⟩ := Option.bind_eq_some_iff.mp h
      obtain ⟨⟨rest, v⟩, hv, h⟩ := Option.bind_eq_some_iff.mp h
      cases h
      obtain ⟨hpu, closed, hdrops, hclosed⟩ := exitOne_drops hp (by omega) hu
      obtain ⟨hpv, more, hdrops', hmore⟩ := ih hpu (by omega) hv
      refine ⟨hpv, _, (hdrops.trans hdrops').of_stays ?_, ?_⟩
      · intro q i f _
        constructor
        · intro hstay hqi
          by_cases hi : i = fd
          · exact hstay.1 ⟨hqi.1, hi⟩
          · exact hstay.2 ⟨hqi.1, by omega⟩
        · intro hstay
          exact ⟨fun hqi => hstay ⟨hqi.1, by omega⟩, fun hqi => hstay ⟨hqi.1, by omega⟩⟩
      · intro f
        have hsum : 0 < closed f + more f ↔ 0 < closed f ∨ 0 < more f := by omega
        rw [hsum, hclosed, hmore]
        constructor
        · intro hor
          rcases hor with hentry | ⟨i, hi, hentry⟩
          · exact ⟨fd, le_refl fd, hentry⟩
          · exact ⟨i, by omega, ((hdrops.entries p i f).mp hentry).1⟩
        · intro hex
          obtain ⟨i, hi, hentry⟩ := hex
          by_cases hifd : i = fd
          · rw [hifd] at hentry
            exact .inl hentry
          · exact .inr ⟨i, by omega, (hdrops.entries p i f).mpr ⟨hentry, fun hqi => hifd hqi.2⟩⟩

/-- Calls that leave the entries, the files and the sockets as they are. -/
theorem Drops.of_same (hfiles : t.tables.files = s.tables.files) (hpayload : t.payload = s.payload)
    (hnet : t.net = s.net) (hentries : ∀ q i f, t.Entry q i f ↔ s.Entry q i f)
    (hrefs : ∀ f, t.tables.refs f = s.tables.refs f) : Drops s t (fun _ => 0) (fun _ _ => True) [] where
  count f := by simp
  refs f := (Nat.add_zero _).trans (hrefs f)
  valid f hf := absurd hf (lt_irrefl 0)
  files f file' hfile' := by
    rw [hfiles] at hfile'
    exact ⟨file', hfile', rfl, rfl⟩
  others f _ := by rw [hfiles]
  payload := hpayload
  gone f k hf := absurd hf (lt_irrefl 0)
  kept k _ := by rw [hnet]
  entries q i f := by rw [hentries, and_true]

/-- The references of a file are counted by the entries of it. -/
theorem refs_of_procs (h : ∀ q, (t.tables.procs q).state = (s.tables.procs q).state ∧
    (t.tables.procs q).openFiles = (s.tables.procs q).openFiles) (f : ℕ) :
    t.tables.refs f = s.tables.refs f :=
  FileTables.refs_congr fun q => by
    unfold Proc.owned
    rw [(h q).1, (h q).2]

theorem entry_of_procs (h : ∀ q, (t.tables.procs q).state = (s.tables.procs q).state ∧
    (t.tables.procs q).openFiles = (s.tables.procs q).openFiles) (q : Slot) (i f : ℕ) :
    t.Entry q i f ↔ s.Entry q i f := by
  unfold Entry
  rw [(h q).1, (h q).2]

/-- What `do_exit` does in front of the closing loop. -/
theorem prepare_drops (s : SocketFiles) (p : Slot) :
    Drops s (s.setTables ((s.tables.adopt p).putDirs p)) (fun _ => 0) (fun _ _ => True) [] ∧
      (((s.tables.adopt p).putDirs p).procs p).state = (s.tables.procs p).state := by
  have hprocs (q : Slot) : (((s.tables.adopt p).putDirs p).procs q).state = (s.tables.procs q).state ∧
      (((s.tables.adopt p).putDirs p).procs q).openFiles = (s.tables.procs q).openFiles := by
    unfold FileTables.putDirs
    by_cases hq : q = p
    · subst hq
      rw [FileTables.setProc_procs_self]
      unfold FileTables.adopt
      simp only
      split <;> exact ⟨rfl, rfl⟩
    · rw [FileTables.setProc_procs_of_ne hq, FileTables.inodePut_procs, FileTables.inodePut_procs]
      unfold FileTables.adopt
      simp only
      split <;> exact ⟨rfl, rfl⟩
  refine ⟨Drops.of_same ?_ rfl rfl (entry_of_procs hprocs) (refs_of_procs hprocs), (hprocs p).1⟩
  change ((s.tables.adopt p).putDirs p).files = s.tables.files
  unfold FileTables.putDirs FileTables.setProc
  rw [FileTables.inodePut_files, FileTables.inodePut_files]
  rfl

/-- The store of `ZOMBIE` for a process whose table is empty. -/
theorem zombie_drops (hnone : ∀ i f, ¬ s.Entry p i f) :
    Drops s (s.setTables (s.tables.setState p .zombie)) (fun _ => 0) (fun _ _ => True) [] := by
  have hentry (q : Slot) (i f : ℕ) :
      (s.setTables (s.tables.setState p .zombie)).Entry q i f ↔ s.Entry q i f := by
    unfold Entry
    change ((s.tables.setState p .zombie).procs q).state.Alive ∧ _ ∧
      ((s.tables.setState p .zombie).procs q).openFiles i = some f ↔ _
    unfold FileTables.setState
    by_cases hq : q = p
    · subst hq
      rw [FileTables.setProc_procs_self, Proc.setState_state]
      exact ⟨fun h => absurd h.1 not_alive_zombie, fun h => absurd h (hnone i f)⟩
    · rw [FileTables.setProc_procs_of_ne hq]
  refine Drops.of_same rfl rfl rfl hentry ?_
  intro f
  apply FileTables.refs_congr
  intro q
  change ((s.tables.setState p .zombie).procs q).owned f = _
  unfold FileTables.setState
  by_cases hq : q = p
  · subst hq
    rw [FileTables.setProc_procs_self]
    unfold Proc.owned
    rw [Proc.setState_state, if_neg not_alive_zombie]
    split
    · rename_i hlive
      exact (occurrences_none fun i hi hopen => hnone i f ⟨hlive, hi, hopen⟩).symm
    · rfl
  · rw [FileTables.setProc_procs_of_ne hq]

theorem doExit_drops (hp : (s.tables.procs p).state.Alive) (h : s.doExit p = some (released, t)) :
    ∃ closed : ℕ → ℕ, Drops s t closed (fun q _ => q ≠ p) released ∧
      ∀ f, 0 < closed f ↔ ∃ i, s.Entry p i f := by
  obtain ⟨⟨log, u⟩, hu, h⟩ := Option.bind_eq_some_iff.mp h
  cases h
  obtain ⟨hprepare, hstate⟩ := prepare_drops s p
  have hp' : ((s.setTables ((s.tables.adopt p).putDirs p)).tables.procs p).state.Alive := by
    change (((s.tables.adopt p).putDirs p).procs p).state.Alive
    rw [hstate]
    exact hp
  obtain ⟨_, closed, hdrops, hclosed⟩ := exitFrom_drops hp' (Nat.zero_add _) hu
  have hnone (i f : ℕ) : ¬ u.Entry p i f := by
    intro hentry
    exact ((hdrops.entries p i f).mp hentry).2 ⟨rfl, Nat.zero_le i⟩
  have hall := (hprepare.trans hdrops).trans (zombie_drops hnone)
  rw [List.nil_append, List.append_nil] at hall
  refine ⟨_, hall.of_stays ?_, ?_⟩
  · intro q i f _
    constructor
    · intro hstay hq
      exact hstay.1.2 ⟨hq, Nat.zero_le i⟩
    · intro hq
      exact ⟨⟨trivial, fun hqi => hq hqi.1⟩, trivial⟩
  · intro f
    have hsum : 0 < 0 + closed f + 0 ↔ 0 < closed f := by omega
    rw [hsum, hclosed]
    constructor
    · intro hex
      obtain ⟨i, _, hentry⟩ := hex
      exact ⟨i, ((hprepare.entries p i f).mp hentry).1⟩
    · intro hex
      obtain ⟨i, hentry⟩ := hex
      exact ⟨i, Nat.zero_le i, (hprepare.entries p i f).mpr ⟨hentry, trivial⟩⟩

theorem sysClose_drops {z r : ℤ} (hp : (s.tables.procs p).state.Alive)
    (h : s.sysClose p z = some (r, released, t)) :
    ∃ closed : ℕ → ℕ, Drops s t closed (fun q i => ¬ (q = p ∧ (i : ℤ) = z)) released ∧
      ∀ f, 0 < closed f ↔ s.tables.fdGet p z = some (.file f) := by
  unfold sysClose at h
  split at h
  · rename_i hget
    cases h
    refine ⟨fun _ => 0, Drops.refl s ?_, ?_⟩
    · intro q i f hentry hqi
      have hopen := FileTables.fdGet_of_lt (s := s.tables) (p := q) hentry.2.1
      rw [hqi.1, hqi.2, hget, ← hqi.1, hentry.2.2] at hopen
      cases hopen
    · intro f
      rw [hget]
      exact ⟨fun hf => absurd hf (lt_irrefl 0), fun hf => by cases hf⟩
  · rename_i f hget
    obtain ⟨⟨log, u⟩, hclose, heq⟩ := Option.map_eq_some_iff.mp h
    cases heq
    obtain ⟨i, rfl, hi, hopen⟩ := FileTables.fdGet_file hget
    rw [Int.toNat_natCast] at hclose
    have hdrops := (closeEntry_drops ⟨hp, hi, hopen⟩ hclose).1
    refine ⟨_, hdrops.of_stays ?_, ?_⟩
    · intro q j g _
      rw [Int.natCast_inj]
    · intro g
      rw [hget, Option.some.injEq, FilePtr.file.injEq]
      by_cases hg : g = f
      · rw [if_pos hg]
        exact ⟨fun _ => hg.symm, fun _ => Nat.one_pos⟩
      · rw [if_neg hg]
        exact ⟨fun hpos => absurd hpos (lt_irrefl 0), fun heq => absurd heq.symm hg⟩
  · cases h

/-! ## The property of a call -/

/-- A call that closes descriptors runs each release once and with the last reference, and
leaves the other connections, exactly if each file it closes is in sole use. -/
theorem Drops.settled_iff (h : Drops s t closed stays released) :
    (Once s released t ∧ KeepsPeers s t) ↔ ∀ f, 0 < closed f → s.SoleUse f stays := by
  have hlast : Once s released t ↔
      ∀ f, 0 < closed f → s.hasRelease f = true → s.tables.refs f = 1 := by
    unfold Once
    constructor
    · intro honce f hf hrel
      have hcount := honce f
      have := h.refs f
      rw [h.count f, if_pos hrel] at hcount
      split at hcount
      · rename_i hgone
        omega
      · omega
    · intro hsole f
      have hsum := h.refs f
      rw [h.count f]
      by_cases hrel : s.hasRelease f = true
      · rw [if_pos hrel]
        by_cases hf : 0 < closed f
        · have := hsole f hf hrel
          rw [if_pos ⟨hrel, by omega, by omega⟩]
          omega
        · rw [if_neg]
          · omega
          · intro hgone
            omega
      · rw [if_neg hrel, if_neg fun hgone => hrel hgone.1]
  rw [hlast]
  unfold SoleUse
  constructor
  · intro hall f hf hrel
    refine ⟨hall.1 f hf hrel, ?_⟩
    intro k peer hk hlink q i hstay hleads
    obtain ⟨g, hentry, hg⟩ := hleads
    -- The file of the other entry is not closed, for each that is closed has one entry only.
    have hgone := h.gone f k hf hk
    have hstays : t.Entry q i g := (h.entries q i g).mpr ⟨hentry, hstay⟩
    have hzero : closed g = 0 := by
      by_contra hpos
      have hrefs : 0 < t.tables.refs g := FileTables.refs_pos hstays.1 hstays.2.1 hstays.2.2
      have := hall.1 g (by omega) (hasRelease_of_socketOf hg)
      have := h.refs g
      omega
    have hg' : t.socketOf g = some k := (socketOf_congr (h.others g hzero) h.payload).trans hg
    have hkeep := hall.2 q i k peer ⟨g, hstays, hg'⟩ hlink
    rw [hgone] at hkeep
    cases hkeep
  · intro hsole
    refine ⟨fun f hf hrel => (hsole f hf hrel).1, ?_⟩
    intro q i k peer hleads hlink
    obtain ⟨g, hentry, hg⟩ := hleads
    obtain ⟨hentry', hstay⟩ := (h.entries q i g).mp hentry
    obtain ⟨file', hfile', hop'⟩ := Option.bind_eq_some_iff.mp hg
    have hsame := h.hasRelease_eq (f := g) (by rw [hfile']; rfl)
    have hleads' : s.Leads q i k := ⟨g, hentry', hsame.2.symm.trans hg⟩
    rw [h.kept k, hlink]
    intro f hf hk
    exact (hsole f hf (hasRelease_of_socketOf hk)).2 k peer hk hlink q i hstay hleads'

/-- A call that closes nothing. -/
theorem settled_of_grows (hgrows : s.tables.Grows t.tables)
    (hlink : ∀ k l, link s.net k = some l → link t.net k = some l) : Once s [] t ∧ KeepsPeers s t := by
  constructor
  · intro f
    rw [if_neg]
    · rfl
    · intro hgone
      have := hgrows.refs_pos hgone.2.1
      omega
  · intro q i k peer _ hpeer
    exact hlink k _ hpeer

theorem place_grows {socket : Except ℤ (ℕ × ℕ)} {mem : Option (ℕ × File)} {r : ℤ}
    (h : s.place p socket mem = some (r, t)) : s.tables.Grows t.tables ∧ t.net = s.net := by
  obtain ⟨⟨r', tables⟩, htables, h⟩ := Option.bind_eq_some_iff.mp h
  have hgrows := FileTables.socketCreate_grows htables
  simp only at h
  split at h
  · cases h
    exact ⟨hgrows, rfl⟩
  · cases h
    exact ⟨hgrows, rfl⟩

theorem socketCreate_grows {socket : Except ℤ (ℕ × ℕ)} {mem : Option (ℕ × File)} {r : ℤ}
    (hfresh : ∀ n k, socket = .ok (n, k) → s.net.sockets k = none)
    (h : s.socketCreate p socket mem = some (r, t)) :
    s.tables.Grows t.tables ∧ ∀ k l, link s.net k = some l → link t.net k = some l := by
  unfold socketCreate at h
  split at h
  · cases h
    exact ⟨FileTables.Grows.refl _, fun _ _ hl => hl⟩
  · rename_i n k
    obtain ⟨hgrows, hnet⟩ := place_grows h
    refine ⟨hgrows, ?_⟩
    intro j l hl
    have hjk : j ≠ k := by
      intro hjk
      rw [hjk] at hl
      unfold link at hl
      rw [hfresh n k rfl] at hl
      cases hl
    rw [hnet]
    unfold Net.socketCreate
    rw [link_setSocket, Function.update_of_ne hjk]
    exact hl

end SocketFiles

/-! ## Runs -/

/-- Connected sockets that still have a descriptor stay connected, but for what calls on sockets do. -/
def PeersKept (s : SocketFiles) : SocketCall → SocketFiles → Prop
  | .sockets _ _, _ => True
  | _, t => s.KeepsPeers t

/-- The release of each file runs with its last reference, and the connections are kept. -/
def Settled (s : SocketFiles) (e : SocketCall) : Prop :=
  ∀ released t, s.call e = some (released, t) → s.Once released t ∧ PeersKept s e t

/-- What a call closes is in sole use. -/
def Sole (s : SocketFiles) : SocketCall → Prop
  | .close p fd => ∀ f, s.tables.fdGet p fd = some (.file f) →
      s.SoleUse f fun q i => ¬ (q = p ∧ (i : ℤ) = fd)
  | .exit p => ∀ i f, s.Entry p i f → s.SoleUse f fun q _ => q ≠ p
  | _ => True

theorem settled_iff {s t : SocketFiles} {e : SocketCall} (hs : SocketStep s e t) :
    Settled s e ↔ Sole s e := by
  obtain ⟨hp, _, hfresh, released, hcall⟩ := hs
  have hone : Settled s e ↔ s.Once released t ∧ PeersKept s e t := by
    unfold Settled
    rw [hcall]
    constructor
    · intro h
      exact h released t rfl
    · intro h released' t' heq
      cases heq
      exact h
  rw [hone]
  cases e with
  | «open» p env flags =>
      obtain ⟨r, hr, heq⟩ := Option.map_eq_some_iff.mp hcall
      cases heq
      have hgrows : s.tables.Grows r.2 := FileTables.sysOpen_grows hr
      exact iff_of_true (SocketFiles.settled_of_grows hgrows fun _ _ hl => hl) trivial
  | socket p socket mem =>
      obtain ⟨r, hr, heq⟩ := Option.map_eq_some_iff.mp hcall
      cases heq
      obtain ⟨hgrows, hlink⟩ :=
        SocketFiles.socketCreate_grows (fun n k heq => hfresh p n k mem (by rw [heq])) hr
      exact iff_of_true (SocketFiles.settled_of_grows hgrows hlink) trivial
  | accepted p socket mem =>
      obtain ⟨r, hr, heq⟩ := Option.map_eq_some_iff.mp hcall
      cases heq
      obtain ⟨hgrows, hnet⟩ := SocketFiles.place_grows hr
      exact iff_of_true (SocketFiles.settled_of_grows hgrows fun _ _ hl => hnet ▸ hl) trivial
  | close p fd =>
      obtain ⟨⟨r, log, u⟩, hr, heq⟩ := Option.map_eq_some_iff.mp hcall
      cases heq
      obtain ⟨closed, hdrops, hclosed⟩ := SocketFiles.sysClose_drops hp hr
      unfold PeersKept
      simp only
      rw [hdrops.settled_iff]
      unfold Sole
      simp only [hclosed]
      exact Iff.rfl
  | fork p kstack pgdir copied =>
      obtain ⟨tables, hr, heq⟩ := Option.map_eq_some_iff.mp hcall
      cases heq
      have hgrows : s.tables.Grows tables := FileTables.doFork_grows hr
      exact iff_of_true (SocketFiles.settled_of_grows hgrows fun _ _ hl => hl) trivial
  | exit p =>
      obtain ⟨closed, hdrops, hclosed⟩ := SocketFiles.doExit_drops hp hcall
      unfold PeersKept
      simp only
      rw [hdrops.settled_iff]
      unfold Sole
      simp only [hclosed]
      constructor
      · intro h i f hentry
        exact h f ⟨i, hentry⟩
      · intro h f hex
        obtain ⟨i, hentry⟩ := hex
        exact h i f hentry
  | reap p c =>
      unfold SocketFiles.call at hcall
      simp only at hcall
      split at hcall
      · rename_i hzombie
        cases hcall
        have hgrows : s.tables.Grows (s.tables.reap p c) := FileTables.reap_grows hzombie.1
        exact iff_of_true (SocketFiles.settled_of_grows hgrows fun _ _ hl => hl) trivial
      · cases hcall
  | sockets p net =>
      cases hcall
      have hsame := SocketFiles.settled_of_grows (s := s) (t := s) (FileTables.Grows.refl _) fun _ _ hl => hl
      exact iff_of_true ⟨hsame.1, trivial⟩ trivial

/-- In every run the releases run with the last references, and connected sockets that still
have a descriptor stay connected, exactly if every descriptor of a socket that is closed is the
only one of its file and, if connected, of its socket. -/
theorem release_once_iff {s t : SocketFiles} {tr : List (SocketFiles × SocketCall)}
    (h : Trace SocketStep s tr t) :
    (∀ x ∈ tr, Settled x.1 x.2) ↔ ∀ x ∈ tr, Sole x.1 x.2 := by
  have hiff := h.throughout_and_iff (I := fun _ => True) (J := Settled) (C := Sole)
    (fun _ _ _ _ hs => by rw [true_and]; exact settled_iff hs) trivial
  rw [← hiff]
  exact ⟨fun hall => ⟨⟨fun _ _ => trivial, trivial⟩, hall⟩, fun hall => hall.2⟩

/-- Before the first socket. -/
def bootSockets : SocketFiles := { tables := bootTables, net := noSockets, payload := fun _ => none }

def SocketFiles.callState (s : SocketFiles) (e : SocketCall) : Option SocketFiles := (s.call e).map Prod.snd

/-- The memory of the new `file_t`. -/
def freshFile (f : ℕ) : Option (ℕ × File) :=
  some (f, { inode := 0, op := none, pos := 0, mode := 0, flags := 0, count := 0 })

/-- A socket is made and closed. -/
def briefSocket : List SocketCall := [.socket init (.ok (1, 0)) (freshFile 0), .close init 0]

/-- A run of calls of the initial process from boot, whose files are new. -/
theorem socketTrace {u : SocketFiles} {es : List SocketCall}
    (hrun : exec SocketFiles.callState bootSockets es = some u)
    (hguard : ((history SocketFiles.callState bootSockets es).all fun x =>
      decide (x.1.tables.procs x.2.caller).state.Alive &&
        (x.2.mem.all fun m => (x.1.tables.files m.1).isNone) &&
        match x.2 with
        | .socket _ (.ok (_, k)) _ => (x.1.net.sockets k).isNone
        | _ => true) = true) :
    Trace SocketStep bootSockets (history SocketFiles.callState bootSockets es) u := by
  apply (exec_trace hrun).imp (C := fun s e => (s.tables.procs e.caller).state.Alive ∧
    (∀ m ∈ e.mem, s.tables.files m.1 = none) ∧
    ∀ p n k mem, e = .socket p (.ok (n, k)) mem → s.net.sockets k = none)
  · intro s e t hc hst
    obtain ⟨⟨released, t'⟩, hcall, rfl⟩ := Option.map_eq_some_iff.mp hst
    exact ⟨hc.1, hc.2.1, hc.2.2, released, hcall⟩
  · intro x hx
    have hall := List.all_eq_true.mp hguard x hx
    simp only [Bool.and_eq_true, decide_eq_true_eq] at hall
    refine ⟨hall.1.1, ?_, ?_⟩
    · intro m hm
      have hmem := hall.1.2
      rw [hm] at hmem
      simpa using hmem
    · intro p n k mem he
      have hsocket := hall.2
      rw [he] at hsocket
      simpa using hsocket

/-- At each step the file that descriptor 0 of `init` names is open once, and its socket is
not connected. -/
theorem briefSocket_check : ((history SocketFiles.callState bootSockets briefSocket).all fun x =>
    match x.1.tables.fdGet init 0 with
    | some (.file f) => decide (x.1.tables.refs f = 1) &&
        (x.1.socketOf f).all fun k => !connected x.1.net k
    | _ => true) = true := by
  decide

theorem release_once_iff_brief : ∃ (u : SocketFiles) (tr : List (SocketFiles × SocketCall)),
    Trace SocketStep bootSockets tr u ∧ tr.map Prod.snd = briefSocket ∧ (u.tables.files 0).isNone ∧
      ∀ x ∈ tr, Settled x.1 x.2 := by
  have hrun : ((exec SocketFiles.callState bootSockets briefSocket).any fun u =>
      (u.tables.files 0).isNone) = true := by
    decide
  obtain ⟨u, hu, hnone⟩ := (Option.any_eq_true _ _).mp hrun
  have htr := socketTrace hu (by decide)
  refine ⟨u, _, htr, rfl, hnone, (release_once_iff htr).mpr ?_⟩
  intro x hx
  have hmem := mem_history hx
  have hall := List.all_eq_true.mp briefSocket_check x hx
  simp only [briefSocket, List.mem_cons, List.not_mem_nil, or_false] at hmem
  rcases hmem with he | he
  · rw [he]
    trivial
  · rw [he]
    intro f hget _
    rw [hget] at hall
    simp only [Bool.and_eq_true, decide_eq_true_eq] at hall
    refine ⟨hall.1, ?_⟩
    intro k peer hk hlink
    have hconn := hall.2
    rw [hk] at hconn
    simp [connected, hlink] at hconn

/-- A connected pair of sockets. -/
def pair : Net :=
  (noSockets.setSocket 0 ⟨.connected, some 1, .zero⟩).setSocket 1 ⟨.connected, some 0, .zero⟩

/-- A socket is made, connected and shared with a child. -/
def sharedSocket : List SocketCall :=
  [.socket init (.ok (1, 0)) (freshFile 0), .sockets init pair, .fork init true true true]

/-- The child exits, and the connection of its parent ends. -/
theorem not_release_once_child : ¬ ∀ (u : SocketFiles) (tr : List (SocketFiles × SocketCall)),
    Trace SocketStep bootSockets tr u → ∀ x ∈ tr, Settled x.1 x.2 := by
  intro hclaim
  have hrun : ((exec SocketFiles.callState bootSockets sharedSocket).any fun s =>
      (s.tables.procs child).state.Alive ∧ (s.tables.procs child).openFiles 0 = some 0 ∧
        s.tables.refs 0 = 2 ∧ s.hasRelease 0 = true ∧ (s.call (.exit child)).isSome) = true := by
    decide +kernel
  obtain ⟨s, hs, hfacts⟩ := (Option.any_eq_true _ _).mp hrun
  obtain ⟨hlive, hopen, hrefs, hrel, hexit⟩ := of_decide_eq_true hfacts
  obtain ⟨⟨released, u⟩, hcall⟩ := Option.isSome_iff_exists.mp hexit
  have hstep : SocketStep s (.exit child) u :=
    ⟨hlive, fun _ hm => (by cases hm), fun _ _ _ _ he => (by cases he), released, hcall⟩
  have htr := (socketTrace hs (by decide)).append (.single hstep)
  have hsettled := hclaim u _ htr (s, .exit child) (List.mem_append_right _ List.mem_cons_self)
  have hsole : Sole s (.exit child) := (settled_iff hstep).mp hsettled
  have hone := (hsole 0 0 ⟨hlive, by decide, hopen⟩ hrel).1
  omega

end Ferrite.Net
