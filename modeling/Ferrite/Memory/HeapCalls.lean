import Ferrite.Memory.HeapInvariant

/-!
# The calls of the heap

`vmalloc` cuts a block off the front of a free segment, and `vfree` turns a block
into a free segment, joined with its free neighbours. Each is followed through
the stores it makes.
-/
namespace Ferrite.Memory
open Word Segments

namespace Heap
variable {P : Pool} {R W : Set ℕ} {lo hi : ℕ} {s t u : Heap} {gs pre post : List Seg} {l : List (ℕ × ℕ)}
  {a z h e n total node : ℕ}

theorem Spaced.of_sublist {l l' : List (ℕ × ℕ)} (h : Spaced R l) (hsub : l'.Sublist l) : Spaced R l' :=
  ⟨fun p hp => h.1 p (hsub.subset hp), h.2.sublist hsub⟩

/-- The list up to where it led now leads to `node`. -/
theorem link_spec (ho : Owned P R s) (hn : s.NodesTo s.head l e) (hl : Spaced R l)
    (hs : s.link (lastNode l 0) node = some t) :
    Owned P R t ∧ Keeps R {x | ∃ p ∈ l, x = p.1 + 4} s t ∧ t.NodesTo t.head l node := by
  induction l using List.reverseRecOn with
  | nil =>
      rw [link, if_pos (show lastNode [] 0 = 0 from rfl)] at hs
      cases hs
      obtain ⟨free, held, hinv, howned⟩ := ho
      exact ⟨⟨free, held, hinv, howned.frame, howned.inj, howned.table⟩, fun _ _ _ _ hload => hload, rfl⟩
  | append_singleton l p _ =>
      obtain ⟨b, y⟩ := p
      have hmem : (b, y) ∈ l ++ [(b, y)] := List.mem_append_right _ List.mem_cons_self
      obtain ⟨hb, hdvd, hR⟩ := hl.1 _ hmem
      rw [lastNode_append_singleton, link, if_neg hb] at hs
      simp only at hb hdvd hR hs
      have hpage : (b + 4) / pageSize ∈ R := by rwa [word_page hdvd (by omega)]
      obtain ⟨ho', hk, hload, hhead, -⟩ := ho.store hpage hs
      obtain ⟨m, hn₁, hh, hne, hsize, next, -, -⟩ := nodesTo_append.mp hn
      have hl₁ : Spaced R l :=
        ⟨fun p hp => hl.1 p (List.mem_append_left _ hp), (List.pairwise_append.mp hl.2).1⟩
      have hapart : ∀ p ∈ l, p.1 ≠ b := fun p hp =>
        (List.pairwise_append.mp hl.2).2.2 p hp _ List.mem_cons_self
      refine ⟨ho', hk.mono ?_, ?_⟩
      · rintro x rfl
        exact ⟨_, hmem, rfl⟩
      · rw [hhead]
        refine nodesTo_append.mpr ⟨m, hn₁.keeps hl₁ hk fun p hp => ?_, hh, hne, ?_, node, hload, rfl⟩
        · have hdvd' := (hl₁.1 p hp).2.1
          exact ⟨word_ne hdvd' hdvd (o := 0) (hapart p hp) (by omega) (by omega),
            word_ne hdvd' hdvd (hapart p hp) (by omega) (by omega)⟩
        · apply hk _ _ hR _ hsize
          rw [Set.mem_singleton_iff]
          omega

theorem link_append {l' : List (ℕ × ℕ)} (ho : Owned P R s) (hn : s.NodesTo s.head l e)
    (hm : s.NodesTo node l' 0) (hl : Spaced R (l ++ l')) (hs : s.link (lastNode l 0) node = some t) :
    Owned P R t ∧ Keeps R {x | ∃ p ∈ l, x = p.1 + 4} s t ∧ t.NodesTo t.head (l ++ l') 0 := by
  have hl₁ : Spaced R l := hl.of_sublist (List.sublist_append_left ..)
  have hl₂ : Spaced R l' := hl.of_sublist (List.sublist_append_right ..)
  obtain ⟨ho', hk, hlist⟩ := link_spec ho hn hl₁ hs
  refine ⟨ho', hk, nodesTo_append.mpr ⟨node, hlist, ?_⟩⟩
  apply hm.keeps hl₂ hk
  intro p hp
  have hne (q : ℕ × ℕ) (hq : q ∈ l) : p.1 ≠ q.1 := ((List.pairwise_append.mp hl.2).2.2 q hq p hp).symm
  have hdvd := (hl₂.1 p hp).2.1
  constructor
  · rintro ⟨q, hq, heq⟩
    exact word_ne hdvd (hl₁.1 q hq).2.1 (o := 0) (hne q hq) (by omega) (by omega) heq
  · rintro ⟨q, hq, heq⟩
    exact word_ne hdvd (hl₁.1 q hq).2.1 (hne q hq) (by omega) (by omega) heq

/-- The words of the free nodes are touched. -/
theorem HeapInv.node_touched (hinv : HeapInv P lo hi s gs) {p : ℕ × ℕ} (hp : p ∈ frees gs) :
    p.1 ∈ touched gs a ∧ p.1 + 4 ∈ touched gs a := by
  obtain ⟨b, y⟩ := p
  have hmem := mem_frees.mp hp
  have hy : pageSize ≤ y := pageSize_le (hinv.aligned _ hmem).2 (hinv.covers.pos hmem)
  simp only [pageSize] at hy
  exact ⟨mem_touched hmem (.inl rfl) (o := 0) (by omega), mem_touched hmem (.inl rfl) (by omega)⟩

/-! ## `vmalloc` -/

theorem aligned_carve (ha : ∀ g ∈ pre ++ ⟨a, z, true⟩ :: post, pageSize ∣ g.start ∧ pageSize ∣ g.size)
    (hn : pageSize ∣ n) :
    ∀ g ∈ pre ++ ⟨a, n, false⟩ :: (rest a z n ++ post), pageSize ∣ g.start ∧ pageSize ∣ g.size := by
  rw [List.forall_mem_append, List.forall_mem_cons] at ha
  obtain ⟨hpre, ⟨hadvd, hzdvd⟩, hpost⟩ := ha
  rw [List.forall_mem_append, List.forall_mem_cons, List.forall_mem_append]
  refine ⟨hpre, ⟨hadvd, hn⟩, fun g hg => ?_, hpost⟩
  obtain ⟨rfl, -⟩ := mem_rest hg
  exact ⟨Nat.dvd_add hadvd hn, Nat.dvd_sub hzdvd hn⟩

/-- The free list without the first `n` bytes of a free segment. -/
theorem HeapInv.carve (hinv : HeapInv P lo hi s (pre ++ ⟨a, z, true⟩ :: post)) (hdvd : pageSize ∣ n)
    (hpos : 0 < n) (hle : n ≤ z) (hs : s.carve (lastNode (frees pre) 0) a n = some t) :
    Owned P (region lo hi) t ∧ Keeps (region lo hi) (touched (pre ++ ⟨a, z, true⟩ :: post) a) s t ∧
      t.NodesTo t.head (frees (pre ++ ⟨a, n, false⟩ :: (rest a z n ++ post))) 0 := by
  have hmem : (⟨a, z, true⟩ : Seg) ∈ pre ++ ⟨a, z, true⟩ :: post := by simp
  obtain ⟨hadvd, hzdvd⟩ := hinv.aligned _ hmem
  have hbounds := hinv.covers.bounds hmem
  have hhi := hinv.hi_lt
  simp only at hadvd hzdvd hbounds
  have hsp := hinv.spaced
  have hn := hinv.nodes
  have hfrees : frees (pre ++ ⟨a, z, true⟩ :: post) = frees pre ++ (a, z) :: frees post := by
    rw [frees_append, frees_cons_free rfl]
  have hlist : frees (pre ++ ⟨a, n, false⟩ :: (rest a z n ++ post)) =
      frees pre ++ (frees (rest a z n) ++ frees post) := by
    rw [frees_append, frees_cons_used rfl, frees_append]
  have hpreW (p : ℕ × ℕ) (hp : p ∈ frees pre) : p.1 + 4 ∈ touched (pre ++ ⟨a, z, true⟩ :: post) a := by
    apply (hinv.node_touched _).2
    rw [hfrees]
    exact List.mem_append_left _ hp
  rw [hfrees] at hsp hn
  rw [hlist]
  obtain ⟨m, hpre, rfl, hne, hsize, next, hnext, hpost⟩ := nodesTo_append.mp hn
  obtain ⟨size₀, hsize₀, hs⟩ := Option.bind_eq_some_iff.mp hs
  rw [hsize] at hsize₀
  cases hsize₀
  rw [wsub_of_le hle (by omega)] at hs
  have hpn := pageSize_le hdvd hpos
  by_cases hfit : n = z
  · -- The node is taken out.
    have hnone : ¬ nodeSize < z - n := by omega
    rw [if_neg hnone] at hs
    obtain ⟨next₀, hnext₀, hs⟩ := Option.bind_eq_some_iff.mp hs
    rw [hnext] at hnext₀
    cases hnext₀
    have hsp' : Spaced (region lo hi) (frees pre ++ frees post) :=
      hsp.of_sublist (List.Sublist.append_left (List.sublist_cons_self ..) _)
    obtain ⟨ho, hk, ht⟩ := link_append hinv.owned hpre hpost hsp' hs
    rw [rest, if_pos hfit, show frees [] = [] from rfl, List.nil_append]
    refine ⟨ho, hk.mono ?_, ht⟩
    rintro x ⟨p, hp, rfl⟩
    exact hpreW p hp
  · -- The node moves up by `n`.
    have hdiff : pageSize ≤ z - n := pageSize_le (Nat.dvd_sub hzdvd hdvd) (by omega)
    have hnode : wadd m n = m + n := wadd_of_lt (by omega)
    have hndvd : pageSize ∣ m + n := Nat.dvd_add hadvd hdvd
    simp only [pageSize] at hdiff hpn
    have hsome : nodeSize < z - n := by
      simp only [nodeSize]
      omega
    rw [if_pos hsome, hnode] at hs
    obtain ⟨s₁, hs₁, hs⟩ := Option.bind_eq_some_iff.mp hs
    obtain ⟨size, hsize₁, hs⟩ := Option.bind_eq_some_iff.mp hs
    obtain ⟨s₂, hs₂, hs⟩ := Option.bind_eq_some_iff.mp hs
    obtain ⟨next₂, hnext₂, hs⟩ := Option.bind_eq_some_iff.mp hs
    obtain ⟨s₃, hs₃, hlink⟩ := Option.bind_eq_some_iff.mp hs
    have hR (o : ℕ) (ho : o < z) : (m + o) / pageSize ∈ region lo hi := hinv.page_mem hmem ho
    obtain ⟨ho₁, hk₁, hhead₁⟩ := hinv.owned.mapNewPage hs₁
    obtain ⟨ho₂, hk₂, hload₂, hhead₂, -⟩ := ho₁.store (hR n (by omega)) hs₂
    have hR₃ : (m + n + 4) / pageSize ∈ region lo hi := by
      rw [Nat.add_assoc]
      exact hR _ (by omega)
    obtain ⟨ho₃, hk₃, hload₃, hhead₃, -⟩ := ho₂.store hR₃ hs₃
    -- What is read from the old node is what it held.
    have hk₁₃ : Keeps (region lo hi) {m + n, m + n + 4} s s₃ :=
      ((hk₁.trans hk₂).trans hk₃).mono (by rw [Set.empty_union, Set.union_singleton, Set.pair_comm])
    have hR₀ : m / pageSize ∈ region lo hi := hR 0 (by omega)
    have hsize₁' : s₁.load m = some z := hk₁ _ _ hR₀ (Set.notMem_empty _) hsize
    rw [hsize₁] at hsize₁'
    cases hsize₁'
    have hnext₁ : s₂.load (m + 4) = some next :=
      hk₂ _ _ (hR 4 (by omega)) (by simp only [Set.mem_singleton_iff]; omega)
        (hk₁ _ _ (hR 4 (by omega)) (Set.notMem_empty _) hnext)
    rw [hnext₂] at hnext₁
    cases hnext₁
    rw [wsub_of_le hle (by omega)] at hload₂
    -- The list after the two stores.
    have hsp' := Covers.spaced (hinv.covers.carve hpos hle) hinv.lo_dvd hinv.lo_pos
      (aligned_carve hinv.aligned hdvd)
    have hrest : frees (rest m z n) ++ frees post = (m + n, z - n) :: frees post := by
      rw [rest, if_neg hfit]
      rfl
    rw [hlist, hrest] at hsp'
    rw [hrest]
    have hspre : Spaced (region lo hi) (frees pre) := hsp'.of_sublist (List.sublist_append_left ..)
    have hspost : Spaced (region lo hi) (frees post) :=
      hsp'.of_sublist ((List.sublist_cons_self ..).trans (List.sublist_append_right ..))
    have haway (p : ℕ × ℕ) (hp : pageSize ∣ p.1) (hpm : p.1 ≠ m + n) :
        p.1 ∉ ({m + n, m + n + 4} : Set ℕ) ∧ p.1 + 4 ∉ ({m + n, m + n + 4} : Set ℕ) := by
      have h₁ := word_ne hp hndvd (o := 0) (i := 4) hpm (by omega) (by omega)
      have h₂ := word_ne hp hndvd (o := 4) (i := 0) hpm (by omega) (by omega)
      simp only [Set.mem_insert_iff, Set.mem_singleton_iff]
      omega
    have hpw := List.pairwise_append.mp hsp'.2
    have hpre₃ : s₃.NodesTo s₃.head (frees pre) m := by
      rw [hhead₃, hhead₂, hhead₁]
      exact hpre.keeps hspre hk₁₃ fun p hp =>
        haway p (hspre.1 p hp).2.1 (hpw.2.2 p hp _ List.mem_cons_self)
    have hpost₃ : s₃.NodesTo next (frees post) 0 :=
      hpost.keeps hspost hk₁₃ fun p hp =>
        haway p (hspost.1 p hp).2.1 ((List.pairwise_cons.mp hpw.2.1).1 p hp).symm
    have hsize₃ : s₃.load (m + n) = some (z - n) :=
      hk₃ _ _ (hR n (by omega)) (by simp) hload₂
    have hmid : s₃.NodesTo (m + n) ((m + n, z - n) :: frees post) 0 :=
      ⟨rfl, by omega, hsize₃, next, hload₃, hpost₃⟩
    obtain ⟨ho, hk, ht⟩ := link_append ho₃ hpre₃ hmid hsp' hlink
    refine ⟨ho, (hk₁₃.trans hk).mono ?_, ht⟩
    rintro x ((rfl | rfl) | ⟨p, hp, rfl⟩)
    · exact mem_touched hmem (.inl rfl) (by omega)
    · rw [Nat.add_assoc]
      exact mem_touched hmem (.inl rfl) (by omega)
    · exact hpreW p hp

/-- The stores that make a header. -/
theorem Owned.header (ho : Owned P R s) (ha : pageSize ∣ a) (hR : a / pageSize ∈ R) {s₁ s₂ : Heap}
    (h₈ : s.store (a + 8) magic = some s₁) (h₄ : s₁.store (a + 4) n = some s₂)
    (h₀ : s₂.storeByte a 1 = some t) :
    Owned P R t ∧ Keeps R {a + 8, a + 4, a} s t ∧ t.IsHeader a n ∧ t.head = s.head := by
  have hpage (o : ℕ) (ho : o < 12) : (a + o) / pageSize ∈ R := by rwa [word_page ha ho]
  obtain ⟨ho₁, hk₁, hload₁, hhead₁, -⟩ := ho.store (hpage 8 (by omega)) h₈
  obtain ⟨ho₂, hk₂, hload₂, hhead₂, -⟩ := ho₁.store (hpage 4 (by omega)) h₄
  obtain ⟨ho₃, hk₃, hload₃, hhead₃, -⟩ := ho₂.storeByte hR (by omega) h₀
  refine ⟨ho₃, ((hk₁.trans hk₂).trans hk₃).mono ?_, ⟨?_, ?_, hload₃⟩, ?_⟩
  · rintro x ((rfl | rfl) | rfl) <;> simp
  · exact hk₃ _ _ (hpage 8 (by omega)) (by simp) (hk₂ _ _ (hpage 8 (by omega)) (by simp) hload₁)
  · exact hk₃ _ _ (hpage 4 (by omega)) (by simp) hload₂
  · rw [hhead₃, hhead₂, hhead₁]

/-- A block cut off a free segment, with its header. -/
theorem HeapInv.allocate (hinv : HeapInv P lo hi s (pre ++ ⟨a, z, true⟩ :: post)) (hdvd : pageSize ∣ n)
    (hpos : 0 < n) (hle : n ≤ z) {s₁ s₂ s₃ s₄ : Heap} {k : ℕ}
    (h₁ : s.carve (lastNode (frees pre) 0) a n = some s₁) (h₂ : Heap.mapLoop a k 0 s₁ = some s₂)
    (h₈ : s₂.store (a + 8) magic = some s₃) (h₄ : s₃.store (a + 4) n = some s₄)
    (h₀ : s₄.storeByte a 1 = some t) :
    HeapInv P lo hi t (pre ++ ⟨a, n, false⟩ :: (rest a z n ++ post)) := by
  have hmem : (⟨a, z, true⟩ : Seg) ∈ pre ++ ⟨a, z, true⟩ :: post := by simp
  have hz : pageSize ≤ z := pageSize_le (hinv.aligned _ hmem).2 (hinv.covers.pos hmem)
  have hadvd : pageSize ∣ a := (hinv.aligned _ hmem).1
  have hR : a / pageSize ∈ region lo hi := hinv.page_mem hmem (o := 0) (hinv.covers.pos hmem)
  obtain ⟨ho₁, hk₁, hn₁⟩ := hinv.carve hdvd hpos hle h₁
  obtain ⟨ho₂, hk₂, hhead₂⟩ := ho₁.mapLoop h₂
  obtain ⟨ho, hk₃, hheader, hhead⟩ := ho₂.header hadvd hR h₈ h₄ h₀
  have hcov := hinv.covers.carve hpos hle
  have hal := aligned_carve hinv.aligned hdvd
  have hsp := Covers.spaced hcov hinv.lo_dvd hinv.lo_pos hal
  refine ⟨hinv.lo_dvd, hinv.lo_pos, hinv.hi_lt, ho, hcov, hinv.coalesced.carve, hal, ?_, ?_⟩
  · rw [hhead, hhead₂]
    apply NodesTo.keeps (hn₁.keeps hsp hk₂ fun _ _ => ⟨Set.notMem_empty _, Set.notMem_empty _⟩) hsp hk₃
    rintro ⟨b, y⟩ hp
    have hbmem := mem_frees.mp hp
    have hne : b ≠ a := by
      rintro rfl
      have hused : (⟨b, n, false⟩ : Seg) ∈ pre ++ ⟨b, n, false⟩ :: (rest b z n ++ post) := by simp
      cases hcov.eq_of_start hbmem hused rfl
    have hbdvd : pageSize ∣ b := (hal _ hbmem).1
    have hw (o o' : ℕ) (ho : o < 12) (ho' : o' < 12) : b + o ≠ a + o' := word_ne hbdvd hadvd hne ho ho'
    simp only [Set.mem_insert_iff, Set.mem_singleton_iff, not_or]
    exact ⟨⟨hw 0 8 (by omega) (by omega), hw 0 4 (by omega) (by omega), hne⟩,
      hw 4 8 (by omega) (by omega), hw 4 4 (by omega) (by omega), hw 4 0 (by omega) (by omega)⟩
  · rw [used_append, used_cons_used rfl, used_append, used_rest, List.nil_append]
    rintro p hp
    have hkeeps : Keeps (region lo hi) (touched (pre ++ ⟨a, z, true⟩ :: post) a) s t := by
      refine ((hk₁.trans hk₂).trans hk₃).mono ?_
      rintro x ((hx | hx) | hx)
      · exact hx
      · cases hx
      · simp only [pageSize] at hz
        rcases hx with rfl | rfl | rfl
        · exact mem_touched hmem (.inl rfl) (by omega)
        · exact mem_touched hmem (.inl rfl) (by omega)
        · exact mem_touched hmem (.inl rfl) (o := 0) (by omega)
    have hother (hp : p ∈ used pre ++ used post) : t.IsHeader p.1 p.2 := by
      have hused : p ∈ used (pre ++ ⟨a, z, true⟩ :: post) := by
        rwa [used_append, used_cons_free rfl]
      apply hinv.header_keeps hkeeps hused
      obtain ⟨b, y⟩ := p
      rintro rfl
      cases hinv.covers.eq_of_start (mem_used.mp hused) hmem rfl
    rcases List.mem_append.mp hp with hp | hp
    · exact hother (List.mem_append_left _ hp)
    · rcases List.mem_cons.mp hp with rfl | hp
      · exact hheader
      · exact hother (List.mem_append_right _ hp)

/-- The size that `vmalloc` takes for `n` bytes. -/
def blockTotal (n : ℕ) : ℕ := align (n + headerSize) pageSize

theorem blockTotal_dvd : pageSize ∣ blockTotal n := dvd_align (k := 12) (by omega)

theorem blockTotal_pos (hn : n + headerSize + (pageSize - 1) < word) : 0 < blockTotal n :=
  lt_of_lt_of_le (by simp [headerSize]) (le_align (k := 12) (by omega) hn)

theorem HeapInv.vmalloc (hinv : HeapInv P lo hi s gs) (hn : n + headerSize + (pageSize - 1) < word)
    (hs : s.vmalloc n = some (e, t)) : (e = 0 ∧ t = s) ∨ ∃ a z gs', e = a + headerSize ∧
      ((a, z) ∈ frees gs ∧ blockTotal n ≤ z) ∧
      HeapInv P lo hi t gs' ∧ (used gs').Perm ((a, blockTotal n) :: used gs) := by
  unfold Heap.vmalloc at hs
  split_ifs at hs with hnone
  · cases hs
    exact .inl ⟨rfl, rfl⟩
  obtain ⟨⟨prev, current⟩, hsearch, hs⟩ := Option.bind_eq_some_iff.mp hs
  have htotal : align (wadd n headerSize) pageSize = blockTotal n := by
    rw [wadd_of_lt (lt_of_le_of_lt (Nat.le_add_right ..) hn), blockTotal]
  rw [htotal] at hsearch
  simp only [htotal] at hs
  have hfound := searchLoop_spec hinv.nodes hsearch
  split_ifs at hs with hcur
  · cases hs
    exact .inl ⟨rfl, rfl⟩
  obtain ⟨l₁, z, l₂, hl, hle, rfl⟩ := hfound.resolve_left hcur
  obtain ⟨pre, post, rfl, rfl, -⟩ := exists_split_frees hl
  obtain ⟨s₁, h₁, hs⟩ := Option.bind_eq_some_iff.mp hs
  obtain ⟨s₂, h₂, hs⟩ := Option.bind_eq_some_iff.mp hs
  obtain ⟨s₃, h₃, hs⟩ := Option.bind_eq_some_iff.mp hs
  obtain ⟨s₄, h₄, hs⟩ := Option.bind_eq_some_iff.mp hs
  obtain ⟨s₅, h₅, hs⟩ := Option.bind_eq_some_iff.mp hs
  cases hs
  refine .inr ⟨current, z, _, rfl, ⟨by rw [hl]; simp, hle⟩,
    hinv.allocate blockTotal_dvd (blockTotal_pos hn) hle h₁ h₂ h₃ h₄ h₅, ?_⟩
  rw [used_append, used_cons_used rfl, used_append, used_rest, List.nil_append, used_append,
    used_cons_free rfl]
  exact List.perm_middle

/-! ## `vfree` -/

/-- Away from the freed block, the node before it is linked and not merged. -/
theorem mergePrev_apart (hn : s.NodesTo h l e) (hapart : ∀ p ∈ l, wadd p.1 p.2 ≠ a) {f : ℕ}
    (hs : s.mergePrev (lastNode l 0) a = some (f, t)) : f = a ∧ s.link (lastNode l 0) a = some t := by
  induction l using List.reverseRecOn with
  | nil =>
      have hnil : lastNode [] 0 = 0 := rfl
      rw [hnil, mergePrev, if_pos rfl] at hs
      rw [hnil, link, if_pos rfl]
      cases hs
      exact ⟨rfl, rfl⟩
  | append_singleton l p _ =>
      obtain ⟨b, y⟩ := p
      obtain ⟨m, -, rfl, hne, hsize, -⟩ := nodesTo_append.mp hn
      rw [lastNode_append_singleton, mergePrev, if_neg hne] at hs
      rw [lastNode_append_singleton, link, if_neg hne]
      obtain ⟨y', hy', hs⟩ := Option.bind_eq_some_iff.mp hs
      rw [hsize] at hy'
      cases hy'
      rw [if_neg (hapart _ (List.mem_append_right _ List.mem_cons_self))] at hs
      obtain ⟨t', ht', hs⟩ := Option.bind_eq_some_iff.mp hs
      cases hs
      exact ⟨rfl, ht'⟩

/-- The words of the nodes of a list. -/
def nodeWords (l : List (ℕ × ℕ)) : Set ℕ := {x | ∃ p ∈ l, x = p.1 ∨ x = p.1 + 4}

/-- The segments in front of a freed block, and what the block has become. -/
structure MergedPrev (s : Heap) (lo : ℕ) (pre pre₀ : List Seg) (a z f y : ℕ) : Prop where
  nodes : s.NodesTo s.head (frees pre₀) f
  size : s.load f = some y
  ends : f + y = a + z
  le : f ≤ a
  place : f = a ∨ ∃ b, (f, b) ∈ frees pre
  covers : Covers lo pre₀ f
  coalesced : Coalesced pre₀
  last : ∀ g ∈ pre₀.getLast?, g.free = false
  used_eq : used pre₀ = used pre
  subset : pre₀ ⊆ pre
  dvd : pageSize ∣ f ∧ pageSize ∣ y

theorem Spaced.mono {S : Set ℕ} (h : Spaced R l) (hRS : R ⊆ S) : Spaced S l :=
  ⟨fun p hp => ⟨(h.1 p hp).1, (h.1 p hp).2.1, hRS (h.1 p hp).2.2⟩, h.2⟩

theorem region_mono {hi' : ℕ} (h : hi ≤ hi') : region lo hi ⊆ region lo hi' :=
  fun _ hq => ⟨hq.1, lt_of_lt_of_le hq.2 h⟩

section
variable (ho : Owned P (region lo hi) s) (hlo : pageSize ∣ lo) (hpos : 0 < lo) (hhi : a + z ≤ hi)
  (hw : hi < word) (hc : Covers lo pre a) (hcoal : Coalesced pre)
  (hal : ∀ g ∈ pre, pageSize ∣ g.start ∧ pageSize ∣ g.size) (had : pageSize ∣ a) (hzd : pageSize ∣ z)
  (hz : 0 < z) (hn : s.NodesTo s.head (frees pre) e) (hsize : s.load a = some z)
include ho hlo hpos hhi hw hc hcoal hal had hzd hz hn hsize

theorem mergePrev_used (hlast : ∀ g ∈ pre.getLast?, g.free = false) {f : ℕ}
    (hs : s.mergePrev (lastNode (frees pre) 0) a = some (f, t)) :
    Owned P (region lo hi) t ∧ Keeps (region lo hi) (nodeWords (frees pre)) s t ∧
      ∃ pre₀ y, MergedPrev t lo pre pre₀ a z f y := by
  have hsp : Spaced (region lo hi) (frees pre) :=
    (Covers.spaced hc hlo hpos hal).mono (region_mono (by omega))
  -- A free segment in front ends before the last segment, which is in use.
  have hapart (p : ℕ × ℕ) (hp : p ∈ frees pre) : wadd p.1 p.2 ≠ a := by
    obtain ⟨b, y⟩ := p
    have hmem := mem_frees.mp hp
    have hb := hc.bounds hmem
    simp only at hb ⊢
    rw [wadd_of_lt (by omega)]
    rcases List.eq_nil_or_concat pre with rfl | ⟨pre, g, rfl⟩
    · cases hmem
    · rw [List.concat_eq_append] at *
      have hg : g.free = false := hlast g (by simp)
      obtain ⟨hpre, hgpos, hrest⟩ := covers_middle.mp hc
      have hend : g.start + g.size = a := hrest
      rcases List.mem_append.mp hmem with hmem | hmem
      · have := (hpre.bounds hmem).2
        simp only at this
        omega
      · rw [← List.mem_singleton.mp hmem] at hg
        cases hg
  obtain ⟨rfl, hlink⟩ := mergePrev_apart hn hapart hs
  obtain ⟨ho', hk, hn'⟩ := link_spec ho hn hsp hlink
  have hkw : Keeps (region lo hi) (nodeWords (frees pre)) s t := by
    apply hk.mono
    rintro x ⟨p, hp, rfl⟩
    exact ⟨p, hp, .inr rfl⟩
  have hfree : f ∉ nodeWords (frees pre) := by
    rintro ⟨⟨b, y⟩, hp, hx⟩
    have hmem := mem_frees.mp hp
    have hb := hc.bounds hmem
    have hy := pageSize_le (hal _ hmem).2 (hc.pos hmem)
    simp only [pageSize] at hb hy hx
    omega
  refine ⟨ho', hkw, pre, z, hn', hkw _ _ (mem_region hlo hc.le (by omega)) hfree hsize, rfl,
    le_rfl, .inl rfl, hc,
    hcoal, hlast, rfl, List.Subset.refl _, had, hzd⟩

omit had in
theorem mergePrev_free {g : Seg} {pre' : List Seg} (hpre : pre = pre' ++ [g]) (hg : g.free = true) {f : ℕ}
    (hs : s.mergePrev (lastNode (frees pre) 0) a = some (f, t)) :
    Owned P (region lo hi) t ∧ Keeps (region lo hi) (nodeWords (frees pre)) s t ∧
      ∃ pre₀ y, MergedPrev t lo pre pre₀ a z f y := by
  subst hpre
  obtain ⟨b, y, fr⟩ := g
  cases hg
  have hsp : Spaced (region lo hi) (frees (pre' ++ [⟨b, y, true⟩])) :=
    (Covers.spaced hc hlo hpos hal).mono (region_mono (by omega))
  have hlist : frees (pre' ++ [⟨b, y, true⟩]) = frees pre' ++ [(b, y)] := frees_append
  rw [hlist] at hn hs hsp ⊢
  obtain ⟨hpre, hypos, hrest⟩ := covers_middle.mp hc
  have hend : b + y = a := hrest
  obtain ⟨hcpre, -, hnext, -⟩ := coalesced_middle.mp hcoal
  obtain ⟨m, hn₁, rfl, hne, hy, next, -, -⟩ := nodesTo_append.mp hn
  obtain ⟨hbd, hyd⟩ := hal ⟨m, y, true⟩ (by simp)
  have hb : m / pageSize ∈ region lo hi := mem_region hlo hpre.le (by omega)
  simp only at hbd hyd hypos
  rw [lastNode_append_singleton, mergePrev, if_neg hne] at hs
  obtain ⟨y', hy', hs⟩ := Option.bind_eq_some_iff.mp hs
  rw [hy] at hy'
  cases hy'
  rw [wadd_of_lt (by omega), if_pos hend] at hs
  obtain ⟨z', hz', hs⟩ := Option.bind_eq_some_iff.mp hs
  rw [hsize] at hz'
  cases hz'
  rw [wadd_of_lt (by omega)] at hs
  obtain ⟨t', ht', hs⟩ := Option.bind_eq_some_iff.mp hs
  cases hs
  obtain ⟨ho', hk, hload, hhead, -⟩ := ho.store hb ht'
  have hsp₁ : Spaced (region lo hi) (frees pre') := hsp.of_sublist (List.sublist_append_left ..)
  refine ⟨ho', hk.mono ?_, pre', y + z, ?_, hload, by omega, by omega, .inr ⟨y, ?_⟩, hpre, hcpre, ?_, ?_,
    ?_, hbd, Nat.dvd_add hyd hzd⟩
  · intro x hx
    exact ⟨(m, y), by simp, .inl hx⟩
  · rw [hhead]
    apply hn₁.keeps hsp₁ hk
    intro p hp
    have hpb : p.1 ≠ m := (List.pairwise_append.mp hsp.2).2.2 p hp _ List.mem_cons_self
    have hpd := (hsp₁.1 p hp).2.1
    exact ⟨hpb, word_ne hpd hbd (i := 0) hpb (by omega) (by omega)⟩
  · exact mem_frees.mpr (by simp)
  · intro g hg
    have := hnext g hg
    simpa using this
  · rw [used_append, used_cons_free rfl]
    exact (List.append_nil _).symm
  · exact List.subset_append_left ..

/-- The block and what is in front of it. -/
theorem mergePrev_spec {f : ℕ} (hs : s.mergePrev (lastNode (frees pre) 0) a = some (f, t)) :
    Owned P (region lo hi) t ∧ Keeps (region lo hi) (nodeWords (frees pre)) s t ∧
      ∃ pre₀ y, MergedPrev t lo pre pre₀ a z f y := by
  by_cases hlast : ∀ g ∈ pre.getLast?, g.free = false
  · exact mergePrev_used ho hlo hpos hhi hw hc hcoal hal had hzd hz hn hsize hlast hs
  · push Not at hlast
    obtain ⟨g, hg, hfree⟩ := hlast
    obtain ⟨pre', hpre⟩ := List.getLast?_eq_some_iff.mp hg
    exact mergePrev_free ho hlo hpos hhi hw hc hcoal hal hzd hz hn hsize hpre (by simpa using hfree) hs

end

/-- The segments behind a freed block, and the size it has got. -/
structure MergedNext (s : Heap) (hi : ℕ) (post post₀ : List Seg) (f y y' : ℕ) : Prop where
  nodes : s.NodesTo f ((f, y') :: frees post₀) 0
  le : y ≤ y'
  covers : Covers (f + y') post₀ hi
  coalesced : Coalesced post₀
  next : ∀ g ∈ post₀.head?, g.free = false
  used_eq : used post₀ = used post
  subset : post₀ ⊆ post
  dvd : pageSize ∣ y'

theorem mergeNext_apart {f y cur : ℕ} (hsize : s.load f = some y) (hne : cur ≠ 0 → wadd f y ≠ cur)
    (hs : s.mergeNext f cur = some t) : s.store (f + 4) cur = some t := by
  unfold mergeNext at hs
  split_ifs at hs with hcur
  · rwa [hcur]
  · obtain ⟨y', hy', hs⟩ := Option.bind_eq_some_iff.mp hs
    rw [hsize] at hy'
    cases hy'
    rwa [if_neg (hne hcur)] at hs

theorem behind_spaced {m : ℕ} (hpos : 0 < lo) (hle : lo ≤ m) (hm : pageSize ∣ m) (hc : Covers m post hi)
    (hal : ∀ g ∈ post, pageSize ∣ g.start ∧ pageSize ∣ g.size) :
    Spaced (region lo hi) (frees post) ∧ ∀ p ∈ frees post, m ≤ p.1 := by
  constructor
  · have hsp := Covers.spaced hc hm (by omega) hal
    exact hsp.mono fun q hq => ⟨le_trans hle hq.1, hq.2⟩
  · rintro ⟨b, x⟩ hp
    exact (hc.bounds (mem_frees.mp hp)).1

section
variable {f y : ℕ} (ho : Owned P (region lo hi) s) (hlo : pageSize ∣ lo) (hpos : 0 < lo) (hw : hi < word)
  (hlf : lo ≤ f) (hy : 0 < y) (hfd : pageSize ∣ f) (hyd : pageSize ∣ y) (hc : Covers (f + y) post hi)
  (hcoal : Coalesced post) (hal : ∀ g ∈ post, pageSize ∣ g.start ∧ pageSize ∣ g.size)
  (hn : s.NodesTo (headNode (frees post)) (frees post) 0) (hsize : s.load f = some y)
include ho hlo hpos hw hlf hy hfd hyd hc hcoal hal hn hsize

omit ho hlo hw hcoal hn hsize in
/-- The words of the block that the merge writes are none of the nodes behind. -/
theorem behind_keeps (hk : Keeps (region lo hi) {f, f + 4} s t) {c : ℕ} {l' : List (ℕ × ℕ)}
    (hsub : l'.Sublist (frees post)) (hn' : s.NodesTo c l' 0) : t.NodesTo c l' 0 := by
  obtain ⟨hsp, hge⟩ := behind_spaced hpos (by omega) (Nat.dvd_add hfd hyd) hc hal
  have hyp := pageSize_le hyd hy
  simp only [pageSize] at hyp
  apply hn'.keeps (hsp.of_sublist hsub) hk
  intro p hp
  have := hge p (hsub.subset hp)
  simp only [Set.mem_insert_iff, Set.mem_singleton_iff]
  omega

theorem mergeNext_used (hfirst : ∀ g ∈ post.head?, g.free = false)
    (hs : s.mergeNext f (headNode (frees post)) = some t) :
    Owned P (region lo hi) t ∧ Keeps (region lo hi) {f, f + 4} s t ∧ t.head = s.head ∧
      ∃ post₀ y', MergedNext t hi post post₀ f y y' := by
  have hle := hc.le
  have hyp := pageSize_le hyd hy
  simp only [pageSize] at hyp
  -- The first free segment behind is not at the end of the block.
  have hne : headNode (frees post) ≠ 0 → wadd f y ≠ headNode (frees post) := by
    intro hcur
    rw [wadd_of_lt (by omega)]
    cases post with
    | nil => exact absurd rfl hcur
    | cons g post =>
        have hg : g.free = false := hfirst g (by simp)
        obtain ⟨hstart, hgpos, hrest⟩ := hc
        rw [frees_cons_used hg] at hcur ⊢
        cases hfp : frees post with
        | nil =>
            rw [hfp] at hcur
            exact absurd rfl hcur
        | cons p l =>
            obtain ⟨b, x⟩ := p
            have hmem : (⟨b, x, true⟩ : Seg) ∈ post := mem_frees.mp (hfp ▸ List.mem_cons_self)
            have := (hrest.bounds hmem).1
            show f + y ≠ b
            simp only at this
            omega
  have hstore := mergeNext_apart hsize hne hs
  have hpage : (f + 4) / pageSize ∈ region lo hi := mem_region hlo (by omega) (by omega)
  have hpage₀ : f / pageSize ∈ region lo hi := mem_region hlo (by omega) (by omega)
  obtain ⟨ho', hk, hload, hhead, -⟩ := ho.store hpage hstore
  have hk' : Keeps (region lo hi) {f, f + 4} s t := hk.mono (by simp)
  have hn' := behind_keeps hpos hlf hy hfd hyd hc hal hk' (List.Sublist.refl _) hn
  refine ⟨ho', hk', hhead, post, y, ⟨rfl, by omega, ?_, _, hload, hn'⟩, le_rfl, hc, hcoal, hfirst, rfl,
    List.Subset.refl _, hyd⟩
  exact hk _ _ hpage₀ (by simp) hsize

theorem mergeNext_free {g : Seg} {post' : List Seg} (hpost : post = g :: post') (hg : g.free = true)
    (hs : s.mergeNext f (headNode (frees post)) = some t) :
    Owned P (region lo hi) t ∧ Keeps (region lo hi) {f, f + 4} s t ∧ t.head = s.head ∧
      ∃ post₀ y', MergedNext t hi post post₀ f y y' := by
  have hyp := pageSize_le hyd hy
  simp only [pageSize] at hyp
  have hkeep := @behind_keeps lo hi s t post f y hpos hlf hy hfd hyd hc hal
  subst hpost
  obtain ⟨b, x, fr⟩ := g
  cases hg
  have hlist : frees (⟨b, x, true⟩ :: post') = (b, x) :: frees post' := frees_cons_free rfl
  rw [hlist] at hs hn hkeep
  obtain ⟨hstart, hxpos, hrest⟩ := hc
  have hhi := hrest.le
  obtain ⟨hbd, hxd⟩ := hal ⟨b, x, true⟩ (by simp)
  obtain ⟨-, hne, hx, next, hnext, hn'⟩ := hn
  simp only at hstart hxpos hrest hhi hxd
  have hxp := pageSize_le hxd hxpos
  simp only [pageSize] at hxp
  subst hstart
  have hcur : headNode ((f + y, x) :: frees post') = f + y := rfl
  rw [hcur, mergeNext, if_neg hne] at hs
  obtain ⟨y₁, hy₁, hs⟩ := Option.bind_eq_some_iff.mp hs
  rw [hsize] at hy₁
  cases hy₁
  rw [wadd_of_lt (by omega), if_pos rfl] at hs
  obtain ⟨x₁, hx₁, hs⟩ := Option.bind_eq_some_iff.mp hs
  rw [hx] at hx₁
  cases hx₁
  rw [wadd_of_lt (by omega)] at hs
  obtain ⟨s₁, hs₁, hs⟩ := Option.bind_eq_some_iff.mp hs
  obtain ⟨next₁, hnext₁, hstore⟩ := Option.bind_eq_some_iff.mp hs
  have hpage : f / pageSize ∈ region lo hi := mem_region hlo (by omega) (by omega)
  have hpage₄ : (f + 4) / pageSize ∈ region lo hi := mem_region hlo (by omega) (by omega)
  have hpageb : (f + y + 4) / pageSize ∈ region lo hi := mem_region hlo (by omega) (by omega)
  obtain ⟨ho₁, hk₁, hload₁, hhead₁, -⟩ := ho.store hpage hs₁
  obtain ⟨ho₂, hk₂, hload₂, hhead₂, -⟩ := ho₁.store hpage₄ hstore
  have hnext' : s₁.load (f + y + 4) = some next :=
    hk₁ _ _ hpageb (by simp only [Set.mem_singleton_iff]; omega) hnext
  rw [hnext₁] at hnext'
  cases hnext'
  have hk : Keeps (region lo hi) {f, f + 4} s t := (hk₁.trans hk₂).mono (by rintro z (rfl | rfl) <;> simp)
  have hcoal₀ : Coalesced ([] ++ ⟨f + y, x, true⟩ :: post') := hcoal
  obtain ⟨-, hcoal', -, hfirst⟩ := coalesced_middle.mp hcoal₀
  refine ⟨ho₂, hk, hhead₂.trans hhead₁, post', y + x, ⟨rfl, by omega, ?_, next, hload₂, ?_⟩, by omega, ?_,
    hcoal', ?_, ?_, List.subset_cons_self .., Nat.dvd_add hyd hxd⟩
  · exact hk₂ _ _ hpage (by simp) hload₁
  · exact hkeep hk (List.sublist_cons_self ..) hn'
  · rwa [← Nat.add_assoc]
  · intro g hg
    have := hfirst g hg
    simpa using this
  · exact (used_cons_free rfl).symm

/-- The block and what is behind it. -/
theorem mergeNext_spec (hs : s.mergeNext f (headNode (frees post)) = some t) :
    Owned P (region lo hi) t ∧ Keeps (region lo hi) {f, f + 4} s t ∧ t.head = s.head ∧
      ∃ post₀ y', MergedNext t hi post post₀ f y y' := by
  by_cases hfirst : ∀ g ∈ post.head?, g.free = false
  · exact mergeNext_used ho hlo hpos hw hlf hy hfd hyd hc hcoal hal hn hsize hfirst hs
  · push Not at hfirst
    obtain ⟨g, hg, hfree⟩ := hfirst
    obtain ⟨post', hpost⟩ := List.head?_eq_some_iff.mp hg
    exact mergeNext_free ho hlo hpos hw hlf hy hfd hyd hc hcoal hal hn hsize hpost (by simpa using hfree) hs

end

/-- The pages of a block behind its first one. -/
theorem page_bounds (ha : pageSize ∣ a) (hz : pageSize ∣ z) (hw : a + z < word) {x j : ℕ} (hj : 1 ≤ j)
    (hj' : j < 1 + (z / pageSize - 1)) (hx : x / pageSize = wadd a (j * pageSize) / pageSize) :
    a + pageSize ≤ x ∧ x < a + z := by
  obtain ⟨k, rfl⟩ := ha
  obtain ⟨m, rfl⟩ := hz
  rw [Nat.mul_div_cancel_left _ pageSize_pos] at hj'
  simp only [pageSize] at *
  rw [wadd_of_lt (by omega)] at hx
  omega

/-- The block as a node, which nothing leads to yet. -/
theorem HeapInv.freed_nodes (hinv : HeapInv P lo hi s (pre ++ ⟨a, z, false⟩ :: post))
    (hs : s.store a z = some t) :
    Owned P (region lo hi) t ∧ Keeps (region lo hi) {a} s t ∧ t.load a = some z ∧
      t.NodesTo t.head (frees pre ++ frees post) 0 := by
  have hmem : (⟨a, z, false⟩ : Seg) ∈ pre ++ ⟨a, z, false⟩ :: post := by simp
  obtain ⟨ho, hk, hload, hhead, -⟩ := hinv.owned.store (hinv.page_mem hmem (o := 0) (hinv.covers.pos hmem)) hs
  have hfrees : frees (pre ++ ⟨a, z, false⟩ :: post) = frees pre ++ frees post := by
    rw [frees_append, frees_cons_used rfl]
  refine ⟨ho, hk, hload, ?_⟩
  rw [hhead, ← hfrees]
  apply hinv.nodes.keeps hinv.spaced hk
  rintro ⟨b, y⟩ hp
  have hbmem := mem_frees.mp hp
  have hne : b ≠ a := by
    rintro rfl
    cases hinv.covers.eq_of_start hbmem hmem rfl
  exact ⟨hne, word_ne (hinv.aligned _ hbmem).1 (hinv.aligned _ hmem).1 (i := 0) hne (by omega) (by omega)⟩

/-- A block in the middle becomes free, joined with the free segments around it. -/
theorem HeapInv.release (hinv : HeapInv P lo hi s (pre ++ ⟨a, z, false⟩ :: post)) {s₁ s₂ s₃ : Heap} {f : ℕ}
    (h₁ : s.store a z = some s₁) (h₂ : s₁.mergePrev (lastNode (frees pre) 0) a = some (f, s₂))
    (h₃ : s₂.mergeNext f (headNode (frees post)) = some s₃)
    (h₄ : Heap.unmapLoop a (z / pageSize - 1) 1 s₃ = some t) :
    ∃ gs, HeapInv P lo hi t gs ∧ used gs = used pre ++ used post := by
  have hmem : (⟨a, z, false⟩ : Seg) ∈ pre ++ ⟨a, z, false⟩ :: post := by simp
  obtain ⟨had, hzd⟩ := hinv.aligned _ hmem
  have hz := hinv.covers.pos hmem
  have hzp := pageSize_le hzd hz
  have hbounds := hinv.covers.bounds hmem
  have hhi := hinv.hi_lt
  simp only at had hzd hz hzp hbounds
  obtain ⟨hcpre, -, hcpost⟩ := covers_middle.mp hinv.covers
  obtain ⟨hkpre, hkpost, -, -⟩ := coalesced_middle.mp hinv.coalesced
  have hal := hinv.aligned
  rw [List.forall_mem_append, List.forall_mem_cons] at hal
  obtain ⟨hapre, -, hapost⟩ := hal
  simp only at hcpre hcpost
  obtain ⟨ho₁, hk₁, hload₁, hn₁⟩ := hinv.freed_nodes h₁
  obtain ⟨m, hpre₁, hpost₁⟩ := nodesTo_append.mp hn₁
  obtain ⟨ho₂, hk₂, pre₀, y, hM⟩ := mergePrev_spec ho₁ hinv.lo_dvd hinv.lo_pos hbounds.2 hhi hcpre hkpre hapre
    had hzd hz hpre₁ hload₁ h₂
  have hy : 0 < y := by
    have := hM.ends
    have := hM.le
    omega
  have hlf : lo ≤ f := hM.covers.le
  have hcpost' : Covers (f + y) post hi := by rwa [hM.ends]
  have hpost₂ : s₂.NodesTo (headNode (frees post)) (frees post) 0 := by
    obtain ⟨hsp, hge⟩ := behind_spaced hinv.lo_pos (by omega) (Nat.dvd_add had hzd) hcpost hapost
    rw [← hpost₁.head]
    apply hpost₁.keeps hsp hk₂
    intro p hp
    have hp' := hge p hp
    simp only [pageSize] at hzp
    have hwords (x : ℕ) (hx : a + z ≤ x) : x ∉ nodeWords (frees pre) := by
      rintro ⟨⟨b, w⟩, hb, hxb⟩
      have hbb := hcpre.bounds (mem_frees.mp hb)
      simp only at hbb hxb
      omega
    exact ⟨hwords _ hp', hwords _ (by omega)⟩
  obtain ⟨ho₃, hk₃, hhead₃, post₀, y', hN⟩ := mergeNext_spec ho₂ hinv.lo_dvd hinv.lo_pos hhi hlf hy hM.dvd.1
    hM.dvd.2 hcpost' hkpost hapost hpost₂ hM.size h₃
  have hends := hM.ends
  have hle := hN.le
  have hfa := hM.le
  have hcov : Covers lo (pre₀ ++ ⟨f, y', true⟩ :: post₀) hi :=
    covers_middle.mpr ⟨hM.covers, by simp only; omega, hN.covers⟩
  have hal₀ : ∀ g ∈ pre₀ ++ ⟨f, y', true⟩ :: post₀, pageSize ∣ g.start ∧ pageSize ∣ g.size := by
    rw [List.forall_mem_append, List.forall_mem_cons]
    exact ⟨fun g hg => hapre g (hM.subset hg), ⟨hM.dvd.1, hN.dvd⟩, fun g hg => hapost g (hN.subset hg)⟩
  have hsp := Covers.spaced hcov hinv.lo_dvd hinv.lo_pos hal₀
  have hfrees : frees (pre₀ ++ ⟨f, y', true⟩ :: post₀) = frees pre₀ ++ (f, y') :: frees post₀ := by
    rw [frees_append, frees_cons_free rfl]
  -- The free list, from the nodes in front and those behind.
  have hn₃ : s₃.NodesTo s₃.head (frees (pre₀ ++ ⟨f, y', true⟩ :: post₀)) 0 := by
    rw [hfrees] at hsp ⊢
    refine nodesTo_append.mpr ⟨f, ?_, hN.nodes⟩
    rw [hhead₃]
    apply hM.nodes.keeps (hsp.of_sublist (List.sublist_append_left ..)) hk₃
    rintro ⟨b, w⟩ hb
    have hbb := hM.covers.bounds (mem_frees.mp hb)
    have hwp := pageSize_le (hapre _ (hM.subset (mem_frees.mp hb))).2 (hM.covers.pos (mem_frees.mp hb))
    simp only [pageSize] at hbb hwp
    simp only [Set.mem_insert_iff, Set.mem_singleton_iff]
    omega
  have hR (j : ℕ) (hj : 1 ≤ j) (hj' : j < 1 + (z / pageSize - 1)) :
      wadd a (j * pageSize) / pageSize ∈ region lo hi := by
    have := page_bounds had hzd (by omega) hj hj' rfl
    exact mem_region hinv.lo_dvd (by omega) (by omega)
  obtain ⟨ho₄, hk₄, hhead₄⟩ := ho₃.unmapLoop hR h₄
  refine ⟨_, ⟨hinv.lo_dvd, hinv.lo_pos, hhi, ho₄, hcov, ?_, hal₀, ?_, ?_⟩, ?_⟩
  · exact coalesced_middle.mpr ⟨hM.coalesced, hN.coalesced, fun x hx h => by simp [hM.last x hx] at h,
      fun x hx h => by simp [hN.next x hx] at h⟩
  · rw [hhead₄]
    apply hn₃.keeps hsp hk₄
    rintro ⟨b, w⟩ hb
    have hbmem := mem_frees.mp hb
    have hwp := pageSize_le (hal₀ _ hbmem).2 (hcov.pos hbmem)
    simp only [pageSize] at hwp
    -- A released page lies in the new segment, behind its first page.
    have hout (o : ℕ) (ho : o < 12) : ¬ ∃ j, 1 ≤ j ∧ j < 1 + (z / pageSize - 1) ∧
        (b + o) / pageSize = wadd a (j * pageSize) / pageSize := by
      rintro ⟨j, hj, hj', hx⟩
      have hbj := page_bounds had hzd (by omega) hj hj' hx
      have hnew : (⟨f, y', true⟩ : Seg) ∈ pre₀ ++ ⟨f, y', true⟩ :: post₀ := by simp
      have heq := hcov.eq_of_mem (x := b + o) hbmem hnew (by simp only; omega) (by simp only; omega)
      cases heq
      simp only [pageSize] at hbj
      omega
    exact ⟨hout 0 (by omega), hout 4 (by omega)⟩
  · intro p hp
    rw [used_append, used_cons_free rfl, hM.used_eq, hN.used_eq] at hp
    have hp' : p ∈ used (pre ++ ⟨a, z, false⟩ :: post) := by
      rw [used_append, used_cons_used rfl]
      exact (List.mem_append.mp hp).elim (List.mem_append_left _)
        fun h => List.mem_append_right _ (List.mem_cons_of_mem _ h)
    have hne : p.1 ≠ a := by
      obtain ⟨b, w⟩ := p
      rcases List.mem_append.mp hp with hb | hb
      · have hbb := hcpre.bounds (mem_used.mp hb)
        have hw := hcpre.pos (mem_used.mp hb)
        simp only at hbb hw ⊢
        omega
      · have hbb := (hcpost.bounds (mem_used.mp hb)).1
        simp only at hbb ⊢
        omega
    have hnode (q : ℕ × ℕ) (hq : q ∈ frees pre) : q.1 ∈ touched (pre ++ ⟨a, z, false⟩ :: post) a ∧
        q.1 + 4 ∈ touched (pre ++ ⟨a, z, false⟩ :: post) a := by
      apply hinv.node_touched
      rw [frees_append]
      exact List.mem_append_left _ hq
    have hkeeps : Keeps (region lo hi) (touched (pre ++ ⟨a, z, false⟩ :: post) a) s t := by
      refine (((hk₁.trans hk₂).trans hk₃).trans hk₄).mono ?_
      simp only [pageSize] at hzp
      rintro x (((hx | ⟨q, hq, hx⟩) | hx) | ⟨j, hj, hj', hx⟩)
      · rw [Set.mem_singleton_iff.mp hx]
        exact mem_touched hmem (.inr rfl) (o := 0) (by omega)
      · rcases hx with rfl | rfl
        · exact (hnode q hq).1
        · exact (hnode q hq).2
      · rcases hM.place with rfl | ⟨b, hb⟩
        · rcases hx with rfl | rfl
          · exact mem_touched hmem (.inr rfl) (o := 0) (by omega)
          · exact mem_touched hmem (.inr rfl) (by omega)
        · rcases hx with rfl | rfl
          · exact (hnode _ hb).1
          · exact (hnode _ hb).2
      · have := page_bounds had hzd (by omega) hj hj' hx
        exact ⟨_, hmem, .inr rfl, by simp only; omega, by simp only; omega⟩
    exact hinv.header_keeps hkeeps hp' hne
  · rw [used_append, used_cons_free rfl, hM.used_eq, hN.used_eq]

/-- The heap after a block has been given back. -/
theorem HeapInv.vfree (hinv : HeapInv P lo hi s gs) (hmem : (a, z) ∈ used gs)
    (hs : s.vfree (a + headerSize) = some t) :
    ∃ gs', HeapInv P lo hi t gs' ∧ (used gs).Perm ((a, z) :: used gs') := by
  obtain ⟨hmagic, hsize, w, hflags, hw⟩ := hinv.headers _ hmem
  have hseg := mem_used.mp hmem
  obtain ⟨pre, post, rfl⟩ := List.append_of_mem hseg
  have hz := pageSize_le (hinv.aligned _ hseg).2 (hinv.covers.pos hseg)
  have hbounds := hinv.covers.bounds hseg
  have hhi := hinv.hi_lt
  simp only [pageSize] at hz hbounds hmagic hsize hflags
  have hblock : wsub (a + headerSize) headerSize = a := by
    rw [wsub_of_le (Nat.le_add_left ..) (by simp only [headerSize]; omega), Nat.add_sub_cancel]
  have hne : a + headerSize ≠ 0 := by simp [headerSize]
  unfold Heap.vfree at hs
  rw [if_neg hne] at hs
  simp only [hblock] at hs
  obtain ⟨m, hm, hs⟩ := Option.bind_eq_some_iff.mp hs
  rw [hmagic] at hm
  cases hm
  rw [if_neg (not_not.mpr rfl)] at hs
  obtain ⟨w', hw', hs⟩ := Option.bind_eq_some_iff.mp hs
  rw [hflags] at hw'
  cases hw'
  rw [if_neg (by omega)] at hs
  obtain ⟨z', hz', hs⟩ := Option.bind_eq_some_iff.mp hs
  rw [hsize] at hz'
  cases hz'
  obtain ⟨s₁, h₁, hs⟩ := Option.bind_eq_some_iff.mp hs
  obtain ⟨⟨prev, current⟩, hplace, hs⟩ := Option.bind_eq_some_iff.mp hs
  obtain ⟨⟨f, s₂⟩, h₂, hs⟩ := Option.bind_eq_some_iff.mp hs
  obtain ⟨s₃, h₃, h₄⟩ := Option.bind_eq_some_iff.mp hs
  -- The place of the block in the free list is its place among the segments.
  obtain ⟨-, -, -, hn₁⟩ := hinv.freed_nodes h₁
  obtain ⟨hcpre, -, hcpost⟩ := covers_middle.mp hinv.covers
  have hlow (p : ℕ × ℕ) (hp : p ∈ frees pre) : p.1 < a := by
    have hbp := hcpre.bounds (mem_frees.mp hp)
    have hyp := hcpre.pos (mem_frees.mp hp)
    simp only at hbp hyp
    omega
  have hhigh (p : ℕ × ℕ) (hp : p ∈ frees post) : a ≤ p.1 := by
    have hbp := (hcpost.bounds (mem_frees.mp hp)).1
    simp only at hbp
    omega
  have hfuel : (frees pre).length < maxNodes := by
    have hall (g : Seg) (hg : g ∈ pre) : pageSize ≤ g.size :=
      pageSize_le (hinv.aligned g (List.mem_append_left _ hg)).2 (hcpre.pos hg)
    have hlen := hcpre.length_mul_le hall
    have hfrees : (frees pre).length ≤ pre.length := by
      rw [frees, List.length_map]
      exact List.length_filter_le ..
    simp only [pageSize, word, maxNodes] at *
    omega
  rw [placeLoop_spec hn₁ hlow hhigh hfuel] at hplace
  cases hplace
  obtain ⟨gs, hgs, hused⟩ := hinv.release h₁ h₂ h₃ h₄
  refine ⟨gs, hgs, ?_⟩
  rw [hused, used_append, used_cons_used rfl]
  exact List.perm_middle

end Heap
end Ferrite.Memory
