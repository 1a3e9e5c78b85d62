import Xv6.ExecLoad

namespace Xv6.Vm

open ByteMemory Ownership

structure Prepared (L : Layout) (A : Set Role) (M : Set ℕ) (m : PhysMem) (ip : Inode) (d : ℕ)
    (m' : PhysMem) : Prop where
  lt : stackTop ip < KERNBASE
  image : Image L A M d (stackTop ip) m m'
  stack : Stack m' d (stackTop ip)
  kernel : KernelPart L m' d
  keeps : Keeps A m m'
  loaded : ∃ bs sz m1 m2, readAll ip 0 sizeofElfhdr = some bs ∧ Image L A M d 0 m m1 ∧
    loadSegments L ip d (elfhdr bs).phnum (elfhdr bs).phoff 0 m1 = .ok (some sz, m2) ∧
    stackTop ip = PGROUNDUP sz + 2 * PGSIZE ∧ ∀ a, a < KERNBASE → userByte m' d a = userByte m2 d a

section

variable {L : Layout} {A : Set Role} {M : Set ℕ} {m m' : PhysMem} {d : ℕ} {ip : Inode} {p : Proc}
    {argv : List (List UInt8)}

theorem setupkvm_kernel (hI : Inv L A M m) (he : setupkvm L m = .ok (some d, m')) : KernelPart L m' d := by
  refine ⟨(setupkvm_contents hI he).2 d rfl, ?_⟩
  rcases setupkvm_spec hI with ⟨m1, he', -⟩ | ⟨d', m1, he', -, -, -, htab, -⟩
  · cases he.symm.trans he'
  · cases he.symm.trans he'
    intro i h1 h2
    rw [htab i (by simp only [NPDENTRIES]; omega)]
    simp only [kernelTables, Finset.mem_union, Finset.mem_Ico]
    omega

theorem prepare_spec (hI : Inv L A M m) (ip : Inode) : (∃ m', prepare L m ip = .ok (none, m')) ∨
    ∃ d entry m', prepare L m ip = .ok (some (d, stackTop ip, entry), m') ∧ Prepared L A M m ip d m' := by
  have hbad : ∀ d m', Building L A M d m m' → ∃ m'', freevm L m' (some d) = .ok m'' := by
    intro d m' h
    obtain ⟨m'', he, -⟩ := freevm_spec mem_rooted h.inv
    exact ⟨m'', he⟩
  simp only [prepare]
  cases hread : readAll ip 0 sizeofElfhdr with
  | none => exact Or.inl ⟨m, rfl⟩
  | some bs =>
    simp only
    by_cases hmagic : (elfhdr bs).magic ≠ ELF_MAGIC
    · exact Or.inl ⟨m, by rw [if_pos hmagic]⟩
    rw [if_neg hmagic]
    rcases setupkvm_spec hI with ⟨m1, he1, -⟩ | ⟨d, m1, he1, -⟩
    · exact Or.inl ⟨m1, by rw [he1]; rfl⟩
    have h1 := setupkvm_image hI he1
    have hkern1 := setupkvm_kernel hI he1
    simp only [he1, Outcome.ok_bind]
    rcases h1.loadSegments ip (elfhdr bs).phnum (elfhdr bs).phoff 0 m1 (by decide)
        with ⟨m2, he2, hb⟩ | ⟨sz, m2, he2, -, h2⟩
    · obtain ⟨m3, he3⟩ := hbad d m2 hb
      exact Or.inl ⟨m3, by simp only [he2, Outcome.ok_bind, he3]⟩
    obtain ⟨hsz, hkern2⟩ := h1.loadSegments_size _ _ 0 m1 (by decide) hkern1 he2
    have htop : stackTop ip = PGROUNDUP sz + 2 * PGSIZE := by
      simp only [stackTop, segments, hread, hsz]
    have hup : pages (PGROUNDUP sz) = pages sz ∧ sz ≤ PGROUNDUP sz := by
      simp only [pages, PGROUNDUP, PGSIZE]
      omega
    simp only [he2, Outcome.ok_bind]
    rcases h2.allocuvm _ (PGROUNDUP sz + 2 * PGSIZE) hup.1 hup.2 with ⟨m3, he3, hb⟩ | ⟨m3, he3, hlt, h3⟩
    · obtain ⟨m4, he4⟩ := hbad d m3 hb
      exact Or.inl ⟨m4, by simp only [he3, Outcome.ok_bind, if_true, he4]⟩
    rw [max_eq_right (by omega)] at he3 h3
    rw [← htop] at h3 hlt
    replace he3 : allocuvm L m2 d (PGROUNDUP sz) (PGROUNDUP sz + 2 * PGSIZE) =
        .ok (stackTop ip, m3) := by rw [he3, htop]
    have hpos : stackTop ip ≠ 0 := by
      rw [htop]
      simp only [PGSIZE]
      omega
    have hguard : (stackTop ip - 2 * PGSIZE) / PGSIZE < pages (stackTop ip) := by
      rw [lt_pages]
      simp only [PGSIZE] at *
      omega
    obtain ⟨m4, he4, -⟩ := h3.clearpteu hlt.le hguard
    have hkern3 := h2.allocuvm_kernel hkern2 he3 hpos
    have hkern4 := h3.clearpteu_kernel hlt.le hguard hkern3 he4
    obtain ⟨-, -, h4, hst, hk4, hbytes⟩ := h2.stack he3 hpos he4
    refine Or.inr ⟨d, (elfhdr bs).entry, m4, ?_, hlt, h4, hst, hkern4, ?_, bs, sz, m1, m2, hread, h1, he2, htop, hbytes⟩
    · simp only [he3, Outcome.ok_bind, if_neg hpos, he4]
    · exact ((setupkvm_contents hI he1).1.trans (h1.loadSegments_keeps _ _ _ 0 m1 (by decide) he2)).trans hk4

theorem Prepared.contents {data : List UInt8} (h : Prepared L A M m (fileInode data) d m')
    (hdata : data.length < 2 ^ 32) :
    (∀ ph ∈ segments (fileInode data), ph.filesz ≤ ph.memsz ∧ ph.vaddr + ph.memsz ≤
      stackTop (fileInode data) - 2 * PGSIZE ∧
      (0 < ph.filesz → ph.off + ph.filesz ≤ data.length)) ∧
    ∀ a, a < KERNBASE → userByte m' d a = (segments (fileInode data)).foldl (loadImage data) (fun _ => 0) a := by
  obtain ⟨bs, sz, m1, m2, hread, h1, hload, htop, hbytes⟩ := h.loaded
  have hphs : segments (fileInode data) = loadable (fileInode data) (elfhdr bs).phnum (elfhdr bs).phoff := by
    simp only [segments, hread]
  obtain ⟨-, hall, himg⟩ := h1.loadSegments_bytes hdata _ _ 0 m1 (by decide) hload
  rw [← hphs] at hall himg
  have hround : sz ≤ PGROUNDUP sz := by
    simp only [PGROUNDUP, PGSIZE]
    omega
  refine ⟨fun ph hph => ?_, fun a ha => ?_⟩
  · obtain ⟨-, hle, hin, hoff⟩ := hall ph hph
    exact ⟨hle, by omega, hoff⟩
  · rw [hbytes a ha, himg a ha]
    -- nothing is mapped before the segments
    refine foldl_loadImage_congr _ (userByte_of_none (if_neg fun hp => ?_))
    exact absurd ((h1.mapped _ hp.1).mp hp.2) (by simp [pages, PGSIZE])

theorem execWith_done {null : PhysMem → Outcome ℕ} {sz sz' sp entry : ℕ} {m1 m2 : PhysMem}
    (hprep : prepare L m ip = .ok (some (d, sz, entry), m1)) (hargs : copyArgsWith null d sz argv m1 =
      .ok (some (sz', sp), m2))
    (hfree : freevm L m2 (some p.pgdir) = .ok m') :
    execWith null L m p ip argv = .ok (some { p with pgdir := d, sz := sz', eip := entry, esp := sp }, m') := by
  simp only [execWith, hprep, Outcome.ok_bind, hargs, hfree]

theorem exec_clear (hI : Inv L A M m) (hp : Spans A p.pgdir)
    (hargs : ∀ a ∈ argv, a.length + 1 ≤ 2 ^ 31) (hclear : Loads L m ip → Clear (stackTop ip) (stackTop ip) 0 argv) :
    ∃ r m', (∀ null, execWith null L m p ip argv = .ok (r, m')) ∧ ∀ q, r = some q → q.sz = stackTop ip ∧
      ∃ m1 m2, Prepared L A M m ip q.pgdir m1 ∧ Image L A M q.pgdir q.sz m m2 ∧
        (∃ ptrs, ArgsAt m2 q.pgdir q.sz q.esp argv ptrs) ∧
        (∀ a, a < q.sz - PGSIZE → userByte m2 q.pgdir a = userByte m1 q.pgdir a) ∧
        ∃ R : Set Role, Keeps R m2 m' ∧ Spans R q.pgdir := by
  rcases prepare_spec hI ip with ⟨m1, he1⟩ | ⟨d, entry, m1, he1, hprep⟩
  · exact ⟨none, m1, fun null => by rw [execWith, he1]; rfl, by simp⟩
  obtain ⟨r, m2, he2, h2, -, -, -, hsome⟩ := copyArgs_spec hprep.image hprep.lt hprep.stack argv hargs
      (hclear ⟨_, _, he1⟩)
  cases r with
  | none =>
    obtain ⟨m3, he3, -⟩ := freevm_spec mem_rooted h2.inv
    exact ⟨none, m3, fun null => by simp only [execWith, he1, he2, Outcome.ok_bind, execBad, he3], by simp⟩
  | some r =>
    obtain ⟨sz, sp⟩ := r
    obtain ⟨rfl, hat, hbelow⟩ := hsome sz sp rfl
    have hp' : Spans (A ∪ rooted d) p.pgdir := fun r hr => Or.inl (hp r hr)
    obtain ⟨m3, he3, -⟩ := freevm_spec hp' h2.inv
    have hne : d ≠ p.pgdir := fun he => h2.root (.dir d) rfl (hp _ he)
    refine ⟨_, m3, fun null => execWith_done he1 (he2 null) he3, ?_⟩
    rintro q ⟨⟩
    refine ⟨rfl, m1, m2, hprep, h2, hat, hbelow, _, freevm_keeps hp' h2.inv he3, ?_⟩
    rintro r rfl
    exact ⟨mem_rooted r rfl, hne⟩

theorem exec_gap (hI : Inv L A M m) (hargs : ∀ a ∈ argv, a.length + 1 ≤ 2 ^ 31) (hload : Loads L m ip)
    (hnot : ¬Clear (stackTop ip) (stackTop ip) 0 argv) (p : Proc) (e : String) :
    execWith (fun _ => .error e) L m p ip argv = .error e := by
  obtain ⟨x, m0, he0⟩ := hload
  rcases prepare_spec hI ip with ⟨m1, he1⟩ | ⟨d, entry, m1, he1, hprep⟩
  · cases he0.symm.trans he1
  · simp only [execWith, he1, Outcome.ok_bind,
        copyArgs_gap hprep.image hprep.lt.le hprep.stack hprep.kernel.gap hargs hnot]
    rfl

end

end Xv6.Vm
