import Xv6.ExecWrap

/-!
What a program finds when `exec` has started it: its arguments and its image.
-/

namespace Xv6.Vm

open ByteMemory Ownership

def Starts (L : Layout) (m : PhysMem) (p : Proc) (ip : Inode) (argv : List (List UInt8))
    (P : PhysMem → Proc → Prop) : Prop :=
  ∃ r m', exec L m p (some ip) argv = .ok (r, m') ∧ (∀ null, execWith null L m p ip argv = .ok (r, m')) ∧
    ∀ q, r = some q → P m' q

structure Faithful (L : Layout) (m : PhysMem) (p : Proc) (ip : Inode) (argv : List (List UInt8)) : Prop where
  starts : Starts L m p ip argv fun m' q => ∃ ptrs, ArgsAt m' q.pgdir q.sz q.esp argv ptrs
  phase : ∀ d sz entry m1, prepare L m ip = .ok (some (d, sz, entry), m1) →
    ∃ r m2, (∀ null, copyArgsWith null d sz argv m1 = .ok (r, m2)) ∧ (r.isSome = true ↔ Fits argv) ∧
      ∀ a, sz - 2 * PGSIZE ≤ a → a < sz - PGSIZE → userByte m2 d a = userByte m1 d a

structure Loaded (data : List UInt8) (m : PhysMem) (d sz : ℕ) : Prop where
  file : ∀ ph ∈ segments (fileInode data), ∀ j, j < ph.filesz →
    ∃ b, data[ph.off + j]? = some b ∧ loadByte m d (ph.vaddr + j) = .ok b
  tail : ∀ ph ∈ segments (fileInode data), ∀ j, ph.filesz ≤ j → j < ph.memsz → loadByte m d (ph.vaddr + j) = .ok 0
  rest : ∀ a, a < sz - 2 * PGSIZE →
    (∀ ph ∈ segments (fileInode data), ¬(ph.vaddr ≤ a ∧ a < ph.vaddr + ph.memsz)) → loadByte m d a = .ok 0
  mapped : ∀ a, a < sz → translate m d a ≠ none

section

variable {L : Layout} {A : Set Role} {M : Set ℕ} {m m' : PhysMem} {p : Proc} {ip : Inode} {argv : List (List UInt8)}
  {data : List UInt8}

theorem starts_iff (hI : Inv L A M m) (hp : Spans A p.pgdir)
    (hargs : ∀ a ∈ argv, a.length + 1 ≤ 2 ^ 31) {P : PhysMem → Proc → Prop}
    (hP : ∀ (q : Proc) (m1 m2 m' : PhysMem) (R : Set Role), q.sz = stackTop ip → Prepared L A M m ip q.pgdir m1 →
      Image L A M q.pgdir q.sz m m2 → (∃ ptrs, ArgsAt m2 q.pgdir q.sz q.esp argv ptrs) →
      (∀ a, a < q.sz - PGSIZE → userByte m2 q.pgdir a = userByte m1 q.pgdir a) → Keeps R m2 m' →
      Spans R q.pgdir → P m' q) :
    Starts L m p ip argv P ↔ (Loads L m ip → Clear (stackTop ip) (stackTop ip) 0 argv) := by
  constructor
  · rintro ⟨r, m', -, hrun, -⟩ hload
    by_contra hnot
    have hgap := exec_gap hI hargs hload hnot p "trap"
    rw [hrun] at hgap
    cases hgap
  · intro hclear
    obtain ⟨r, m', hrun, hsome⟩ := exec_clear hI hp hargs hclear
    refine ⟨r, m', (exec_eq_with L m p ip argv).trans (hrun _), hrun, fun q hq => ?_⟩
    obtain ⟨hsz, m1, m2, hprep, h2, hat, hbelow, R, hk, hR⟩ := hsome q hq
    exact hP q m1 m2 m' R hsz hprep h2 hat hbelow hk hR

/-- The arguments are passed faithfully exactly when no string wraps into the gap. -/
theorem exec_arguments_iff (hI : Inv L A M m) (hp : ∀ r : Role, r.root = p.pgdir → r ∈ A) (hn : argv.length < MAXARG)
    (hargs : ∀ a ∈ argv, a.length + 1 ≤ 2 ^ 31) :
    Faithful L m p ip argv ↔ (Loads L m ip → Clear (stackTop ip) (stackTop ip) 0 argv) := by
  have hstarts : Starts L m p ip argv (fun m' q => ∃ ptrs, ArgsAt m' q.pgdir q.sz q.esp argv ptrs) ↔
      (Loads L m ip → Clear (stackTop ip) (stackTop ip) 0 argv) := by
    refine starts_iff hI hp hargs fun q m1 m2 m' R hsz hprep _ hat _ hk hR => ?_
    obtain ⟨ptrs, hat⟩ := hat
    exact ⟨ptrs, hat.keeps (hsz ▸ hprep.lt.le) hk hR⟩
  constructor
  · exact fun h => hstarts.mp h.starts
  · intro hclear
    refine ⟨hstarts.mpr hclear, fun d sz entry m1 he => ?_⟩
    rcases prepare_spec hI ip with ⟨m2, he'⟩ | ⟨d', entry', m2, he', hprep⟩
    · cases he.symm.trans he'
    cases he.symm.trans he'
    obtain ⟨r, m2, hrun, -, -, hguard, hr, -⟩ := copyArgs_spec hprep.image hprep.lt hprep.stack argv hargs
        (hclear ⟨_, _, he⟩)
    refine ⟨r, m2, hrun, hr.trans (and_iff_right hn.le), fun a h1 h2 => hguard a ?_⟩
    have := hprep.stack.aligned
    have := hprep.stack.two
    simp only [PGSIZE] at *
    omega

/-- Two short arguments of the small program. -/
theorem exec_arguments_iff_two : ∃ m p q m' ptrs,
    exec sampleLayout m p (some (fileInode tinyProgram)) [[97], [98, 99]] = .ok (some q, m') ∧
      ArgsAt m' q.pgdir q.sz q.esp [[97], [98, 99]] ptrs := by
  obtain ⟨A, M, m, p, d, ps, hI, hp, hmem, -⟩ := null_caller
  obtain ⟨q, m', hrun⟩ := exec_tiny hI hp hmem [[97], [98, 99]] (by decide) (by decide)
  have hfaithful : Faithful sampleLayout m p (fileInode tinyProgram) [[97], [98, 99]] :=
    (exec_arguments_iff hI hp (by decide) (by decide)).mpr fun _ => clear_of_short (by decide) _ _ _
  obtain ⟨r, m'', hrun', -, hsome⟩ := hfaithful.starts
  cases hrun.symm.trans hrun'
  obtain ⟨ptrs, hat⟩ := hsome q rfl
  exact ⟨m, p, q, m', ptrs, hrun, hat⟩

/-- The caller has put an entry for the new directory at its own address 0, and the argument has 48 MB. -/
theorem exec_arguments_lost : ¬ ∀ (L : Layout) (A : Set Role) (M : Set ℕ) (m m' : PhysMem) (p q : Proc) (ip : Inode)
    (argv : List (List UInt8)), Inv L A M m → (∀ r : Role, r.root = p.pgdir → r ∈ A) → argv.length < MAXARG →
    (∀ a ∈ argv, a.length + 1 ≤ 2 ^ 31 ∧ 0 ∉ a) → exec L m p (some ip) argv = .ok (some q, m') →
    ∃ ptrs, ArgsAt m' q.pgdir q.sz q.esp argv ptrs := by
  intro hall
  obtain ⟨A, M, m, p, d, ps, hI, hp, hmem, hf, hnull, hM⟩ := null_caller
  obtain ⟨t, q, m', hrun, hsz, hesp, -, ht, -⟩ := exec_wraps hI hp hmem hf hnull
  obtain ⟨ptrs, hat⟩ := hall _ A M m m' p q _ _ hI hp (by simp [MAXARG]) (fun a ha => by
    rw [List.mem_singleton.mp ha, length_wrapString]
    exact ⟨by decide, wrapString_ne_zero fun i hi => hM _ (ht i hi)⟩) hrun
  have hin := (hat.inside (q.esp, 12) List.mem_cons_self).2
  rw [hsz, hesp] at hin
  exact absurd hin (by decide)

/-- The image is loaded exactly when no string wraps into the gap. -/
theorem exec_loads_iff (hI : Inv L A M m) (hp : ∀ r : Role, r.root = p.pgdir → r ∈ A)
    (hargs : ∀ a ∈ argv, a.length + 1 ≤ 2 ^ 31) (hdata : data.length < 2 ^ 32)
    (hdis : (segments (fileInode data)).Pairwise fun x y => Disjoint x.span y.span) :
    Starts L m p (fileInode data) argv (fun m' q => Loaded data m' q.pgdir q.sz) ↔
      (Loads L m (fileInode data) → Clear (stackTop (fileInode data)) (stackTop (fileInode data)) 0 argv) := by
  refine starts_iff hI hp hargs fun q m1 m2 m' R hsz hprep h₂ _ hbelow hk hR => ?_
  obtain ⟨hall, himg⟩ := hprep.contents hdata
  have hle : ∀ ph ∈ segments (fileInode data), ph.filesz ≤ ph.memsz := fun ph hph => (hall ph hph).1
  have hlt := hprep.lt
  rw [← hsz] at hall hlt
  have hpresent : ∀ a, a < q.sz → a / PGSIZE < userPages ∧ present (pte m2 q.pgdir (a / PGSIZE)) := by
    intro a ha
    refine h₂.present_of_lt hlt.le ?_
    rw [lt_pages]
    simp only [PGSIZE]
    omega
  have hbyte : ∀ a, a < q.sz - 2 * PGSIZE → loadByte m' q.pgdir a =
      .ok ((segments (fileInode data)).foldl (loadImage data) (fun _ => 0) a) := by
    intro a ha
    have hlow : a < KERNBASE := by omega
    refine hk.loadByte hR hlow ?_
    rw [loadByte_user hlow (hpresent a (by omega)).2, hbelow a (by omega), himg a hlow]
  refine ⟨fun ph hph j hj => ?_, fun ph hph j h1 h2 => ?_, fun a ha hout => ?_, fun a ha => ?_⟩
  · obtain ⟨hfile, hin, hoff⟩ := hall ph hph
    have hlen := hoff (by omega)
    refine ⟨_, List.getElem?_eq_getElem (by omega), ?_⟩
    rw [hbyte _ (by omega), image_file hdis hle hph hj, List.getD_eq_getElem _ _ (by omega)]
  · have hin := (hall ph hph).2.1
    rw [hbyte _ (by omega), image_tail hdis hle hph h1 h2]
  · rw [hbyte a ha, foldl_loadImage_outside]
    intro ph hph hcov
    have hfile := hle ph hph
    exact hout ph hph (by omega)
  · obtain ⟨hvu, hpr⟩ := hpresent a ha
    have hheld := hk.holds _ _ (hR (.frame q.pgdir (a / PGSIZE)) rfl) (if_pos ⟨hvu, hpr⟩)
    rw [translate_eq_held (by omega), hheld]
    simp

end

/-- The small program: the first bytes of its file, and zeros behind them. -/
theorem exec_loads_iff_tiny : ∃ m p q m', exec sampleLayout m p (some (fileInode tinyProgram))
    [[97]] = .ok (some q, m') ∧
    loadByte m' q.pgdir 1 = .ok 69 ∧ loadByte m' q.pgdir 7 = .ok 0 := by
  obtain ⟨A, M, m, p, d, ps, hI, hp, hmem, -⟩ := null_caller
  obtain ⟨q, m', hrun⟩ := exec_tiny hI hp hmem [[97]] (by decide) (by decide)
  have hstarts : Starts sampleLayout m p (fileInode tinyProgram) [[97]] fun m' q =>
      Loaded tinyProgram m' q.pgdir q.sz :=
    (exec_loads_iff hI hp (by decide) (by decide) (by rw [segments_tinyProgram]; exact List.pairwise_singleton _ _)).mpr
      fun _ => clear_of_short (by decide) _ _ _
  obtain ⟨r, m'', hrun', -, hsome⟩ := hstarts
  cases hrun.symm.trans hrun'
  obtain ⟨hfile, htail, -, -⟩ := hsome q rfl
  rw [segments_tinyProgram] at hfile htail
  obtain ⟨b, hb, hload⟩ := hfile _ List.mem_cons_self 1 (by decide)
  cases hb
  exact ⟨m, p, q, m', hrun, hload, htail _ List.mem_cons_self 7 (by decide) (by decide)⟩

/-- With the same caller and the same argument: the first page of the program is not mapped. -/
theorem exec_image_lost : ¬ ∀ (L : Layout) (A : Set Role) (M : Set ℕ) (m m' : PhysMem) (p q : Proc) (data : List UInt8)
    (argv : List (List UInt8)), Inv L A M m → (∀ r : Role, r.root = p.pgdir → r ∈ A) →
    (∀ a ∈ argv, a.length + 1 ≤ 2 ^ 31 ∧ 0 ∉ a) → data.length < 2 ^ 32 →
    (segments (fileInode data)).Pairwise (fun x y => Disjoint x.span y.span) →
    exec L m p (some (fileInode data)) argv = .ok (some q, m') → Loaded data m' q.pgdir q.sz := by
  intro hall
  obtain ⟨A, M, m, p, d, ps, hI, hp, hmem, hf, hnull, hM⟩ := null_caller
  obtain ⟨t, q, m', hrun, hsz, -, hnone, ht, -⟩ := exec_wraps hI hp hmem hf hnull
  have hloaded := hall _ A M m m' p q tinyProgram _ hI hp (fun a ha => by
    rw [List.mem_singleton.mp ha, length_wrapString]
    exact ⟨by decide, wrapString_ne_zero fun i hi => hM _ (ht i hi)⟩) (by decide)
    (by rw [segments_tinyProgram]; exact List.pairwise_singleton _ _) hrun
  exact hloaded.mapped 0 (by rw [hsz]; decide) hnone

end Xv6.Vm
