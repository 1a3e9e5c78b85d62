import Xv6.ProcMemory
import Xv6.UserMap

namespace Xv6.Vm

open Xv6.ByteMemory Xv6.Ownership

structure Building (L : Layout) (A : Set Role) (M : Set ℕ) (d : ℕ) (m0 m : PhysMem) : Prop where
  inv : Inv L (A ∪ rooted d) M m
  root : Avoids A d
  same : Same A m0 m

structure Image (L : Layout) (A : Set Role) (M : Set ℕ) (d sz : ℕ) (m0 m : PhysMem) : Prop
    extends Building L A M d m0 m where
  mapped : ∀ v, v < userPages → (present (pte m d v) ↔ v < pages sz)
  kernel : ∀ v, userPages ≤ v → v < 2 ^ 20 → ¬userBit (pte m d v)
  tables : ∀ i ∈ kernelTables, present (pde m d i)

section

variable {L : Layout} {A : Set Role} {M : Set ℕ} {d sz : ℕ} {m0 m m' : PhysMem}

theorem kernelTables_lt {i : ℕ} (h : i ∈ kernelTables) : i < NPDENTRIES := by
  simp only [kernelTables, Finset.mem_union, Finset.mem_Ico] at h
  simp only [NPDENTRIES]
  omega

theorem Building.of_same (h : Building L A M d m0 m) (hs : Same (A ∪ rooted d) m m') (hf : m'.freelist = m.freelist) :
    Building L A M d m0 m' :=
  ⟨h.inv.same hs hf, h.root, h.same.trans (hs.mono Set.subset_union_left)⟩

theorem Image.of_same (h : Image L A M d sz m0 m) (hs : Same (A ∪ rooted d) m m') (hf : m'.freelist = m.freelist) :
    Image L A M d sz m0 m' := by
  refine ⟨h.toBuilding.of_same hs hf, ?_, ?_, ?_⟩
  · intro v hv
    rw [hs.entries d v (mem_rooted _ rfl) (lt_of_lt_userPages hv)]
    exact h.mapped v hv
  · intro v h1 h2
    rw [hs.entries d v (mem_rooted _ rfl) h2]
    exact h.kernel v h1 h2
  · intro i hi
    rw [hs.dirs d i (mem_rooted _ rfl) (kernelTables_lt hi)]
    exact h.tables i hi

theorem Building.of_changed {lo hi : ℕ} {Q : ℕ → Prop} (h : Building L A M d m0 m) (hI : Inv L (A ∪ rooted d) M m')
    (hc : Changed (A ∪ rooted d) d lo hi Q m m') : Building L A M d m0 m' := by
  refine ⟨hI, h.root, h.same.trans ⟨?_, ?_⟩⟩
  · intro d' i hd' hi
    exact hc.dirs d' i (Or.inl hd') hi (fun he => h.root (.dir d') he hd')
  · intro d' v ht hv
    exact hc.others d' v (Or.inl ht) hv (fun he => absurd ht (h.root _ he))

theorem Image.grow {newsz : ℕ} (h : Image L A M d sz m0 m) (hI : Inv L (A ∪ rooted d) M m')
    (hc : Changed (A ∪ rooted d) d (pages sz) (pages newsz) UserEntry m m') (hle : sz ≤ newsz)
    (hnew : newsz ≤ KERNBASE) : Image L A M d newsz m0 m' := by
  have hpg : pages sz ≤ pages newsz := Nat.div_le_div_right (by omega)
  have hpu := pages_le_userPages hnew
  refine ⟨h.toBuilding.of_changed hI hc, ?_, ?_, ?_⟩
  · intro v hv
    by_cases hin : pages sz ≤ v ∧ v < pages newsz
    · exact iff_of_true (hc.inside v hin.1 hin.2).present hin.2
    · rw [hc.others d v (mem_rooted _ rfl) (lt_of_lt_userPages hv) (fun _ => by omega), h.mapped v hv]
      omega
  · intro v h1 h2
    rw [hc.others d v (mem_rooted _ rfl) h2 (fun _ => by omega)]
    exact h.kernel v h1 h2
  · intro i hi
    exact hc.keep i (kernelTables_lt hi) (h.tables i hi)

theorem Image.allocuvm (h : Image L A M d sz m0 m) (oldsz newsz : ℕ) (hold : pages oldsz = pages sz)
    (hle : sz ≤ oldsz) :
    (∃ m', Vm.allocuvm L m d oldsz newsz = .ok (0, m') ∧ Building L A M d m0 m') ∨
    ∃ m', Vm.allocuvm L m d oldsz newsz = .ok (max oldsz newsz, m') ∧ newsz < KERNBASE ∧
      Image L A M d (max oldsz newsz) m0 m' := by
  have hpages : ∀ x, pages oldsz ≤ x → x < userPages → ¬present (pte m d x) := by
    intro x h1 h2
    rw [h.mapped x h2]
    omega
  rcases allocuvm_spec (mem_rooted (A := A)) oldsz newsz h.inv with
    ⟨hk, x, h1, h2, hp, -⟩ | ⟨hlt, hk, he⟩ | ⟨hle', hk, m', he, hI, hc⟩ | ⟨-, he⟩ | ⟨-, m', he, hI, hc⟩
  · have := pages_le_userPages hk.le
    exact absurd hp (hpages x h1 (by omega))
  · right
    refine ⟨m, ?_, hk, ?_⟩
    · rw [he, max_eq_left hlt.le]
    · rw [max_eq_left hlt.le]
      exact ⟨h.toBuilding, fun v hv => by rw [hold]; exact h.mapped v hv, h.kernel, h.tables⟩
  · right
    refine ⟨m', ?_, hk, ?_⟩
    · rw [he, max_eq_right hle']
    · rw [max_eq_right hle']
      rw [hold] at hc
      exact h.grow hI hc (hle.trans hle') hk.le
  · exact Or.inl ⟨m, he, h.toBuilding⟩
  · exact Or.inl ⟨m', he, h.toBuilding.of_changed hI hc⟩

theorem Image.walk (h : Image L A M d sz m0 m) {va : ℕ} (hv : va / PGSIZE < pages sz) (hsz : sz ≤ KERNBASE) :
    ∃ t j, (walkpgdir m d va false).1 = some (t, j) ∧ word (m.mem t) j = pte m d (va / PGSIZE) ∧
      present (pte m d (va / PGSIZE)) := by
  have hp := (h.mapped _ (hv.trans_le (pages_le_userPages hsz))).mpr hv
  obtain ⟨hw, hpte⟩ := walkpgdir_entry (table_of_present hp)
  exact ⟨_, _, hw, hpte, hp⟩

theorem Image.setFrame (h : Image L A M d sz m0 m) {v : ℕ} (hv : v < pages sz) (hsz : sz ≤ KERNBASE) (b : Bytes) :
    Image L A M d sz m0 (m.setPage (frameOf (pte m d v)) b) := by
  have hvu : v < userPages := hv.trans_le (pages_le_userPages hsz)
  exact h.of_same (h.inv.same_setFrame (mem_rooted _ rfl) hvu ((h.mapped v hvu).mpr hv) b) rfl

theorem loadLoop_spec (hsz : sz ≤ KERNBASE) {addr offset n : ℕ} (hn : addr + n ≤ sz) (ip : Inode) (i : ℕ) (m : PhysMem)
    (h : Image L A M d sz m0 m) :
    ∃ b m', loadLoop d addr offset n ip i m = .ok (b, m') ∧ Image L A M d sz m0 m' := by
  induction hk : n - i using Nat.strong_induction_on generalizing i m with
  | _ k ih =>
    subst hk
    rw [loadLoop]
    by_cases hlt : i < n
    · have hpg : (addr + i) / PGSIZE < pages sz := by
        rw [lt_pages]
        simp only [PGSIZE]
        omega
      obtain ⟨t, j, hw, hpte, -⟩ := h.walk hpg hsz
      rw [if_pos hlt, hw]
      simp only [hpte]
      generalize (if n - i < PGSIZE then n - i else PGSIZE) = k
      split
      · exact ⟨false, m, rfl, h⟩
      · rename_i bs _
        have h' := h.setFrame hpg hsz (store (m.mem (frameOf (pte m d ((addr + i) / PGSIZE)))) 0 bs)
        split_ifs
        · exact ⟨false, _, rfl, h'⟩
        · exact ih (n - (i + PGSIZE)) (by simp only [PGSIZE]; omega) (i + PGSIZE) _ h' rfl
    · rw [if_neg hlt]
      exact ⟨true, m, rfl, h⟩

theorem Image.loaduvm (h : Image L A M d sz m0 m) (hsz : sz ≤ KERNBASE) {addr n : ℕ} (hal : addr % PGSIZE = 0)
    (hn : addr + n ≤ sz) (ip : Inode) (offset : ℕ) :
    ∃ b m', Vm.loaduvm m d addr ip offset n = .ok (b, m') ∧ Image L A M d sz m0 m' := by
  rw [Vm.loaduvm, if_neg (by simp [hal])]
  exact loadLoop_spec hsz hn ip 0 m h

theorem Image.loadSegments (ip : Inode) (n off sz : ℕ) (m : PhysMem) (h : Image L A M d sz m0 m) (hsz : sz < KERNBASE) :
    (∃ m', Vm.loadSegments L ip d n off sz m = .ok (none, m') ∧ Building L A M d m0 m') ∨
    ∃ sz' m', Vm.loadSegments L ip d n off sz m = .ok (some sz', m') ∧ sz' < KERNBASE ∧ Image L A M d sz' m0 m' := by
  induction n generalizing off sz m with
  | zero => exact Or.inr ⟨sz, m, rfl, hsz, h⟩
  | succ n ih =>
    simp only [Vm.loadSegments]
    cases hr : readAll ip off sizeofProghdr with
    | none => exact Or.inl ⟨m, rfl, h.toBuilding⟩
    | some bs =>
      simp only
      set ph := proghdr bs
      by_cases ht : ph.type ≠ ELF_PROG_LOAD
      · rw [if_pos ht]
        exact ih _ sz m h hsz
      rw [if_neg ht]
      by_cases hm : ph.memsz < ph.filesz
      · rw [if_pos hm]
        exact Or.inl ⟨m, rfl, h.toBuilding⟩
      rw [if_neg hm]
      by_cases hw : (ph.vaddr + ph.memsz) % 2 ^ 32 < ph.vaddr
      · rw [if_pos hw]
        exact Or.inl ⟨m, rfl, h.toBuilding⟩
      rw [if_neg hw]
      have hvlt : ph.vaddr < 2 ^ 32 := word_lt _ _
      have hmlt : ph.memsz < 2 ^ 32 := word_lt _ _
      have hnowrap : (ph.vaddr + ph.memsz) % 2 ^ 32 = ph.vaddr + ph.memsz := by omega
      rw [hnowrap]
      rcases h.allocuvm sz (ph.vaddr + ph.memsz) rfl le_rfl with
        ⟨m', he, hb⟩ | ⟨m', he, hk, h'⟩
      · rw [he]
        exact Or.inl ⟨m', by simp, hb⟩
      · rw [he]
        simp only [Outcome.ok_bind]
        have hmax : max sz (ph.vaddr + ph.memsz) < KERNBASE := max_lt hsz hk
        by_cases hz : max sz (ph.vaddr + ph.memsz) = 0
        · rw [if_pos hz]
          exact Or.inl ⟨m', rfl, h'.toBuilding⟩
        rw [if_neg hz]
        by_cases hal : ph.vaddr % PGSIZE ≠ 0
        · rw [if_pos hal]
          exact Or.inl ⟨m', rfl, h'.toBuilding⟩
        rw [if_neg hal]
        obtain ⟨b, m'', he'', h''⟩ := h'.loaduvm hmax.le (not_not.mp hal) (n := ph.filesz)
          (le_trans (by omega) (le_max_right _ _)) ip ph.off
        rw [he'']
        cases b with
        | false => exact Or.inl ⟨m'', rfl, h''.toBuilding⟩
        | true => exact ih _ _ m'' h'' hmax

theorem clearBit_spec {w : ℕ} (hp : present w) :
    present (clearBit w) ∧ frameOf (clearBit w) = frameOf w ∧ clearBit w ≤ w := by
  rw [clearBit]
  split_ifs with hu
  · simp only [userBit, present, frameOf, PTE_U, PGSIZE] at *
    omega
  · exact ⟨hp, rfl, le_rfl⟩

theorem Image.clearpteu (h : Image L A M d sz m0 m) (hsz : sz ≤ KERNBASE) {va : ℕ} (hv : va / PGSIZE < pages sz) :
    ∃ m', Vm.clearpteu m d va = .ok m' ∧ Image L A M d sz m0 m' := by
  have hvu := hv.trans_le (pages_le_userPages hsz)
  have hv20 := lt_of_lt_userPages hvu
  have hp := (h.mapped _ hvu).mpr hv
  have hpd := table_of_present hp
  obtain ⟨hw, hpte⟩ := walkpgdir_entry hpd
  obtain ⟨hc1, hc2, hc3⟩ := clearBit_spec hp
  have hlt : clearBit (pte m d (va / PGSIZE)) < 2 ^ 32 := by
    rw [← hpte] at hc3 ⊢
    exact lt_of_le_of_lt hc3 (word_lt _ _)
  have hs := h.inv.setPte_views (mem_rooted _ rfl) hv20 hpd hlt
  have hI := hs.inv_remark h.inv rfl (mem_rooted _ rfl) hvu hp hc1 hc2
  refine ⟨_, by simp only [Vm.clearpteu, hw, hpte], ⟨hI, h.root, h.same.trans ⟨?_, ?_⟩⟩, ?_, ?_, ?_⟩
  · exact fun d' i hd' hi => hs.dirs d' i (Or.inl hd') hi
  · intro d' v ht hx
    rw [hs.entries d' v (Or.inl ht) hx, if_neg]
    rintro ⟨rfl, -⟩
    exact h.root _ rfl ht
  · intro v hx
    rw [hs.entries d v (mem_rooted _ rfl) (lt_of_lt_userPages hx)]
    split_ifs with he
    · rw [he.2]
      exact iff_of_true hc1 hv
    · exact h.mapped v hx
  · intro v h1 h2
    rw [hs.entries d v (mem_rooted _ rfl) h2, if_neg (by omega)]
    exact h.kernel v h1 h2
  · intro i hi
    rw [hs.dirs d i (mem_rooted _ rfl) (kernelTables_lt hi)]
    exact h.tables i hi

theorem ustack_length (sp : ℕ) (ptrs : List ℕ) : ((ustack sp ptrs).flatMap wordBytes).length =
    (3 + ptrs.length + 1) * 4 := by
  have h : ∀ ws : List ℕ, (ws.flatMap wordBytes).length = ws.length * 4 := by
    intro ws
    induction ws with
    | nil => rfl
    | cons w ws ih =>
      rw [List.flatMap_cons, List.length_append, ih, List.length_cons]
      simp only [wordBytes, List.length_cons, List.length_nil]
      ring
  rw [h]
  simp only [ustack, List.length_append, List.length_cons, List.length_nil]

structure Mapped (m : PhysMem) (p : Proc) : Prop where
  pos : 0 < p.sz
  lt : p.sz < KERNBASE
  iff : ∀ v, v < userPages → (present (pte m p.pgdir v) ↔ v < pages p.sz)

theorem Image.start (hI : Inv L (A ∪ rooted d) M m) (hroot : Avoids A d) (hs : Same A m0 m)
    (htab : ∀ i, i < NPDENTRIES → (present (pde m d i) ↔ i ∈ kernelTables))
    (huser : ∀ v, v < 2 ^ 20 → ¬userBit (pte m d v)) :
    Image L A M d 0 m0 m := by
  refine ⟨⟨hI, hroot, hs⟩, ?_, fun v _ hv => huser v hv, fun i hi => (htab i (kernelTables_lt hi)).mpr hi⟩
  intro v hv
  refine iff_of_false ?_ (by simp [pages, PGSIZE])
  intro hpr
  have hk := (htab _ (div_lt_entries (lt_of_lt_userPages hv))).mp (table_of_present hpr)
  simp only [kernelTables, Finset.mem_union, Finset.mem_Ico] at hk
  rw [userPages_eq] at hv
  omega

end

/-!
`exec` in two parts: the program image and the stack pages, which depend on neither the caller nor the arguments, and
the copying of the arguments.
-/

def prepare (L : Layout) (m : PhysMem) (ip : Inode) : Outcome (Option (ℕ × ℕ × ℕ) × PhysMem) :=
  match readAll ip 0 sizeofElfhdr with
  | none => .ok (none, m)
  | some bs =>
    let elf := elfhdr bs
    if elf.magic ≠ ELF_MAGIC then .ok (none, m)
    else do
      let (d, m) ← setupkvm L m
      match d with
      | none => .ok (none, m)
      | some pgdir =>
        let (loaded, m) ← loadSegments L ip pgdir elf.phnum elf.phoff 0 m
        match loaded with
        | none =>
          let m ← freevm L m (some pgdir)
          .ok (none, m)
        | some sz =>
          let (sz, m) ← allocuvm L m pgdir (PGROUNDUP sz) (PGROUNDUP sz + 2 * PGSIZE)
          if sz = 0 then
            let m ← freevm L m (some pgdir)
            .ok (none, m)
          else
            let m ← clearpteu m pgdir (sz - 2 * PGSIZE)
            .ok (some (pgdir, sz, elf.entry), m)

def execWith (null : PhysMem → Outcome ℕ) (L : Layout) (m : PhysMem) (p : Proc) (ip : Inode)
    (argv : List (List UInt8)) :
    Outcome (Option Proc × PhysMem) := do
  let (ready, m) ← prepare L m ip
  match ready with
  | none => .ok (none, m)
  | some (d, sz, entry) =>
    let (built, m) ← copyArgsWith null d sz argv m
    match built with
    | none => execBad L m d
    | some (sz, sp) =>
      let m ← freevm L m (some p.pgdir)
      .ok (some { p with pgdir := d, sz := sz, eip := entry, esp := sp }, m)

theorem exec_eq_with (L : Layout) (m : PhysMem) (p : Proc) (ip : Inode) (argv : List (List UInt8)) :
    exec L m p (some ip) argv = execWith (fun m => loadInt m p.pgdir 0) L m p ip argv := by
  simp only [exec, execWith, prepare, buildStack]
  cases readAll ip 0 sizeofElfhdr with
  | none => rfl
  | some bs =>
    simp only
    by_cases hmagic : (elfhdr bs).magic ≠ ELF_MAGIC
    · simp only [if_pos hmagic, Outcome.ok_bind]
    simp only [if_neg hmagic]
    cases setupkvm L m with
    | error e => rfl
    | ok x =>
      obtain ⟨d, m1⟩ := x
      simp only [Outcome.ok_bind]
      cases d with
      | none => rfl
      | some d =>
        simp only
        cases loadSegments L ip d (elfhdr bs).phnum (elfhdr bs).phoff 0 m1 with
        | error e => rfl
        | ok x =>
          obtain ⟨loaded, m2⟩ := x
          simp only [Outcome.ok_bind]
          cases loaded with
          | none =>
            simp only [execBad]
            cases freevm L m2 (some d) <;> rfl
          | some sz =>
            simp only
            cases allocuvm L m2 d (PGROUNDUP sz) (PGROUNDUP sz + 2 * PGSIZE) with
            | error e => rfl
            | ok x =>
              obtain ⟨sz', m3⟩ := x
              simp only [Outcome.ok_bind]
              by_cases hz : sz' = 0
              · simp only [if_pos hz, Outcome.ok_bind, execBad]
                cases freevm L m3 (some d) <;> rfl
              · simp only [if_neg hz]
                cases clearpteu m3 d (sz' - 2 * PGSIZE) <;> rfl

def Loads (L : Layout) (m : PhysMem) (ip : Inode) : Prop := ∃ x m', prepare L m ip = .ok (some x, m')

theorem exec_unloaded {L : Layout} {m : PhysMem} {ip : Inode} (hload : ¬Loads L m ip) (p : Proc)
    (argv : List (List UInt8)) : exec L m p (some ip) argv = exec L m p (some ip) [] := by
  rw [exec_eq_with, exec_eq_with, execWith, execWith]
  cases he : prepare L m ip with
  | error e => rfl
  | ok x =>
    obtain ⟨_ | r, m'⟩ := x
    · rfl
    · exact absurd ⟨r, m', he⟩ hload

end Xv6.Vm
