import Xv6.ExecPrepare

/-!
A small program: with enough free pages `exec` gets as far as the arguments.
-/

namespace Xv6.Vm

open ByteMemory Ownership

def tinyProgram : List UInt8 :=
  [127, 69, 76, 70, 0, 0, 0, 0, 0, 0, 0, 0, 0, 0, 0, 0, 2, 0, 3, 0, 1, 0, 0, 0, 0, 0, 0, 0, 52, 0, 0, 0, 0, 0, 0, 0, 0,
      0, 0, 0,
    52, 0, 32, 0, 1, 0, 0, 0, 0, 0, 0, 0, 1, 0, 0, 0, 0, 0, 0, 0, 0, 0, 0, 0, 0, 0, 0, 0, 4, 0, 0, 0, 8, 0, 0, 0, 7, 0,
        0, 0,
    0, 16, 0, 0]

theorem segments_tinyProgram : segments (fileInode tinyProgram) = [⟨1, 0, 0, 4, 8⟩] := rfl

theorem stackTop_tinyProgram : stackTop (fileInode tinyProgram) = 12288 := rfl

section

variable {L : Layout} {A : Set Role} {M : Set ℕ} {d sz : ℕ} {m0 m m' : PhysMem}

theorem allocLoop_enough (hd : Spans A d) {oldsz newsz : ℕ} (hnew : newsz < KERNBASE) (v : ℕ)
    (m : PhysMem) (hI : Inv L A M m) (habs : ∀ x, v ≤ x → x < pages newsz → ¬present (pte m d x))
    (hlen : 2 * (pages newsz - v) ≤ m.freelist.length) :
    ∃ m', allocLoop L d oldsz newsz (v * PGSIZE) m = .ok (newsz, m') ∧
      m.freelist.length ≤ m'.freelist.length + 2 * (pages newsz - v) := by
  have hpg : pages newsz ≤ userPages := pages_le_userPages hnew.le
  have hpg20 : pages newsz ≤ 2 ^ 20 := by rw [userPages_eq] at hpg; omega
  induction hk : pages newsz - v generalizing v m with
  | zero =>
    refine ⟨m, ?_, by omega⟩
    rw [allocLoop, if_neg]
    rw [← lt_pages]
    omega
  | succ k ih =>
    have hlt : v * PGSIZE < newsz := lt_pages.mp (by omega)
    have htwo : 2 ≤ m.freelist.length := by omega
    cases hf : m.freelist with
    | nil =>
      rw [hf] at htwo
      exact absurd htwo (by simp)
    | cons p ps =>
      rw [hf] at htwo
      obtain ⟨hpM, hmp, hI1, hs1⟩ := hI.take hf zero
      have habs1 : ∀ x, v ≤ x → x < pages newsz → ¬present
          (pte (({ m with freelist := ps } : PhysMem).setPage p zero) d x) := by
        intro x h1 h2
        rw [hs1.entries d x (hd _ rfl) (by omega)]
        exact habs x h1 h2
      rcases mapPage_user hI1 (hd (.frame d v) rfl) (by omega) (habs1 v le_rfl (by omega))
          (by simp) hmp (PTE_W ||| PTE_U)
        (by decide) with ⟨hnil, -⟩ | ⟨m1, he, hI2, hm⟩
      · have hps : ps = [] := hnil
        rw [hps] at htwo
        simp at htwo
      rw [insert_sdiff_mem hpM] at hI2
      have hcost : ps.length ≤ m1.freelist.length + 1 := by
        rcases hm.cost with ⟨-, hl⟩ | ⟨-, hl⟩
        · rw [hl]
          exact Nat.le_succ _
        · exact le_of_eq hl
      rw [hf, List.length_cons] at hlen
      obtain ⟨m', hrun, hlen'⟩ := ih (v + 1) m1 hI2 (fun x h1 h2 => by
        rw [hm.entries d x (hd _ rfl) (by omega), if_neg (by omega)]
        exact habs1 x (by omega) h2) (by omega) (by omega)
      refine ⟨m', ?_, by rw [List.length_cons]; omega⟩
      have hnext : v * PGSIZE + PGSIZE = (v + 1) * PGSIZE := by ring
      rw [allocLoop, if_pos hlt]
      simp only [kalloc, hf]
      rw [mappages_one (by omega : v < 2 ^ 20), he]
      simp only [Outcome.ok_bind, if_true, hnext]
      exact hrun

theorem Image.allocuvm_enough (h : Image L A M d sz m0 m) {oldsz newsz : ℕ} (hold : pages oldsz = pages sz)
    (hle : sz ≤ oldsz) (hle' : oldsz ≤ newsz) (hpos : newsz ≠ 0) (hnew : newsz < KERNBASE)
    (hlen : 2 * (pages newsz - pages oldsz) ≤ m.freelist.length) :
    ∃ m', Vm.allocuvm L m d oldsz newsz = .ok (newsz, m') ∧ Image L A M d newsz m0 m' ∧
      m.freelist.length ≤ m'.freelist.length + 2 * (pages newsz - pages oldsz) := by
  have hpg : pages newsz ≤ userPages := pages_le_userPages hnew.le
  obtain ⟨m', he, hlen'⟩ := allocLoop_enough (mem_rooted (A := A)) hnew (pages oldsz) m h.inv
    (fun x h1 h2 => by rw [h.mapped x (by omega)]; omega) hlen
  have hrun : Vm.allocuvm L m d oldsz newsz = .ok (newsz, m') := by
    rw [Vm.allocuvm, if_neg (Nat.not_le.mpr hnew), if_neg (Nat.not_lt.mpr hle'), PGROUNDUP_eq, he]
  refine ⟨m', hrun, ?_, hlen'⟩
  rcases h.allocuvm oldsz newsz hold hle with ⟨m1, he1, -⟩ | ⟨m1, he1, -, h₁⟩
  · cases hrun.symm.trans he1
    exact absurd rfl hpos
  · rw [max_eq_right hle'] at he1 h₁
    cases hrun.symm.trans he1
    exact h₁

theorem Image.load_tiny (h : Image L A M d 8 m0 m) :
    ∃ b, loadLoop d 0 0 4 (fileInode tinyProgram) 0 m = .ok (true, m.setPage (frameOf (pte m d 0)) b) := by
  obtain ⟨t, j, hw, hpte, -⟩ := h.walk (by decide : (0 + 0) / PGSIZE < pages 8) (by decide)
  have hread : (fileInode tinyProgram).readi ((0 + 0) % 2 ^ 32) (if 4 - 0 < PGSIZE then 4 - 0 else PGSIZE) =
      some [127, 69, 76, 70] := rfl
  refine ⟨store (m.mem (frameOf (pte m d 0))) 0 [127, 69, 76, 70], ?_⟩
  rw [loadLoop, if_pos (by decide), hw]
  simp only [hpte, hread]
  rw [if_neg (by decide), loadLoop, if_neg (by decide)]
  rfl

theorem prepare_tiny (hI : Inv L A M m) (hmem : 71 ≤ m.freelist.length) :
    ∃ d ps m', m.freelist = d :: ps ∧ prepare L m (fileInode tinyProgram) = .ok (some (d, 12288, 0), m') ∧
      Prepared L A M m (fileInode tinyProgram) d m' := by
  obtain ⟨d, ps, hf⟩ : ∃ d ps, m.freelist = d :: ps := List.exists_cons_of_length_pos (by omega)
  rcases setupkvm_spec hI with ⟨-, -, -, -, hlt⟩ | ⟨d', m1, he1, -, -, -, -, -, hlen1⟩
  · omega
  have hd : d' = d := by
    have heq := he1
    rw [setupkvm_eq hf] at heq
    obtain ⟨⟨b, m'⟩, -, hrest⟩ := Outcome.bind_eq_ok.mp heq
    cases b with
    | false =>
      obtain ⟨m'', -, hno⟩ := Outcome.bind_eq_ok.mp hrest
      cases hno
    | true =>
      cases hrest
      rfl
  subst hd
  have h1 := setupkvm_image hI he1
  -- the page of the segment
  have hone : pages 8 - pages 0 = 1 := rfl
  obtain ⟨m2, he2, h2, hlen2⟩ := h1.allocuvm_enough rfl le_rfl (Nat.zero_le 8) (by decide) (by decide) (by omega)
  obtain ⟨b, he3⟩ := h2.load_tiny
  have h3 := h2.setFrame (by decide : 0 < pages 8) (by decide) b
  have hfree3 : (m2.setPage (frameOf (pte m2 d' 0)) b).freelist = m2.freelist := rfl
  generalize m2.setPage (frameOf (pte m2 d' 0)) b = m3 at he3 h3 hfree3
  have hload : loadSegments L (fileInode tinyProgram) d' 1 52 0 m1 = .ok (some 8, m3) := by
    have hread : readAll (fileInode tinyProgram) 52 sizeofProghdr = some (tinyProgram.drop 52) := rfl
    have hph : proghdr (tinyProgram.drop 52) = ⟨1, 0, 0, 4, 8⟩ := rfl
    simp only [loadSegments, hread, hph]
    rw [if_neg (by decide), if_neg (by decide), if_neg (by decide), show (0 + 8) % 2 ^ 32 = 8 from rfl, he2]
    simp only [Outcome.ok_bind]
    rw [if_neg (by decide), if_neg (by decide), loaduvm, if_neg (by decide), he3]
    rfl
  -- the guard page and the stack
  have htwo : pages 12288 - pages 4096 = 2 := rfl
  obtain ⟨m4, he4, h4, -⟩ := h3.allocuvm_enough (rfl : pages 4096 = pages 8) (by decide) (by decide : 4096 ≤ 12288)
      (by decide)
    (by decide) (by rw [hfree3]; omega)
  obtain ⟨m5, he5, -⟩ := h4.clearpteu (by decide) (by decide : 4096 / PGSIZE < pages 12288)
  have hrun : prepare L m (fileInode tinyProgram) = .ok (some (d', 12288, 0), m5) := by
    have hread : readAll (fileInode tinyProgram) 0 sizeofElfhdr = some (tinyProgram.take 52) := rfl
    have helf : elfhdr (tinyProgram.take 52) = ⟨ELF_MAGIC, 0, 52, 1⟩ := rfl
    simp only [prepare, hread, helf]
    rw [if_neg (by simp), he1]
    simp only [Outcome.ok_bind, hload]
    rw [show PGROUNDUP 8 = 4096 from rfl, show 4096 + 2 * PGSIZE = 12288 from rfl, he4]
    simp only [Outcome.ok_bind]
    rw [if_neg (by decide), show 12288 - 2 * PGSIZE = 4096 from rfl, he5]
    rfl
  rcases prepare_spec hI (fileInode tinyProgram) with ⟨m', he⟩ | ⟨d, entry, m', he, hprep⟩
  · cases hrun.symm.trans he
  · cases hrun.symm.trans he
    exact ⟨_, ps, _, hf, hrun, hprep⟩

theorem exec_tiny {p : Proc} (hI : Inv L A M m) (hp : Spans A p.pgdir)
    (hmem : 71 ≤ m.freelist.length) (argv : List (List UInt8)) (hn : argv.length ≤ MAXARG) (hfits : Fits argv) :
    ∃ q m', exec L m p (some (fileInode tinyProgram)) argv = .ok (some q, m') := by
  obtain ⟨d, ps, m1, -, he1, hprep⟩ := prepare_tiny hI hmem
  have hshort : ∀ a ∈ argv, a.length + 1 ≤ PGSIZE := by
    intro a ha
    have hle : roundWord (a.length + 1) ≤ stringBytes argv := List.le_sum_of_mem (List.mem_map.mpr ⟨a, ha, rfl⟩)
    simp only [Fits, roundWord] at *
    omega
  obtain ⟨r, m2, he2, h2, -, -, hr, -⟩ := copyArgs_spec hprep.image hprep.lt hprep.stack argv
    (fun a ha => (hshort a ha).trans (by decide)) (clear_of_short (fun a ha => (hshort a ha).trans (by decide)) _ _ _)
  obtain ⟨⟨sz, sp⟩, rfl⟩ := Option.isSome_iff_exists.mp (hr.mpr ⟨hn, hfits⟩)
  obtain ⟨m3, he3, -⟩ := freevm_spec (fun r hr => Or.inl (hp r hr)) h2.inv
  rw [stackTop_tinyProgram] at he2
  exact ⟨_, m3, (exec_eq_with L m p _ argv).trans (execWith_done he1 (he2 _) he3)⟩

end

end Xv6.Vm
