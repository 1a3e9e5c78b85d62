import Xv6.CallBalance
import Xv6.ForkCopy

/-!
`exec` as a whole: what is left when it fails, and the arguments when it succeeds.
-/

namespace Xv6.SysFile

open Contract OpenFiles ProcTable
open Fs hiding Slot

def SameFiles (s t : Sys) : Prop := t.kernel = s.kernel ∧ t.cwd = s.cwd

variable {s t u : Sys}

theorem SameFiles.refl (s : Sys) : SameFiles s s := ⟨rfl, rfl⟩

theorem SameFiles.trans (h : SameFiles s t) (h' : SameFiles t u) : SameFiles s u := ⟨h'.1.trans h.1, h'.2.trans h.2⟩

theorem returns_any {α : Type} (x : Outcome α) : Returns x fun _ => True := by
  cases x <;> trivial

theorem ilock_same (s : Sys) (i : ℕ) : Returns (ilock s i) (SameFiles s) :=
  returns_unless fun _ => Sat.bind (returns_any _) fun _ _ => ⟨rfl, rfl⟩

theorem iunlock_same (s : Sys) (i : ℕ) : Returns (iunlock s i) (SameFiles s) := returns_unless fun _ => ⟨rfl, rfl⟩

theorem iput_same (s : Sys) (i : ℕ) : Returns (iput s i) (SameFiles s) :=
  returns_unless fun _ => Sat.bind (returns_any _) fun _ _ => ⟨rfl, rfl⟩

theorem iunlockput_same (s : Sys) (i : ℕ) : Returns (iunlockput s i) (SameFiles s) :=
  Sat.bind (iunlock_same s i) fun t ht => (iput_same t i).post fun _ hu => ht.trans hu

theorem dirlookup_same (s : Sys) (dp : ℕ) (name : List UInt8) : Returns (dirlookup s dp name) fun r =>
    SameFiles s r.2 :=
  Sat.bind (returns_any _) fun _ _ => ⟨rfl, rfl⟩

theorem giveUp_same {α : Type} (s : Sys) (i : ℕ) : Returns (giveUp s i : Outcome (Option α × Sys)) fun r =>
    SameFiles s r.2 :=
  Sat.bind (iunlockput_same s i) fun _ ht => ht

theorem namexLoop_same (parent : Bool) (elems : List (List UInt8)) (s : Sys) (ip : ℕ) :
    Returns (namexLoop s ip parent elems) fun r => SameFiles s r.2 := by
  induction elems generalizing s ip with
  | nil =>
    apply sat_ite
    · exact fun _ => Sat.bind (iput_same s ip) fun _ ht => ht
    · exact fun _ => SameFiles.refl s
  | cons name elems ih =>
    refine Sat.bind (ilock_same s ip) fun t ht => ?_
    apply sat_ite
    · exact fun _ => (giveUp_same t ip).post fun _ hu => ht.trans hu
    intro _
    apply sat_ite
    · exact fun _ => Sat.bind (iunlock_same t ip) fun _ hu => ht.trans hu
    intro _
    refine Sat.bind (dirlookup_same t ip name) fun r hu => ?_
    obtain ⟨r, u⟩ := r
    cases r with
    | none => exact (giveUp_same u ip).post fun _ hv => ht.trans (hu.trans hv)
    | some r =>
      refine Sat.bind (iunlockput_same u ip) fun v hv => (ih v _).post fun _ hw => ?_
      exact ht.trans (hu.trans (hv.trans hw))

theorem namei_same (s : Sys) (p : Slot) (path : Path) : Returns (namei s p path) fun r => SameFiles s r.2 := by
  have hnamex : Returns (namex s p path false) fun r => SameFiles s r.2 := by
    apply sat_ite
    · exact fun _ => Sat.bind (returns_any _) fun fs _ => (namexLoop_same false _ (setFs s fs) _).post fun _ h => h
    · intro _
      cases s.cwd p with
      | none => trivial
      | some cwd => exact (namexLoop_same false _ (setFs s (idup s.fs cwd)) _).post fun _ h => h
  exact Sat.bind hnamex fun _ h => h

theorem readAll_same (reads : List (ℕ × ℕ)) (s : Sys) (ip : ℕ) : Returns (readAll s ip reads) (SameFiles s) := by
  induction reads generalizing s with
  | nil => exact SameFiles.refl s
  | cons r reads ih => exact Sat.bind (returns_any _) fun r _ => (ih (setFs s r.2)).post fun _ h => h

theorem exec_same (s : Sys) (p : Slot) (path : Path) (reads : List (ℕ × ℕ)) (loaded built : Bool) :
    Returns (exec s p path reads loaded built) fun r => SameFiles s r.2 := by
  refine Sat.bind (namei_same (beginOp s) p path) fun r ht => ?_
  obtain ⟨r, t⟩ := r
  cases r with
  | none => exact ht
  | some ip =>
    refine Sat.bind (ilock_same t ip) fun u hu => Sat.bind (readAll_same reads u ip) fun v hv => ?_
    have hkeep : SameFiles s v := ht.trans (hu.trans hv)
    apply sat_ite
    · exact fun _ => Sat.bind (iunlockput_same v ip) fun _ hw => hkeep.trans hw
    · refine fun _ => Sat.bind (iunlockput_same v ip) fun w hw => sat_ite (fun _ => hkeep.trans hw) fun _ =>
          hkeep.trans hw

end Xv6.SysFile

namespace Xv6.Vm

open ByteMemory Ownership

structure Task where
  proc : Proc
  name : List UInt8

def lastElem : List UInt8 → List UInt8 → List UInt8
  | last, [] => last
  | last, c :: s => if c = SysFile.slash then lastElem s s else lastElem last s

def execTask (L : Layout) (m : PhysMem) (t : Task) (path : SysFile.Path) (file : Option Inode)
    (argv : List (List UInt8)) :
    Outcome (ℤ × Task × PhysMem) := do
  let (r, m) ← exec L m t.proc file argv
  match r with
  | none => .ok (-1, t, m)
  | some q => .ok (0, ⟨q, (lastElem path path).take 15⟩, m)

section

variable {L : Layout} {A : Set Role} {M : Set ℕ} {m m' : PhysMem} {p : Proc} {file : Option Inode}
    {argv : List (List UInt8)}

theorem setupkvm_image {d : ℕ} (hI : Inv L A M m) (he : setupkvm L m = .ok (some d, m')) : Image L A M d 0 m m' := by
  rcases setupkvm_spec hI with ⟨m1, he', -⟩ | ⟨d', m1, he', hroot, hI', hs, htab, huser, -⟩
  · cases he.symm.trans he'
  · cases he.symm.trans he'
    exact .start hI' hroot hs htab huser

theorem free_perm (hI : Inv L A M m) (hI' : Inv L A M m') (hs : Same A m m') : m'.freelist.Perm m.freelist := by
  refine (List.perm_ext_iff_of_nodup hI'.nodup hI.nodup).mpr fun q => ?_
  constructor
  · intro hq
    rcases hI.free_or_held (hI'.ledger.mem_of_free hq) with hfree | ⟨r, hr, hheld⟩
    · exact hfree
    · exact absurd hq (hI'.held_notMem_free hr ((held_of_same hI hs hr).trans hheld))
  · intro hq
    rcases hI'.free_or_held (hI.ledger.mem_of_free hq) with hfree | ⟨r, hr, hheld⟩
    · exact hfree
    · exact absurd hq (hI.held_notMem_free hr ((held_of_same hI hs hr).symm.trans hheld))

theorem short_of_total (h : (argv.map fun a => a.length + 1).sum ≤ PGSIZE) (a : List UInt8) (ha : a ∈ argv) :
    a.length + 1 ≤ 2 ^ 25 := by
  have := List.le_sum_of_mem (List.mem_map.mpr ⟨a, ha, rfl⟩ : a.length + 1 ∈ argv.map fun a => a.length + 1)
  simp only [PGSIZE] at h
  omega

/-- `exec` on any file: it ends, and where it returns -1 nothing of the process has changed and no page is lost. -/
theorem exec_fails_cleanly {t : Task} (hI : Inv L A M m) (ht : ∀ r : Role, r.root = t.proc.pgdir → r ∈ A)
    (path : SysFile.Path) (file : Option Inode) (hargs : (argv.map fun a => a.length + 1).sum ≤ PGSIZE) :
    (∃ r t' m', execTask L m t path file argv = .ok (r, t', m') ∧ (r = 0 ∨ r = -1) ∧
      (r = -1 → t' = t ∧ (∀ d, (∀ r : Role, r.root = d → r ∈ A) → SpaceKept m m' d) ∧ m'.freelist.Perm m.freelist)) ∧
    ∀ s i reads loaded built r s', SysFile.exec s i path reads loaded built = .ok (r, s') →
      s'.kernel.ofile = s.kernel.ofile ∧ s'.cwd = s.cwd := by
  constructor
  · have hshort := short_of_total hargs
    rcases exec_spec hI ht file (fun _ _ _ => hshort) with ⟨m', he, hI', hs, hk⟩ | ⟨q, m', he, -⟩
    · refine ⟨-1, t, m', by simp only [execTask, he, Outcome.ok_bind], Or.inr rfl, fun _ => ⟨rfl, fun d hd => ?_, ?_⟩⟩
      · exact spaceKept hd hs hk
      · exact free_perm hI hI' hs
    · exact ⟨0, ⟨q, (lastElem path path).take 15⟩,
          m', by simp only [execTask, he, Outcome.ok_bind], Or.inl rfl, fun h => absurd h (by decide)⟩
  · intro s i reads loaded built r s' he
    have h := (SysFile.exec_same s i path reads loaded built).of_ok he
    exact ⟨by rw [h.1], h.2⟩

theorem Keeps.loadByte {R : Set Role} {d a : ℕ} {b : UInt8} (hk : Keeps R m m') (hd : Spans R d)
    (ha : a < KERNBASE) (hb : loadByte m d a = .ok b) : Vm.loadByte m' d a = .ok b := by
  simp only [Vm.loadByte, translate_eq_held ha] at hb ⊢
  cases hq : held m (.frame d (a / PGSIZE)) with
  | none =>
    rw [hq] at hb
    cases hb
  | some q =>
    rw [hq] at hb
    rw [hk.holds _ q (hd _ rfl) hq]
    simp only at hb ⊢
    rw [hk.bytes d _ q (hd _ rfl) hq]
    exact hb

theorem Keeps.loadInt {R : Set Role} {d a w : ℕ} (hk : Keeps R m m') (hd : Spans R d)
    (ha : a + 3 < KERNBASE) (hw : loadInt m d a = .ok w) : Vm.loadInt m' d a = .ok w := by
  obtain ⟨b0, h0, hw⟩ := Outcome.bind_eq_ok.mp hw
  obtain ⟨b1, h1, hw⟩ := Outcome.bind_eq_ok.mp hw
  obtain ⟨b2, h2, hw⟩ := Outcome.bind_eq_ok.mp hw
  obtain ⟨b3, h3, hw⟩ := Outcome.bind_eq_ok.mp hw
  simp only [Vm.loadInt, hk.loadByte hd (by omega) h0, hk.loadByte hd (by omega) h1, hk.loadByte hd (by omega) h2,
    hk.loadByte hd ha h3, Outcome.ok_bind]
  exact hw

theorem ArgsAt.keeps {R : Set Role} {d sz esp : ℕ} {ptrs : List ℕ} (h : ArgsAt m d sz esp argv ptrs)
    (hsz : sz ≤ KERNBASE) (hk : Keeps R m m') (hd : Spans R d) : ArgsAt m' d sz esp argv ptrs := by
  refine ⟨h.length, fun j w hw => hk.loadInt hd ?_ (h.words j w hw), fun x hx k hk' => hk.loadByte hd ?_
      (h.strings x hx k hk'),
    h.aligned, h.inside, h.apart⟩
  · have hj := (List.getElem?_eq_some_iff.mp hw).1
    have htab := (h.inside (esp + 12, 4 * (argv.length + 1)) (List.mem_cons_of_mem _ List.mem_cons_self)).2
    have hlen := h.length
    simp only [List.length_append, List.length_cons, List.length_nil] at hj
    dsimp only at htab
    omega
  · have hmem : (x.1, x.2.length + 1) ∈ areas esp argv ptrs :=
      List.mem_cons_of_mem _ (List.mem_cons_of_mem _ (List.mem_map.mpr ⟨x, hx, rfl⟩))
    have hin := (h.inside _ hmem).2
    dsimp only at hin
    omega

end

/-- A program header is announced, but the file cannot be read that far. -/
def truncated : Inode where
  readi _ n :=
    if n = sizeofElfhdr then some ([127, 69, 76, 70] ++ List.replicate 40 0 ++ [1, 0] ++ List.replicate 6 0) else none

theorem exec_truncated {L : Layout} {A : Set Role} {M : Set ℕ} {m : PhysMem} (hI : Inv L A M m) (p : Proc)
    (argv : List (List UInt8)) : ∃ m', exec L m p (some truncated) argv = .ok (none, m') := by
  have hread : readAll truncated 0 sizeofElfhdr = some _ := rfl
  simp only [exec, hread]
  rw [if_neg (by decide)]
  rcases setupkvm_spec hI with ⟨m1, he, -⟩ | ⟨d, m1, he, -, hI1, -⟩
  · exact ⟨m1, by rw [he]; rfl⟩
  · obtain ⟨m2, hfree, -⟩ := freevm_spec mem_rooted hI1
    have hbad : execBad L m1 d = .ok (none, m2) := by simp only [execBad, hfree, Outcome.ok_bind]
    exact ⟨m2, by rw [he]; exact hbad⟩

theorem exec_fails_cleanly_truncated : ∃ (m m' : PhysMem) (t : Task),
    execTask sampleLayout m t [47] (some truncated) [[97]] = .ok (-1, t, m') ∧ SpaceKept m m' t.proc.pgdir ∧
      m'.freelist.Perm m.freelist := by
  obtain ⟨A, M, m, p, hI, hp, -⟩ := first_process
  obtain ⟨⟨r, t', m', he, -, hfail⟩, -⟩ := exec_fails_cleanly (t := ⟨p, []⟩) hI hp [47] (some truncated)
    (by decide : ([[97]].map fun a : List UInt8 => a.length + 1).sum ≤ PGSIZE)
  obtain ⟨m1, hrun⟩ := exec_truncated hI p [[97]]
  have htask : execTask sampleLayout m ⟨p, []⟩ [47] (some truncated) [[97]] = .ok (-1, ⟨p, []⟩, m1) := by
    simp only [execTask, hrun, Outcome.ok_bind]
  cases he.symm.trans htask
  obtain ⟨-, hkept, hfree⟩ := hfail rfl
  exact ⟨m, m', ⟨p, []⟩, htask, hkept p.pgdir hp, hfree⟩

end Xv6.Vm
