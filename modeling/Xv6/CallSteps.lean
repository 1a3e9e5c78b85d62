import Xv6.BlockOwnership
import Xv6.CallTree

namespace Xv6.SysFile

open Contract FileTable OpenFiles ProcTable LinkGraph
open Fs hiding Slot
open PointerCount

variable {σ : Prop} {x : Option ℕ} {s t : Sys} {mine locked : Multiset ℕ} {ip : ℕ}

namespace Sound

theorem repoint (h : Sound σ x s mine locked) {mine' : Multiset ℕ} {n : ℤ} (hfs : t.fs = s.fs)
    (hb : Balance t mine' locked n) (hp : ∀ i, 0 < pointers t i → file s.fs i ≠ none)
    (ha : σ → ∀ i ∈ mine', file s.fs i ≠ none) (hl : ∀ i ∈ locked, i ∈ mine') : Sound σ x t mine' locked := by
  rw [← hfs] at hp ha
  have hv : ∀ i ∈ locked, t.fs.valid i = true := by
    rw [hfs]
    exact h.work.valid
  have hinv : Inv t.fs := by
    rw [hfs]
    exact h.work.inv
  have htidy : Tidy σ t.fs.sb.ninodes x (file t.fs) := by
    rw [hfs]
    exact h.tidy
  exact ⟨⟨⟨n, hb⟩, hinv, rfl, rfl, rfl, hv, hl⟩, htidy, hp, ha⟩

theorem table (h : Sound σ x s mine locked) {ft : Ftable} {out : Option ℕ} (hm : Moved s.kernel.ft ft out) :
    Sound σ x (setKernel s (setTable s.kernel ft)) (holding out mine) locked := by
  obtain ⟨n, hb⟩ := h.work.balance
  have hle (i : ℕ) : pointers (setKernel s (setTable s.kernel ft)) i + hit out i = pointers s i := by
    have := hm.2 i
    simp only [pointers, setKernel, setTable]
    omega
  refine h.repoint ?_ (hb.table hm) ?_ ?_ ?_
  · rfl
  · intro i hi
    apply h.used
    have := hle i
    omega
  · intro hσ i hi
    cases out with
    | none => exact h.alive hσ i hi
    | some j =>
      rcases Multiset.mem_cons.mp hi with rfl | hi
      · apply h.used
        have := hle i
        rw [hit_self] at this
        omega
      · exact h.alive hσ i hi
  · intro i hi
    have hmem := h.work.locks i hi
    cases out with
    | none => exact hmem
    | some j => exact Multiset.mem_cons_of_mem hmem

theorem kernel (h : Sound σ x s mine locked) {k : Kernel} (hf : k.ft = s.kernel.ft)
    (hs : ∀ q, k.state q ≠ .runnable → s.cwd q = none) : Sound σ x (setKernel s k) mine locked := by
  obtain ⟨n, hb⟩ := h.work.balance
  refine h.repoint ?_ (hb.kernel hf hs) ?_ h.alive h.work.locks
  · rfl
  · intro i hi
    apply h.used
    simpa only [pointers, setKernel, hf] using hi

theorem idle (h : Sound σ x s mine locked) (q : Slot) (hq : s.kernel.state q ≠ .runnable) : s.cwd q = none := by
  obtain ⟨n, hb⟩ := h.work.balance
  exact hb.idle q hq

theorem endOp (h : Sound σ x s mine locked) : Sound σ x (endOp s) mine locked :=
  Sat.of_ok (h.finish ()) rfl

end Sound

theorem fileclose_panics (ft : Ftable) (f : Fin NFILE) :
    Sat (FileTable.fileclose ft f) (· ∈ ["fileclose", "pipe used after kfree"]) fun _ => True := by
  apply sat_ite
  · intro _
    exact List.mem_cons_self
  · intro _
    apply sat_ite
    · intro _
      trivial
    · intro _
      cases (ft.file f).type with
      | none | inode => trivial
      | pipe =>
        apply Sat.bind (Q := fun _ => True)
        · simp only [pipeclose]
          split
          · exact List.mem_cons_of_mem _ List.mem_cons_self
          · exact sat_ite (fun _ => trivial) (fun _ => trivial)
        · intro _ _
          trivial

theorem fileclose_stops (ft : Ftable) (f : Fin NFILE) : Sat (FileTable.fileclose ft f) Plain fun _ => True :=
  (fileclose_panics ft f).mono (fun _ he => plain_of_mem (by decide) (by decide) he) fun _ hq => hq

namespace Sound

theorem fileclose (h : Sound σ x s mine locked) (f : Fin NFILE) :
    Sat (fileclose s f) (Typed σ) fun t => Sound σ x t mine locked := by
  obtain ⟨n, hb⟩ := h.work.balance
  apply (typed_of_plain ((fileclose_stops s.kernel.ft f).and (fileclose_moved hb.closed f))).bind
  rintro ⟨_ | ip, ft⟩ ⟨-, hm⟩
  · exact h.table hm
  · apply (h.table hm).beginOp.iput.bind
    rintro t ⟨ht, -⟩
    exact ht.endOp

theorem openInode (h : Sound σ none s mine locked) {p : Slot} {path : Path} {omode : ℕ}
    (hroom : (omode &&& O_CREATE = 0 || roomToCreate s p path .file) = true) :
    Sat (openInode s p path omode) (Typed σ) fun r => Sound σ none r.2 (holding r.1 mine) (holding r.1 locked) := by
  apply sat_ite
  · intro ho
    exact h.create (by decide) (by simpa [ho] using hroom) 0 0
  · intro _
    apply (h.namei p path).bind
    rintro ⟨_ | ip, t⟩ ⟨ht, -⟩
    · exact ht
    · apply (Sound.ilock ht (Multiset.mem_cons_self ip mine)).bind
      rintro t' ⟨ht', -⟩
      apply sat_ite
      · intro _
        apply ht'.giveUp.post
        rintro ⟨r, t''⟩ ⟨rfl, ht'', -⟩
        exact ht''
      · intro _
        exact ht'

theorem opened (h : Sound σ x s (ip ::ₘ mine) 0) (hi : file s.fs ip ≠ none) {f : Fin NFILE}
    (ht : (s.kernel.ft.file f).type = .none) (hr : (s.kernel.ft.file f).ref = 1) (omode : ℕ) :
    Sound σ x (setKernel s (setTable s.kernel (setFile s.kernel.ft f (openedFile (s.kernel.ft.file f) ip omode))))
      mine 0 := by
  obtain ⟨n, hb⟩ := h.work.balance
  refine h.repoint ?_ (hb.opened ht hr omode) ?_ ?_ ?_
  · rfl
  · intro i hpos
    by_cases hii : i = ip
    · rwa [hii]
    · apply h.used
      have hc := count_update (fileIp s.kernel.ft) f (some ip) i
      have hf : fileIp s.kernel.ft f = none := by simp [fileIp, ht]
      rw [hf, hit_none, hit_of_ne (Ne.symm hii)] at hc
      simp only [pointers, setKernel, setTable, fileIp_setFile, openedFile, if_true] at hpos ⊢
      omega
  · intro hσ i hmem
    exact h.alive hσ i (Multiset.mem_cons_of_mem hmem)
  · intro i hmem
    exact absurd hmem (Multiset.notMem_zero i)

theorem openFd (h : Sound σ none s (ip ::ₘ 0) (ip ::ₘ 0)) (p : Slot) (omode : ℕ) :
    Sat (openFd s p ip omode) (Typed σ) fun r => Sound σ none r.2 0 0 := by
  obtain ⟨n, hb⟩ := h.work.balance
  simp only [SysFile.openFd]
  cases ha : filealloc s.kernel.ft with
  | none => exact h.putFinish (-1)
  | some r =>
    obtain ⟨f, ft⟩ := r
    obtain ⟨hm, htype, href⟩ := filealloc_moved hb.closed ha
    have h1 := h.table hm
    simp only [fdalloc]
    cases (List.finRange NOFILE).find? fun fd =>
        decide ((setKernel s (setTable s.kernel ft)).kernel.ofile (p, fd) = none) with
    | none =>
      apply (h1.fileclose f).bind
      intro t ht
      exact Sound.putFinish ht (-1)
    | some fd =>
      have h2 := h1.kernel (k := setSlot (setTable s.kernel ft) (p, fd) (some f)) rfl h.idle
      have hi : file s.fs ip ≠ none := by
        obtain ⟨q, hq, -⟩ := h.work.locked_file (Multiset.mem_cons_self ip 0)
        rw [hq]
        rintro ⟨⟩
      apply ((Sound.iunlock h2).and (Balance.iunlock_eq _ ip)).bind
      rintro t ⟨⟨ht, -⟩, rfl⟩
      have ht' : Sound σ none _ (ip ::ₘ 0) 0 := ht
      exact (ht'.opened hi htype href omode).endOp

theorem sysOpen (h : Sound σ none s 0 0) {p : Slot} {path : Option Path} {omode : ℕ}
    (hroom : path.all (fun q => omode &&& O_CREATE = 0 || roomToCreate (SysFile.beginOp s) p q .file) = true) :
    Sat (sysOpen s p path omode) (Typed σ) fun r => Sound σ none r.2 0 0 := by
  cases path with
  | none => exact h
  | some path =>
    apply (h.beginOp.openInode hroom).bind
    rintro ⟨_ | ip, t⟩ ht
    · exact Sound.finish ht (-1)
    · exact Sound.openFd ht p omode

end Sound

theorem iput_setCwd (s : Sys) (w : Slot → Option ℕ) (i : ℕ) :
    iput { s with cwd := w } i = (fun t => { t with cwd := w }) <$> iput s i := by
  simp only [iput, setFs]
  split_ifs
  · rfl
  · cases Fs.iput s.fs i <;> rfl

theorem iput_keeps (s : Sys) (i : ℕ) : Returns (iput s i) fun t => t.cwd = s.cwd ∧ t.kernel = s.kernel := by
  apply returns_unless
  intro _
  apply Sat.bind (iput_ref i)
  intro fs _
  exact ⟨rfl, rfl⟩

namespace Sound

theorem putCwd {p : Slot} {c : ℕ} {v : Option ℕ} (h : Sound σ x s (holding v 0) 0) (hc : s.cwd p = some c)
    (hv : ∀ j, v = some j → file s.fs j ≠ none) :
    Sat (SysFile.iput s c) (Typed σ) fun t => Sound σ x { t with cwd := Function.update t.cwd p v } 0 0 := by
  obtain ⟨n, hb⟩ := h.work.balance
  have hb' : Balance { s with cwd := Function.update s.cwd p v } (c ::ₘ 0) 0 n := by
    apply hb.setCwd p v
    · intro i
      cases v with
      | none => simp only [hc, hit_some, hit_none, holding, Multiset.count_cons]; omega
      | some ip => simp only [hc, hit_some, holding, Multiset.count_cons]; omega
    · intro hr
      exact absurd (h.idle p hr) (by simp [hc])
  have hmoved : Sound σ x { s with cwd := Function.update s.cwd p v } (c ::ₘ 0) 0 := by
    refine h.repoint ?_ hb' ?_ ?_ ?_
    · rfl
    · intro i hpos
      by_cases hi : v = some i
      · exact hv i hi
      · apply h.used
        have hcount := count_update s.cwd p v i
        have hz : hit v i = 0 := if_neg hi
        simp only [pointers] at hpos ⊢
        omega
    · intro _ i hmem
      rw [Multiset.cons_zero, Multiset.mem_singleton] at hmem
      rw [hmem]
      exact h.cwd hc
    · intro i hmem
      exact absurd hmem (Multiset.notMem_zero i)
  have hput := hmoved.iput
  rw [iput_setCwd, sat_map] at hput
  apply (hput.and (iput_keeps s c)).post
  rintro t ⟨ht, hcwd, -⟩
  rw [hcwd]
  exact ht.1

theorem sysChdir (h : Sound σ x s 0 0) (p : Slot) (path : Option Path) :
    Sat (sysChdir s p path) (Typed σ) fun r => Sound σ x r.2 0 0 := by
  cases path with
  | none => exact h.beginOp.finish (-1)
  | some path =>
    apply (h.beginOp.namei p path).bind
    rintro ⟨_ | ip, t⟩ ⟨ht, -⟩
    · exact Sound.finish ht (-1)
    · apply (Sound.ilock ht (Multiset.mem_cons_self ip 0)).bind
      rintro t1 ⟨h1, -⟩
      apply sat_ite
      · intro _
        exact h1.putFinish (-1)
      · intro _
        cases hc : t1.cwd p with
        | none => exact fun _ => (by decide : "no current directory" ≠ noType)
        | some cwd =>
          have hi : file t1.fs ip ≠ none := by
            obtain ⟨q, hq, -⟩ := h1.work.locked_file (Multiset.mem_cons_self ip 0)
            rw [hq]
            rintro ⟨⟩
          apply (h1.iunlock.and (Balance.iunlock_eq t1 ip)).bind
          rintro t2 ⟨⟨h2, -⟩, rfl⟩
          apply (Sound.putCwd (v := some ip) h2 hc (fun j hj => by cases hj; exact hi)).bind
          intro t3 h3
          exact h3.finish 0

theorem readAll (h : Sound σ x s mine locked) (hi : ip ∈ locked) (reads : List (ℕ × ℕ)) :
    Sat (readAll s ip reads) (Typed σ) fun t => Sound σ x t mine locked := by
  induction reads with
  | nil => exact h
  | cons r reads ih =>
    have hread : Sat (readi s.fs ip r.1 r.2) (Typed σ) fun q => q.2 = s.fs := by
      obtain ⟨q, hq⟩ := readi_state h.work.inv (h.work.valid ip hi) r.1 r.2
      rw [hq]
      exact rfl
    apply hread.bind
    rintro ⟨bs, fs⟩ rfl
    exact ih

theorem exec (h : Sound σ x s 0 0) (p : Slot) (path : Path) (reads : List (ℕ × ℕ)) (loaded built : Bool) :
    Sat (exec s p path reads loaded built) (Typed σ) fun r => Sound σ x r.2 0 0 := by
  apply (h.beginOp.namei p path).bind
  rintro ⟨_ | ip, t⟩ ⟨ht, -⟩
  · exact Sound.finish ht (-1)
  · apply (Sound.ilock ht (Multiset.mem_cons_self ip 0)).bind
    rintro t1 ⟨h1, -⟩
    apply (Sound.readAll h1 (Multiset.mem_cons_self ip 0) reads).bind
    intro t2 (h2 : Sound σ x t2 (ip ::ₘ 0) (ip ::ₘ 0))
    apply sat_ite
    · intro _
      exact h2.putFinish (-1)
    · intro _
      apply h2.iunlockput.bind
      rintro t3 ⟨h3, -⟩
      exact sat_ite (fun _ => h3.endOp) (fun _ => h3.endOp)

theorem sysClose (h : Sound σ x s mine locked) (p : Slot) (fd : ℤ) :
    Sat (sysClose s p fd) (Typed σ) fun r => Sound σ x r.2 mine locked := by
  simp only [SysFile.sysClose]
  cases argfd s.kernel p fd with
  | none => exact h
  | some r =>
    apply ((h.kernel (k := setSlot s.kernel (p, r.1) none) rfl h.idle).fileclose r.2).bind
    intro t ht
    exact ht

theorem exitFd (h : Sound σ x s mine locked) (p : Slot) (fd : Fin NOFILE) :
    Sat (exitFd p s fd) (Typed σ) fun t => Sound σ x t mine locked := by
  simp only [SysFile.exitFd]
  cases s.kernel.ofile (p, fd) with
  | none => exact h
  | some f =>
    apply (h.fileclose f).bind
    intro t ht
    exact ht.kernel rfl ht.idle

theorem exit (h : Sound σ x s 0 0) (p : Slot) : Sat (exit s p) (Typed σ) fun t => Sound σ x t 0 0 := by
  apply typed_unless (by decide)
  intro _
  apply Sat.bind (sat_foldlM (I := fun _ t => Sound σ x t 0 0) (fun fd _ t ht => ht.exitFd p fd) h)
  intro t ht
  cases hc : t.cwd p with
  | none => exact fun _ => (by decide : "no current directory" ≠ noType)
  | some cwd =>
    apply (Sound.putCwd (v := none) ht.beginOp hc (by rintro _ ⟨⟩)).bind
    intro t' ht'
    apply ht'.endOp.kernel (k := setState t'.kernel p .zombie) rfl
    intro q hq
    by_cases hp : q = p
    · subst hp
      simp [SysFile.endOp]
    · have hq' : t'.kernel.state q ≠ .runnable := by
        simpa only [setState, Function.update_of_ne hp] using hq
      exact ht'.idle q hq'

end Sound

theorem fork_panics (k : Kernel) (p : Slot) (kstack copied : Bool) :
    Sat (OpenFiles.fork k p kstack copied) (· = "filedup") fun _ => True := by
  simp only [OpenFiles.fork]
  split
  · trivial
  · apply sat_ite
    · intro _
      trivial
    · intro _
      apply sat_ite
      · intro _
        trivial
      · intro _
        apply Sat.bind (sat_foldlM (I := fun _ _ => True) (fun fd _ k' _ => ?_) trivial)
        · intro _ _
          trivial
        · simp only [forkFile]
          split
          · trivial
          · apply Sat.bind (Q := fun _ => True)
            · exact sat_ite (fun _ => rfl) fun _ => trivial
            · intro _ _
              trivial

theorem fork_stops (k : Kernel) (p : Slot) (kstack copied : Bool) :
    Sat (OpenFiles.fork k p kstack copied) Plain fun _ => True := by
  apply (fork_panics k p kstack copied).mono _ fun _ hq => hq
  rintro e rfl
  decide

namespace Sound

theorem fork (h : Sound σ x s 0 0) (p : Slot) (kstack copied : Bool) :
    Sat (fork s p kstack copied) (Typed σ) fun t => Sound σ x t 0 0 := by
  obtain ⟨n, hb⟩ := h.work.balance
  have hfs : Sat (SysFile.fork s p kstack copied) (Typed σ) fun t =>
      (t.fs = s.fs ∨ ∃ c, s.cwd p = some c ∧ t.fs = Fs.idup s.fs c) ∧ ∀ i, 0 < pointers t i → 0 < pointers s i := by
    apply Sat.bind (typed_of_plain ((fork_stops s.kernel p kstack copied).and (fork_table hb.closed p kstack copied)))
    rintro k ⟨-, -, hip, -⟩
    have hsame (i : ℕ) (hi : 0 < pointers (setKernel s k) i) : 0 < pointers s i := by
      simpa only [pointers, setKernel, hip] using hi
    cases (List.finRange NPROC).find? (fun q => decide (s.kernel.state q = .unused)) with
    | none => exact ⟨Or.inl rfl, hsame⟩
    | some np =>
      apply sat_ite
      · intro _
        exact ⟨Or.inl rfl, hsame⟩
      · intro _
        cases hc : s.cwd p with
        | none => exact fun _ => (by decide : "no current directory" ≠ noType)
        | some c =>
          refine ⟨Or.inr ⟨c, rfl, rfl⟩, fun i hi => ?_⟩
          have hcount := count_update s.cwd np (some c) i
          have hpos := count_pos hc
          simp only [pointers, hip] at hi ⊢
          by_cases hic : c = i
          · subst hic
            omega
          · rw [hit_of_ne hic] at hcount
            omega
  apply (hfs.and (hb.fork p kstack copied)).post
  rintro t ⟨⟨hcase, hp⟩, hbt⟩
  have hused (i : ℕ) (hi : 0 < pointers t i) : file s.fs i ≠ none := h.used i (hp i hi)
  rcases hcase with hsame | ⟨c, hc, hdup⟩
  · exact h.repoint hsame hbt hused h.alive h.work.locks
  · obtain ⟨hd, hfile⟩ := h.idup (i := c) fun _ => h.cwd hc
    rw [← hfile] at hused
    exact hd.repoint hdup hbt hused (fun _ i hi => absurd hi (Multiset.notMem_zero i)) h.work.locks

end Sound

def roomy (s : Sys) : Event → Bool
  | .open p path omode => path.all fun q => omode &&& O_CREATE = 0 || roomToCreate (beginOp s) p q .file
  | .mkdir p path => path.all fun q => roomToCreate (beginOp s) p q .dir
  | .mknod p path _ _ => path.all fun q => roomToCreate (beginOp s) p q .dev
  | .link p old new => old.all fun a => new.all fun b => roomToCount (beginOp s) p a && roomToLink (beginOp s) p a b
  | _ => true

def orderly (s : Sys) : Event → Bool
  | .unlink p path => path.all fun q => removableAlone (beginOp s) p q
  | _ => true

theorem Sound.step (h : Sound σ none s 0 0) {e : Event} (hr : roomy s e = true) (ho : σ → orderly s e = true)
    {y : Outcome Sys} (he : sysStep s e = some y) : Sat y (Typed σ) fun t => Sound σ none t 0 0 := by
  simp only [sysStep] at he
  split at he
  case h_1 p path omode _ =>
    cases he
    exact sat_map.mpr (h.sysOpen hr)
  case h_2 p path _ =>
    cases he
    exact sat_map.mpr (h.sysCreate (by decide) hr 0 0)
  case h_3 p path major minor _ =>
    cases he
    exact sat_map.mpr (h.sysCreate (by decide) hr major minor)
  case h_4 p old new _ =>
    cases he
    exact sat_map.mpr (h.sysLink hr)
  case h_5 p path _ =>
    cases he
    exact sat_map.mpr (h.sysUnlink ho)
  case h_6 p path _ =>
    cases he
    exact sat_map.mpr (h.sysChdir p path)
  case h_7 p path reads loaded built _ =>
    cases he
    exact sat_map.mpr (h.exec p path reads loaded built)
  case h_8 p fd _ =>
    cases he
    exact sat_map.mpr (h.sysClose p fd)
  case h_9 p kstack copied _ =>
    cases he
    exact h.fork p kstack copied
  case h_10 p _ =>
    cases he
    exact h.exit p
  case h_11 p hz =>
    cases he
    apply h.kernel (k := setState s.kernel p .unused) rfl
    intro q hq
    by_cases hp : q = p
    · subst hp
      exact h.idle q (by rw [show s.kernel.state q = .zombie from hz]; rintro ⟨⟩)
    · exact h.idle q (by simpa only [setState, Function.update_of_ne hp] using hq)
  case h_12 => cases he

end Xv6.SysFile
