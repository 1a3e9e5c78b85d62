import Xv6.LinkCounts

/-!
Which calls sleep on an inode lock that they hold themselves.
-/

namespace Xv6.SysFile

open Contract FileTable OpenFiles ProcTable Transition
open Fs hiding Slot
open PointerCount hiding hit

def At (s : Sys) (mine locked : Multiset ℕ) : Prop := Work s (file s.fs) s.fs.sb.ninodes (pointers s) mine locked

variable {s t : Sys} {F : Files} {N : ℕ} {P : ℕ → ℕ} {mine locked : Multiset ℕ} {i dp ip : ℕ} {f g : Fs.File}

theorem Work.at (h : Work s F N P mine locked) : At s mine locked := by
  obtain rfl := h.files
  obtain rfl := h.ninodes
  obtain rfl := h.ptrs
  exact h

theorem Settled.at (h : Settled s) (hinv : Inv s.fs) : At s 0 0 :=
  ⟨⟨_, h.balance⟩, hinv, rfl, rfl, rfl, by simp, by simp⟩

theorem wakes_of_plain {α : Type} {y : Outcome α} {Q : α → Prop} (h : Sat y Plain Q) : Sat y (· ≠ ownLock) Q :=
  h.mono (fun _ he => he.2) fun _ hq => hq

namespace At

theorem swap {j : ℕ} (h : At s (i ::ₘ j ::ₘ mine) locked) : At s (j ::ₘ i ::ₘ mine) locked :=
  Multiset.cons_swap i j mine ▸ h

theorem swapLocks {j : ℕ} (h : At s mine (i ::ₘ j ::ₘ locked)) : At s mine (j ::ₘ i ::ₘ locked) :=
  Multiset.cons_swap i j locked ▸ h

theorem iget (h : At s mine locked) (i : ℕ) :
    Sat (Fs.iget s.fs i) (· ≠ ownLock) fun fs => At (setFs s fs) (i ::ₘ mine) locked :=
  wakes_of_plain ((Work.iget h i).post fun _ hw => hw.at)

theorem ilock (h : At s mine locked) (hi : i ∈ mine) (hn : i ∉ locked) :
    Sat (ilock s i) (· ≠ ownLock) fun t => At t mine (i ::ₘ locked) :=
  (Work.ilock h hi).mono (fun _ he ho => hn (he.2 ho)) fun _ hw => hw.at

theorem iunlock (h : At s mine (i ::ₘ locked)) : Sat (iunlock s i) (· ≠ ownLock) fun t => At t mine locked :=
  wakes_of_plain ((Work.iunlock h).post fun _ hw => hw.at)

theorem iput (h : At s (i ::ₘ mine) locked) (hn : i ∉ locked) :
    Sat (iput s i) (· ≠ ownLock) fun t => At t mine locked := by
  apply (Work.iput h).mono
  · intro e he
    exact absurd he.2 hn
  · rintro t (ht | ⟨-, -, f, -, -, ht⟩)
    · exact ht.at
    · exact ht.at

theorem iunlockput (h : At s (i ::ₘ mine) (i ::ₘ locked)) :
    Sat (iunlockput s i) (· ≠ ownLock) fun t => At t mine locked := by
  have hn := Work.notMem_of_cons h
  apply h.iunlock.bind
  intro t ht
  exact ht.iput hn

theorem giveUp {α : Type} (h : At s (i ::ₘ mine) (i ::ₘ locked)) :
    Sat (giveUp (α := α) s i) (· ≠ ownLock) fun r => r.1 = none ∧ At r.2 mine locked := by
  apply h.iunlockput.bind
  intro t ht
  exact ⟨rfl, ht⟩

theorem beginOp (h : At s mine locked) : At (beginOp s) mine locked := by
  have hw : Work s _ _ _ mine locked := h
  obtain ⟨n, hb⟩ := hw.balance
  exact ⟨⟨_, hb.beginOp⟩, hw.inv, rfl, rfl, rfl, hw.valid, hw.locks⟩

theorem putFinish {α : Type} (h : At s (i ::ₘ mine) (i ::ₘ locked)) (r : α) :
    Sat (putFinish r s i) (· ≠ ownLock) fun _ => True := by
  apply h.iunlockput.bind
  intro t _
  trivial

theorem addNlink (h : At s mine locked) (hi : i ∈ locked) (k : Int16) : At (addNlink s i k) mine locked := by
  obtain ⟨f, hf, -⟩ := Work.locked_file h hi
  exact (Work.addNlink h hi hf k).at

theorem dirlookup (h : At s mine locked) (hdp : dp ∈ locked) (name : List UInt8) :
    Sat (dirlookup s dp name) (· ≠ ownLock) fun r => At r.2 (holding (r.1.map Prod.snd) mine) locked ∧
      (r.1 = none → ∃ f, file r.2.fs dp = some f ∧ f.type = .dir ∧ ∀ de ∈ entriesOf f.bytes, hit name de = false) := by
  apply wakes_of_plain
  apply (Work.dirlookup h hdp name).post
  rintro ⟨_ | ⟨off, j⟩, t⟩ ⟨f, hf, hd, hr⟩
  · obtain ⟨ht, -, hno⟩ := hr
    exact ⟨ht.at, fun _ => ⟨f, by rw [ht.file_eq, hf], hd, hno⟩⟩
  · exact ⟨hr.1.at, by rintro ⟨⟩⟩

theorem namexLoop (h : At s (ip ::ₘ mine) 0) (parent : Bool) (elems : List (List UInt8)) :
    Sat (namexLoop s ip parent elems) (· ≠ ownLock) fun r => At r.2 (holding (r.1.map Prod.fst) mine) 0 := by
  induction elems generalizing s ip with
  | nil =>
    apply sat_ite
    · intro _
      apply (h.iput (Multiset.notMem_zero ip)).bind
      intro t ht
      exact ht
    · intro _
      exact h
  | cons name elems ih =>
    apply (h.ilock (Multiset.mem_cons_self ip mine) (Multiset.notMem_zero ip)).bind
    intro t ht
    apply sat_ite
    · intro _
      apply ht.giveUp.post
      rintro ⟨r, t'⟩ ⟨rfl, ht'⟩
      exact ht'
    intro _
    apply sat_ite
    · intro _
      apply ht.iunlock.bind
      intro t' ht'
      exact ht'
    · intro _
      apply (ht.dirlookup (Multiset.mem_cons_self ip 0) name).bind
      rintro ⟨_ | ⟨off, next⟩, t'⟩ ⟨ht', -⟩
      · apply (At.giveUp ht').post
        rintro ⟨r, t''⟩ ⟨rfl, ht''⟩
        exact ht''
      · apply (At.iunlockput (At.swap ht')).bind
        intro t'' ht''
        exact ih ht''

theorem namex (h : At s mine 0) (p : Slot) (path : Path) (parent : Bool) :
    Sat (namex s p path parent) (· ≠ ownLock) fun r => At r.2 (holding (r.1.map Prod.fst) mine) 0 := by
  apply sat_ite
  · intro _
    apply (h.iget ROOTINO).bind
    intro fs hfs
    exact hfs.namexLoop parent _
  · intro _
    cases s.cwd p with
    | none => exact (by decide : "no current directory" ≠ ownLock)
    | some cwd => exact (Work.idup h cwd).at.namexLoop parent _

theorem namei (h : At s mine 0) (p : Slot) (path : Path) :
    Sat (namei s p path) (· ≠ ownLock) fun r => At r.2 (holding r.1 mine) 0 := by
  apply (h.namex p path false).bind
  intro r hr
  exact hr

theorem createLookup (h : At s mine 0) (p : Slot) (path : Path) :
    Sat (createLookup s p path) (· ≠ ownLock) fun r =>
      match r.1 with
      | none => At r.2 mine 0
      | some (dp, name, ip) => At r.2 (holding ip (dp ::ₘ mine)) (dp ::ₘ 0) ∧
          (ip = none → ∃ f, file r.2.fs dp = some f ∧ f.type = .dir ∧ ∀ de ∈ entriesOf f.bytes, hit name de =
            false) := by
  apply (h.namex p path true).bind
  rintro ⟨_ | ⟨dp, name⟩, t⟩ ht
  · exact ht
  · apply (At.ilock ht (Multiset.mem_cons_self dp mine) (Multiset.notMem_zero dp)).bind
    intro t' ht'
    apply (ht'.dirlookup (Multiset.mem_cons_self dp 0) name).bind
    rintro ⟨r, t''⟩ ⟨ht'', hno⟩
    refine ⟨ht'', fun hr => hno ?_⟩
    simpa using hr

theorem createFound (h : At s (ip ::ₘ dp ::ₘ mine) (dp ::ₘ 0)) (type : FType) :
    Sat (createFound s dp ip type) (· ≠ ownLock) fun r => At r.2 (holding r.1 mine) (holding r.1 0) := by
  apply h.swap.iunlockput.bind
  intro t ht
  apply (ht.ilock (Multiset.mem_cons_self ip mine) (Multiset.notMem_zero ip)).bind
  intro t' ht'
  apply sat_ite
  · intro _
    exact ht'
  · intro _
    apply ht'.giveUp.post
    rintro ⟨r, t''⟩ ⟨rfl, ht''⟩
    exact ht''

theorem createNew (h : At s (dp ::ₘ mine) (dp ::ₘ 0)) (hf : file s.fs dp = some f) (hd : f.type = .dir)
    {name : List UInt8} (hno : ∀ de ∈ entriesOf f.bytes, hit name de = false) {type : FType} (htype : type ≠ .free)
    (major minor : Int16) :
    Sat (createNew s dp name type major minor) (· ≠ ownLock) fun r => At r.2 (holding r.1 mine) (holding r.1 0) := by
  apply (wakes_of_plain (Work.ialloc h htype)).bind
  rintro ⟨ip, fs⟩ ⟨hnone, -, -, hw⟩
  simp only at hnone hw
  have hne : ip ≠ dp := by
    rintro rfl
    rw [hf] at hnone
    cases hnone
  have hnot : ip ∉ dp ::ₘ (0 : Multiset ℕ) := by
    rw [Multiset.cons_zero, Multiset.mem_singleton]
    exact hne
  apply Sat.bind ((hw.ilock (Multiset.mem_cons_self ip _)).mono (fun _ he ho => hnot (he.2 ho)) fun _ hq => hq)
  intro s1 hw1
  have hip : ip ∈ ip ::ₘ dp ::ₘ (0 : Multiset ℕ) := Multiset.mem_cons_self ip _
  have hdp : dp ∈ ip ::ₘ dp ::ₘ (0 : Multiset ℕ) := Multiset.mem_cons_of_mem (Multiset.mem_cons_self dp _)
  have hw2 := hw1.setAttr hip (Function.update_self ..) major minor 1
  rw [Function.update_idem] at hw2
  have hfd : Function.update (file s.fs) ip (some ⟨type, major, minor, 1, []⟩) dp = some f := by
    rw [Function.update_of_ne hne.symm, hf]
  apply (wakes_of_plain (hw2.createDots hip hdp hne (Function.update_self ..) rfl hfd rfl)).bind
  rintro s3 ⟨hplain, hdots⟩
  suffices hnamed : Sat (SysFile.dirlink s3 dp name ip) (· ≠ ownLock) fun r =>
      At r.2 (ip ::ₘ dp ::ₘ mine) (ip ::ₘ dp ::ₘ 0) by
    apply hnamed.bind
    rintro ⟨ok, s4⟩ hs
    apply sat_ite
    · intro _
      apply (At.iunlockput (At.swapLocks (At.swap hs))).bind
      intro s5 hs5
      exact hs5
    · intro _
      exact (by decide : "create: dirlink" ≠ ownLock)
  apply wakes_of_plain
  by_cases ht : type = .dir
  · obtain ⟨bs, hw3, -, -⟩ := hdots ht
    apply (hw3.dirlink hdp (f := { f with nlink := f.nlink + 1 })
      (by rw [Function.update_of_ne hne.symm, Function.update_self]) hd hno ip).post
    rintro r ⟨bs', hw4, -⟩
    exact hw4.at
  · apply ((hplain ht).dirlink hdp hfd hd hno ip).post
    rintro r ⟨bs', hw4, -⟩
    exact hw4.at

theorem create (h : At s mine 0) (p : Slot) (path : Path) {type : FType} (htype : type ≠ .free) (major minor : Int16) :
    Sat (create s p path type major minor) (· ≠ ownLock) fun r => At r.2 (holding r.1 mine) (holding r.1 0) := by
  apply (h.createLookup p path).bind
  rintro ⟨_ | ⟨dp, name, _ | ip⟩, t⟩ ht
  · exact ht
  · obtain ⟨ht, hinfo⟩ := ht
    obtain ⟨f, hf, hd, hno⟩ := hinfo rfl
    exact At.createNew ht hf hd hno htype major minor
  · exact At.createFound ht.1 type

theorem sysCreate (h : At s mine 0) (p : Slot) (path : Option Path) {type : FType} (htype : type ≠ .free)
    (major minor : Int16) : Sat (sysCreate s p path type major minor) (· ≠ ownLock) fun _ => True := by
  cases path with
  | none => trivial
  | some path =>
    apply (h.beginOp.create p path htype major minor).bind
    rintro ⟨_ | ip, t⟩ ht
    · trivial
    · have ht' : At t (ip ::ₘ mine) (ip ::ₘ 0) := ht
      exact ht'.putFinish 0

theorem linkLookup (h : At s mine 0) (p : Slot) (old new : Path) :
    Sat (linkLookup s p old new) (· ≠ ownLock) fun r =>
      match r.1 with
      | none => True
      | some (ip, r') => At r.2 (holding (r'.map Prod.fst) (ip ::ₘ mine)) 0 := by
  apply (h.namei p old).bind
  rintro ⟨_ | ip, t⟩ ht
  · trivial
  · apply (At.ilock ht (Multiset.mem_cons_self ip mine) (Multiset.notMem_zero ip)).bind
    intro t1 h1
    apply sat_ite
    · intro _
      apply h1.giveUp.post
      rintro ⟨r, t2⟩ ⟨rfl, -⟩
      trivial
    · intro _
      apply (h1.addNlink (Multiset.mem_cons_self ip 0) 1).iunlock.bind
      intro t2 h2
      apply (h2.namex p new true).bind
      intro r hr
      exact hr

theorem linkUndo (h : At s (ip ::ₘ mine) 0) : Sat (linkUndo s ip) (· ≠ ownLock) fun _ => True := by
  apply (h.ilock (Multiset.mem_cons_self ip mine) (Multiset.notMem_zero ip)).bind
  intro t ht
  exact (ht.addNlink (Multiset.mem_cons_self ip 0) (-1)).putFinish (-1)

end At

def findsSelf (s : Sys) (dp : ℕ) (name : List UInt8) : Bool :=
  match ilock s dp >>= fun s => dirlookup s dp name with
  | .ok (some (_, next), _) => next = dp
  | _ => false

namespace At

theorem dirlink (h : At s mine locked) (hdp : dp ∈ locked) (name : List UInt8) (inum : ℕ) :
    Sat (dirlink s dp name inum)
      (fun e => e = ownLock → ∃ off j t, SysFile.dirlookup s dp name = .ok (some (off, j), t) ∧ j ∈ locked)
      fun r => At r.2 mine locked := by
  apply Sat.bind_eq ((Work.dirlookup h hdp name).mono (fun _ he ho => absurd ho he.2) fun _ hq => hq)
  rintro ⟨_ | ⟨off, j⟩, t⟩ he ⟨f, hf, hd, hr⟩
  · obtain ⟨ht, hmod, -⟩ := hr
    apply Sat.bind ((Work.dirwrite ht hdp hf hd hmod name inum).mono (fun _ hp ho => absurd ho hp.2) fun _ hq => hq)
    rintro t' ⟨bs, hw, -⟩
    exact hw.at
  · apply Sat.bind ((Work.iput hr.1).mono (fun _ hp _ => ⟨off, j, t, he, hp.2⟩) fun _ hq => hq)
    rintro t' (ht' | ⟨-, -, f', -, -, ht'⟩)
    · exact ht'.at
    · exact ht'.at

theorem linkEntry (h : At s (dp ::ₘ ip ::ₘ mine) 0) (name : List UInt8) :
    Sat (linkEntry s ip dp name) (fun e => e = ownLock → findsSelf s dp name = true) fun _ => True := by
  apply Sat.bind_eq ((h.ilock (Multiset.mem_cons_self dp _) (Multiset.notMem_zero dp)).mono
    (fun _ he ho => absurd ho he) fun _ hq => hq)
  intro t he ht
  apply Sat.bind ((ht.dirlink (Multiset.mem_cons_self dp 0) name ip).mono _ fun _ hq => hq)
  · rintro ⟨ok, t2⟩ h2
    apply Sat.bind ((At.iunlockput h2).mono (fun _ he ho => absurd ho he) fun _ hq => hq)
    intro t3 h3
    apply sat_ite
    · intro _
      apply Sat.bind ((h3.iput (Multiset.notMem_zero ip)).mono (fun _ he ho => absurd ho he) fun _ hq => hq)
      intro t4 _
      trivial
    · intro _
      exact h3.linkUndo.mono (fun _ he ho => absurd ho he) fun _ hq => hq
  · intro e hcond ho
    obtain ⟨off, j, t', hlook, hj⟩ := hcond ho
    rw [Multiset.cons_zero, Multiset.mem_singleton] at hj
    rw [findsSelf, he, Outcome.ok_bind, hlook]
    exact decide_eq_true hj

theorem unlinkLookup (h : At s mine 0) (p : Slot) (path : Path) :
    Sat (unlinkLookup s p path) (· ≠ ownLock) fun r =>
      match r.1 with
      | none => True
      | some (dp, none) => At r.2 (dp ::ₘ mine) (dp ::ₘ 0)
      | some (dp, some (_, ip)) => At r.2 (ip ::ₘ dp ::ₘ mine) (dp ::ₘ 0) ∧
          ∃ f, file r.2.fs dp = some f ∧ f.type = .dir := by
  apply (h.namex p path true).bind
  rintro ⟨_ | ⟨dp, name⟩, t⟩ ht
  · trivial
  · apply (At.ilock ht (Multiset.mem_cons_self dp mine) (Multiset.notMem_zero dp)).bind
    intro t1 h1
    apply sat_ite
    · intro _
      exact h1
    · intro _
      apply (wakes_of_plain (Work.dirlookup h1 (Multiset.mem_cons_self dp 0) name)).bind
      rintro ⟨_ | ⟨off, ip⟩, t2⟩ ⟨f, hf, hd, hr⟩
      · exact hr.1.at
      · exact ⟨hr.1.at, f, by rw [hr.1.file_eq, hf], hd⟩

theorem unlinkEntry (h : At s (ip ::ₘ dp ::ₘ mine) (ip ::ₘ dp ::ₘ 0)) (hf : file s.fs dp = some f) (hd : f.type = .dir)
    (off : ℕ) : Sat (unlinkEntry s dp off ip) (· ≠ ownLock) fun _ => True := by
  have hw : Work s _ _ _ _ _ := h
  have hdp : dp ∈ ip ::ₘ dp ::ₘ (0 : Multiset ℕ) := Multiset.mem_cons_of_mem (Multiset.mem_cons_self dp _)
  obtain ⟨f', hf', htype, -⟩ := hw.locked_file hdp
  rw [hf] at hf'
  cases hf'
  have hdev : (s.fs.inode dp).type ≠ .dev := by
    rw [← htype, hd]
    exact FType.noConfusion
  apply Sat.bind ((writei_spec hw.inv (hw.valid dp hdp) hdev Dirent.empty.bytes off).mono
    (by rintro e rfl; decide) fun _ hq => hq)
  rintro ⟨r, fs⟩ (⟨rfl, -, -⟩ | ⟨-, -, hwrote⟩)
  · exact (by decide : "unlink: writei" ≠ ownLock)
  · apply sat_ite
    · intro _
      have h1 : At (setFs s fs) (ip ::ₘ dp ::ₘ mine) (ip ::ₘ dp ::ₘ 0) := (hw.wrote hwrote hf).at
      -- the parent loses a link when a directory goes
      have h2 : At (if ((setFs s fs).fs.inode ip).type = .dir then SysFile.addNlink (setFs s fs) dp
          (-1) else setFs s fs)
          (ip ::ₘ dp ::ₘ mine) (ip ::ₘ dp ::ₘ 0) := by
        split_ifs
        · exact h1.addNlink hdp (-1)
        · exact h1
      apply h2.swap.swapLocks.iunlockput.bind
      intro t ht
      exact (ht.addNlink (Multiset.mem_cons_self ip 0) (-1)).putFinish 0
    · intro _
      exact (by decide : "unlink: writei" ≠ ownLock)

theorem unlinkInode (h : At s (ip ::ₘ dp ::ₘ mine) (dp ::ₘ 0)) (hf : file s.fs dp = some f) (hd : f.type = .dir)
    (off : ℕ) (hne : ip ≠ dp) : Sat (unlinkInode s dp off ip) (· ≠ ownLock) fun _ => True := by
  have hn : ip ∉ dp ::ₘ (0 : Multiset ℕ) := by
    rw [Multiset.cons_zero, Multiset.mem_singleton]
    exact hne
  apply Sat.bind ((Work.ilock h (Multiset.mem_cons_self ip _)).mono (fun _ he ho => hn (he.2 ho)) fun _ hq => hq)
  intro t1 h1
  have hip : ip ∈ ip ::ₘ dp ::ₘ (0 : Multiset ℕ) := Multiset.mem_cons_self ip _
  obtain ⟨g, hg, -⟩ := h1.locked_file hip
  apply sat_ite
  · intro _
    exact (by decide : "unlink: nlink < 1" ≠ ownLock)
  intro _
  apply (wakes_of_plain (h1.removable hip hg)).bind
  rintro ⟨ok, t2⟩ ⟨h2, -, -⟩
  apply sat_ite
  · intro _
    exact h2.at.unlinkEntry (by rw [h2.file_eq, hf]) hd off
  · intro _
    apply (At.iunlockput h2.at).bind
    intro t3 h3
    exact h3.putFinish (-1)

theorem table (h : At s mine locked) {ft : Ftable} (hm : Moved s.kernel.ft ft none) :
    At (setKernel s (setTable s.kernel ft)) mine locked := by
  have hw : Work s _ _ _ mine locked := h
  obtain ⟨n, hb⟩ := hw.balance
  exact ⟨⟨n, hb.table hm⟩, hw.inv, rfl, rfl, rfl, hw.valid, hw.locks⟩

theorem fileclose_fresh {ft : Ftable} {f : Fin NFILE} (ht : (ft.file f).type = .none) (hr : (ft.file f).ref = 1) :
    ∃ ft', FileTable.fileclose ft f = .ok (none, ft') := by
  simp only [FileTable.fileclose, ht, hr]
  exact ⟨_, rfl⟩

theorem openFd (h : At s (ip ::ₘ mine) (ip ::ₘ 0)) (p : Slot) (omode : ℕ) :
    Sat (openFd s p ip omode) (· ≠ ownLock) fun _ => True := by
  have hw : Work s _ _ _ _ _ := h
  obtain ⟨n, hb⟩ := hw.balance
  simp only [SysFile.openFd]
  cases ha : filealloc s.kernel.ft with
  | none => exact h.putFinish (-1)
  | some r =>
    obtain ⟨f, ft⟩ := r
    obtain ⟨hm, htype, href⟩ := filealloc_moved hb.closed ha
    have h1 := h.table hm
    simp only [fdalloc]
    cases (List.finRange NOFILE).find? fun fd =>
        decide ((setKernel s (setTable s.kernel ft)).kernel.ofile (p, fd) = none) with
    | none =>
      obtain ⟨ft', hclose⟩ := fileclose_fresh htype href
      have hm' := (fileclose_moved hm.1 f).of_ok hclose
      have hstep : SysFile.fileclose (setKernel s (setTable s.kernel ft)) f =
          .ok (setKernel s (setTable s.kernel ft')) := by
        rw [SysFile.fileclose]
        simp only [setKernel, setTable, hclose]
        rfl
      simp only [hstep]
      exact (At.table (s := setKernel s (setTable s.kernel ft)) h1 hm').putFinish (-1)
    | some fd =>
      apply Sat.bind (Q := fun _ => True)
      · exact sat_ite (fun _ => (by decide : "iunlock" ≠ ownLock)) fun _ => trivial
      · intro t _
        trivial

theorem openInode (h : At s mine 0) (p : Slot) (path : Path) (omode : ℕ) :
    Sat (openInode s p path omode) (· ≠ ownLock) fun r => At r.2 (holding r.1 mine) (holding r.1 0) := by
  apply sat_ite
  · intro _
    exact h.create p path (by decide) 0 0
  · intro _
    apply (h.namei p path).bind
    rintro ⟨_ | ip, t⟩ ht
    · exact ht
    · apply (At.ilock ht (Multiset.mem_cons_self ip mine) (Multiset.notMem_zero ip)).bind
      intro t' ht'
      apply sat_ite
      · intro _
        apply ht'.giveUp.post
        rintro ⟨r, t''⟩ ⟨rfl, ht''⟩
        exact ht''
      · intro _
        exact ht'

theorem sysOpen (h : At s mine 0) (p : Slot) (path : Option Path) (omode : ℕ) :
    Sat (sysOpen s p path omode) (· ≠ ownLock) fun _ => True := by
  cases path with
  | none => trivial
  | some path =>
    apply (h.beginOp.openInode p path omode).bind
    rintro ⟨_ | ip, t⟩ ht
    · trivial
    · have ht' : At t (ip ::ₘ mine) (ip ::ₘ 0) := ht
      exact ht'.openFd p omode

theorem sysChdir (h : At s mine 0) (p : Slot) (path : Option Path) :
    Sat (sysChdir s p path) (· ≠ ownLock) fun _ => True := by
  cases path with
  | none => trivial
  | some path =>
    apply (h.beginOp.namei p path).bind
    rintro ⟨_ | ip, t⟩ ht
    · trivial
    · apply (At.ilock ht (Multiset.mem_cons_self ip mine) (Multiset.notMem_zero ip)).bind
      intro t1 h1
      apply sat_ite
      · intro _
        exact h1.putFinish (-1)
      · intro _
        cases t1.cwd p with
        | none => exact (by decide : "no current directory" ≠ ownLock)
        | some cwd =>
          apply h1.iunlock.bind
          intro t2 h2
          have hw : Work t2 _ _ _ _ _ := h2
          obtain ⟨n, hb⟩ := hw.balance
          have hfree : ¬t2.held cwd = true := fun hh => Multiset.notMem_zero cwd (hb.mem_locked.mpr hh)
          obtain ⟨fs, he, -⟩ := iput_spec hw.inv cwd
          rw [SysFile.iput, if_neg hfree, he]
          trivial

theorem readAll (h : At s mine locked) (hi : ip ∈ locked) (reads : List (ℕ × ℕ)) :
    Sat (readAll s ip reads) (· ≠ ownLock) fun t => At t mine locked := by
  have hw : Work s _ _ _ mine locked := h
  induction reads with
  | nil => exact h
  | cons r reads ih =>
    obtain ⟨q, hq⟩ := readi_state hw.inv (hw.valid ip hi) r.1 r.2
    rw [SysFile.readAll, hq]
    exact ih

theorem exec (h : At s mine 0) (p : Slot) (path : Path) (reads : List (ℕ × ℕ)) (loaded built : Bool) :
    Sat (exec s p path reads loaded built) (· ≠ ownLock) fun _ => True := by
  apply (h.beginOp.namei p path).bind
  rintro ⟨_ | ip, t⟩ ht
  · trivial
  · apply (At.ilock ht (Multiset.mem_cons_self ip mine) (Multiset.notMem_zero ip)).bind
    intro t1 h1
    apply (h1.readAll (Multiset.mem_cons_self ip 0) reads).bind
    intro t2 h2
    apply sat_ite
    · intro _
      exact h2.putFinish (-1)
    · intro _
      apply h2.iunlockput.bind
      intro t3 _
      exact sat_ite (fun _ => trivial) fun _ => trivial

end At

def selfNamed (s : Sys) : Event → Bool
  | .link p (some old) (some new) =>
    match linkLookup (beginOp s) p old new with
    | .ok (some (_, some (dp, name)), t) => findsSelf t dp name
    | _ => false
  | .unlink p (some path) =>
    match unlinkLookup (beginOp s) p path with
    | .ok (some (dp, some (_, ip)), _) => ip = dp
    | _ => false
  | _ => false

def Event.walks : Event → Bool
  | .open .. | .mkdir .. | .mknod .. | .link .. | .unlink .. | .chdir .. | .exec .. => true
  | _ => false

theorem linkEntry_self {name : List UInt8} (h : findsSelf s dp name = true) (ip : ℕ) :
    linkEntry s ip dp name = .error ownLock := by
  rw [findsSelf] at h
  rw [linkEntry]
  cases hl : ilock s dp with
  | error e =>
    rw [hl] at h
    cases h
  | ok t =>
    rw [hl, Outcome.ok_bind] at h
    have hheld : t.held dp = true := by
      rw [ilock] at hl
      split_ifs at hl
      cases hx : Fs.ilock s.fs dp with
      | error e =>
        rw [hx] at hl
        cases hl
      | ok fs =>
        rw [hx] at hl
        cases hl
        exact Function.update_self ..
    rw [Outcome.ok_bind, dirlink]
    cases hd : dirlookup t dp name with
    | error e =>
      rw [hd] at h
      cases h
    | ok r =>
      obtain ⟨_ | ⟨off, j⟩, t'⟩ := r
      · rw [hd] at h
        cases h
      · rw [hd] at h
        have hj : j = dp := of_decide_eq_true h
        have hheld' : t'.held dp = true := by
          rw [dirlookup] at hd
          cases hx : Fs.dirlookup t.fs dp name with
          | error e =>
            rw [hx] at hd
            cases hd
          | ok r =>
            obtain ⟨r, fs⟩ := r
            rw [hx] at hd
            cases hd
            exact hheld
        rw [Outcome.ok_bind, hj]
        simp only [iput, hheld', if_true]
        rfl

theorem map_eq_error {α β : Type} {f : α → β} {y : Outcome α} {e : String} :
    f <$> y = .error e ↔ y = .error e := by
  cases y with
  | error e' => simp [Functor.map, Except.map]
  | ok a => simp [Functor.map, Except.map]

theorem ne_ownLock {α : Type} {y : Outcome α} {Q : α → Prop} (h : Sat y (· ≠ ownLock) Q) : y ≠ .error ownLock :=
  fun he => h.of_error he rfl

theorem sysLink_own (h : At s 0 0) (p : Slot) (old new : Option Path) :
    sysLink s p old new = .error ownLock ↔ selfNamed s (.link p old new) = true := by
  cases old with
  | none => simp [sysLink, selfNamed]
  | some old =>
    cases new with
    | none => simp [sysLink, selfNamed]
    | some new =>
      have hlook := h.beginOp.linkLookup p old new
      simp only [sysLink, selfNamed]
      cases hl : linkLookup (beginOp s) p old new with
      | error e =>
        simp only [Outcome.error_bind, Bool.false_eq_true, iff_false]
        rintro ⟨⟩
        exact hlook.of_error hl rfl
      | ok r =>
        have hr := hlook.of_ok hl
        rw [Outcome.ok_bind]
        obtain ⟨_ | ⟨ip, _ | ⟨dp, name⟩⟩, t⟩ := r
        · simp [finish]
        · have hat : At t (ip ::ₘ 0) 0 := hr
          simp only [Bool.false_eq_true, iff_false]
          exact ne_ownLock hat.linkUndo
        · have hat : At t (dp ::ₘ ip ::ₘ 0) 0 := hr
          exact ⟨fun he => (hat.linkEntry name).of_error he rfl, fun hs => linkEntry_self hs ip⟩

theorem sysUnlink_own (h : At s 0 0) (p : Slot) (path : Option Path) :
    sysUnlink s p path = .error ownLock ↔ selfNamed s (.unlink p path) = true := by
  cases path with
  | none => simp [sysUnlink, selfNamed]
  | some path =>
    have hlook := h.beginOp.unlinkLookup p path
    simp only [sysUnlink, selfNamed]
    cases hl : unlinkLookup (beginOp s) p path with
    | error e =>
      simp only [Outcome.error_bind, Bool.false_eq_true, iff_false]
      rintro ⟨⟩
      exact hlook.of_error hl rfl
    | ok r =>
      have hr := hlook.of_ok hl
      rw [Outcome.ok_bind]
      obtain ⟨_ | ⟨dp, _ | ⟨off, ip⟩⟩, t⟩ := r
      · simp [finish]
      · simp only [Bool.false_eq_true, iff_false]
        exact ne_ownLock (At.putFinish hr (-1))
      · obtain ⟨hat, f, hf, hd⟩ := hr
        simp only [decide_eq_true_eq]
        constructor
        · intro he
          by_contra hne
          exact ne_ownLock (hat.unlinkInode hf hd off hne) he
        · rintro rfl
          have hw : Work t _ _ _ _ _ := hat
          obtain ⟨n, hb⟩ := hw.balance
          have hheld : t.held ip = true := hb.mem_locked.mp (Multiset.mem_cons_self ip 0)
          simp only [unlinkInode, ilock, hheld, if_true]
          rfl

/-- Between two calls on a disk whose blocks are in order, a call that takes a path sleeps on a lock of its own exactly
when `sys_link` or `sys_unlink` finds under the last element of the path the directory that it has locked. -/
theorem own_lock_iff (h : Settled s) (hinv : Inv s.fs) {e : Event} (hwalks : e.walks = true)
    (hrun : s.kernel.state e.proc = .runnable) : sysStep s e = some (.error ownLock) ↔ selfNamed s e = true := by
  have hat := h.at hinv
  have hno {y : Outcome (ℤ × Sys)} (hy : Sat y (· ≠ ownLock) fun _ => True) :
      some ((·.2) <$> y) = some (.error ownLock) ↔ false = true := by
    rw [Option.some.injEq, map_eq_error]
    exact iff_of_false (ne_ownLock hy) Bool.noConfusion
  cases e with
  | «open» p path omode =>
    simp only [Event.proc] at hrun
    simp only [sysStep, Event.proc, hrun]
    exact hno (hat.sysOpen p path omode)
  | mkdir p path =>
    simp only [Event.proc] at hrun
    simp only [sysStep, Event.proc, hrun]
    exact hno (hat.sysCreate p path (by decide) 0 0)
  | mknod p path major minor =>
    simp only [Event.proc] at hrun
    simp only [sysStep, Event.proc, hrun]
    exact hno (hat.sysCreate p path (by decide) major minor)
  | link p old new =>
    simp only [Event.proc] at hrun
    simp only [sysStep, Event.proc, hrun, Option.some.injEq, map_eq_error]
    exact sysLink_own hat p old new
  | unlink p path =>
    simp only [Event.proc] at hrun
    simp only [sysStep, Event.proc, hrun, Option.some.injEq, map_eq_error]
    exact sysUnlink_own hat p path
  | chdir p path =>
    simp only [Event.proc] at hrun
    simp only [sysStep, Event.proc, hrun]
    exact hno (hat.sysChdir p path)
  | exec p path reads loaded built =>
    simp only [Event.proc] at hrun
    simp only [sysStep, Event.proc, hrun]
    exact hno (hat.exec p path reads loaded built)
  | close p fd => cases hwalks
  | fork p kstack copied => cases hwalks
  | exit p | reap p => cases hwalks

theorem after_create : ∃ t, Settled t ∧ Inv t.fs ∧ t.kernel.state firstUser = .runnable ∧
    selfNamed t (.link firstUser (some pathX) (some [slash, 46])) = true ∧
    selfNamed t (.link firstUser (some pathX) (some pathY)) = false := by
  have h : (Transition.exec sysStep (boot firstUser rootImage) [.open firstUser (some pathX) 0x202]).map (fun t =>
      decide (t.kernel.state firstUser = .runnable ∧
        selfNamed t (.link firstUser (some pathX) (some [slash, 46])) = true ∧
        selfNamed t (.link firstUser (some pathX) (some pathY)) = false)) = some true := by
    decide +kernel
  have hroom : Along (Steps sysStep) (fun s e => roomy s e = true ∧ (False → orderly s e = true))
      (boot firstUser rootImage) [.open firstUser (some pathX) 0x202] := by
    decide +kernel
  obtain ⟨t, ht, hd⟩ := Option.map_eq_some_iff.mp h
  have hw := (run_sound (rootImage_tree False) (run_of_exec ht) hroom).work
  obtain ⟨n, hb⟩ := hw.balance
  exact ⟨t, hb.settled, hw.inv, of_decide_eq_true hd⟩

theorem own_lock_link : ∃ t, Settled t ∧ Inv t.fs ∧
    sysStep t (.link firstUser (some pathX) (some pathY)) ≠ some (.error ownLock) := by
  obtain ⟨t, hs, hinv, hrun, -, hy⟩ := after_create
  refine ⟨t, hs, hinv, fun he => ?_⟩
  have hself := (own_lock_iff hs hinv (e := .link firstUser (some pathX) (some pathY)) rfl hrun).mp he
  rw [hy] at hself
  cases hself

theorem link_dot_sleeps : ¬∀ (s : Sys) (e : Event), Settled s → Inv s.fs → e.walks = true →
    s.kernel.state e.proc = .runnable → sysStep s e ≠ some (.error ownLock) := by
  intro hall
  obtain ⟨t, hs, hinv, hrun, hdot, -⟩ := after_create
  apply hall t (.link firstUser (some pathX) (some [slash, 46])) hs hinv rfl hrun
  simp only [sysStep, Event.proc, hrun, Option.some.injEq, map_eq_error]
  exact (sysLink_own (hs.at hinv) firstUser (some pathX) (some [slash, 46])).mpr hdot

end Xv6.SysFile
