import Xv6.FileContents
import Xv6.SysFile
import Xv6.Transition

namespace Xv6.SysFile

open Contract FileTable OpenFiles PointerCount ProcTable Transition
open Fs hiding File Slot
open Function (update update_self update_of_ne update_idem update_eq_self update_apply)

def Returns {α : Type} (x : Outcome α) (Q : α → Prop) : Prop := Sat x (fun _ => True) Q

variable {α : Type} {fs : State} {i ip dp : ℕ} {t : Ftable} {f : Fin NFILE} {k : Kernel}

theorem returns_unless {Q : α → Prop} {c : Prop} [Decidable c] {e : String} {y : Outcome α}
    (hy : ¬ c → Returns y Q) : Returns (if c then .error e else y) Q :=
  sat_ite (fun _ => trivial) hy

section RefFrame

variable {fs : State}

theorem balloc_ref : Returns (balloc fs) fun r => r.2.ref = fs.ref := by
  simp only [balloc]
  split
  · exact rfl
  · trivial

theorem bfree_ref (b : ℕ) : Returns (bfree fs b) fun fs' => fs'.ref = fs.ref :=
  sat_ite (fun _ => rfl) (fun _ => trivial)

theorem bmapEntry_ref (ind j : ℕ) : Returns (bmapEntry fs ind j) fun r => r.2.ref = fs.ref := by
  apply sat_ite
  · intro _
    apply balloc_ref.bind
    intro r hr
    exact hr
  · intro _
    exact rfl

theorem bmap_ref (i bn : ℕ) : Returns (bmap fs i bn) fun r => r.2.ref = fs.ref := by
  apply sat_ite
  · intro _
    apply sat_ite
    · intro _
      apply balloc_ref.bind
      intro r hr
      exact hr
    · intro _
      exact rfl
  · intro _
    apply sat_ite
    · intro _
      apply sat_ite
      · intro _
        apply balloc_ref.bind
        intro r hr
        apply (bmapEntry_ref r.1 (bn - NDIRECT)).post
        intro r' hr'
        exact hr'.trans hr
      · intro _
        exact bmapEntry_ref _ _
    · intro _
      trivial

theorem readLoop_ref (i off n : ℕ) : Returns (readLoop fs i off n) fun r => r.2.ref = fs.ref := by
  fun_induction readLoop fs i off n with
  | case1 => exact rfl
  | case2 fs off n _ ih =>
    apply (bmap_ref i (off / BSIZE)).bind
    intro r hr
    apply (ih r.2).bind
    intro r' hr'
    exact hr'.trans hr

theorem readi_ref (i off n : ℕ) : Returns (readi fs i off n) fun r => r.2.ref = fs.ref := by
  apply sat_ite
  · intro _
    exact rfl
  intro _
  apply sat_ite
  · intro _
    exact rfl
  intro _
  apply (readLoop_ref i off _).bind
  intro r hr
  exact hr

theorem writeLoop_ref (i off : ℕ) (src : List UInt8) :
    Returns (writeLoop fs i off src) fun fs' => fs'.ref = fs.ref := by
  fun_induction writeLoop fs i off src with
  | case1 => exact rfl
  | case2 fs off src _ ih =>
    apply (bmap_ref i (off / BSIZE)).bind
    intro r hr
    apply (ih r.1 r.2).post
    intro fs' h'
    exact h'.trans hr

theorem writei_ref (i : ℕ) (src : List UInt8) (off : ℕ) :
    Returns (writei fs i src off) fun r => r.2.ref = fs.ref := by
  apply sat_ite
  · intro _
    exact rfl
  intro _
  apply sat_ite
  · intro _
    exact rfl
  intro _
  apply sat_ite
  · intro _
    exact rfl
  intro _
  apply (writeLoop_ref i off src).bind
  intro fs' h'
  exact sat_ite (fun _ => h') (fun _ => h')

theorem readEntry_ref (dp off : ℕ) (msg : String) : Returns (readEntry fs dp off msg) fun r => r.2.ref = fs.ref := by
  apply (readi_ref dp off sizeofDirent).bind
  rintro ⟨_ | bs, fs'⟩ h'
  · trivial
  · exact sat_ite (fun _ => h') (fun _ => trivial)

theorem scan_ref (dp : ℕ) (msg : String) (q : Dirent → Bool) (offs : List ℕ) :
    Returns (scan fs dp msg q offs) fun r => r.2.ref = fs.ref := by
  induction offs generalizing fs with
  | nil => exact rfl
  | cons off offs ih =>
    apply (readEntry_ref dp off msg).bind
    intro r hr
    apply sat_ite
    · intro _
      exact hr
    · intro _
      apply ih.post
      intro r' hr'
      exact hr'.trans hr

theorem emptySlot_ref (dp : ℕ) : Returns (emptySlot fs dp) fun r => r.2.ref = fs.ref := by
  apply (scan_ref dp _ _ _).bind
  rintro ⟨_ | r, fs'⟩ h'
  · exact h'
  · exact h'

theorem truncDirect_ref (i : ℕ) (ks : List ℕ) : Returns (truncDirect fs i ks) fun fs' => fs'.ref = fs.ref := by
  induction ks generalizing fs with
  | nil => exact rfl
  | cons k ks ih =>
    apply sat_ite
    · intro _
      apply (bfree_ref _).bind
      intro fs' h'
      apply ih.post
      intro fs'' h''
      exact h''.trans h'
    · intro _
      exact ih

theorem truncIndirect_ref (a : ByteMemory.Bytes) (js : List ℕ) :
    Returns (truncIndirect a fs js) fun fs' => fs'.ref = fs.ref := by
  induction js generalizing fs with
  | nil => exact rfl
  | cons j js ih =>
    apply sat_ite
    · intro _
      apply (bfree_ref _).bind
      intro fs' h'
      apply ih.post
      intro fs'' h''
      exact h''.trans h'
    · intro _
      exact ih

theorem itrunc_ref (i : ℕ) : Returns (itrunc fs i) fun fs' => fs'.ref = fs.ref := by
  apply (truncDirect_ref i _).bind
  intro fs' h'
  apply sat_ite
  · intro _
    apply (truncIndirect_ref _ _).bind
    intro fs2 h2
    apply (bfree_ref _).bind
    intro fs3 h3
    exact h3.trans (h2.trans h')
  · intro _
    exact h'

theorem ifree_ref (i : ℕ) : Returns (ifree fs i) fun fs' => fs'.ref = fs.ref := by
  apply (itrunc_ref i).bind
  intro fs' h'
  exact h'

theorem iput_ref (i : ℕ) :
    Returns (Fs.iput fs i) fun fs' => fs'.ref = update fs.ref i (fs.ref i - 1) := by
  apply sat_ite
  · intro _
    apply (ifree_ref i).bind
    intro fs' h'
    simp only [sat_ok, dropRef, h']
  · intro _
    exact rfl

theorem iget_ref (i : ℕ) : Returns (iget fs i) fun fs' => fs'.ref = update fs.ref i (fs.ref i + 1) := by
  apply sat_ite
  · intro _
    exact rfl
  intro h0
  apply returns_unless
  intro _
  have hz : fs.ref i = 0 := by omega
  rw [hz]
  exact rfl

theorem ilock_ref (i : ℕ) : Returns (Fs.ilock fs i) fun fs' => 0 < fs.ref i ∧ fs'.ref = fs.ref := by
  apply returns_unless
  intro h0
  have hpos : 0 < fs.ref i := by omega
  apply sat_ite
  · intro _
    exact ⟨hpos, rfl⟩
  · intro _
    apply returns_unless
    intro _
    exact ⟨hpos, rfl⟩

theorem ialloc_ref (type : FType) :
    Returns (ialloc fs type) fun r => r.2.ref = update fs.ref r.1 (fs.ref r.1 + 1) := by
  simp only [ialloc]
  split
  · apply (iget_ref _).bind
    intro fs' h'
    exact h'
  · trivial

theorem dirlookup_ref (dp : ℕ) (name : List UInt8) :
    Returns (Fs.dirlookup fs dp name) fun r => r.2.ref =
      match r.1 with
      | some (_, i) => update fs.ref i (fs.ref i + 1)
      | none => fs.ref := by
  apply returns_unless
  intro _
  apply (scan_ref dp _ _ _).bind
  rintro ⟨_ | ⟨off, de⟩, fs'⟩ h'
  · exact h'
  · apply (iget_ref de.inum).bind
    intro fs'' h''
    simp only at h'
    simp only [sat_ok, h'', h']

end RefFrame

def fileIp (t : Ftable) (f : Fin NFILE) : Option ℕ := if (t.file f).type = .inode then some (t.file f).ip else none

structure Balance (s : Sys) (mine locked : Multiset ℕ) (n : ℤ) : Prop where
  refs : ∀ i, s.fs.ref i = count (fileIp s.kernel.ft) i + count s.cwd i + mine.count i
  locks : ∀ i, (s.held i).toNat = locked.count i
  ops : (s.begun : ℤ) - s.ended = n
  closed : ∀ f, (s.kernel.ft.file f).ref = 0 → (s.kernel.ft.file f).type = .none
  idle : ∀ p, s.kernel.state p ≠ .runnable → s.cwd p = none

variable {s : Sys} {mine locked : Multiset ℕ} {n : ℤ}

namespace Balance

theorem fs_eq (h : Balance s mine locked n) (hr : fs.ref = s.fs.ref) : Balance (setFs s fs) mine locked n :=
  ⟨fun i => by simpa only [setFs, hr] using h.refs i, h.locks, h.ops, h.closed, h.idle⟩

theorem took (h : Balance s mine locked n)
    (hr : fs.ref = update s.fs.ref i (s.fs.ref i + 1)) : Balance (setFs s fs) (i ::ₘ mine) locked n := by
  refine ⟨fun j => ?_, h.locks, h.ops, h.closed, h.idle⟩
  have hj := h.refs j
  simp only [setFs, hr, Multiset.count_cons]
  by_cases hi : j = i
  · subst hi
    simp only [update_self, if_true]
    omega
  · simp only [update_of_ne hi, if_neg hi]
    omega

theorem gave (h : Balance s (i ::ₘ mine) locked n)
    (hr : fs.ref = update s.fs.ref i (s.fs.ref i - 1)) : Balance (setFs s fs) mine locked n := by
  refine ⟨fun j => ?_, h.locks, h.ops, h.closed, h.idle⟩
  have hj := h.refs j
  simp only [setFs, hr]
  by_cases hi : j = i
  · subst hi
    simp only [update_self, Multiset.count_cons_self] at hj ⊢
    omega
  · simp only [update_of_ne hi, Multiset.count_cons_of_ne hi] at hj ⊢
    omega

theorem idup (h : Balance s mine locked n) (i : ℕ) : Balance (setFs s (Fs.idup s.fs i)) (i ::ₘ mine) locked n :=
  h.took rfl

theorem iget (h : Balance s mine locked n) (i : ℕ) :
    Returns (Fs.iget s.fs i) fun fs => Balance (setFs s fs) (i ::ₘ mine) locked n :=
  (iget_ref i).post fun _ hr => h.took hr

theorem ialloc (h : Balance s mine locked n) (type : FType) :
    Returns (Fs.ialloc s.fs type) fun r => Balance (setFs s r.2) (r.1 ::ₘ mine) locked n :=
  (ialloc_ref type).post fun _ hr => h.took hr

theorem ilock (h : Balance s mine locked n) (i : ℕ) :
    Returns (ilock s i) fun t => Balance t mine (i ::ₘ locked) n := by
  apply returns_unless
  intro hh
  apply (ilock_ref i).bind
  intro fs hr
  refine ⟨fun j => by simpa only [hr.2] using h.refs j, fun j => ?_, h.ops, h.closed, h.idle⟩
  have hj := h.locks j
  simp only [Multiset.count_cons]
  by_cases hi : j = i
  · subst hi
    simp only [Bool.not_eq_true] at hh
    simp only [hh, Bool.toNat_false] at hj
    simp only [update_self, Bool.toNat_true, if_true]
    omega
  · simp only [update_of_ne hi, if_neg hi]
    omega

theorem iunlock (h : Balance s mine (i ::ₘ locked) n) : Returns (iunlock s i) fun t => Balance t mine locked n := by
  apply returns_unless
  intro _
  refine ⟨h.refs, fun j => ?_, h.ops, h.closed, h.idle⟩
  have hj := h.locks j
  by_cases hi : j = i
  · subst hi
    have hb := (s.held j).toNat_le
    simp only [Multiset.count_cons_self] at hj
    simp only [update_self, Bool.toNat_false]
    omega
  · simpa only [update_of_ne hi, Multiset.count_cons_of_ne hi] using hj

theorem iunlock_eq (s : Sys) (i : ℕ) :
    Returns (SysFile.iunlock s i) fun t => t = { s with held := update s.held i false } := by
  apply returns_unless
  intro _
  exact rfl

theorem iput (h : Balance s (i ::ₘ mine) locked n) : Returns (iput s i) fun t => Balance t mine locked n := by
  apply returns_unless
  intro _
  apply (iput_ref i).bind
  intro fs hr
  exact h.gave hr

theorem iunlockput (h : Balance s (i ::ₘ mine) (i ::ₘ locked) n) :
    Returns (iunlockput s i) fun t => Balance t mine locked n := by
  apply h.iunlock.bind
  intro t ht
  exact ht.iput

theorem giveUp (h : Balance s (i ::ₘ mine) (i ::ₘ locked) n) :
    Returns (giveUp (α := α) s i) fun r => r.1 = none ∧ Balance r.2 mine locked n := by
  apply h.iunlockput.bind
  intro t ht
  exact ⟨rfl, ht⟩

theorem beginOp (h : Balance s mine locked n) : Balance (beginOp s) mine locked (n + 1) :=
  ⟨h.refs, h.locks, by have := h.ops; simp only [SysFile.beginOp]; omega, h.closed, h.idle⟩

theorem endOp (h : Balance s mine locked (n + 1)) : Balance (endOp s) mine locked n :=
  ⟨h.refs, h.locks, by have := h.ops; simp only [SysFile.endOp]; omega, h.closed, h.idle⟩

theorem swap {i j : ℕ} (h : Balance s (i ::ₘ j ::ₘ mine) locked n) : Balance s (j ::ₘ i ::ₘ mine) locked n :=
  Multiset.cons_swap i j mine ▸ h

theorem swapLocks {i j : ℕ} (h : Balance s mine (i ::ₘ j ::ₘ locked) n) : Balance s mine (j ::ₘ i ::ₘ locked) n :=
  Multiset.cons_swap i j locked ▸ h

theorem addNlink (h : Balance s mine locked n) (i : ℕ) (k : Int16) : Balance (addNlink s i k) mine locked n :=
  h.fs_eq rfl

end Balance

def holding (r : Option ℕ) (m : Multiset ℕ) : Multiset ℕ :=
  match r with
  | some i => i ::ₘ m
  | none => m

namespace Balance

theorem dirlookup (h : Balance s mine locked n) (dp : ℕ) (name : List UInt8) :
    Returns (dirlookup s dp name) fun r => Balance r.2 (holding (r.1.map Prod.snd) mine) locked n := by
  apply (dirlookup_ref dp name).bind
  rintro ⟨_ | ⟨off, i⟩, fs⟩ hr
  · exact h.fs_eq hr
  · exact h.took hr

theorem dirwrite (h : Balance s mine locked n) (dp : ℕ) (name : List UInt8) (inum : ℕ) :
    Returns (dirwrite s dp name inum) fun t => Balance t mine locked n := by
  apply (emptySlot_ref dp).bind
  rintro ⟨off, fs⟩ hr
  apply (writei_ref dp _ off).bind
  rintro ⟨r, fs'⟩ hr'
  exact sat_ite (fun _ => h.fs_eq (hr'.trans hr)) (fun _ => trivial)

theorem dirlink (h : Balance s mine locked n) (dp : ℕ) (name : List UInt8) (inum : ℕ) :
    Returns (dirlink s dp name inum) fun r => Balance r.2 mine locked n := by
  apply (h.dirlookup dp name).bind
  rintro ⟨_ | ⟨off, next⟩, t⟩ ht
  · apply (Balance.dirwrite ht dp name inum).bind
    intro t' ht'
    exact ht'
  · apply (Balance.iput ht).bind
    intro t' ht'
    exact ht'

theorem namexLoop (h : Balance s (ip ::ₘ mine) locked n) (parent : Bool) (elems : List (List UInt8)) :
    Returns (namexLoop s ip parent elems) fun r => Balance r.2 (holding (r.1.map Prod.fst) mine) locked n := by
  induction elems generalizing s ip with
  | nil =>
    apply sat_ite
    · intro _
      apply h.iput.bind
      intro t ht
      exact ht
    · intro _
      exact h
  | cons name elems ih =>
    apply (h.ilock ip).bind
    intro t ht
    apply sat_ite
    · intro _
      apply ht.giveUp.post
      rintro ⟨r, t'⟩ ⟨rfl, ht'⟩
      exact ht'
    intro _
    apply sat_ite
    · intro _
      apply ht.iunlock.bind
      intro t' ht'
      exact ht'
    · intro _
      apply (ht.dirlookup ip name).bind
      rintro ⟨_ | ⟨off, next⟩, t'⟩ ht'
      · apply (Balance.giveUp ht').post
        rintro ⟨r, t''⟩ ⟨rfl, ht''⟩
        exact ht''
      · apply (Balance.iunlockput (Balance.swap ht')).bind
        intro t'' ht''
        exact ih ht''

theorem namex (h : Balance s mine locked n) (p : Slot) (path : Path) (parent : Bool) :
    Returns (namex s p path parent) fun r => Balance r.2 (holding (r.1.map Prod.fst) mine) locked n := by
  apply sat_ite
  · intro _
    apply (h.iget ROOTINO).bind
    intro fs hfs
    exact hfs.namexLoop parent _
  · intro _
    cases hc : s.cwd p with
    | none => trivial
    | some cwd => exact (h.idup cwd).namexLoop parent _

theorem namei (h : Balance s mine locked n) (p : Slot) (path : Path) :
    Returns (namei s p path) fun r => Balance r.2 (holding r.1 mine) locked n := by
  apply (h.namex p path false).bind
  intro r hr
  exact hr

theorem createLookup (h : Balance s mine locked n) (p : Slot) (path : Path) :
    Returns (createLookup s p path) fun r =>
      match r.1 with
      | none => Balance r.2 mine locked n
      | some (dp, _, ip) => Balance r.2 (holding ip (dp ::ₘ mine)) (dp ::ₘ locked) n := by
  apply (h.namex p path true).bind
  rintro ⟨_ | ⟨dp, name⟩, t⟩ ht
  · exact ht
  · apply (Balance.ilock ht dp).bind
    intro t' ht'
    apply (ht'.dirlookup dp name).bind
    intro r hr
    exact hr

theorem createDots (h : Balance s mine locked n) (dp ip : ℕ) (type : FType) :
    Returns (createDots s dp ip type) fun t => Balance t mine locked n := by
  apply sat_ite
  · intro _
    apply ((h.addNlink dp 1).dirlink ip dot ip).bind
    rintro ⟨ok, t⟩ ht
    apply sat_ite
    · intro _
      apply (Balance.dirlink ht ip dotdot dp).bind
      rintro ⟨ok', t'⟩ ht'
      exact sat_ite (fun _ => ht') (fun _ => trivial)
    · intro _
      trivial
  · intro _
    exact h

theorem createNew (h : Balance s (dp ::ₘ mine) (dp ::ₘ locked) n) (name : List UInt8) (type : FType)
    (major minor : Int16) :
    Returns (createNew s dp name type major minor) fun r => Balance r.2 (holding r.1 mine) (holding r.1 locked) n := by
  apply (h.ialloc type).bind
  rintro ⟨ip, fs⟩ hfs
  apply (Balance.ilock hfs ip).bind
  intro t ht
  have hattr : Balance
      (setFs t (commit t.fs ip { t.fs.inode ip with major := major, minor := minor, nlink := 1 })) _ _ n :=
    ht.fs_eq rfl
  apply (hattr.createDots dp ip type).bind
  intro t1 h1
  apply (h1.dirlink dp name ip).bind
  rintro ⟨ok, t2⟩ h2
  apply sat_ite
  · intro _
    apply (Balance.iunlockput (Balance.swapLocks (Balance.swap h2))).bind
    intro t3 h3
    exact h3
  · intro _
    trivial

theorem createFound (h : Balance s (ip ::ₘ dp ::ₘ mine) (dp ::ₘ locked) n) (type : FType) :
    Returns (createFound s dp ip type) fun r => Balance r.2 (holding r.1 mine) (holding r.1 locked) n := by
  apply h.swap.iunlockput.bind
  intro t ht
  apply (ht.ilock ip).bind
  intro t' ht'
  apply sat_ite
  · intro _
    exact ht'
  · intro _
    apply ht'.giveUp.post
    rintro ⟨r, t''⟩ ⟨rfl, ht''⟩
    exact ht''

theorem create (h : Balance s mine locked n) (p : Slot) (path : Path) (type : FType) (major minor : Int16) :
    Returns (create s p path type major minor) fun r =>
      Balance r.2 (holding r.1 mine) (holding r.1 locked) n := by
  apply (h.createLookup p path).bind
  rintro ⟨_ | ⟨dp, name, _ | ip⟩, t⟩ ht
  · exact ht
  · exact Balance.createNew ht name type major minor
  · exact Balance.createFound ht type

theorem finish (h : Balance s mine locked (n + 1)) (r : α) : Returns (finish r s) fun r => Balance r.2 mine locked n :=
  h.endOp

theorem putFinish (h : Balance s (i ::ₘ mine) (i ::ₘ locked) (n + 1)) (r : α) :
    Returns (putFinish r s i) fun r => Balance r.2 mine locked n := by
  apply h.iunlockput.bind
  intro t ht
  exact ht.finish r

end Balance

theorem fileIp_setFile (t : Ftable) (f : Fin NFILE) (x : File) :
    fileIp (setFile t f x) = update (fileIp t) f (if x.type = .inode then some x.ip else none) := by
  funext g
  by_cases hg : g = f
  · subst hg
    simp [fileIp, setFile]
  · simp [fileIp, setFile, update_of_ne hg]

def Closed (t : Ftable) : Prop := ∀ f, (t.file f).ref = 0 → (t.file f).type = .none

theorem Closed.setFile (h : Closed t) {x : File} (hx : x.ref = 0 → x.type = .none) : Closed (setFile t f x) := by
  intro g hg
  by_cases hf : g = f
  · subst hf
    simp only [FileTable.setFile, update_self] at hg ⊢
    exact hx hg
  · simp only [FileTable.setFile, update_of_ne hf] at hg ⊢
    exact h g hg

def Moved (t t' : Ftable) (out : Option ℕ) : Prop :=
  Closed t' ∧ ∀ i, count (fileIp t') i + hit out i = count (fileIp t) i

theorem pipeclose_file (t : Ftable) (page : ℕ) (w : Bool) :
    Returns (pipeclose t page w) fun t' => t'.file = t.file := by
  simp only [pipeclose]
  split
  · trivial
  · exact sat_ite (fun _ => rfl) (fun _ => rfl)

theorem fileclose_moved (h : Closed t) (f : Fin NFILE) :
    Returns (FileTable.fileclose t f) fun r => Moved t r.2 r.1 := by
  apply returns_unless
  intro hr
  apply sat_ite
  · intro hpos
    refine ⟨h.setFile fun h0 => by simp only at h0; omega, fun i => ?_⟩
    rw [fileIp_setFile]
    have hc := count_update (fileIp t) f (fileIp t f) i
    simp only [fileIp] at hc ⊢
    simp only [hit_none]
    omega
  · intro _
    have hclosed : Closed (setFile t f { t.file f with ref := 0, type := .none }) := h.setFile fun _ => rfl
    have hout (i : ℕ) : count (fileIp (setFile t f { t.file f with ref := 0, type := .none })) i +
        hit (fileIp t f) i = count (fileIp t) i := by
      rw [fileIp_setFile]
      simpa using count_update (fileIp t) f none i
    cases ht : (t.file f).type with
    | none =>
      refine ⟨hclosed, fun i => ?_⟩
      simpa [fileIp, ht] using hout i
    | pipe =>
      apply (pipeclose_file _ _ _).bind
      intro t' ht'
      refine ⟨fun g => ?_, fun i => ?_⟩
      · rw [ht']
        exact hclosed g
      · have he : fileIp t' = fileIp (setFile t f { t.file f with ref := 0, type := .none }) := by
          funext g
          simp only [fileIp, ht']
        rw [he]
        simpa [fileIp, ht] using hout i
    | inode =>
      refine ⟨hclosed, fun i => ?_⟩
      simpa [fileIp, ht] using hout i

theorem filealloc_moved (h : Closed t) {t' : Ftable} (ha : filealloc t = some (f, t')) :
    Moved t t' none ∧ (t'.file f).type = .none ∧ (t'.file f).ref = 1 := by
  simp only [filealloc] at ha
  split at ha
  case h_2 => cases ha
  case h_1 g hg =>
    cases ha
    have h0 : (t.file f).ref = 0 := by simpa using List.find?_some hg
    have ht : (t.file f).type = .none := h f h0
    refine ⟨⟨h.setFile fun h1 => absurd h1 (by simp), fun i => ?_⟩, ?_, ?_⟩
    · rw [fileIp_setFile]
      have hc := count_update (fileIp t) f none i
      simp only [fileIp, ht] at hc
      simpa [ht] using hc
    · simpa [setFile] using ht
    · simp [setFile]

namespace Balance

theorem table (h : Balance s mine locked n) {out : Option ℕ} (ht : Moved s.kernel.ft t out) :
    Balance (setKernel s (setTable s.kernel t)) (holding out mine) locked n := by
  refine ⟨fun i => ?_, h.locks, h.ops, ht.1, h.idle⟩
  have hi := h.refs i
  have ho := ht.2 i
  cases out with
  | none =>
    simp only [hit_none] at ho
    simp only [setKernel, setTable, holding]
    omega
  | some j =>
    simp only [hit_some] at ho
    simp only [setKernel, setTable, holding, Multiset.count_cons]
    omega

theorem kernel (h : Balance s mine locked n) (hf : k.ft = s.kernel.ft)
    (hs : ∀ q, k.state q ≠ .runnable → s.cwd q = none) : Balance (setKernel s k) mine locked n := by
  refine ⟨fun i => ?_, h.locks, h.ops, fun f => ?_, hs⟩
  · simpa only [setKernel, hf] using h.refs i
  · simpa only [setKernel, hf] using h.closed f

theorem fileclose (h : Balance s mine locked n) (f : Fin NFILE) :
    Returns (fileclose s f) fun t => Balance t mine locked n := by
  apply (fileclose_moved h.closed f).bind
  rintro ⟨_ | ip, ft⟩ hm
  · exact h.table hm
  · apply (h.table hm).beginOp.iput.bind
    intro t ht
    exact ht.endOp

theorem openInode (h : Balance s mine locked n) (p : Slot) (path : Path) (omode : ℕ) :
    Returns (openInode s p path omode) fun r => Balance r.2 (holding r.1 mine) (holding r.1 locked) n := by
  apply sat_ite
  · intro _
    exact h.create p path .file 0 0
  · intro _
    apply (h.namei p path).bind
    rintro ⟨_ | ip, t⟩ ht
    · exact ht
    · apply (Balance.ilock ht ip).bind
      intro t' ht'
      apply sat_ite
      · intro _
        apply ht'.giveUp.post
        rintro ⟨r, t''⟩ ⟨rfl, ht''⟩
        exact ht''
      · intro _
        exact ht'

theorem opened (h : Balance s (ip ::ₘ mine) locked n)
    (ht : (s.kernel.ft.file f).type = .none) (hr : (s.kernel.ft.file f).ref = 1) (omode : ℕ) :
    Balance (setKernel s (setTable s.kernel (setFile s.kernel.ft f (openedFile (s.kernel.ft.file f) ip omode))))
      mine locked n := by
  have hclosed : Closed (setFile s.kernel.ft f (openedFile (s.kernel.ft.file f) ip omode)) := by
    apply Closed.setFile h.closed
    intro h0
    simp [openedFile, hr] at h0
  refine ⟨fun i => ?_, h.locks, h.ops, hclosed, h.idle⟩
  have hi := h.refs i
  have hc := count_update (fileIp s.kernel.ft) f (some ip) i
  have hf : fileIp s.kernel.ft f = none := by simp [fileIp, ht]
  simp only [hf, hit_none, hit_some] at hc
  simp only [Multiset.count_cons] at hi
  simp only [setKernel, setTable, fileIp_setFile, openedFile, if_true]
  omega

theorem openFd (h : Balance s (ip ::ₘ mine) (ip ::ₘ locked) (n + 1)) (p : Slot) (omode : ℕ) :
    Returns (openFd s p ip omode) fun r => Balance r.2 mine locked n := by
  simp only [SysFile.openFd]
  cases ha : filealloc s.kernel.ft with
  | none => exact h.putFinish (-1)
  | some r =>
    obtain ⟨f, ft⟩ := r
    obtain ⟨hm, htype, href⟩ := filealloc_moved h.closed ha
    have h1 := h.table hm
    simp only [fdalloc]
    cases (List.finRange NOFILE).find? fun fd =>
        decide ((setKernel s (setTable s.kernel ft)).kernel.ofile (p, fd) = none) with
    | none =>
      apply (h1.fileclose f).bind
      intro t ht
      exact ht.putFinish (-1)
    | some fd =>
      have h2 := h1.kernel (k := setSlot (setTable s.kernel ft) (p, fd) (some f)) rfl h.idle
      apply (h2.iunlock.and (iunlock_eq _ ip)).bind
      rintro t ⟨ht, rfl⟩
      exact (ht.opened htype href omode).endOp

theorem sysOpen (h : Balance s mine locked n) (p : Slot) (path : Option Path) (omode : ℕ) :
    Returns (sysOpen s p path omode) fun r => Balance r.2 mine locked n := by
  cases path with
  | none => exact h
  | some path =>
    apply (h.beginOp.openInode p path omode).bind
    rintro ⟨_ | ip, t⟩ ht
    · exact Balance.finish ht (-1)
    · exact Balance.openFd ht p omode

theorem sysCreate (h : Balance s mine locked n) (p : Slot) (path : Option Path) (type : FType) (major minor : Int16) :
    Returns (sysCreate s p path type major minor) fun r => Balance r.2 mine locked n := by
  cases path with
  | none => exact h.beginOp.finish (-1)
  | some path =>
    apply (h.beginOp.create p path type major minor).bind
    rintro ⟨_ | ip, t⟩ ht
    · exact Balance.finish ht (-1)
    · exact Balance.putFinish ht 0

theorem linkLookup (h : Balance s mine locked n) (p : Slot) (old new : Path) :
    Returns (linkLookup s p old new) fun r =>
      match r.1 with
      | none => Balance r.2 mine locked n
      | some (ip, r') => Balance r.2 (holding (r'.map Prod.fst) (ip ::ₘ mine)) locked n := by
  apply (h.namei p old).bind
  rintro ⟨_ | ip, t⟩ ht
  · exact ht
  · apply (Balance.ilock ht ip).bind
    intro t1 h1
    apply sat_ite
    · intro _
      apply h1.giveUp.post
      rintro ⟨r, t2⟩ ⟨rfl, h2⟩
      exact h2
    · intro _
      apply (h1.addNlink ip 1).iunlock.bind
      intro t2 h2
      apply (h2.namex p new true).bind
      intro r hr
      exact hr

theorem linkUndo (h : Balance s (ip ::ₘ mine) locked (n + 1)) :
    Returns (linkUndo s ip) fun r => Balance r.2 mine locked n := by
  apply (h.ilock ip).bind
  intro t ht
  exact (ht.addNlink ip (-1)).putFinish (-1)

theorem linkEntry (h : Balance s (dp ::ₘ ip ::ₘ mine) locked (n + 1)) (name : List UInt8) :
    Returns (linkEntry s ip dp name) fun r => Balance r.2 mine locked n := by
  apply (h.ilock dp).bind
  intro t1 h1
  apply (h1.dirlink dp name ip).bind
  rintro ⟨ok, t2⟩ h2
  apply (Balance.iunlockput h2).bind
  intro t3 h3
  apply sat_ite
  · intro _
    apply h3.iput.bind
    intro t4 h4
    exact h4.finish 0
  · intro _
    exact h3.linkUndo

theorem sysLink (h : Balance s mine locked n) (p : Slot) (old new : Option Path) :
    Returns (sysLink s p old new) fun r => Balance r.2 mine locked n := by
  cases old with
  | none => exact h
  | some old =>
    cases new with
    | none => exact h
    | some new =>
      apply (h.beginOp.linkLookup p old new).bind
      rintro ⟨_ | ⟨ip, _ | ⟨dp, name⟩⟩, t⟩ ht
      · exact Balance.finish ht (-1)
      · exact Balance.linkUndo ht
      · exact Balance.linkEntry ht name

theorem removable (h : Balance s mine locked n) (ip : ℕ) :
    Returns (removable s ip) fun r => Balance r.2 mine locked n := by
  apply sat_ite
  · intro _
    apply (scan_ref ip _ _ _).bind
    rintro ⟨r, fs⟩ hr
    exact h.fs_eq hr
  · intro _
    exact h

theorem unlinkLookup (h : Balance s mine locked n) (p : Slot) (path : Path) :
    Returns (unlinkLookup s p path) fun r =>
      match r.1 with
      | none => Balance r.2 mine locked n
      | some (dp, r') => Balance r.2 (holding (r'.map Prod.snd) (dp ::ₘ mine)) (dp ::ₘ locked) n := by
  apply (h.namex p path true).bind
  rintro ⟨_ | ⟨dp, name⟩, t⟩ ht
  · exact ht
  · apply (Balance.ilock ht dp).bind
    intro t1 h1
    apply sat_ite
    · intro _
      exact h1
    · intro _
      apply (h1.dirlookup dp name).bind
      intro r hr
      exact hr

theorem unlinkEntry (h : Balance s (ip ::ₘ dp ::ₘ mine) (ip ::ₘ dp ::ₘ locked) (n + 1)) (off : ℕ) :
    Returns (unlinkEntry s dp off ip) fun r => Balance r.2 mine locked n := by
  apply (writei_ref dp Dirent.empty.bytes off).bind
  rintro ⟨r, fs⟩ hr
  apply sat_ite
  · intro _
    have h1 := h.fs_eq hr
    have h2 : Balance (if ((setFs s fs).fs.inode ip).type = .dir then SysFile.addNlink (setFs s fs) dp (-1)
        else setFs s fs) (ip ::ₘ dp ::ₘ mine) (ip ::ₘ dp ::ₘ locked) (n + 1) := by
      split_ifs
      · exact h1.addNlink dp (-1)
      · exact h1
    apply h2.swap.swapLocks.iunlockput.bind
    intro t ht
    exact (ht.addNlink ip (-1)).putFinish 0
  · intro _
    trivial

theorem unlinkInode (h : Balance s (ip ::ₘ dp ::ₘ mine) (dp ::ₘ locked) (n + 1)) (off : ℕ) :
    Returns (unlinkInode s dp off ip) fun r => Balance r.2 mine locked n := by
  apply (h.ilock ip).bind
  intro t1 h1
  apply returns_unless
  intro _
  apply (h1.removable ip).bind
  rintro ⟨ok, t2⟩ h2
  apply sat_ite
  · intro _
    exact Balance.unlinkEntry h2 off
  · intro _
    apply (Balance.iunlockput h2).bind
    intro t3 h3
    exact h3.putFinish (-1)

theorem sysUnlink (h : Balance s mine locked n) (p : Slot) (path : Option Path) :
    Returns (sysUnlink s p path) fun r => Balance r.2 mine locked n := by
  cases path with
  | none => exact h
  | some path =>
    apply (h.beginOp.unlinkLookup p path).bind
    rintro ⟨_ | ⟨dp, _ | ⟨off, ip⟩⟩, t⟩ ht
    · exact Balance.finish ht (-1)
    · exact Balance.putFinish ht (-1)
    · exact Balance.unlinkInode ht off

theorem setCwd (h : Balance s mine locked n) (p : Slot) (v : Option ℕ) {mine' : Multiset ℕ}
    (hm : ∀ i, hit (s.cwd p) i + mine.count i = hit v i + mine'.count i)
    (hv : s.kernel.state p ≠ .runnable → v = none) :
    Balance { s with cwd := update s.cwd p v } mine' locked n := by
  refine ⟨fun i => ?_, h.locks, h.ops, h.closed, fun q hq => ?_⟩
  · have hi := h.refs i
    have hc := count_update s.cwd p v i
    have hh := hm i
    simp only
    omega
  · by_cases hp : q = p
    · subst hp
      simpa using hv hq
    · simpa only [update_of_ne hp] using h.idle q hq

theorem putCwd {p : Slot} {cwd : ℕ} {v : Option ℕ} (h : Balance s (holding v mine) locked n) (hc : s.cwd p = some cwd) :
    Returns (SysFile.iput s cwd) fun t =>
      Balance { t with cwd := update t.cwd p v } mine locked n ∧ t.kernel = s.kernel := by
  have h1 : Balance { s with cwd := update s.cwd p v } (cwd ::ₘ mine) locked n := by
    apply h.setCwd p v
    · intro i
      cases v with
      | none => simp only [hc, hit_some, hit_none, holding, Multiset.count_cons]; omega
      | some ip => simp only [hc, hit_some, holding, Multiset.count_cons]; omega
    · intro hr
      exact absurd (h.idle p hr) (by simp [hc])
  apply returns_unless
  intro _
  apply (iput_ref cwd).bind
  intro fs hr
  exact ⟨h1.gave hr, rfl⟩

theorem sysChdir (h : Balance s mine locked n) (p : Slot) (path : Option Path) :
    Returns (sysChdir s p path) fun r => Balance r.2 mine locked n := by
  cases path with
  | none => exact h.beginOp.finish (-1)
  | some path =>
    apply (h.beginOp.namei p path).bind
    rintro ⟨_ | ip, t⟩ ht
    · exact Balance.finish ht (-1)
    · apply (Balance.ilock ht ip).bind
      intro t1 h1
      apply sat_ite
      · intro _
        exact h1.putFinish (-1)
      · intro _
        cases hc : t1.cwd p with
        | none => trivial
        | some cwd =>
          apply (h1.iunlock.and (iunlock_eq t1 ip)).bind
          rintro t2 ⟨h2, rfl⟩
          apply (Balance.putCwd (v := some ip) h2 hc).bind
          intro t3 h3
          exact h3.1.finish 0

theorem readAll (h : Balance s mine locked n) (ip : ℕ) (reads : List (ℕ × ℕ)) :
    Returns (readAll s ip reads) fun t => Balance t mine locked n := by
  induction reads generalizing s with
  | nil => exact h
  | cons r reads ih =>
    apply (readi_ref ip r.1 r.2).bind
    rintro ⟨bs, fs⟩ hr
    exact ih (h.fs_eq hr)

theorem exec (h : Balance s mine locked n) (p : Slot) (path : Path) (reads : List (ℕ × ℕ)) (loaded built : Bool) :
    Returns (exec s p path reads loaded built) fun r => Balance r.2 mine locked n := by
  apply (h.beginOp.namei p path).bind
  rintro ⟨_ | ip, t⟩ ht
  · exact Balance.finish ht (-1)
  · apply (Balance.ilock ht ip).bind
    intro t1 h1
    apply (h1.readAll ip reads).bind
    intro t2 h2
    apply sat_ite
    · intro _
      exact h2.putFinish (-1)
    · intro _
      apply h2.iunlockput.bind
      intro t3 h3
      exact sat_ite (fun _ => h3.endOp) (fun _ => h3.endOp)

theorem sysClose (h : Balance s mine locked n) (p : Slot) (fd : ℤ) :
    Returns (sysClose s p fd) fun r => Balance r.2 mine locked n := by
  simp only [SysFile.sysClose]
  cases argfd s.kernel p fd with
  | none => exact h
  | some r =>
    apply ((h.kernel (k := setSlot s.kernel (p, r.1) none) rfl h.idle).fileclose r.2).bind
    intro t ht
    exact ht

theorem exitFd (h : Balance s mine locked n) (p : Slot) (fd : Fin NOFILE) :
    Returns (exitFd p s fd) fun t => Balance t mine locked n := by
  simp only [SysFile.exitFd]
  cases s.kernel.ofile (p, fd) with
  | none => exact h
  | some f =>
    apply (h.fileclose f).bind
    intro t ht
    exact ht.kernel rfl ht.idle

theorem exit (h : Balance s mine locked n) (p : Slot) : Returns (exit s p) fun t => Balance t mine locked n := by
  apply returns_unless
  intro _
  apply Sat.bind (sat_foldlM (I := fun _ t => Balance t mine locked n) (fun fd _ t ht => ht.exitFd p fd) h)
  intro t ht
  cases hc : t.cwd p with
  | none => trivial
  | some cwd =>
    apply (Balance.putCwd (v := none) ht.beginOp hc).bind
    rintro t' ⟨ht', _⟩
    apply ht'.endOp.kernel (k := setState t'.kernel p .zombie) rfl
    intro q hq
    by_cases hp : q = p
    · subst hp
      simp [SysFile.endOp]
    · have hq' : t'.kernel.state q ≠ .runnable := by
        simpa only [setState, update_of_ne hp] using hq
      exact ht'.idle q hq'

end Balance

theorem forkFile_table (p np : Slot) (fd : Fin NOFILE) {st : Slot → ProcState} {g : Fin NFILE → Option ℕ}
    (h : Closed k.ft ∧ fileIp k.ft = g ∧ k.state = st) :
    Returns (forkFile p np k fd) fun k' => Closed k'.ft ∧ fileIp k'.ft = g ∧ k'.state = st := by
  obtain ⟨hc, rfl, rfl⟩ := h
  simp only [forkFile]
  cases k.ofile (p, fd) with
  | none => exact ⟨hc, rfl, rfl⟩
  | some f =>
    simp only [filedup]
    split_ifs with hr
    · trivial
    · refine ⟨hc.setFile fun h0 => absurd h0 (by simp), ?_, rfl⟩
      simp only [setSlot, setTable, fileIp_setFile]
      exact update_eq_self f (fileIp k.ft)

theorem fork_table (h : Closed k.ft) (p : Slot) (kstack copied : Bool) :
    Returns (OpenFiles.fork k p kstack copied) fun k' => Closed k'.ft ∧ fileIp k'.ft = fileIp k.ft ∧
      match (List.finRange NPROC).find? (fun q => k.state q = .unused) with
      | none => k'.state = k.state
      | some np =>
        k'.state = if kstack = false ∨ copied = false then k.state else update k.state np .runnable := by
  simp only [OpenFiles.fork]
  cases hf : (List.finRange NPROC).find? (fun q => decide (k.state q = .unused)) with
  | none => exact ⟨h, rfl, rfl⟩
  | some np =>
    have hu : k.state np = .unused := by simpa using List.find?_some hf
    have hback : update (update k.state np .embryo) np .unused = k.state := by
      rw [update_idem, ← hu, update_eq_self]
    by_cases hk : kstack = false
    · simp only [hk, if_true, true_or]
      exact ⟨h, rfl, hback⟩
    by_cases hc : copied = false
    · simp only [hk, hc, if_true, or_true]
      exact ⟨h, rfl, hback⟩
    simp only [if_neg hk, if_neg hc, if_neg (not_or.mpr ⟨hk, hc⟩)]
    have hembryo : Closed (setState k np .embryo).ft ∧ fileIp (setState k np .embryo).ft = fileIp k.ft ∧
        (setState k np .embryo).state = update k.state np .embryo := ⟨h, rfl, rfl⟩
    apply Sat.bind (sat_foldlM (I := fun _ (k' : Kernel) => Closed k'.ft ∧ fileIp k'.ft = fileIp k.ft ∧
      k'.state = update k.state np .embryo) (fun fd _ _ hk' => forkFile_table p np fd hk') hembryo)
    rintro k' ⟨hclosed, hip, hst⟩
    refine ⟨hclosed, hip, ?_⟩
    simp only [setState, hst, update_idem]

theorem Balance.fork (h : Balance s mine locked n) (p : Slot) (kstack copied : Bool) :
    Returns (fork s p kstack copied) fun t => Balance t mine locked n := by
  apply (fork_table h.closed p kstack copied).bind
  rintro k ⟨hclosed, hip, hst⟩
  -- the table and the descriptors of the child, before it gets a current directory
  have hk (hidle : ∀ q, k.state q ≠ .runnable → s.cwd q = none) : Balance (setKernel s k) mine locked n :=
    ⟨fun i => by simpa only [setKernel, hip] using h.refs i, h.locks, h.ops, hclosed, hidle⟩
  cases hf : (List.finRange NPROC).find? (fun q => decide (s.kernel.state q = .unused)) with
  | none =>
    rw [hf] at hst
    apply hk
    intro q hq
    exact h.idle q (by rwa [← hst])
  | some np =>
    simp only [hf] at hst
    apply sat_ite
    · intro hfail
      rw [if_pos hfail] at hst
      apply hk
      intro q hq
      exact h.idle q (by rwa [← hst])
    · intro hok
      rw [if_neg hok] at hst
      have hu : s.kernel.state np = .unused := by simpa using List.find?_some hf
      have hnp : s.cwd np = none := h.idle np (by simp [hu])
      cases hc : s.cwd p with
      | none => trivial
      | some cwd =>
        have h1 := hk fun q hq => by
          by_cases hq' : q = np
          · rw [hq', hnp]
          · exact h.idle q (by rwa [hst, update_of_ne hq'] at hq)
        apply (h1.idup cwd).setCwd np (some cwd)
        · intro i
          simp only [setKernel, setFs, hnp, hit_none, hit_some, Multiset.count_cons]
          omega
        · intro hr
          simp [setKernel, setFs, hst] at hr

structure Settled (s : Sys) : Prop where
  refs : ∀ i, s.fs.ref i = count (fileIp s.kernel.ft) i + count s.cwd i
  unlocked : ∀ i, s.held i = false
  closed : Closed s.kernel.ft
  idle : ∀ p, s.kernel.state p ≠ .runnable → s.cwd p = none

theorem Settled.balance (h : Settled s) : Balance s 0 0 (s.begun - s.ended) :=
  ⟨fun i => by simpa using h.refs i, fun i => by simp [h.unlocked i], rfl, h.closed, h.idle⟩

theorem Balance.settled (h : Balance s 0 0 n) : Settled s := by
  refine ⟨fun i => by simpa using h.refs i, fun i => ?_, h.closed, h.idle⟩
  have hi := h.locks i
  simpa using hi

theorem Balance.step (h : Balance s mine locked n) {e : Event} {t : Sys} (he : sysStep s e = some (.ok t)) :
    Balance t mine locked n := by
  have hcall {x : Outcome Sys} (hx : Returns x fun t => Balance t mine locked n) (hxt : some x = some (.ok t)) :
      Balance t mine locked n := hx.of_ok (Option.some.inj hxt)
  simp only [sysStep] at he
  split at he
  case h_1 p path omode _ => exact hcall (sat_map.mpr (h.sysOpen p path omode)) he
  case h_2 p path _ => exact hcall (sat_map.mpr (h.sysCreate p path .dir 0 0)) he
  case h_3 p path major minor _ => exact hcall (sat_map.mpr (h.sysCreate p path .dev major minor)) he
  case h_4 p old new _ => exact hcall (sat_map.mpr (h.sysLink p old new)) he
  case h_5 p path _ => exact hcall (sat_map.mpr (h.sysUnlink p path)) he
  case h_6 p path _ => exact hcall (sat_map.mpr (h.sysChdir p path)) he
  case h_7 p path reads loaded built _ => exact hcall (sat_map.mpr (h.exec p path reads loaded built)) he
  case h_8 p fd _ => exact hcall (sat_map.mpr (h.sysClose p fd)) he
  case h_9 p kstack copied _ => exact hcall (h.fork p kstack copied) he
  case h_10 p _ => exact hcall (h.exit p) he
  case h_11 p hz =>
    cases he
    apply h.kernel (k := setState s.kernel p .unused) rfl
    intro q hq
    by_cases hp : q = p
    · subst hp
      exact h.idle q (by rw [show s.kernel.state q = .zombie from hz]; rintro ⟨⟩)
    · exact h.idle q (by simpa only [setState, update_of_ne hp] using hq)
  case h_12 => cases he

/-- Whatever a call does, up to its return, it releases every lock it takes, leaves as many references as there are
pointers, and ends as many transactions as it begins. -/
theorem calls_balanced {s t : Sys} {e : Event} (h : Settled s) (he : sysStep s e = some (.ok t)) :
    Settled t ∧ t.begun + s.ended = s.begun + t.ended := by
  have ht := h.balance.step he
  refine ⟨ht.settled, ?_⟩
  have hops := ht.ops
  omega

theorem boot_settled (init : Slot) (fs : State) : Settled (boot init fs) := by
  refine ⟨fun i => ?_, fun _ => rfl, fun _ _ => rfl, fun p hp => ?_⟩
  · have hc := count_update (fun _ : Slot => none) init (some ROOTINO) i
    have hf : count (fileIp (OpenFiles.boot init).ft) i = 0 := count_const_none i
    simp only [count_const_none, hit_none, hit_some] at hc
    simp only [boot, hf, update_apply]
    omega
  · by_cases hi : p = init
    · subst hi
      exact absurd (by simp [boot, OpenFiles.boot]) hp
    · simp [boot, update_of_ne hi]

/-- The first process creates a file "/x". -/
theorem calls_balanced_create : ∃ t, Settled (boot ⟨0, NPROC_pos⟩ rootImage) ∧
    sysStep (boot ⟨0, NPROC_pos⟩ rootImage) (.open ⟨0, NPROC_pos⟩ (some [slash, 120]) 0x202) = some (.ok t) ∧
    t.fs.ref 2 = 1 ∧ t.ended = 1 ∧ Settled t ∧ t.begun + 0 = 0 + t.ended := by
  have h : (Transition.exec sysStep (boot ⟨0, NPROC_pos⟩ rootImage)
      [.open ⟨0, NPROC_pos⟩ (some [slash, 120]) 0x202]).map (fun t => (t.fs.ref 2, t.ended)) = some (1, 1) := by
    decide +kernel
  obtain ⟨t, ht, hv⟩ := Option.map_eq_some_iff.mp h
  simp only [Prod.mk.injEq] at hv
  cases run_of_exec ht with
  | cons hstep hnil =>
    cases hnil
    have hs := boot_settled ⟨0, NPROC_pos⟩ rootImage
    obtain ⟨h₁, h₂⟩ := calls_balanced hs hstep
    exact ⟨t, hs, hstep, hv.1, hv.2, h₁, h₂⟩

end Xv6.SysFile
