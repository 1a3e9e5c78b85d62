import Xv6.CallBalance
import Xv6.DirTree

namespace Xv6.SysFile

open Contract Fs FileTable OpenFiles PointerCount ProcTable
open Function (update update_self update_of_ne)

def noType : String := "ilock: no type"

def pointers (s : Sys) (i : ℕ) : ℕ := count (fileIp s.kernel.ft) i + count s.cwd i

structure Work (s : Sys) (F : Files) (N : ℕ) (P : ℕ → ℕ) (mine locked : Multiset ℕ) : Prop where
  balance : ∃ n, Balance s mine locked n
  inv : Inv s.fs
  files : file s.fs = F
  ninodes : s.fs.sb.ninodes = N
  ptrs : pointers s = P
  valid : ∀ i ∈ locked, s.fs.valid i = true
  locks : ∀ i ∈ locked, i ∈ mine

variable {s t : Sys} {F : Files} {N : ℕ} {P : ℕ → ℕ} {mine locked : Multiset ℕ} {i dp ip : ℕ} {f : Fs.File}

def Plain (e : String) : Prop := e ≠ noType ∧ e ≠ ownLock

instance (e : String) : Decidable (Plain e) := inferInstanceAs (Decidable (_ ∧ _))

theorem plain_of_mem {es : List String} (h1 : noType ∉ es) (h2 : ownLock ∉ es) {e : String} (he : e ∈ es) : Plain e :=
  ⟨fun h => h1 (h ▸ he), fun h => h2 (h ▸ he)⟩

theorem sat_unless {α : Type} {Q : α → Prop} {c : Prop} [Decidable c] {e : String} {y : Outcome α} (he : Plain e)
    (hy : ¬ c → Sat y Plain Q) : Sat (if c then .error e else y) Plain Q :=
  sat_ite (fun _ => he) hy

theorem Balance.mem_locked {n : ℤ} (h : Balance s mine locked n) : i ∈ locked ↔ s.held i = true := by
  have hl := h.locks i
  rw [← Multiset.count_pos]
  cases hh : s.held i with
  | false | true =>
    rw [hh] at hl
    simp [← hl]

namespace Work

theorem pos (h : Work s F N P mine locked) (hi : i ∈ mine) : 0 < s.fs.ref i := by
  obtain ⟨n, hb⟩ := h.balance
  have hr := hb.refs i
  have hc := Multiset.count_pos.mpr hi
  omega

theorem next (h : Work s F N P mine locked) {fs : State} {F' : Files} {mine' locked' : Multiset ℕ} {n : ℤ}
    (hb : Balance (setFs s fs) mine' locked' n) (hinv : Inv fs) (hF : ∀ i, file fs i = F' i) (hsb : fs.sb = s.fs.sb)
    (hv : ∀ i ∈ locked', fs.valid i = true) (hl : ∀ i ∈ locked', i ∈ mine') : Work (setFs s fs) F' N P mine' locked' :=
  ⟨⟨n, hb⟩, hinv, funext hF, by rw [← h.ninodes, ← hsb]; rfl, h.ptrs, hv, hl⟩

theorem file_eq (h : Work s F N P mine locked) (i : ℕ) : file s.fs i = F i := congrFun h.files i

theorem bytes (h : Work s F N P mine locked) (hf : F i = some f) : contents s.fs i = f.bytes :=
  (file_bytes (by rw [h.file_eq, hf])).symm

theorem locked_file (h : Work s F N P mine locked) (hi : i ∈ locked) : ∃ f, F i = some f ∧
    f.type = (s.fs.inode i).type ∧ f.major = (s.fs.inode i).major ∧ f.minor = (s.fs.inode i).minor ∧
    f.nlink = (s.fs.inode i).nlink := by
  have hv := h.valid i hi
  have hf := file_of_valid hv (h.inv.typed_inode hv)
  rw [h.file_eq] at hf
  exact ⟨_, hf, rfl, rfl, rfl, rfl⟩

theorem got (h : Work s F N P mine locked) {fs : State} {n : ℤ} (hg : Got s.fs i fs)
    (hb : Balance (setFs s fs) (i ::ₘ mine) locked n) : Work (setFs s fs) F N P (i ::ₘ mine) locked := by
  apply h.next hb hg.cached.inv _ hg.cached.sb
  · intro j hj
    by_cases he : j = i
    · subst he
      rw [hg.keep (h.pos (h.locks j hj))]
      exact h.valid j hj
    · rw [hg.others j he]
      exact h.valid j hj
  · intro j hj
    exact Multiset.mem_cons_of_mem (h.locks j hj)
  · intro j
    rw [hg.cached.files, h.file_eq]

theorem iget (h : Work s F N P mine locked) (i : ℕ) :
    Sat (Fs.iget s.fs i) Plain fun fs => Work (setFs s fs) F N P (i ::ₘ mine) locked := by
  obtain ⟨n, hb⟩ := h.balance
  apply ((iget_got h.inv i).and (hb.iget i)).mono
  · rintro e rfl
    decide
  · rintro fs ⟨hg, hb'⟩
    exact h.got hg hb'

theorem idup (h : Work s F N P mine locked) (i : ℕ) : Work (setFs s (Fs.idup s.fs i)) F N P (i ::ₘ mine) locked := by
  obtain ⟨n, hb⟩ := h.balance
  obtain ⟨h1, h2⟩ := h.inv.setRef (update s.fs.ref i (s.fs.ref i + 1))
  apply h.next (hb.idup i) h1 _ rfl h.valid
  · intro j hj
    exact Multiset.mem_cons_of_mem (h.locks j hj)
  · intro j
    exact (h2 j).trans (h.file_eq j)

theorem ilock (h : Work s F N P mine locked) (hi : i ∈ mine) :
    Sat (ilock s i) (fun e => (e = noType → F i = none) ∧ (e = ownLock → i ∈ locked)) fun t =>
      Work t F N P mine (i ::ₘ locked) := by
  obtain ⟨n, hb⟩ := h.balance
  apply Sat.post (Q := fun t => Balance t mine (i ::ₘ locked) n ∧ Cached s.fs t.fs ∧
    t.fs.valid = update s.fs.valid i true ∧ pointers t = pointers s)
  · have hlock : Sat (SysFile.ilock s i) (fun e => (e = noType → F i = none) ∧ (e = ownLock → i ∈ locked)) fun t =>
        Cached s.fs t.fs ∧ t.fs.valid = update s.fs.valid i true ∧ pointers t = pointers s := by
      apply sat_ite
      · intro hh
        exact ⟨fun he => absurd he (by decide), fun _ => hb.mem_locked.mpr hh⟩
      · intro _
        apply Sat.bind ((ilock_spec h.inv i).mono _ fun _ hq => hq)
        · rintro fs ⟨hc, -, hv⟩
          exact ⟨hc, hv, rfl⟩
        · rintro e (⟨rfl, -⟩ | ⟨rfl, hn⟩)
          · exact ⟨fun he => absurd he (by decide), fun he => absurd he (by decide)⟩
          · exact ⟨fun _ => by rwa [← h.file_eq], fun he => absurd he (by decide)⟩
    apply (hlock.and (hb.ilock i)).post
    rintro t ⟨ht, hbt⟩
    exact ⟨hbt, ht⟩
  · rintro t ⟨hbt, hc, hv, hp⟩
    refine ⟨⟨n, hbt⟩, hc.inv, ?_, by rw [hc.sb, h.ninodes], hp.trans h.ptrs, fun j hj => ?_, fun j hj => ?_⟩
    · rw [← h.files]
      exact funext hc.files
    · rw [hv]
      by_cases he : j = i
      · rw [he, update_self]
      · rw [update_of_ne he]
        exact h.valid j ((Multiset.mem_cons.mp hj).resolve_left he)
    · rcases Multiset.mem_cons.mp hj with rfl | hj
      · exact hi
      · exact h.locks j hj

theorem iunlock (h : Work s F N P mine (i ::ₘ locked)) :
    Sat (iunlock s i) Plain fun t => Work t F N P mine locked := by
  obtain ⟨n, hb⟩ := h.balance
  have heq : Sat (SysFile.iunlock s i) Plain fun t => t = { s with held := update s.held i false } :=
    sat_unless (by decide) (fun _ => rfl)
  apply (heq.and hb.iunlock).post
  rintro t ⟨rfl, ht⟩
  exact ⟨⟨n, ht⟩, h.inv, h.files, h.ninodes, h.ptrs, fun j hj => h.valid j (Multiset.mem_cons_of_mem hj),
    fun j hj => h.locks j (Multiset.mem_cons_of_mem hj)⟩

theorem iput (h : Work s F N P (i ::ₘ mine) locked) : Sat (iput s i) (fun e => e = ownLock ∧ i ∈ locked) fun t =>
    Work t F N P mine locked ∨ (P i = 0 ∧ i ∉ mine ∧ ∃ f, F i = some f ∧ f.nlink = 0 ∧
      Work t (update F i none) N P mine locked) := by
  obtain ⟨n, hb⟩ := h.balance
  by_cases hh : s.held i
  · rw [SysFile.iput, if_pos hh]
    exact ⟨rfl, hb.mem_locked.mpr hh⟩
  have hni : i ∉ locked := fun hi => hh (hb.mem_locked.mp hi)
  have hlocks : ∀ j ∈ locked, j ∈ mine := fun j hj =>
    (Multiset.mem_cons.mp (h.locks j hj)).resolve_left (by rintro rfl; exact hni hj)
  obtain ⟨fs, he, hinv, href, hsb, hval, hcase⟩ := iput_spec h.inv i
  have hput : SysFile.iput s i = .ok (setFs s fs) := by
    rw [SysFile.iput, if_neg hh, he]
    rfl
  have hbt : Balance (setFs s fs) mine locked n := hb.iput.of_ok hput
  have hvalid : ∀ j ∈ locked, fs.valid j = true := fun j hj => by
    rw [hval j (by rintro rfl; exact hni hj)]
    exact h.valid j hj
  rw [hput]
  rcases hcase with ⟨hfiles, -, -⟩ | ⟨hfiles, hgone, -, hlast⟩
  · exact Or.inl (h.next hbt hinv (fun j => (hfiles j).trans (h.file_eq j)) hsb hvalid hlocks)
  · have hr := hb.refs i
    have hP : pointers s i = P i := congrFun h.ptrs i
    rw [hlast.2.2, Multiset.count_cons_self] at hr
    rw [pointers] at hP
    refine Or.inr ⟨by omega, Multiset.count_eq_zero.mp (by omega), ?_⟩
    have hf := file_of_valid hlast.1 (h.inv.typed_inode hlast.1)
    rw [h.file_eq] at hf
    refine ⟨_, hf, hlast.2.1, h.next hbt hinv (fun j => ?_) hsb hvalid hlocks⟩
    by_cases hj : j = i
    · rw [hj, update_self, hgone]
    · rw [update_of_ne hj, hfiles j hj, h.file_eq]

theorem ialloc (h : Work s F N P mine locked) {type : FType} (ht : type ≠ .free) :
    Sat (Fs.ialloc s.fs type) Plain fun r => F r.1 = none ∧ r.1 ≠ 0 ∧ r.1 < N ∧
      Work (setFs s r.2) (update F r.1 (some ⟨type, 0, 0, 0, []⟩)) N P (r.1 ::ₘ mine) locked := by
  obtain ⟨n, hb⟩ := h.balance
  apply ((ialloc_spec h.inv ht).and (hb.ialloc type)).mono
  · rintro e (rfl | rfl)
    · decide
    · decide
  · rintro ⟨j, fs⟩ ⟨⟨hnone, hpos, hlt, hinv, hsb, hothers, hself, -, hval, -⟩, hbt⟩
    simp only at *
    have hne : ∀ l ∈ locked, l ≠ j := by
      rintro l hl rfl
      obtain ⟨f, hf, -⟩ := h.locked_file hl
      rw [h.file_eq, hf] at hnone
      cases hnone
    refine ⟨by rw [← h.file_eq, hnone], by omega, by rwa [← h.ninodes],
      h.next hbt hinv (fun l => ?_) hsb (fun l hl => ?_)
      fun l hl => Multiset.mem_cons_of_mem (h.locks l hl)⟩
    · by_cases hl : l = j
      · rw [hl, update_self, hself]
      · rw [update_of_ne hl, hothers l hl, h.file_eq]
    · rw [hval l (hne l hl)]
      exact h.valid l hl

theorem setAttr (h : Work s F N P mine locked) (hi : i ∈ locked) (hf : F i = some f) (major minor nlink : Int16) :
    Work (setFs s (commit s.fs i { s.fs.inode i with major := major, minor := minor, nlink := nlink }))
      (update F i (some { f with major := major, minor := minor, nlink := nlink })) N P mine locked := by
  obtain ⟨n, hb⟩ := h.balance
  obtain ⟨hinv, hframe, hothers, hself⟩ := setAttr_spec h.inv (h.valid i hi) major minor nlink
  apply h.next (hb.fs_eq hframe.ref) hinv _ hframe.sb _ h.locks
  · intro j
    by_cases hj : j = i
    · rw [hj, update_self]
      exact hself f (by rw [h.file_eq, hf])
    · rw [update_of_ne hj, hothers j hj, h.file_eq]
  · intro j hj
    rw [hframe.valid]
    exact h.valid j hj

theorem addNlink (h : Work s F N P mine locked) (hi : i ∈ locked) (hf : F i = some f) (k : Int16) :
    Work (addNlink s i k) (update F i (some { f with nlink := f.nlink + k })) N P mine locked := by
  obtain ⟨g, hg, -, hmaj, hmin, hnl⟩ := h.locked_file hi
  rw [hf] at hg
  cases hg
  rw [show ({ f with nlink := f.nlink + k } : Fs.File) =
    { f with major := f.major, minor := f.minor, nlink := f.nlink + k } from rfl, hmaj, hmin, hnl]
  exact h.setAttr hi hf _ _ _

theorem dirlookup (h : Work s F N P mine locked) (hdp : dp ∈ locked) (name : List UInt8) :
    Sat (dirlookup s dp name) Plain fun r => ∃ f, F dp = some f ∧ f.type = .dir ∧
      match r.1 with
      | none => Work r.2 F N P mine locked ∧ f.bytes.length % sizeofDirent = 0 ∧
          ∀ de ∈ entriesOf f.bytes, hit name de = false
      | some (off, i) => Work r.2 F N P (i ::ₘ mine) locked ∧ ∃ q de, off = q * sizeofDirent ∧ de.inum = i ∧
          FirstAt (hit name) (entriesOf f.bytes) 0 q de := by
  obtain ⟨n, hb⟩ := h.balance
  obtain ⟨f, hf, htype, -⟩ := h.locked_file hdp
  have hbytes := h.bytes hf
  by_cases hd : (s.fs.inode dp).type = .dir
  · have hlook := dirlookup_spec h.inv (h.valid dp hdp) hd name
    have hbal : Returns (Fs.dirlookup s.fs dp name) fun r =>
        Balance (setFs s r.2) (holding (r.1.map Prod.snd) mine) locked n := by
      have hbr := hb.dirlookup dp name
      unfold SysFile.dirlookup at hbr
      cases hx : Fs.dirlookup s.fs dp name with
      | error e => trivial
      | ok r =>
        rw [hx] at hbr
        exact hbr
    apply Sat.bind ((hlook.mono _ fun _ hq => hq).and hbal)
    · rintro ⟨_ | ⟨off, j⟩, fs⟩ ⟨hl, hbt⟩
      · obtain ⟨rfl, hmod, hno⟩ := hl
        rw [hbytes] at hmod hno
        exact ⟨f, hf, htype.trans hd, h, hmod, hno⟩
      · obtain ⟨⟨q, de, rfl, rfl, hfirst⟩, hgot⟩ := hl
        rw [hbytes] at hfirst
        exact ⟨f, hf, htype.trans hd, h.got hgot hbt, q, de, rfl, rfl, hfirst⟩
    · intro e he
      exact plain_of_mem (by decide) (by decide) he
  · unfold SysFile.dirlookup Fs.dirlookup
    rw [if_pos hd]
    exact (by decide : Plain "dirlookup not DIR")

theorem wrote (h : Work s F N P mine locked) {fs : State} {off : ℕ} {src : List UInt8} (hw : Wrote s.fs dp off src fs)
    (hf : F dp = some f) :
    Work (setFs s fs) (update F dp (some { f with bytes := splice f.bytes off src })) N P mine locked := by
  obtain ⟨n, hb⟩ := h.balance
  apply h.next (hb.fs_eq hw.frame.ref) hw.inv _ hw.frame.sb _ h.locks
  · intro j
    by_cases hj : j = dp
    · rw [hj, update_self]
      exact hw.bytes f (by rw [h.file_eq, hf])
    · rw [update_of_ne hj, hw.others j hj, h.file_eq]
  · intro j hj
    rw [hw.frame.valid]
    exact h.valid j hj

theorem writeEntry (h : Work s F N P mine locked) (hdp : dp ∈ locked) (hf : F dp = some f) (hd : f.type = .dir)
    (hmod : f.bytes.length % sizeofDirent = 0) {k : ℕ} (hk : k ≤ f.bytes.length / sizeofDirent) (de : Dirent)
    (hn : de.name.length = DIRSIZ) (hi : de.inum < 65536) :
    Sat (writei s.fs dp de.bytes (k * sizeofDirent)) Plain fun r => r.1 = some sizeofDirent →
      ∃ bs, Work (setFs s r.2) (update F dp (some { f with bytes := bs })) N P mine locked ∧
        bs.length % sizeofDirent = 0 ∧ entriesOf bs = if k < f.bytes.length / sizeofDirent
          then (entriesOf f.bytes).set k de else entriesOf f.bytes ++ [de] := by
  obtain ⟨g, hg, htype, -⟩ := h.locked_file hdp
  rw [hf] at hg
  cases hg
  apply (writei_spec h.inv (h.valid dp hdp) (by rw [← htype, hd]; rintro ⟨⟩) de.bytes (k * sizeofDirent)).mono
  · rintro e rfl
    decide
  · rintro ⟨r, fs⟩ (⟨rfl, -, -⟩ | ⟨-, -, hw⟩)
    · rintro ⟨⟩
    · intro _
      have hbytes := h.wrote hw hf
      obtain ⟨bs, h1, h2, h3⟩ := hw.entries (by rw [h.file_eq, hf]) hmod hk hn hi
      have hbs : splice f.bytes (k * sizeofDirent) de.bytes = bs := by
        have he := hw.bytes f (by rw [h.file_eq, hf])
        rw [h1] at he
        cases he
        rfl
      exact ⟨bs, hbs ▸ hbytes, h2, h3⟩

theorem dirwrite (h : Work s F N P mine locked) (hdp : dp ∈ locked) (hf : F dp = some f) (hd : f.type = .dir)
    (hmod : f.bytes.length % sizeofDirent = 0) (name : List UInt8) (inum : ℕ) :
    Sat (dirwrite s dp name inum) Plain fun t => ∃ bs,
      Work t (update F dp (some { f with bytes := bs })) N P mine locked ∧ bs.length % sizeofDirent = 0 ∧
        entriesOf bs = addEntry (entriesOf f.bytes) ⟨inum % 65536, strncpy name DIRSIZ⟩ := by
  obtain ⟨g, hg, htype, -⟩ := h.locked_file hdp
  rw [hf] at hg
  cases hg
  have hbytes := h.bytes hf
  apply Sat.bind ((emptySlot_spec h.inv (h.valid dp hdp) (by rw [← htype, hd]) (by rw [hbytes]; exact hmod)).mono
    _ fun _ hq => hq)
  · rintro ⟨off, fs⟩ ⟨rfl, k, rfl, hk, hadd⟩
    rw [hbytes] at hk hadd
    apply (h.writeEntry hdp hf hd hmod hk _ (length_strncpy name DIRSIZ) (Nat.mod_lt _ (by norm_num))).bind
    rintro ⟨r, fs'⟩ hr
    apply sat_ite
    · intro hok
      obtain ⟨bs, hw, hm, he⟩ := hr hok
      exact ⟨bs, hw, hm, he.trans (hadd _)⟩
    · intro _
      exact (by decide : Plain "dirlink")
  · intro e he
    exact plain_of_mem (by decide) (by decide) he

theorem removable (h : Work s F N P mine locked) (hi : ip ∈ locked) (hf : F ip = some f) :
    Sat (removable s ip) Plain fun r => Work r.2 F N P mine locked ∧ r.2.fs = s.fs ∧
      (r.1 = true → f.type = .dir → kidsOf (entriesOf f.bytes) = 0) := by
  obtain ⟨g, hg, htype, -⟩ := h.locked_file hi
  rw [hf] at hg
  cases hg
  have hbytes := h.bytes hf
  apply sat_ite
  · intro hd
    apply Sat.bind ((scan_spec h.inv (h.valid ip hi) hd "isdirempty: readi" (fun de => decide (de.inum ≠ 0)) 2).mono
      _ fun _ hq => hq)
    · rintro ⟨r, fs⟩ ⟨rfl, -, hnone⟩
      refine ⟨h, rfl, fun hr _ => ?_⟩
      have hr' : r = none := by simpa using hr
      obtain ⟨-, hz⟩ := hnone hr'
      rw [hbytes] at hz
      apply Multiset.eq_zero_of_forall_notMem
      intro j hj
      obtain ⟨de, hde, h0, -⟩ := mem_liveInums.mp hj
      obtain ⟨q, hq⟩ := List.mem_iff_getElem?.mp hde
      rw [List.getElem?_drop] at hq
      have := hz (2 + q) (by omega) de hq
      simp [h0] at this
    · rintro e ⟨rfl, -⟩
      decide
  · intro hd
    exact ⟨h, rfl, fun _ hdir => absurd (htype.symm.trans hdir) hd⟩

end Work
end Xv6.SysFile
