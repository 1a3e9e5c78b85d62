import Xv6.CallFiles

namespace Xv6.SysFile

open Contract FileTable OpenFiles ProcTable LinkGraph
open Fs hiding Slot
open PointerCount hiding hit
open Function (update update_self update_of_ne update_idem update_comm)

structure Sound (σ : Prop) (x : Option ℕ) (s : Sys) (mine locked : Multiset ℕ) : Prop where
  work : Work s (file s.fs) s.fs.sb.ninodes (pointers s) mine locked
  tidy : Tidy σ s.fs.sb.ninodes x (file s.fs)
  used : ∀ i, 0 < pointers s i → file s.fs i ≠ none
  alive : σ → ∀ i ∈ mine, file s.fs i ≠ none

def Typed (σ : Prop) (e : String) : Prop := σ → e ≠ noType

variable {σ : Prop} {x : Option ℕ} {s t : Sys} {F : Files} {N : ℕ} {P : ℕ → ℕ} {mine locked : Multiset ℕ}
  {i dp ip : ℕ} {f g : Fs.File}

theorem Work.sound (h : Work t F N P mine locked) (ht : Tidy σ N x F) (hu : ∀ i, 0 < P i → F i ≠ none)
    (ha : σ → ∀ i ∈ mine, F i ≠ none) : Sound σ x t mine locked := by
  obtain rfl := h.files
  obtain rfl := h.ninodes
  obtain rfl := h.ptrs
  exact ⟨h, ht, hu, ha⟩

variable {α : Type} {j : ℕ} {p : Slot} {name : List UInt8} {type : FType}

theorem update_ne_none (i : ℕ) (f : Fs.File) (h : F j ≠ none) : update F i (some f) j ≠ none := by
  by_cases hj : j = i
  · subst hj
    simp
  · rwa [update_of_ne hj]

theorem typed_of_plain {y : Outcome α} {Q : α → Prop} (h : Sat y Plain Q) : Sat y (Typed σ) Q :=
  h.mono (fun _ he _ => he.1) fun _ hq => hq

theorem typed_unless {Q : α → Prop} {c : Prop} [Decidable c] {e : String} {y : Outcome α} (he : e ≠ noType)
    (hy : ¬ c → Sat y (Typed σ) Q) : Sat (if c then .error e else y) (Typed σ) Q :=
  sat_ite (fun _ _ => he) hy

namespace Sound

theorem swap (h : Sound σ x s (i ::ₘ j ::ₘ mine) locked) : Sound σ x s (j ::ₘ i ::ₘ mine) locked :=
  Multiset.cons_swap i j mine ▸ h

theorem swapLocks (h : Sound σ x s mine (i ::ₘ j ::ₘ locked)) : Sound σ x s mine (j ::ₘ i ::ₘ locked) :=
  Multiset.cons_swap i j locked ▸ h

theorem same (h : Sound σ x s mine locked) {mine' locked' : Multiset ℕ}
    (ht : Work t (file s.fs) s.fs.sb.ninodes (pointers s) mine' locked')
    (ha : σ → ∀ i ∈ mine', file s.fs i ≠ none) : Sound σ x t mine' locked' :=
  ht.sound h.tidy h.used ha

theorem alive_cons (h : Sound σ x s mine locked) (hi : σ → file s.fs i ≠ none) :
    σ → ∀ j ∈ i ::ₘ mine, file s.fs j ≠ none := by
  intro hσ j hj
  rcases Multiset.mem_cons.mp hj with rfl | hj
  · exact hi hσ
  · exact h.alive hσ j hj

theorem iget (h : Sound σ x s mine locked) (hi : σ → file s.fs i ≠ none) :
    Sat (Fs.iget s.fs i) (Typed σ) fun fs => Sound σ x (setFs s fs) (i ::ₘ mine) locked ∧ file fs = file s.fs := by
  apply typed_of_plain
  apply (h.work.iget i).post
  intro fs hw
  exact ⟨h.same hw (h.alive_cons hi), hw.files⟩

theorem idup (h : Sound σ x s mine locked) (hi : σ → file s.fs i ≠ none) :
    Sound σ x (setFs s (Fs.idup s.fs i)) (i ::ₘ mine) locked ∧ file (Fs.idup s.fs i) = file s.fs :=
  ⟨h.same (h.work.idup i) (h.alive_cons hi), (h.work.idup i).files⟩

theorem ilock (h : Sound σ x s mine locked) (hi : i ∈ mine) :
    Sat (ilock s i) (Typed σ) fun t => Sound σ x t mine (i ::ₘ locked) ∧ file t.fs = file s.fs := by
  apply (h.work.ilock hi).mono
  · intro e he hσ hn
    exact h.alive hσ i hi (he.1 hn)
  · intro t ht
    exact ⟨h.same ht h.alive, ht.files⟩

theorem iunlock (h : Sound σ x s mine (i ::ₘ locked)) :
    Sat (iunlock s i) (Typed σ) fun t => Sound σ x t mine locked ∧ file t.fs = file s.fs := by
  apply typed_of_plain
  apply h.work.iunlock.post
  intro t ht
  exact ⟨h.same ht h.alive, ht.files⟩

theorem iput (h : Sound σ x s (i ::ₘ mine) locked) :
    Sat (iput s i) (Typed σ) fun t => Sound σ x t mine locked ∧ ∀ j ∈ mine, file t.fs j = file s.fs j := by
  have halive : σ → ∀ j ∈ mine, file s.fs j ≠ none := fun hσ j hj => h.alive hσ j (Multiset.mem_cons_of_mem hj)
  apply h.work.iput.mono (by rintro e ⟨rfl, -⟩ _; decide)
  rintro t (ht | ⟨hP, hi, f, hf, h0, ht⟩)
  · exact ⟨h.same ht halive, fun j _ => ht.file_eq j⟩
  · have hne : ∀ j ∈ mine, j ≠ i := by
      rintro j hj rfl
      exact hi hj
    refine ⟨ht.sound (h.tidy.shed hf h0) (fun j hj => ?_) (fun hσ j hj => ?_), fun j hj => ?_⟩
    · have hji : j ≠ i := by
        rintro rfl
        omega
      rw [update_of_ne hji]
      exact h.used j hj
    · rw [update_of_ne (hne j hj)]
      exact halive hσ j hj
    · rw [ht.file_eq, update_of_ne (hne j hj)]

theorem iunlockput (h : Sound σ x s (i ::ₘ mine) (i ::ₘ locked)) :
    Sat (iunlockput s i) (Typed σ) fun t => Sound σ x t mine locked ∧ ∀ j ∈ mine, file t.fs j = file s.fs j := by
  apply h.iunlock.bind
  rintro t ⟨ht, hf⟩
  rw [← hf]
  exact ht.iput

theorem giveUp (h : Sound σ x s (i ::ₘ mine) (i ::ₘ locked)) :
    Sat (giveUp (α := α) s i) (Typed σ) fun r => r.1 = none ∧ Sound σ x r.2 mine locked ∧
      ∀ j ∈ mine, file r.2.fs j = file s.fs j := by
  apply h.iunlockput.bind
  intro t ht
  exact ⟨rfl, ht⟩

theorem finish (h : Sound σ x s mine locked) (r : α) :
    Sat (finish r s) (Typed σ) fun r => Sound σ x r.2 mine locked := by
  obtain ⟨n, hb⟩ := h.work.balance
  have hb' : Balance (endOp s) mine locked (n - 1) := Balance.endOp (by simpa using hb)
  exact ⟨⟨⟨_, hb'⟩, h.work.inv, rfl, rfl, rfl, h.work.valid, h.work.locks⟩, h.tidy, h.used, h.alive⟩

theorem beginOp (h : Sound σ x s mine locked) : Sound σ x (beginOp s) mine locked := by
  obtain ⟨n, hb⟩ := h.work.balance
  exact ⟨⟨⟨_, hb.beginOp⟩, h.work.inv, rfl, rfl, rfl, h.work.valid, h.work.locks⟩, h.tidy, h.used, h.alive⟩

theorem putFinish (h : Sound σ x s (i ::ₘ mine) (i ::ₘ locked)) (r : α) :
    Sat (putFinish r s i) (Typed σ) fun r => Sound σ x r.2 mine locked := by
  apply h.iunlockput.bind
  rintro t ⟨ht, -⟩
  exact ht.finish r

theorem dirlookup (h : Sound σ x s mine locked) (hdp : dp ∈ locked) (name : List UInt8) :
    Sat (dirlookup s dp name) (Typed σ) fun r => Sound σ x r.2 (holding (r.1.map Prod.snd) mine) locked ∧
      file r.2.fs = file s.fs ∧ ∃ f, file s.fs dp = some f ∧ f.type = .dir ∧
        (r.1 = none → ∀ de ∈ entriesOf f.bytes, hit name de = false) ∧
        ∀ off i, r.1 = some (off, i) → i ≠ 0 ∧ ∃ q de, off = q * sizeofDirent ∧ de.inum = i ∧
          (entriesOf f.bytes)[q]? = some de ∧ hit name de = true := by
  apply typed_of_plain
  apply (h.work.dirlookup hdp name).post
  rintro ⟨_ | ⟨off, i⟩, t⟩ ⟨f, hf, hd, hr⟩
  · obtain ⟨ht, -, hno⟩ := hr
    exact ⟨h.same ht h.alive, ht.files, f, hf, hd, fun _ => hno, by rintro _ _ ⟨⟩⟩
  · obtain ⟨ht, q, de, rfl, rfl, hfirst⟩ := hr
    have hget := hfirst.get
    have hhit := hfirst.sat
    have h0 : de.inum ≠ 0 := by
      simp only [hit, decide_eq_true_eq] at hhit
      exact hhit.1
    have halive := h.alive_cons fun hσ => h.tidy.named hσ hf hd (List.mem_of_getElem? hget) h0
    refine ⟨h.same ht halive, ht.files, f, hf, hd, (by rintro ⟨⟩), ?_⟩
    intro off i he
    cases he
    exact ⟨h0, q, de, rfl, rfl, hget, hhit⟩

theorem namexLoop (h : Sound σ x s (ip ::ₘ mine) locked) (parent : Bool) (elems : List (List UInt8)) :
    Sat (namexLoop s ip parent elems) (Typed σ) fun r => Sound σ x r.2 (holding (r.1.map Prod.fst) mine) locked ∧
      ∀ j ∈ mine, file r.2.fs j = file s.fs j := by
  induction elems generalizing s ip with
  | nil =>
    apply sat_ite
    · intro _
      apply h.iput.bind
      intro t ht
      exact ht
    · intro _
      exact ⟨h, fun _ _ => rfl⟩
  | cons name elems ih =>
    apply (h.ilock (Multiset.mem_cons_self ip mine)).bind
    rintro t ⟨ht, hf⟩
    rw [← hf]
    apply sat_ite
    · intro _
      apply ht.giveUp.post
      rintro ⟨r, t'⟩ ⟨rfl, ht'⟩
      exact ht'
    intro _
    apply sat_ite
    · intro _
      apply ht.iunlock.bind
      rintro t' ⟨ht', hf'⟩
      exact ⟨ht', fun j _ => by rw [hf']⟩
    · intro _
      apply (ht.dirlookup (Multiset.mem_cons_self ip locked) name).bind
      rintro ⟨_ | ⟨off, next⟩, t'⟩ ⟨ht', hf', -⟩
      · rw [← hf']
        apply (Sound.giveUp ht').post
        rintro ⟨r, t''⟩ ⟨rfl, ht''⟩
        exact ht''
      · apply (Sound.iunlockput (Sound.swap ht')).bind
        rintro t'' ⟨ht'', hf''⟩
        apply (ih ht'').post
        rintro r ⟨hr, hfr⟩
        refine ⟨hr, fun j hj => ?_⟩
        rw [hfr j hj, hf'' j (Multiset.mem_cons_of_mem hj), hf']

theorem root (h : Sound σ x s mine locked) : file s.fs ROOTINO ≠ none := by
  obtain ⟨n, hn, -⟩ := h.tidy.tree.top
  intro he
  exact hn.ne_none (by rw [graph, he]; rfl)

theorem cwd (h : Sound σ x s mine locked) {c : ℕ} (hc : s.cwd p = some c) : file s.fs c ≠ none := by
  apply h.used
  have := count_pos hc
  unfold pointers
  omega

theorem namex (h : Sound σ x s mine locked) (p : Slot) (path : Path) (parent : Bool) :
    Sat (namex s p path parent) (Typed σ) fun r => Sound σ x r.2 (holding (r.1.map Prod.fst) mine) locked ∧
      ∀ j ∈ mine, file r.2.fs j = file s.fs j := by
  apply sat_ite
  · intro _
    apply (h.iget fun _ => h.root).bind
    rintro fs ⟨hfs, hf⟩
    rw [← hf]
    exact hfs.namexLoop parent _
  · intro _
    cases hc : s.cwd p with
    | none => exact fun _ => (by decide : "no current directory" ≠ noType)
    | some cwd =>
      obtain ⟨hd, hf⟩ := h.idup fun _ => h.cwd hc
      rw [← hf]
      exact hd.namexLoop parent _

theorem namei (h : Sound σ x s mine locked) (p : Slot) (path : Path) :
    Sat (namei s p path) (Typed σ) fun r => Sound σ x r.2 (holding r.1 mine) locked ∧
      ∀ j ∈ mine, file r.2.fs j = file s.fs j := by
  apply (h.namex p path false).bind
  intro r hr
  exact hr

theorem createLookup (h : Sound σ x s mine locked) (p : Slot) (path : Path) :
    Sat (createLookup s p path) (Typed σ) fun r =>
      match r.1 with
      | none => Sound σ x r.2 mine locked
      | some (dp, name, ip) => Sound σ x r.2 (holding ip (dp ::ₘ mine)) (dp ::ₘ locked) ∧
          (ip = none → ∃ f, file r.2.fs dp = some f ∧ f.type = .dir ∧ ∀ de ∈ entriesOf f.bytes, hit name de =
            false) := by
  apply (h.namex p path true).bind
  rintro ⟨_ | ⟨dp, name⟩, t⟩ ⟨ht, -⟩
  · exact ht
  · apply (Sound.ilock ht (Multiset.mem_cons_self dp mine)).bind
    rintro t' ⟨ht', -⟩
    apply (ht'.dirlookup (Multiset.mem_cons_self dp locked) name).bind
    rintro ⟨r, t''⟩ ⟨ht'', hf, f, hdp, hd, hno, -⟩
    refine ⟨ht'', fun hr => ⟨f, by rw [hf, hdp], hd, hno ?_⟩⟩
    simpa using hr

theorem createFound (h : Sound σ x s (ip ::ₘ dp ::ₘ mine) (dp ::ₘ locked)) (type : FType) :
    Sat (createFound s dp ip type) (Typed σ) fun r => Sound σ x r.2 (holding r.1 mine) (holding r.1 locked) := by
  apply h.swap.iunlockput.bind
  rintro t ⟨ht, -⟩
  apply (ht.ilock (Multiset.mem_cons_self ip mine)).bind
  rintro t' ⟨ht', -⟩
  apply sat_ite
  · intro _
    exact ht'
  · intro _
    apply ht'.giveUp.post
    rintro ⟨r, t''⟩ ⟨rfl, ht'', -⟩
    exact ht''

end Sound

theorem hit_strncpy_of_ne {name name' : List UInt8} (h : chars DIRSIZ name ≠ chars DIRSIZ name') (inum : ℕ) :
    hit name ⟨inum, strncpy name' DIRSIZ⟩ = false := by
  rw [hit, namecmp, decide_eq_false_iff_not, strncmp_eq_zero, chars_strncpy]
  exact fun hc => h hc.2

namespace Work

theorem dirlink (h : Work s F N P mine locked) (hdp : dp ∈ locked) (hf : F dp = some f) (hd : f.type = .dir)
    {name : List UInt8} (hno : ∀ de ∈ entriesOf f.bytes, hit name de = false) (inum : ℕ) :
    Sat (dirlink s dp name inum) Plain fun r => ∃ bs,
      Work r.2 (update F dp (some { f with bytes := bs })) N P mine locked ∧ bs.length % sizeofDirent = 0 ∧
        entriesOf bs = addEntry (entriesOf f.bytes) ⟨inum % 65536, strncpy name DIRSIZ⟩ := by
  apply (h.dirlookup hdp name).bind
  rintro ⟨_ | ⟨off, next⟩, t⟩ ⟨g, hg, -, hr⟩
  · rw [hf] at hg
    cases hg
    obtain ⟨ht, hmod, -⟩ := hr
    apply (Work.dirwrite ht hdp hf hd hmod name inum).bind
    intro t' ht'
    exact ht'
  · rw [hf] at hg
    cases hg
    obtain ⟨-, q, de, -, -, hfirst⟩ := hr
    have hhit := hfirst.sat
    rw [hno de (List.mem_of_getElem? hfirst.get)] at hhit
    cases hhit

theorem createDots (h : Work s F N P mine locked) (hip : ip ∈ locked) (hdp : dp ∈ locked) (hne : ip ≠ dp)
    (hg : F ip = some g) (hgb : g.bytes = []) (hf : F dp = some f) (hgt : g.type = type) :
    Sat (createDots s dp ip type) Plain fun t => (type ≠ .dir → Work t F N P mine locked) ∧
      (type = .dir → ∃ bs, Work t (update (update F dp (some { f with nlink := f.nlink + 1 })) ip
        (some { g with bytes := bs })) N P mine locked ∧ bs.length % sizeofDirent = 0 ∧
        entriesOf bs = addEntry [⟨ip % 65536, strncpy dot DIRSIZ⟩] ⟨dp % 65536, strncpy dotdot DIRSIZ⟩) := by
  apply sat_ite
  · intro ht
    have h1 := h.addNlink hdp hf 1
    set F1 := update F dp (some { f with nlink := f.nlink + 1 }) with hF1
    have hg1 : F1 ip = some g := by rw [hF1, update_of_ne hne, hg]
    have hempty : entriesOf g.bytes = [] := by
      rw [hgb]
      rfl
    have hnodot : ∀ de ∈ entriesOf g.bytes, hit dot de = false := by
      rw [hempty]
      simp
    apply (h1.dirlink hip hg1 (hgt.trans ht) hnodot ip).bind
    rintro ⟨ok, t⟩ ⟨bs, hw, hm, he⟩
    rw [hempty] at he
    apply sat_ite
    · intro _
      have hno : ∀ de ∈ entriesOf bs, hit dotdot de = false := by
        rw [he]
        intro de hde
        have hde' : de = ⟨ip % 65536, strncpy dot DIRSIZ⟩ := by simpa [addEntry] using hde
        rw [hde', hit_strncpy_of_ne (by decide)]
      apply (hw.dirlink hip (update_self ..) (hgt.trans ht) hno dp).bind
      rintro ⟨ok', t'⟩ ⟨bs', hw', hm', he'⟩
      apply sat_ite
      · intro _
        refine ⟨fun hn => absurd ht hn, fun _ => ⟨bs', ?_, hm', ?_⟩⟩
        · rw [update_idem] at hw'
          exact hw'
        · simp only at he'
          rw [he', he]
          rfl
      · intro _
        exact (by decide : Plain "create dots")
    · intro _
      exact (by decide : Plain "create dots")
  · intro ht
    exact ⟨fun _ => h, fun hd => absurd hd ht⟩

end Work

theorem Work.createNew (h : Work s F N P (dp ::ₘ mine) (dp ::ₘ locked)) (hF : Tidy σ N none F)
    (hu : ∀ i, 0 < P i → F i ≠ none) (ha : σ → ∀ i ∈ dp ::ₘ mine, F i ≠ none) (hf : F dp = some f) (hd : f.type = .dir)
    (hno : ∀ de ∈ entriesOf f.bytes, hit name de = false) (htype : type ≠ .free)
    (hl : 0 < f.nlink.toInt) (hfull : type = .dir → f.nlink ≠ 32767) (major minor : Int16) :
    Sat (createNew s dp name type major minor) (Typed σ) fun r =>
      Sound σ none r.2 (holding r.1 mine) (holding r.1 locked) := by
  apply (typed_of_plain (h.ialloc htype)).bind
  rintro ⟨ip, fs⟩ ⟨hnone, hi0, hlt, hw⟩
  simp only at hnone hi0 hlt hw
  have hne : ip ≠ dp := by
    rintro rfl
    rw [hf] at hnone
    cases hnone
  apply Sat.bind ((hw.ilock (Multiset.mem_cons_self ip _)).mono _ fun _ hq => hq)
  swap
  · intro e he _ hn
    have := he.1 hn
    simp at this
  intro s1 hw1
  have hip : ip ∈ ip ::ₘ dp ::ₘ locked := Multiset.mem_cons_self ip _
  have hdp : dp ∈ ip ::ₘ dp ::ₘ locked := Multiset.mem_cons_of_mem (Multiset.mem_cons_self dp _)
  have hw2 := hw1.setAttr hip (update_self ..) major minor 1
  rw [update_idem] at hw2
  have hfd : update F ip (some ⟨type, major, minor, 1, []⟩) dp = some f := by
    rw [update_of_ne hne.symm, hf]
  have hfit := hF.fits
  have hdN := hF.lt hf
  apply (typed_of_plain (hw2.createDots hip hdp hne (update_self ..) rfl hfd rfl)).bind
  rintro s3 ⟨hplain, hdots⟩
  -- once the new inode is named, the tree is complete again
  suffices hnamed : Sat (SysFile.dirlink s3 dp name ip) (Typed σ) fun r =>
      Sound σ none r.2 (ip ::ₘ dp ::ₘ mine) (ip ::ₘ dp ::ₘ locked) by
    apply hnamed.bind
    rintro ⟨ok, s4⟩ hs
    apply sat_ite
    · intro _
      apply (Sound.iunlockput (Sound.swapLocks (Sound.swap hs))).bind
      rintro s5 ⟨hs5, -⟩
      exact hs5
    · intro _ _
      exact (by decide : "create: dirlink" ≠ noType)
  have hkeep (v w : Fs.File) (j : ℕ) (hj : F j ≠ none) : update (update F ip (some v)) dp (some w) j ≠ none :=
    update_ne_none dp w (update_ne_none ip v hj)
  have halive (v w : Fs.File) (hσ : σ) : ∀ j ∈ ip ::ₘ dp ::ₘ mine,
      update (update F ip (some v)) dp (some w) j ≠ none := by
    intro j hj
    rcases Multiset.mem_cons.mp hj with rfl | hj
    · exact update_ne_none dp w (by simp)
    · exact hkeep v w j (ha hσ j hj)
  apply typed_of_plain
  by_cases ht : type = .dir
  · obtain ⟨bs, hw3, hm, he⟩ := hdots ht
    rw [Nat.mod_eq_of_lt (by omega), Nat.mod_eq_of_lt (by omega), addEntry_cons hi0] at he
    apply (hw3.dirlink hdp (f := { f with nlink := f.nlink + 1 })
      (by rw [update_of_ne hne.symm, update_self]) hd hno ip).post
    rintro ⟨ok, s4⟩ ⟨bs', hw4, hm', he'⟩
    have hupd : update (update (update
        (update F ip (some ⟨type, major, minor, 1, []⟩)) dp (some { f with nlink := f.nlink + 1 })) ip
        (some ⟨type, major, minor, 1, bs⟩)) dp (some { f with nlink := f.nlink + 1, bytes := bs' }) =
        update (update F ip (some ⟨type, major, minor, 1, bs⟩)) dp
          (some { f with nlink := f.nlink + 1, bytes := bs' }) := by
      rw [update_comm hne, update_idem, update_comm hne.symm, update_idem]
    have hw5 : Work s4 _ N P _ _ := hupd ▸ hw4
    have htidy := hF.addDir (g := ⟨type, major, minor, 1, bs⟩) hf hd hl hnone hi0 hlt ht rfl hm he
      (toInt_add_one (hfull ht)) hno hm' he'
    exact hw5.sound htidy (fun j hj => hkeep _ _ j (hu j hj)) fun hσ => halive _ _ hσ
  · have hw3 := hplain ht
    apply (hw3.dirlink hdp hfd hd hno ip).post
    rintro ⟨ok, s4⟩ ⟨bs', hw4, hm', he'⟩
    have hfresh : Tidy σ N (some ip) (update F ip (some ⟨type, major, minor, 1, []⟩)) := by
      apply hF.plain hi0 hlt
      · intro q hq
        rw [hnone] at hq
        cases hq
      · exact ht
      · simp [graph, hnone, nlink, extra]
      · intro j hj
        simp [extra, Ne.symm hj]
    have htidy := hfresh.enter hfd hd hl (update_self ..) ht hno hm' he'
    exact hw4.sound htidy (fun j hj => hkeep _ _ j (hu j hj)) fun hσ => halive _ _ hσ

def roomToCreate (s : Sys) (p : Slot) (path : Path) (type : FType) : Bool :=
  match createLookup s p path with
  | .ok (some (dp, _, none), t) => (file t.fs dp).all fun f => f.nlink ≠ 0 ∧ (type = .dir → f.nlink ≠ 32767)
  | _ => true

namespace Sound

theorem create (h : Sound σ none s mine locked) {p : Slot} {path : Path} {type : FType} (htype : type ≠ .free)
    (hroom : roomToCreate s p path type = true) (major minor : Int16) :
    Sat (create s p path type major minor) (Typed σ) fun r =>
      Sound σ none r.2 (holding r.1 mine) (holding r.1 locked) := by
  apply (h.createLookup p path).bind_eq
  rintro ⟨_ | ⟨dp, name, _ | ip⟩, t⟩ he ht
  · exact ht
  · obtain ⟨ht, hinfo⟩ := ht
    obtain ⟨f, hf, hd, hno⟩ := hinfo rfl
    obtain ⟨h0, hfull⟩ : f.nlink ≠ 0 ∧ (type = .dir → f.nlink ≠ 32767) := by
      simpa only [roomToCreate, he, hf, Option.all_some, decide_eq_true_eq] using hroom
    exact ht.work.createNew ht.tidy ht.used ht.alive hf hd hno htype (ht.tidy.nlink_pos hf h0) hfull major minor
  · exact Sound.createFound ht.1 type

theorem sysCreate (h : Sound σ none s mine locked) {path : Option Path} (htype : type ≠ .free)
    (hroom : path.all (fun q => roomToCreate (SysFile.beginOp s) p q type) = true) (major minor : Int16) :
    Sat (sysCreate s p path type major minor) (Typed σ) fun r => Sound σ none r.2 mine locked := by
  cases path with
  | none => exact h.beginOp.finish (-1)
  | some path =>
    apply (h.beginOp.create htype hroom major minor).bind
    rintro ⟨_ | ip, t⟩ ht
    · exact Sound.finish ht (-1)
    · exact Sound.putFinish ht 0

end Sound

def roomToCount (s : Sys) (p : Slot) (old : Path) : Bool :=
  match namei s p old with
  | .ok (some ip, t) => (file t.fs ip).all fun f => f.type ≠ .dir → f.nlink ≠ 32767
  | _ => true

def roomToLink (s : Sys) (p : Slot) (old new : Path) : Bool :=
  match linkLookup s p old new with
  | .ok (some (_, some (dp, name)), t) => (file t.fs dp).all fun f : Fs.File =>
      -- `dirlink` refuses a name that the directory has
      (∀ de ∈ entriesOf f.bytes, hit name de = false) → f.nlink ≠ 0
  | _ => true

namespace Sound

theorem addNlink (h : Sound σ x s mine locked) (y : Option ℕ) (hi : ip ∈ locked) (hg : file s.fs ip = some g)
    (hd : g.type ≠ .dir) (k : Int16) (hn : (g.nlink + k).toInt + extra x ip = g.nlink.toInt + extra y ip)
    (hx : ∀ j, j ≠ ip → extra y j = extra x j) :
    Sound σ y (addNlink s ip k) mine locked ∧ file (SysFile.addNlink s ip k).fs ip =
      some { g with nlink := g.nlink + k } := by
  have hw := h.work.addNlink hi hg k
  have htidy : Tidy σ s.fs.sb.ninodes y (update (file s.fs) ip (some { g with nlink := g.nlink + k })) := by
    refine h.tidy.plain (h.tidy.ne_zero hg) (h.tidy.lt hg) ?_ ?_ ?_ hx
    · intro q hq
      rw [hg] at hq
      cases hq
      exact hd
    · exact hd
    · rw [graph_of_some hg, nlink, nodeOf_nlink]
      exact hn
  refine ⟨hw.sound htidy (fun j hj => update_ne_none ip _ (h.used j hj)) fun hσ j hj =>
    update_ne_none ip _ (h.alive hσ j hj), ?_⟩
  rw [hw.file_eq, update_self]

theorem linkLookup (h : Sound σ none s mine locked) {old : Path} (hroom : roomToCount s p old = true)
    (new : Path) :
    Sat (linkLookup s p old new) (Typed σ) fun r =>
      match r.1 with
      | none => Sound σ none r.2 mine locked
      | some (ip, r') => Sound σ (some ip) r.2 (holding (r'.map Prod.fst) (ip ::ₘ mine)) locked ∧
          ∃ g, file r.2.fs ip = some g ∧ g.type ≠ .dir := by
  apply (h.namei p old).bind_eq
  rintro ⟨_ | ip, t⟩ he ⟨ht, -⟩
  · exact ht
  · apply (Sound.ilock ht (Multiset.mem_cons_self ip mine)).bind
    rintro t1 ⟨h1, hf1⟩
    obtain ⟨g, hg, htype, -, -, -⟩ := h1.work.locked_file (Multiset.mem_cons_self ip locked)
    apply sat_ite
    · intro _
      apply h1.giveUp.post
      rintro ⟨r, t2⟩ ⟨rfl, h2, -⟩
      exact h2
    · intro hd
      rw [← htype] at hd
      have hfull : g.nlink ≠ 32767 := by
        rw [hf1] at hg
        have hcount : g.type ≠ .dir → g.nlink ≠ 32767 := by
          simpa only [roomToCount, he, hg, Option.all_some, decide_eq_true_eq] using hroom
        exact hcount hd
      have hraised := h1.addNlink (some ip) (Multiset.mem_cons_self ip locked) hg hd 1
        (by simp [extra, toInt_add_one hfull]) (fun j hj => by simp [extra, Ne.symm hj])
      apply hraised.1.iunlock.bind
      rintro t2 ⟨h2, hf2⟩
      apply (h2.namex p new true).bind
      rintro ⟨r, t3⟩ ⟨h3, hf3⟩
      refine ⟨h3, { g with nlink := g.nlink + 1 }, ?_, hd⟩
      rw [hf3 ip (Multiset.mem_cons_self ip mine), hf2, hraised.2]

theorem linkUndo (h : Sound σ (some ip) s (ip ::ₘ mine) locked) (hg : file s.fs ip = some g) (hd : g.type ≠ .dir) :
    Sat (linkUndo s ip) (Typed σ) fun r => Sound σ none r.2 mine locked := by
  apply (h.ilock (Multiset.mem_cons_self ip mine)).bind
  rintro t ⟨ht, hf⟩
  rw [← hf] at hg
  have hn := ht.tidy.nlink_eq hg
  simp only [extra, if_true] at hn
  have hlow := ht.addNlink none (Multiset.mem_cons_self ip locked) hg hd (-1)
    (by simp [extra, toInt_sub_one (a := g.nlink) (by omega)]) (fun j hj => by simp [extra, Ne.symm hj])
  exact hlow.1.putFinish (-1)

theorem dirlink (h : Sound σ (some ip) s mine locked) (hdp : dp ∈ locked) (him : ip ∈ mine)
    (hg : file s.fs ip = some g) (hgd : g.type ≠ .dir)
    {name : List UInt8}
    (hlive : ∀ f, file s.fs dp = some f → (∀ de ∈ entriesOf f.bytes, hit name de = false) → f.nlink ≠ 0) :
    Sat (dirlink s dp name ip) (Typed σ) fun r => (r.1 = true → Sound σ none r.2 mine locked) ∧
      (r.1 = false → Sound σ (some ip) r.2 mine locked ∧ file r.2.fs ip = some g) := by
  apply (h.dirlookup hdp name).bind
  rintro ⟨_ | ⟨off, next⟩, t⟩ ⟨ht, hf, f, hfd, hd, hno, -⟩
  · rw [← hf] at hfd hg hlive
    apply (typed_of_plain (Work.dirwrite ht.work hdp hfd hd (ht.tidy.dirs dp f hfd hd).1 name ip)).bind
    rintro t' ⟨bs, hw, hm, he⟩
    refine ⟨fun _ => ?_, by rintro ⟨⟩⟩
    apply hw.sound (Tidy.enter ht.tidy hfd hd (ht.tidy.nlink_pos hfd (hlive f hfd (hno rfl))) hg hgd (hno rfl) hm he)
    · intro j hj
      exact update_ne_none dp _ (ht.used j hj)
    · intro hσ j hj
      exact update_ne_none dp _ (ht.alive hσ j hj)
  · apply (Sound.iput ht).bind
    rintro t' ⟨ht', hf'⟩
    refine ⟨by rintro ⟨⟩, fun _ => ⟨ht', ?_⟩⟩
    rw [hf' ip him, hf, hg]

theorem linkEntry (h : Sound σ (some ip) s (dp ::ₘ ip ::ₘ mine) locked) (hg : file s.fs ip = some g)
    (hgd : g.type ≠ .dir)
    (hlive : ∀ f, file s.fs dp = some f → (∀ de ∈ entriesOf f.bytes, hit name de = false) → f.nlink ≠ 0) :
    Sat (linkEntry s ip dp name) (Typed σ) fun r => Sound σ none r.2 mine locked := by
  apply (h.ilock (Multiset.mem_cons_self dp _)).bind
  rintro t1 ⟨h1, hf1⟩
  rw [← hf1] at hg hlive
  have him : ip ∈ dp ::ₘ ip ::ₘ mine := Multiset.mem_cons_of_mem (Multiset.mem_cons_self ip mine)
  apply (h1.dirlink (Multiset.mem_cons_self dp locked) him hg hgd hlive).bind
  rintro ⟨_ | _, t2⟩ ⟨htrue, hfalse⟩
  · obtain ⟨h2, hg2⟩ := hfalse rfl
    apply (Sound.iunlockput h2).bind
    rintro t3 ⟨h3, hf3⟩
    exact h3.linkUndo (by rw [hf3 ip (Multiset.mem_cons_self ip mine), hg2]) hgd
  · apply (Sound.iunlockput (htrue rfl)).bind
    rintro t3 ⟨h3, -⟩
    apply h3.iput.bind
    rintro t4 ⟨h4, -⟩
    exact h4.finish 0

theorem sysLink (h : Sound σ none s mine locked) {old new : Option Path} (hroom : old.all (fun a => new.all fun b =>
      roomToCount (SysFile.beginOp s) p a && roomToLink (SysFile.beginOp s) p a b) = true) :
    Sat (sysLink s p old new) (Typed σ) fun r => Sound σ none r.2 mine locked := by
  cases old with
  | none => exact h
  | some old =>
    cases new with
    | none => exact h
    | some new =>
      obtain ⟨hcount, hlink⟩ := Bool.and_eq_true_iff.mp hroom
      apply (h.beginOp.linkLookup hcount new).bind_eq
      rintro ⟨_ | ⟨ip, _ | ⟨dp, name⟩⟩, t⟩ he ht
      · exact Sound.finish ht (-1)
      · obtain ⟨ht, g, hg, hgd⟩ := ht
        exact Sound.linkUndo ht hg hgd
      · obtain ⟨ht, g, hg, hgd⟩ := ht
        apply Sound.linkEntry ht hg hgd
        intro f hf
        simpa only [roomToLink, he, hf, Option.all_some, decide_eq_true_eq] using hlink

theorem unlinkLookup (h : Sound σ x s mine locked) (p : Slot) (path : Path) :
    Sat (unlinkLookup s p path) (Typed σ) fun r =>
      match r.1 with
      | none => Sound σ x r.2 mine locked
      | some (dp, none) => Sound σ x r.2 (dp ::ₘ mine) (dp ::ₘ locked)
      | some (dp, some (off, ip)) => Sound σ x r.2 (ip ::ₘ dp ::ₘ mine) (dp ::ₘ locked) ∧ ip ≠ 0 ∧
          ∃ f k de, file r.2.fs dp = some f ∧ f.type = .dir ∧ off = k * sizeofDirent ∧ 2 ≤ k ∧ de.inum = ip ∧
            (entriesOf f.bytes)[k]? = some de := by
  apply (h.namex p path true).bind
  rintro ⟨_ | ⟨dp, name⟩, t⟩ ⟨ht, -⟩
  · exact ht
  · apply (Sound.ilock ht (Multiset.mem_cons_self dp mine)).bind
    rintro t1 ⟨h1, -⟩
    apply sat_ite
    · intro _
      exact h1
    · intro hname
      obtain ⟨hdot, hdotdot⟩ := not_or.mp hname
      apply (h1.dirlookup (Multiset.mem_cons_self dp locked) name).bind
      rintro ⟨_ | ⟨off, ip⟩, t2⟩ ⟨h2, hf, f, hfd, hd, -, hsome⟩
      · exact h2
      · obtain ⟨h0, k, de, hoff, hi, hget, hhit⟩ := hsome off ip rfl
        rw [← hf] at hfd
        exact ⟨h2, h0, f, k, de, hfd, hd, hoff, (h2.tidy.dirs dp f hfd hd).2.two_le hget hhit hdot hdotdot, hi, hget⟩

end Sound

def orphanOf (ip : ℕ) (q : Fs.File) : Bool := q.type = .dir ∧ q.nlink = 0 ∧ parentOf (entriesOf q.bytes) = ip

namespace Work

theorem notMem_of_cons (h : Work s F N P mine (i ::ₘ locked)) : i ∉ locked := by
  intro hi
  obtain ⟨n, hb⟩ := h.balance
  have hl := hb.locks i
  have hle := (s.held i).toNat_le
  have hpos := Multiset.count_pos.mpr hi
  rw [Multiset.count_cons_self] at hl
  omega

theorem ne_of_locks (h : Work s F N P mine (ip ::ₘ dp ::ₘ locked)) : ip ≠ dp := by
  rintro rfl
  exact h.notMem_of_cons (Multiset.mem_cons_self ip locked)

theorem iunlockput (h : Work s F N P (i ::ₘ mine) (i ::ₘ locked)) (hf : F i = some f) (h0 : f.nlink ≠ 0) :
    Sat (iunlockput s i) Plain fun t => Work t F N P mine locked := by
  have hni := h.notMem_of_cons
  apply h.iunlock.bind
  intro t ht
  apply ht.iput.mono (fun e he => absurd he.2 hni)
  rintro t' (ht' | ⟨-, -, g, hg, hg0, -⟩)
  · exact ht'
  · rw [hf] at hg
    cases hg
    exact absurd hg0 h0

end Work

theorem toInt_ne_zero {a : Int16} (h : 0 < a.toInt) : a ≠ 0 := by
  rintro rfl
  exact absurd h (by decide)

theorem Work.unlinkEntry (h : Work s F N P (ip ::ₘ dp ::ₘ mine) (ip ::ₘ dp ::ₘ locked)) (hF : Tidy σ N none F)
    (hu : ∀ i, 0 < P i → F i ≠ none) (ha : σ → ∀ i ∈ ip ::ₘ dp ::ₘ mine, F i ≠ none) (hf : F dp = some f)
    (hd : f.type = .dir) {k : ℕ} (hk : 2 ≤ k) {de : Dirent} (hget : (entriesOf f.bytes)[k]? = some de)
    (hi : de.inum = ip) (h0 : ip ≠ 0) (hg : F ip = some g) (hempty : g.type = .dir → kidsOf (entriesOf g.bytes) = 0)
    (hfree : σ → g.type = .dir → ∀ d q, F d = some q → orphanOf ip q = false) :
    Sat (unlinkEntry s dp (k * sizeofDirent) ip) (Typed σ) fun r => Sound σ none r.2 mine locked := by
  have hne := h.ne_of_locks
  have hip : ip ∈ ip ::ₘ dp ::ₘ locked := Multiset.mem_cons_self ip _
  have hdp : dp ∈ ip ::ₘ dp ::ₘ locked := Multiset.mem_cons_of_mem (Multiset.mem_cons_self dp _)
  have hklt : k < f.bytes.length / sizeofDirent := by
    have := (List.getElem?_eq_some_iff.mp hget).1
    rwa [length_entriesOf] at this
  have hmem : ip ∈ (nodeOf f).kids := by
    rw [nodeOf_dir hd, ← hi]
    apply mem_liveInums.mpr
    refine ⟨de, ?_, by rwa [hi], rfl⟩
    apply List.mem_of_getElem? (i := k - 2)
    rwa [List.getElem?_drop, show 2 + (k - 2) = k by omega]
  have hlive : 0 < f.nlink.toInt := by
    have := (hF.tree.live_of_kid (Tidy.isDir hf hd) hmem).2
    rwa [nodeOf_nlink] at this
  have hipos : 0 < g.nlink.toInt := by
    obtain ⟨m, hm, hpos⟩ := hF.tree.pos_of_kid (Tidy.isDir hf hd) hmem
    rw [graph_of_some hg] at hm
    cases hm
    rwa [nodeOf_nlink] at hpos
  apply (typed_of_plain (h.writeEntry hdp hf hd (hF.dirs dp f hf hd).1 hklt.le Dirent.empty rfl (by decide))).bind
  rintro ⟨r, fs⟩ hr
  apply sat_ite
  swap
  · intro _ _
    exact (by decide : "unlink: writei" ≠ noType)
  intro hok
  obtain ⟨bs, hw, hm, he⟩ := hr hok
  rw [if_pos hklt] at he
  have hg1 : update F dp (some { f with bytes := bs }) ip = some g := by
    rw [update_of_ne hne, hg]
  have htype : ((setFs s fs).fs.inode ip).type = g.type := by
    obtain ⟨q, hq, hqt, -⟩ := hw.locked_file hip
    rw [hg1] at hq
    cases hq
    exact hqt.symm
  -- the two halves differ in the count of the parent
  have hend {s1 : Sys} {f1 : Fs.File} (hw1 : Work s1 (update F dp (some f1)) N P (ip ::ₘ dp ::ₘ mine)
      (ip ::ₘ dp ::ₘ locked)) (hf1 : f1.nlink ≠ 0)
      (ht1 : Tidy σ N none (update (update F dp (some f1)) ip (some { g with nlink := g.nlink + -1 }))) :
      Sat (SysFile.iunlockput s1 dp >>= fun s => SysFile.putFinish (0 : ℤ) (SysFile.addNlink s ip (-1)) ip) (Typed σ)
        fun r => Sound σ none r.2 mine locked := by
    rw [Multiset.cons_swap ip dp mine, Multiset.cons_swap ip dp locked] at hw1
    apply (typed_of_plain (hw1.iunlockput (update_self ..) hf1)).bind
    intro s2 hw2
    have hw3 := hw2.addNlink (Multiset.mem_cons_self ip locked) (f := g) (by rw [update_of_ne hne, hg]) (-1)
    apply Sound.putFinish
    apply hw3.sound ht1
    · intro j hj
      exact update_ne_none ip _ (update_ne_none dp _ (hu j hj))
    · intro hσ j hj
      apply update_ne_none ip _ (update_ne_none dp _ (ha hσ j _))
      rcases Multiset.mem_cons.mp hj with rfl | hj
      · exact Multiset.mem_cons_self _ _
      · exact Multiset.mem_cons_of_mem (Multiset.mem_cons_of_mem hj)
  by_cases hgd : g.type = .dir
  · have hw1 := hw.addNlink hdp (update_self ..) (-1)
    rw [update_idem] at hw1
    have htwo := Tree.two_le_nlink hF.tree (Tidy.isDir hf hd) hmem (Tidy.isDir hg hgd) (by
      rw [nodeOf_dir hgd]
      exact hempty hgd)
    rw [nodeOf_nlink] at htwo
    have htidy := hF.unlinkDir hf hd hk hget hi hg hgd (hempty hgd) rfl rfl hm he fun hσ d q hq hqd hq0 hqp =>
      absurd (hfree hσ hgd d q hq) (by simp [orphanOf, hqd, hq0, hqp])
    rw [update_comm hne] at htidy
    have hres := hend hw1 (toInt_ne_zero (by
      rw [toInt_sub_one hlive]
      omega)) htidy
    simp only [htype, hgd, if_true]
    exact hres
  · have htidy : Tidy σ N none (update (update F dp (some { f with bytes := bs })) ip
        (some { g with nlink := g.nlink + -1 })) := by
      have hleft := hF.leave hf hd hlive hk hget hi h0 hg hgd hm he
      refine hleft.plain h0 (hF.lt hg) ?_ hgd ?_ ?_
      · intro q hq
        rw [hg1] at hq
        cases hq
        exact hgd
      · rw [graph_of_some hg1, nlink, nodeOf_nlink, toInt_sub_one hipos]
        simp [extra]
      · intro j hj
        simp [extra, Ne.symm hj]
    have hres := hend hw (toInt_ne_zero hlive) htidy
    simp only [htype, hgd, if_false]
    exact hres

def removableAlone (s : Sys) (p : Slot) (path : Path) : Bool :=
  match unlinkLookup s p path with
  | .ok (some (_, some (_, ip)), t) => (file t.fs ip).all fun f =>
      -- `isdirempty` refuses a directory with further entries
      f.type = .dir → kidsOf (entriesOf f.bytes) = 0 →
        ∀ d < t.fs.sb.ninodes, (file t.fs d).all (fun q => !orphanOf ip q) = true
  | _ => true

namespace Sound

theorem unlinkInode (h : Sound σ none s (ip ::ₘ dp ::ₘ mine) (dp ::ₘ locked)) (h0 : ip ≠ 0) (hf : file s.fs dp = some f)
    (hd : f.type = .dir) {k : ℕ} (hk : 2 ≤ k) {de : Dirent} (hi : de.inum = ip)
    (hget : (entriesOf f.bytes)[k]? = some de)
    (hfree : σ → ∀ g, file s.fs ip = some g → g.type = .dir → kidsOf (entriesOf g.bytes) = 0 →
      ∀ d q, file s.fs d = some q → orphanOf ip q = false) :
    Sat (unlinkInode s dp (k * sizeofDirent) ip) (Typed σ) fun r => Sound σ none r.2 mine locked := by
  apply (h.ilock (Multiset.mem_cons_self ip _)).bind
  rintro t1 ⟨h1, hf1⟩
  rw [← hf1] at hf hfree
  have hip : ip ∈ ip ::ₘ dp ::ₘ locked := Multiset.mem_cons_self ip _
  obtain ⟨g, hg, -⟩ := h1.work.locked_file hip
  apply typed_unless (by decide)
  intro _
  apply (typed_of_plain (h1.work.removable hip hg)).bind
  rintro ⟨ok, t2⟩ ⟨hw, -, hempty⟩
  apply sat_ite
  · intro hok
    exact hw.unlinkEntry h1.tidy h1.used h1.alive hf hd hk hget hi h0 hg (hempty hok) fun hσ hgd =>
      hfree hσ g hg hgd (hempty hok hgd)
  · intro _
    apply (Sound.iunlockput (h1.same hw h1.alive)).bind
    rintro t3 ⟨h3, -⟩
    exact h3.putFinish (-1)

theorem sysUnlink (h : Sound σ none s mine locked) {path : Option Path}
    (hrem : σ → path.all (fun q => removableAlone (SysFile.beginOp s) p q) = true) :
    Sat (sysUnlink s p path) (Typed σ) fun r => Sound σ none r.2 mine locked := by
  cases path with
  | none => exact h
  | some path =>
    apply (h.beginOp.unlinkLookup p path).bind_eq
    rintro ⟨_ | ⟨dp, _ | ⟨off, ip⟩⟩, t⟩ he ht
    · exact Sound.finish ht (-1)
    · exact Sound.putFinish ht (-1)
    · obtain ⟨ht, h0, f, k, de, hf, hd, rfl, hk, hi, hget⟩ := ht
      apply Sound.unlinkInode ht h0 hf hd hk hi hget
      intro hσ g hg hgd hkids d q hq
      have halone := hrem hσ
      simp only [Option.all_some, removableAlone, he, hg, decide_eq_true_eq] at halone
      simpa only [hq, Option.all_some, Bool.not_eq_true'] using halone hgd hkids d (ht.tidy.lt hq)

end Sound
end Xv6.SysFile
