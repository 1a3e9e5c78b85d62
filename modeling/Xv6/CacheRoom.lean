import Xv6.OwnLock
import Xv6.PathWalk

/-!
What the calls need of the inode cache: a path walk and the calls that make, open or link a file stop in `iget` exactly
when an inode on their way is not in the cache and the cache is full.
-/

namespace Xv6.SysFile

open Contract FileTable OpenFiles ProcTable LinkGraph Transition
open Fs hiding Slot
open PointerCount hiding hit

def noInodes : String := "iget: no inodes"

def roomFor (N : ℕ) (P : ℕ → ℕ) (mine : Multiset ℕ) (i : ℕ) : Prop :=
  0 < P i ∨ i ∈ mine ∨ inUse N (fun j => P j + mine.count j) < NINODE

def fitsWalk (F : Files) (N : ℕ) (P : ℕ → ℕ) (mine : Multiset ℕ) (parent : Bool) : ℕ → List (List UInt8) → Prop
  | _, [] => True
  | ip, name :: elems => isDirIn F ip → ¬(parent = true ∧ elems = []) → ∀ next, lookupIn F ip name = some next →
      roomFor N P (ip ::ₘ mine) next ∧ fitsWalk F N P mine parent next elems

def startAt (s : Sys) (p : Slot) (path : Path) : Option ℕ := if path.head? = some slash then some ROOTINO else s.cwd p

def fitsNamex (F : Files) (N : ℕ) (P : ℕ → ℕ) (mine : Multiset ℕ) (path : Path) (parent : Bool) (start : ℕ) : Prop :=
  (path.head? = some slash → roomFor N P mine ROOTINO) ∧ fitsWalk F N P mine parent start (pathElems path)

structure Walkable (F : Files) (P : ℕ → ℕ) : Prop where
  whole : ∀ d f, F d = some f → f.type = .dir → f.bytes.length % sizeofDirent = 0
  named : ∀ d f, F d = some f → f.type = .dir → Kept F P d → ∀ key off i,
    binding (entriesOf f.bytes) key = some (off, i) → F i ≠ none ∧ Kept F P i
  root : F ROOTINO ≠ none ∧ Kept F P ROOTINO
  used : ∀ i, 0 < P i → F i ≠ none

structure Still (s t : Sys) : Prop where
  kernel : t.kernel = s.kernel
  cwd : t.cwd = s.cwd
  sb : t.fs.sb = s.fs.sb
  bitmap : t.fs.bitmap = s.fs.bitmap

variable {s t u : Sys} {F : Files} {N : ℕ} {P : ℕ → ℕ} {mine locked : Multiset ℕ} {i d ip dp start : ℕ} {f g : Fs.File}
  {p : Slot} {path : Path} {elems : List (List UInt8)} {name : List UInt8}

namespace Still

theorem refl (s : Sys) : Still s s := ⟨rfl, rfl, rfl, rfl⟩

theorem trans (h : Still s t) (h' : Still t u) : Still s u :=
  ⟨h'.kernel.trans h.kernel, h'.cwd.trans h.cwd, h'.sb.trans h.sb, h'.bitmap.trans h.bitmap⟩

theorem freeCount (h : Still s t) : freeCount t.fs = freeCount s.fs := freeCount_congr h.sb h.bitmap

end Still

theorem lookupIn_dir (hf : F d = some f) (hd : f.type = .dir) (name : List UInt8) :
    lookupIn F d name = (binding (entriesOf f.bytes) (chars DIRSIZ name)).map Prod.snd := by
  rw [lookupIn, hf, Option.bind_some, if_pos hd]

theorem isDirIn_iff (hf : F d = some f) : isDirIn F d ↔ f.type = .dir := by
  refine ⟨?_, fun hd => ⟨f, hf, hd⟩⟩
  rintro ⟨g, hg, hd⟩
  cases hf.symm.trans hg
  exact hd

namespace Work

theorem iget_room (h : Work s F N P mine locked) (i : ℕ) :
    Guarded (Fs.iget s.fs i) (roomFor N P mine i) noInodes (fun _ => False) fun fs =>
      Work (setFs s fs) F N P (i ::ₘ mine) locked ∧ Still s (setFs s fs) := by
  have hget := h.iget i
  have href := h.ref_eq i
  have hlen := h.cached_length
  have hmem : i ∈ mine ↔ 0 < mine.count i := Multiset.count_pos.symm
  have hstill {fs : State} (he : Fs.iget s.fs i = .ok fs) : Still s (setFs s fs) := by
    rw [Fs.iget] at he
    split_ifs at he
    · cases he
      exact ⟨rfl, rfl, rfl, rfl⟩
    · cases he
      exact ⟨rfl, rfl, rfl, rfl⟩
  cases he : Fs.iget s.fs i with
  | error e =>
    have hfull : ¬roomFor N P mine i ∧ e = noInodes := by
      rw [Fs.iget] at he
      split_ifs at he with h1 h2
      cases he
      refine ⟨?_, rfl⟩
      rintro (hr | hr | hr)
      · omega
      · rw [hmem] at hr
        omega
      · omega
    rw [hfull.2]
    exact ⟨fun _ => rfl, fun hr => absurd hr hfull.1⟩
  | ok fs =>
    apply Guarded.of_sat
    · exact ⟨hget.of_ok he, hstill he⟩
    · rw [Fs.iget] at he
      split_ifs at he with h1 h2
      · rw [roomFor, hmem]
        omega
      · exact Or.inr (Or.inr (by omega))

theorem ilock_still (h : Work s F N P mine locked) (hi : i ∈ mine) (hn : i ∉ locked) (hf : F i = some f) :
    ∃ t, SysFile.ilock s i = .ok t ∧ Work t F N P mine (i ::ₘ locked) ∧ (t.fs.inode i).type = f.type ∧ Still s t := by
  obtain ⟨t, ht, hw, htype⟩ := h.ilock_ok hi hn hf
  refine ⟨t, ht, hw, htype, ?_⟩
  rw [SysFile.ilock] at ht
  split_ifs at ht
  cases he : Fs.ilock s.fs i with
  | error e =>
    rw [he] at ht
    cases ht
  | ok fs =>
    rw [he] at ht
    cases ht
    rw [Fs.ilock] at he
    split_ifs at he
    · cases he
      exact ⟨rfl, rfl, rfl, rfl⟩
    · cases he
      exact ⟨rfl, rfl, rfl, rfl⟩

theorem iunlock_still (h : Work s F N P mine (i ::ₘ locked)) :
    ∃ t, SysFile.iunlock s i = .ok t ∧ Work t F N P mine locked ∧ Still s t := by
  obtain ⟨t, ht, hw⟩ := h.iunlock_ok
  refine ⟨t, ht, hw, ?_⟩
  rw [SysFile.iunlock] at ht
  split_ifs at ht
  cases ht
  exact ⟨rfl, rfl, rfl, rfl⟩

theorem iput_still (h : Work s F N P (i ::ₘ mine) locked) (hn : i ∉ locked) (hk : Kept F P i) :
    ∃ t, SysFile.iput s i = .ok t ∧ Work t F N P mine locked ∧ Still s t := by
  obtain ⟨t, ht, hw⟩ := h.iput_kept hn hk
  refine ⟨t, ht, hw, ?_⟩
  have hlast : ¬Last s.fs i := by
    rintro ⟨hv, h0, h1⟩
    have hf := file_of_valid hv (h.inv.typed_inode hv)
    rw [h.file_eq] at hf
    have hpos := hk _ hf h0
    have href := h.ref_eq i
    rw [Multiset.count_cons_self] at href
    omega
  rw [SysFile.iput] at ht
  split_ifs at ht
  rcases iput_cases h.inv i with ⟨hl, -⟩ | ⟨-, he⟩
  · exact absurd hl hlast
  · rw [he] at ht
    cases ht
    exact ⟨rfl, rfl, rfl, rfl⟩

theorem iunlockput_still (h : Work s F N P (i ::ₘ mine) (i ::ₘ locked)) (hk : Kept F P i) :
    ∃ t, SysFile.iunlockput s i = .ok t ∧ Work t F N P mine locked ∧ Still s t := by
  obtain ⟨t, ht, hw, hs⟩ := h.iunlock_still
  obtain ⟨t', ht', hw', hs'⟩ := hw.iput_still h.notMem_of_cons hk
  refine ⟨t', ?_, hw', hs.trans hs'⟩
  rw [SysFile.iunlockput, ht, Outcome.ok_bind, ht']

theorem readable (h : Work s F N P mine locked) (hdp : dp ∈ locked) (hf : F dp = some f) (hd : f.type = .dir)
    (hmod : f.bytes.length % sizeofDirent = 0) : Readable s.fs dp := by
  obtain ⟨g, hg, htype, -⟩ := h.locked_file hdp
  rw [hf] at hg
  cases hg
  exact ⟨h.inv, h.valid dp hdp, htype.symm.trans hd, by rw [h.bytes hf]; exact hmod⟩

theorem dirlookup_missing (h : Work s F N P mine locked) (hdp : dp ∈ locked) (hf : F dp = some f) (hd : f.type = .dir)
    (hmod : f.bytes.length % sizeofDirent = 0) (hno : lookupIn F dp name = none) :
    SysFile.dirlookup s dp name = .ok (none, s) := by
  rw [lookupIn_dir hf hd, Option.map_eq_none_iff, ← h.bytes hf] at hno
  rw [SysFile.dirlookup, (h.readable hdp hf hd hmod).dirlookup_missing hno]
  rfl

theorem dirlookup_room (h : Work s F N P mine locked) (hdp : dp ∈ locked) (hf : F dp = some f) (hd : f.type = .dir)
    (hmod : f.bytes.length % sizeofDirent = 0) (name : List UInt8) :
    Guarded (SysFile.dirlookup s dp name) (∀ next, lookupIn F dp name = some next → roomFor N P mine next) noInodes
      (fun _ => False) fun r => r.1 = binding (entriesOf f.bytes) (chars DIRSIZ name) ∧
        Work r.2 F N P (holding (r.1.map Prod.snd) mine) locked ∧ Still s r.2 := by
  have hlook := lookupIn_dir hf hd name
  cases hb : binding (entriesOf f.bytes) (chars DIRSIZ name) with
  | none =>
    rw [hb, Option.map_none] at hlook
    rw [hlook, h.dirlookup_missing hdp hf hd hmod hlook]
    apply Guarded.of_sat
    · exact ⟨rfl, h, Still.refl s⟩
    · rintro next ⟨⟩
  | some r =>
    obtain ⟨off, i⟩ := r
    have he : SysFile.dirlookup s dp name = Fs.iget s.fs i >>= fun fs => .ok (some (off, i), setFs s fs) := by
      rw [SysFile.dirlookup, (h.readable hdp hf hd hmod).dirlookup_found (by rw [dirMap, h.bytes hf]; exact hb)]
      cases Fs.iget s.fs i <;> rfl
    rw [he, hlook, hb]
    apply ((h.iget_room i).bind_sat _).congr
    · simp
    · rintro fs ⟨hw, hs⟩
      exact ⟨rfl, hw, hs⟩

theorem giveUp_still {α : Type} (h : Work s F N P (i ::ₘ mine) (i ::ₘ locked)) (hk : Kept F P i) :
    ∃ t, giveUp (α := α) s i = .ok (none, t) ∧ Work t F N P mine locked ∧ Still s t := by
  obtain ⟨t, ht, hw, hs⟩ := h.iunlockput_still hk
  refine ⟨t, ?_, hw, hs⟩
  rw [giveUp, ht]
  rfl

theorem namexLoop_room (h : Work s F N P (ip ::ₘ mine) 0) (hW : Walkable F P) (ha : F ip ≠ none) (hk : Kept F P ip)
    (parent : Bool) (elems : List (List UInt8)) :
    Guarded (namexLoop s ip parent elems) (fitsWalk F N P mine parent ip elems) noInodes (fun _ => False) fun r =>
      r.1 = walk F parent ip elems ∧ Work r.2 F N P (holding (r.1.map Prod.fst) mine) 0 ∧ Still s r.2 := by
  induction elems generalizing s ip with
  | nil =>
    apply Guarded.of_sat _ trivial
    rw [namexLoop, walk]
    cases parent with
    | true =>
      obtain ⟨t, ht, hw, hs⟩ := h.iput_still (Multiset.notMem_zero ip) hk
      simp only [if_true, ht]
      exact ⟨rfl, hw, hs⟩
    | false =>
      simp only [Bool.false_eq_true, if_false]
      exact ⟨rfl, h, Still.refl s⟩
  | cons name elems ih =>
    obtain ⟨f, hf⟩ := Option.ne_none_iff_exists'.mp ha
    obtain ⟨t, ht, hw, htype, hs⟩ := h.ilock_still (Multiset.mem_cons_self ip mine) (Multiset.notMem_zero ip) hf
    rw [namexLoop, walk, ht, Outcome.ok_bind, htype]
    have hgive {t : Sys} (hw : Work t F N P (ip ::ₘ mine) (ip ::ₘ 0)) (hs : Still s t) :
        Sat (giveUp t ip) (fun _ => False) fun r => r.1 = (none : Option (ℕ × List UInt8)) ∧
          Work r.2 F N P (holding (r.1.map Prod.fst) mine) 0 ∧ Still s r.2 := by
      obtain ⟨t', ht', hw', hs'⟩ := hw.giveUp_still (α := ℕ × List UInt8) hk
      rw [ht']
      exact ⟨rfl, hw', hs.trans hs'⟩
    by_cases hd : f.type = .dir
    · have hdir : isDirIn F ip := ⟨f, hf, hd⟩
      rw [if_neg (not_not.mpr hd), if_neg (not_not.mpr hdir)]
      by_cases hlast : parent = true ∧ elems = []
      · obtain ⟨t', ht', hw', hs'⟩ := hw.iunlock_still
        rw [if_pos hlast, if_pos hlast, ht']
        exact Guarded.of_sat ⟨rfl, hw', hs.trans hs'⟩ fun _ hn => absurd hlast hn
      · rw [if_neg hlast, if_neg hlast]
        apply Guarded.congr (c := (∀ next, lookupIn F ip name = some next → roomFor N P (ip ::ₘ mine) next) ∧
          ∀ next, lookupIn F ip name = some next → fitsWalk F N P mine parent next elems)
        · apply (hw.dirlookup_room (Multiset.mem_cons_self ip 0) hf hd (hW.whole ip f hf hd) name).bind
          rw [lookupIn_dir hf hd]
          rintro ⟨_ | ⟨off, next⟩, t'⟩ ⟨hr, hw', hs'⟩
          · rw [← hr]
            exact Guarded.of_sat (hgive hw' (hs.trans hs')) (by rintro next ⟨⟩)
          · have hw'' : Work t' F N P (ip ::ₘ next ::ₘ mine) (ip ::ₘ 0) := Multiset.cons_swap next ip mine ▸ hw'
            obtain ⟨t1, ht1, hw1, hs1⟩ := hw''.iunlockput_still hk
            obtain ⟨hnext, hknext⟩ := hW.named ip f hf hd hk _ _ _ hr.symm
            rw [← hr, Option.map_some, Option.bind_some]
            simp only [ht1, Outcome.ok_bind, Option.some.injEq, forall_eq']
            apply (ih hw1 hnext hknext).mono (fun _ he => he)
            rintro r ⟨h1, h2, h3⟩
            exact ⟨h1, h2, ((hs.trans hs').trans hs1).trans h3⟩
        · rw [fitsWalk, ← forall₂_and]
          exact ⟨fun hfit => hfit hdir hlast, fun hfit _ _ => hfit⟩
    · have hdir : ¬isDirIn F ip := mt (isDirIn_iff hf).mp hd
      rw [if_pos hd, if_pos hdir]
      exact Guarded.of_sat (hgive hw hs) fun hd' => absurd hd' hdir

theorem start_kept (h : Work s F N P mine locked) (hW : Walkable F P) (hst : startAt s p path = some start) :
    F start ≠ none ∧ Kept F P start := by
  rw [startAt] at hst
  split_ifs at hst
  · cases hst
    exact hW.root
  · have hpos : 0 < P start := by
      rw [← h.ptrs, pointers]
      have := count_pos hst
      omega
    exact ⟨hW.used start hpos, fun _ _ _ => hpos⟩

theorem namex_room (h : Work s F N P mine 0) (hW : Walkable F P) (hst : startAt s p path = some start) (parent : Bool) :
    Guarded (namex s p path parent) (fitsNamex F N P mine path parent start) noInodes (fun _ => False) fun r =>
      r.1 = walk F parent start (pathElems path) ∧ Work r.2 F N P (holding (r.1.map Prod.fst) mine) 0 ∧
        Still s r.2 := by
  obtain ⟨ha, hk⟩ := h.start_kept hW hst
  rw [startAt] at hst
  rw [namex, fitsNamex]
  by_cases hroot : path.head? = some slash
  · rw [if_pos hroot] at hst ⊢
    cases hst
    apply Guarded.congr _ (and_congr_left' (by simp [hroot] : _ ↔ roomFor N P mine ROOTINO))
    apply (h.iget_room ROOTINO).bind
    rintro fs ⟨hw, hs⟩
    apply (hw.namexLoop_room hW ha hk parent (pathElems path)).mono (fun _ he => he)
    rintro r ⟨h1, h2, h3⟩
    exact ⟨h1, h2, hs.trans h3⟩
  · rw [if_neg hroot] at hst ⊢
    rw [hst]
    apply Guarded.congr _ (by simp [hroot] : _ ↔ fitsWalk F N P mine parent start (pathElems path))
    apply ((h.idup start).namexLoop_room hW ha hk parent (pathElems path)).mono (fun _ he => he)
    rintro r ⟨h1, h2, h3⟩
    have hs : Still s (setFs s (Fs.idup s.fs start)) := ⟨rfl, rfl, rfl, rfl⟩
    exact ⟨h1, h2, hs.trans h3⟩

end Work

theorem Walkable.walk (hW : Walkable F P) {parent : Bool} {r : ℕ × List UInt8} (ha : F ip ≠ none) (hk : Kept F P ip)
    (h : walk F parent ip elems = some r) : F r.1 ≠ none ∧ Kept F P r.1 := by
  induction elems generalizing ip with
  | nil =>
    rw [SysFile.walk] at h
    split_ifs at h
    cases h
    exact ⟨ha, hk⟩
  | cons name elems ih =>
    rw [SysFile.walk] at h
    split_ifs at h with hdir hlast
    · cases h
      exact ⟨ha, hk⟩
    · obtain ⟨f, hf, hd⟩ := hdir
      obtain ⟨next, hnext, hwalk⟩ := Option.bind_eq_some_iff.mp h
      rw [lookupIn_dir hf hd] at hnext
      obtain ⟨⟨off, i⟩, hb, rfl⟩ := Option.map_eq_some_iff.mp hnext
      obtain ⟨hi, hki⟩ := hW.named ip f hf hd hk _ _ _ hb
      exact ih hi hki hwalk

theorem Walkable.lookup (hW : Walkable F P) (hk : Kept F P dp) (h : lookupIn F dp name = some i) :
    F i ≠ none ∧ Kept F P i := by
  by_cases hdir : isDirIn F dp
  · obtain ⟨f, hf, hd⟩ := hdir
    rw [lookupIn_dir hf hd] at h
    obtain ⟨⟨off, j⟩, hb, rfl⟩ := Option.map_eq_some_iff.mp h
    exact hW.named dp f hf hd hk _ _ _ hb
  · rw [lookupIn_of_not_dir hdir] at h
    cases h

theorem Sound.walkable {x : Option ℕ} (h : Sound True x s mine locked) : Walkable (file s.fs) (pointers s) where
  whole d f hf hd := (h.tidy.dirs d f hf hd).1
  named _ _ hf hd hk _ _ _ hb := kept_named h.tidy hf hd hk hb
  root := by
    refine ⟨h.root, fun f hf h0 => ?_⟩
    obtain ⟨n, hn, hl, -⟩ := h.tidy.tree.top
    have hg : graph (file s.fs) ROOTINO = some n := hn.1
    rw [graph_of_some hf] at hg
    cases hg
    rw [nodeOf_nlink, h0] at hl
    exact absurd hl (by decide)
  used := h.used

end Xv6.SysFile
